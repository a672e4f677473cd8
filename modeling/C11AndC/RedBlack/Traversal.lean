import C11AndC.Library.LevelOrder
import C11AndC.RedBlack.Fresh
import Mathlib.Algebra.Ring.Nat
import Mathlib.Data.List.Sort
import Mathlib.Data.Nat.Log

namespace C11AndC.RedBlack

open C11AndC.Library

/-- What is printed from left to right. -/
def inorderHelper : Nat → Nat → Prog (List Int)
  | 0, _ => outOfSteps
  | n + 1, root => do
    if root = 0 then
      return []
    else
      let left ← inorderHelper n (← load root).left
      let data := (← load root).data
      let right ← inorderHelper n (← load root).right
      return left ++ data :: right

/-- One round of the loop, with the queue and what has been printed. -/
def levelRound : List Nat × List Int → Prog ((List Nat × List Int) ⊕ List Int)
  | ([], printed) => return .inr printed
  | (temp :: q, printed) => do
    let n ← load temp
    let q := if n.left ≠ 0 then q ++ [n.left] else q
    let q := if n.right ≠ 0 then q ++ [n.right] else q
    return .inl (q, printed ++ [n.data])

def levelOrderHelper (steps root : Nat) : Prog (List Int) := do
  if root = 0 then
    return []
  else
    loop levelRound steps ([root], [])

def inorder (steps : Nat) : Prog (List Int) := do
  inorderHelper steps (← getReg)

def levelOrder (steps : Nat) : Prog (List Int) := do
  levelOrderHelper steps (← getReg)

/-- The driver: all keys are inserted, and the tree is printed in both orders. -/
def main (steps : Nat) (inserts : List (Color × Int)) : Prog (List Int × List Int) := do
  insertAll steps inserts
  let sorted ← inorder steps
  let levels ← levelOrder steps
  return (sorted, levels)

/-- The tree with the address and the key of each node. -/
def Tree.nodes : Tree → BinaryTree (Nat × Int)
  | .nil => .nil
  | .node a _ k l r => .node (a, k) l.nodes r.nodes

section Walks

variable {m : Memory Node} {s : Store Node Nat} {t : Tree} {par : Nat}

theorem numNodes_nodes (t : Tree) : t.nodes.numNodes = t.keys.length := by
  induction t with
  | nil => rfl
  | node a c k l r ihl ihr =>
    simp only [Tree.nodes, Tree.keys, BinaryTree.numNodes, ihl, ihr, List.length_append, List.length_cons]
    omega

theorem wp_inorderHelper {n : Nat} (hs : Shape s.mem par t) (hn : t.nodes.height < n) :
    wp (inorderHelper n t.root) (fun printed u => printed = t.keys ∧ u = s) s := by
  induction t generalizing par n with
  | nil =>
    obtain ⟨n, rfl⟩ := Nat.exists_eq_succ_of_ne_zero (Nat.ne_of_gt hn)
    simp [inorderHelper, Tree.root, Tree.keys]
  | node a c k l r ihl ihr =>
    obtain ⟨n, rfl⟩ := Nat.exists_eq_succ_of_ne_zero (Nat.ne_of_gt (Nat.zero_lt_of_lt hn))
    obtain ⟨hc, hl, hr⟩ := hs
    simp only [Tree.nodes, BinaryTree.height] at hn
    simp only [inorderHelper, Tree.root, Memory.ne_zero_of_cell hc, ↓reduceIte, wp_bind, wp_load, hc,
      Option.some.injEq, exists_eq_left', wp_pure]
    apply wp_mono (ihl hl (by omega))
    rintro _ _ ⟨rfl, rfl⟩
    simp only [hc, Option.some.injEq, exists_eq_left']
    apply wp_mono (ihr hr (by omega))
    rintro _ _ ⟨rfl, rfl⟩
    exact ⟨rfl, rfl⟩

/-- The address of the node at a position. -/
def addrAt (t : Tree) (p : Position) : Nat := ((valueAt t.nodes p).map Prod.fst).getD 0

def keyAt (t : Tree) (p : Position) : Int := ((valueAt t.nodes p).map Prod.snd).getD 0

/-- The pointers of a node lead to the nodes below it. -/
theorem cell_at (hs : Shape m par t) {p : Position} (hp : valueAt t.nodes p ≠ none) :
    ∃ n, m.cell (addrAt t p) = some n ∧ n.data = keyAt t p ∧ n.left = addrAt t (p ++ [.left]) ∧
      n.right = addrAt t (p ++ [.right]) := by
  induction t generalizing par p with
  | nil => exact absurd valueAt_nil_tree hp
  | node a c k l r ihl ihr =>
    obtain ⟨hc, hl, hr⟩ := hs
    cases p with
    | nil =>
      refine ⟨_, hc, rfl, ?_, ?_⟩
      · cases l <;> rfl
      · cases r <;> rfl
    | cons d p =>
      cases d with
      | left => exact ihl hl hp
      | right => exact ihr hr hp

theorem addrAt_eq_zero (hs : Shape m par t) {p : Position} : addrAt t p = 0 ↔ valueAt t.nodes p = none := by
  constructor
  · intro h
    by_contra hp
    obtain ⟨n, hn, -⟩ := cell_at hs hp
    exact Memory.ne_zero_of_cell hn h
  · intro h
    rw [addrAt, h]
    rfl

/-- The children are queued if they are there. -/
theorem queue_children (hs : Shape m par t) (q : List Position) (p : Position) :
    (let q := if addrAt t (p ++ [.left]) ≠ 0 then q.map (addrAt t) ++ [addrAt t (p ++ [.left])] else q.map (addrAt t)
      if addrAt t (p ++ [.right]) ≠ 0 then q ++ [addrAt t (p ++ [.right])] else q) =
        (q ++ children t.nodes p).map (addrAt t) := by
  have hleft := addrAt_eq_zero hs (p := p ++ [.left])
  have hright := addrAt_eq_zero hs (p := p ++ [.right])
  by_cases hl : valueAt t.nodes (p ++ [.left]) = none
  · by_cases hr : valueAt t.nodes (p ++ [.right]) = none
    · simp [children, hleft.mpr hl, hright.mpr hr, hl, hr]
    · simp [children, hleft.mpr hl, mt hright.mp hr, hl, Option.isSome_iff_ne_none.mpr hr]
  · by_cases hr : valueAt t.nodes (p ++ [.right]) = none
    · simp [children, mt hleft.mp hl, hright.mpr hr, Option.isSome_iff_ne_none.mpr hl, hr]
    · simp [children, mt hleft.mp hl, mt hright.mp hr, Option.isSome_iff_ne_none.mpr hl,
        Option.isSome_iff_ne_none.mpr hr]

theorem wp_levelLoop {n : Nat} {done queue : List Position} (hs : Shape s.mem par t)
    (hf : Frontier t.nodes done queue) (hn : t.nodes.numNodes < n + done.length) :
    wp (loop levelRound n (queue.map (addrAt t), done.map (keyAt t))) (fun printed u => u = s ∧
      ∃ ps, Frontier t.nodes ps [] ∧ printed = ps.map (keyAt t)) s := by
  have hlen := hf.length_le
  induction n generalizing done queue with
  | zero => omega
  | succ n ih =>
    rw [wp_loop_succ]
    cases queue with
    | nil =>
      simp only [List.map_nil, levelRound, wp_pure]
      exact ⟨trivial, done, hf, rfl⟩
    | cons p queue =>
      obtain ⟨node, hc, hdata, hl, hr⟩ := cell_at hs (hf.nodes p (by simp))
      have hqueue := queue_children hs queue p
      simp only [List.map_cons, levelRound, wp_bind, wp_load, hc, Option.some.injEq, exists_eq_left', wp_pure, hl, hr,
        hdata]
      simp only at hqueue
      rw [hqueue]
      have hstep := hf.step
      have hdone : done.map (keyAt t) ++ [keyAt t p] = (done ++ [p]).map (keyAt t) := by simp
      rw [hdone]
      exact ih hstep (by rw [List.length_append, List.length_singleton]; omega) hstep.length_le

theorem wp_levelOrderHelper {n : Nat} (hs : Shape s.mem par t) (hn : t.nodes.numNodes < n) :
    wp (levelOrderHelper n t.root) (fun printed u => u = s ∧
      ∃ ps : List Position, ps.Pairwise Before ∧ ps.Perm (positions t.nodes) ∧ printed = ps.map (keyAt t)) s := by
  cases t with
  | nil => simp [levelOrderHelper, Tree.root, Tree.nodes, positions]
  | node a c k l r =>
    have hf : Frontier (Tree.node a c k l r).nodes [] [[]] := frontier_root (by simp [Tree.nodes])
    simp only [levelOrderHelper, Tree.root, Memory.ne_zero_of_cell hs.1, ↓reduceIte]
    apply wp_mono (wp_levelLoop hs hf (by simpa using hn))
    rintro _ _ ⟨rfl, ps, hps, rfl⟩
    have horder := hps.order
    rw [List.append_nil] at horder
    exact ⟨rfl, ps, horder, hps.perm, rfl⟩

/-- With `n` black nodes on every way down a tree has `2 ^ n - 1` keys at least. -/
theorem two_pow_le_keys {n : Nat} (hb : t.BlackHeight n) : 2 ^ n ≤ t.keys.length + 1 := by
  induction t generalizing n with
  | nil =>
    rw [show n = 0 from hb]
    exact Nat.le_refl 1
  | node a c k l r ihl ihr =>
    simp only [Tree.keys, List.length_append, List.length_cons]
    cases c with
    | red =>
      have hl := ihl hb.1
      omega
    | black =>
      obtain ⟨n, rfl, hbl, hbr⟩ := hb
      have hl := ihl hbl
      have hr := ihr hbr
      rw [Nat.pow_succ]
      omega

/-- No way down is longer than twice the number of its black nodes, as no two red ones follow each other. -/
theorem height_le {n : Nat} (hb : t.BlackHeight n) (hr : t.RedOk) :
    t.nodes.height ≤ 2 * n + if t.color = .red then 1 else 0 := by
  induction t generalizing n with
  | nil => exact Nat.zero_le _
  | node a c k l r ihl ihr =>
    obtain ⟨hc, hrl, hrr⟩ := hr
    simp only [Tree.nodes, BinaryTree.height]
    cases c with
    | red =>
      obtain ⟨hbl, hbr⟩ := hb
      have hl := ihl hbl hrl
      have hr := ihr hbr hrr
      rw [(hc rfl).1] at hl
      rw [(hc rfl).2] at hr
      simp only [reduceCtorEq, ↓reduceIte, Tree.color] at hl hr ⊢
      omega
    | black =>
      obtain ⟨n, rfl, hbl, hbr⟩ := hb
      have hl := ihl hbl hrl
      have hr := ihr hbr hrr
      simp only [reduceCtorEq, ↓reduceIte, Tree.color]
      split_ifs at hl hr <;> omega

theorem height_le_log (ht : IsRedBlack t) : t.nodes.height ≤ 2 * Nat.log 2 (t.keys.length + 1) := by
  obtain ⟨n, hb⟩ := ht.blackHeight
  have hle := height_le hb ht.redOk
  have hlog := Nat.le_log_of_pow_le (by decide) (two_pow_le_keys hb)
  simp only [ht.rootBlack, reduceCtorEq, ↓reduceIte] at hle
  omega

end Walks

section Runs

variable {s : Store Node Nat} {t : Tree} {steps : Nat}

theorem wp_insertAll_red {xs : List (Color × Int)} (hs : Holds s [] t) (ht : IsRedBlack t)
    (hd : (t.keys ++ xs.map Prod.snd).Nodup) (hred : ∀ x ∈ xs, x.1 = .red)
    (hn : t.keys.length + xs.length ≤ steps) :
    wp (insertAll steps xs) (fun _ u => ∃ t', Holds u [] t' ∧ IsRedBlack t' ∧
      t'.keys.Perm (t.keys ++ xs.map Prod.snd)) s := by
  induction xs generalizing s t with
  | nil =>
    rw [insertAll, wp_pure]
    refine ⟨t, hs, ht, ?_⟩
    rw [List.map_nil, List.append_nil]
  | cons x xs ih =>
    obtain ⟨c, key⟩ := x
    obtain rfl : c = .red := hred _ List.mem_cons_self
    simp only [List.length_cons] at hn
    have hnd : (key :: t.keys ++ xs.map Prod.snd).Nodup := List.perm_middle.nodup_iff.mp hd
    have hk : key ∉ t.keys := fun h => (List.nodup_cons.mp hnd).1 (List.mem_append_left _ h)
    rw [insertAll, wp_bind]
    apply wp_mono (wp_insert_red hs ht hk (by omega))
    rintro - u ⟨t', hs', ht', hkeys⟩
    have hlen := hkeys.length_eq
    rw [List.length_cons] at hlen
    have hperm := hkeys.append_right (xs.map Prod.snd)
    apply wp_mono (ih hs' ht' (hperm.nodup_iff.mpr hnd) (fun y hy => hred y (List.mem_cons_of_mem _ hy)) (by omega))
    rintro - v ⟨t'', hs'', ht'', hkeys'⟩
    exact ⟨t'', hs'', ht'', (hkeys'.trans hperm).trans List.perm_middle.symm⟩

theorem wp_insertAll {inserts : List (Color × Int)} (hd : (inserts.map Prod.snd).Nodup)
    (hred : ∀ x ∈ inserts.tail, x.1 = .red) (hn : inserts.length ≤ steps) :
    wp (insertAll steps inserts) (fun _ u => ∃ t', Holds u [] t' ∧ IsRedBlack t' ∧
      t'.keys.Perm (inserts.map Prod.snd)) noTree := by
  cases inserts with
  | nil =>
    rw [insertAll, wp_pure]
    exact ⟨.nil, holds_noTree, redBlack_nil, List.Perm.refl _⟩
  | cons x xs =>
    rw [List.length_cons] at hn
    rw [insertAll, wp_bind]
    apply wp_mono (wp_insert_first holds_noTree (by omega) x.1 x.2)
    intro _ u hu
    apply wp_insertAll_red hu (redBlack_leaf _ _) hd hred
    rw [Tree.leaf, Tree.keys, List.length_append, List.length_cons]
    simp only [Tree.keys, List.length_nil]
    omega

end Runs

/-- The driver ends for every list of distinct keys. It prints the keys in their order and level by level,
and the tree it prints has at most twice as many levels as the number of the keys has binary digits. -/
theorem main_prints_orders (inserts : List (Color × Int)) (steps : Nat) (hd : (inserts.map Prod.snd).Nodup)
    (hred : ∀ x ∈ inserts.tail, x.1 = .red) (hsteps : inserts.length < steps) :
    wp (main steps inserts) (fun printed s => ∃ t, Holds s [] t ∧ IsRedBlack t ∧
      t.nodes.height ≤ 2 * Nat.log 2 (inserts.length + 1) ∧
      printed.1 = (inserts.map Prod.snd).insertionSort (· ≤ ·) ∧
      ∃ ps : List Position, ps.Pairwise Before ∧ ps.Perm (positions t.nodes) ∧
        printed.2 = ps.map (keyAt t)) noTree := by
  rw [main, wp_bind]
  apply wp_mono (wp_insertAll hd hred (Nat.le_of_lt hsteps))
  rintro - s ⟨t, hs, ht, hkeys⟩
  have hlen : t.keys.length = inserts.length := by rw [hkeys.length_eq, List.length_map]
  have hnodes : t.nodes.numNodes < steps := by rwa [numNodes_nodes, hlen]
  have hheight : t.nodes.height < steps := Nat.lt_of_le_of_lt (BinaryTree.height_le_numNodes _) hnodes
  have hroot : s.reg = t.root := hs.root
  have hlog := height_le_log ht
  rw [hlen] at hlog
  simp only [inorder, levelOrder, wp_bind, wp_getReg, wp_pure, hroot]
  apply wp_mono (wp_inorderHelper hs.shape hheight)
  rintro _ _ ⟨rfl, rfl⟩
  simp only [hroot]
  apply wp_mono (wp_levelOrderHelper hs.shape hnodes)
  rintro _ _ ⟨rfl, hps⟩
  refine ⟨t, hs, ht, hlog, ?_, hps⟩
  have hsorted : t.keys.Pairwise (· ≤ ·) := ht.sorted.imp Int.le_of_lt
  exact (hkeys.trans (List.perm_insertionSort _ _).symm).eq_of_pairwise' hsorted (List.pairwise_insertionSort _ _)

/-- The keys of the driver. -/
theorem main_prints_orders_seven :
    wp (main 8 ([7, 6, 5, 4, 3, 2, 1].map fun key => (.red, key))) (fun printed s => ∃ t, Holds s [] t ∧
      IsRedBlack t ∧ t.nodes.height ≤ 6 ∧ printed.1 = [7, 6, 5, 4, 3, 2, 1].insertionSort (· ≤ ·) ∧
      ∃ ps : List Position, ps.Pairwise Before ∧ ps.Perm (positions t.nodes) ∧
        printed.2 = ps.map (keyAt t)) noTree :=
  main_prints_orders ([7, 6, 5, 4, 3, 2, 1].map fun key => (.red, key)) 8 (by decide) (by decide) (by decide)

end C11AndC.RedBlack
