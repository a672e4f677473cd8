import C11AndC.Library.LevelOrder
import Mathlib.Algebra.Order.Ring.Int

namespace C11AndC.BottomView

open C11AndC.Library

structure Node where
  data : Int
  hd : Int

/-- A pointer to a node is the tree below the node. -/
abbrev NodePtr := BinaryTree Node

def setHd (hd : Int) : NodePtr → NodePtr
  | .nil => .nil
  | .node temp left right => .node { temp with hd := hd } left right

/-- `m[key] = data` for a map, which is kept in the order of its keys. -/
def assign (key data : Int) : List (Int × Int) → List (Int × Int)
  | [] => [(key, data)]
  | (k, x) :: m =>
    if key < k then (key, data) :: (k, x) :: m
    else if key = k then (key, data) :: m
    else (k, x) :: assign key data m

def pushChild (hd : Int) : NodePtr → List NodePtr → List NodePtr
  | .nil, q => q
  | .node temp left right, q => q ++ [setHd hd (.node temp left right)]

theorem sum_pushChild (hd : Int) (child : NodePtr) (q : List NodePtr) :
    ((pushChild hd child q).map BinaryTree.numNodes).sum =
      (q.map BinaryTree.numNodes).sum + child.numNodes := by
  cases child with
  | nil => rfl
  | node temp left right => simp [pushChild, setHd]

/-- The loop over the queue; `temp` must not be null. -/
def visit : List NodePtr → List (Int × Int) → Option (List (Int × Int))
  | [], m => some m
  | .nil :: _, _ => none
  | .node temp left right :: q, m =>
    visit (pushChild (temp.hd + 1) right (pushChild (temp.hd - 1) left q)) (assign temp.hd temp.data m)
  termination_by q => (q.map BinaryTree.numNodes).sum
  decreasing_by
    rw [sum_pushChild, sum_pushChild, List.map_cons, List.sum_cons, BinaryTree.numNodes]
    omega

/-- What is printed. -/
def bottomView : NodePtr → Option (List Int)
  | .nil => some []
  | .node temp left right => do
    let m ← visit [setHd 0 (.node temp left right)] []
    return m.map Prod.snd

/-- How far right a way leads. -/
def distance (p : Position) : Int := (p.map fun | .left => -1 | .right => 1).sum

/-- `x` is in the lowest node at horizontal distance `h`, in the rightmost one of them. -/
def Bottom (t : NodePtr) (h x : Int) : Prop :=
  ∃ p node, valueAt t p = some node ∧ node.data = x ∧ distance p = h ∧
    ∀ q, valueAt t q ≠ none → distance q = h → q = p ∨ Before q p

/-- The map after the nodes in `done`. -/
structure Seen (t : NodePtr) (done : List Position) (m : List (Int × Int)) : Prop where
  order : m.Pairwise (fun a b => a.1 < b.1)
  keys : ∀ p ∈ done, ∃ x, (distance p, x) ∈ m
  mem : ∀ h x, (h, x) ∈ m ↔ ∃ p ∈ done, distance p = h ∧ (∃ node, valueAt t p = some node ∧ node.data = x) ∧
    ∀ q ∈ done, distance q = h → q = p ∨ Before q p

section Walk

variable {t : NodePtr} {done ps : List Position} {m : List (Int × Int)} {p : Position} {d : Side}
  {key data k x : Int}

theorem distance_child : distance (p ++ [d]) = distance p + match d with | .left => -1 | .right => 1 := by
  simp [distance]

theorem mem_assign (h : m.Pairwise (fun a b => a.1 < b.1)) :
    (k, x) ∈ assign key data m ↔ k = key ∧ x = data ∨ k ≠ key ∧ (k, x) ∈ m := by
  induction m with
  | nil => simp [assign]
  | cons a m ih =>
    obtain ⟨k', y⟩ := a
    obtain ⟨hlt, h⟩ := List.pairwise_cons.mp h
    rw [assign]
    split_ifs with hk he
    · have hne : (k, x) ∈ (k', y) :: m → k ≠ key := by
        intro hmem
        obtain he | hmem := List.mem_cons.mp hmem
        · cases he
          omega
        · have hkk := hlt _ hmem
          omega
      rw [List.mem_cons, Prod.mk.injEq, and_iff_right_of_imp hne]
    · subst he
      have hne : (k, x) ∈ m → k ≠ key := fun hmem => (Int.ne_of_lt (hlt _ hmem)).symm
      rw [List.mem_cons, List.mem_cons, Prod.mk.injEq, Prod.mk.injEq]
      constructor
      · exact Or.imp_right fun hmem => ⟨hne hmem, .inr hmem⟩
      · exact Or.imp_right fun ⟨hkey, hmem⟩ => hmem.resolve_left fun he => hkey he.1
    · rw [List.mem_cons, List.mem_cons, ih h, Prod.mk.injEq]
      constructor
      · rintro (⟨rfl, rfl⟩ | hmem | ⟨hkey, hmem⟩)
        · exact .inr ⟨by omega, .inl ⟨rfl, rfl⟩⟩
        · exact .inl hmem
        · exact .inr ⟨hkey, .inr hmem⟩
      · rintro (hmem | ⟨hkey, hmem | hmem⟩)
        · exact .inr (.inl hmem)
        · exact .inl hmem
        · exact .inr (.inr ⟨hkey, hmem⟩)

theorem assign_order (h : m.Pairwise (fun a b => a.1 < b.1)) :
    (assign key data m).Pairwise (fun a b => a.1 < b.1) := by
  induction m with
  | nil => exact List.pairwise_singleton _ _
  | cons a m ih =>
    obtain ⟨k', y⟩ := a
    obtain ⟨hlt, hm⟩ := List.pairwise_cons.mp h
    rw [assign]
    split_ifs with hk he
    · refine List.pairwise_cons.mpr ⟨?_, h⟩
      rw [List.forall_mem_cons]
      exact ⟨hk, fun b hb => Int.lt_trans hk (hlt b hb)⟩
    · subst he
      exact List.pairwise_cons.mpr ⟨hlt, hm⟩
    · refine List.pairwise_cons.mpr ⟨?_, ih hm⟩
      rintro ⟨k, x⟩ hmem
      obtain ⟨rfl, -⟩ | ⟨-, hmem⟩ := (mem_assign hm).mp hmem
      · exact Int.lt_iff_le_and_ne.mpr ⟨Int.not_lt.mp hk, Ne.symm he⟩
      · exact hlt _ hmem

theorem seen_nil : Seen t [] [] := ⟨List.Pairwise.nil, by simp, by simp⟩

/-- A node that comes after all others hides those at its distance. -/
theorem Seen.step (h : Seen t done m) (hlast : ∀ q ∈ done, Before q p) {node : Node}
    (hp : valueAt t p = some node) : Seen t (done ++ [p]) (assign (distance p) node.data m) := by
  refine ⟨assign_order h.order, fun q hq => ?_, fun k x => ?_⟩
  · simp only [mem_assign h.order]
    by_cases hk : distance q = distance p
    · exact ⟨_, .inl ⟨hk, rfl⟩⟩
    · obtain hq | hq := List.mem_append.mp hq
      · obtain ⟨x, hx⟩ := h.keys q hq
        exact ⟨x, .inr ⟨hk, hx⟩⟩
      · exact absurd (congrArg distance (List.mem_singleton.mp hq)) hk
  rw [mem_assign h.order, h.mem]
  constructor
  · rintro (⟨rfl, rfl⟩ | ⟨hk, q, hq, hd, hval, hmax⟩)
    · refine ⟨p, by simp, rfl, ⟨node, hp, rfl⟩, fun q hq _ => ?_⟩
      obtain hq | hq := List.mem_append.mp hq
      · exact .inr (hlast q hq)
      · exact .inl (List.mem_singleton.mp hq)
    · refine ⟨q, List.mem_append_left _ hq, hd, hval, fun r hr hdr => ?_⟩
      obtain hr | hr := List.mem_append.mp hr
      · exact hmax r hr hdr
      · rw [List.mem_singleton.mp hr] at hdr
        exact absurd hdr.symm hk
  · rintro ⟨q, hq, hd, ⟨n, hn, rfl⟩, hmax⟩
    by_cases hk : k = distance p
    · obtain rfl | hb := hmax p (by simp) hk.symm
      · rw [hp] at hn
        cases hn
        exact .inl ⟨hk, rfl⟩
      · obtain hq | hq := List.mem_append.mp hq
        · exact absurd (before_trans hb (hlast q hq)) not_before_self
        · rw [List.mem_singleton.mp hq] at hb
          exact absurd hb not_before_self
    · obtain hq | hq := List.mem_append.mp hq
      · exact .inr ⟨hk, q, hq, hd, ⟨n, hn, rfl⟩, fun r hr => hmax r (List.mem_append_left _ hr)⟩
      · rw [List.mem_singleton.mp hq] at hd
        exact absurd hd.symm hk

/-- What is in the queue for a position: the subtree there, with its distance written into its root. -/
def queued (t : NodePtr) (p : Position) : NodePtr := setHd (distance p) (subtree t p)

theorem pushChild_eq {q : List NodePtr} (hd : Int) (hdist : distance (p ++ [d]) = hd) :
    pushChild hd (subtree t (p ++ [d])) q =
      q ++ (([p ++ [d]].filter fun q => (valueAt t q).isSome).map (queued t)) := by
  cases h : subtree t (p ++ [d]) with
  | nil => simp [pushChild, valueAt, h, root]
  | node temp left right => simp [pushChild, valueAt, queued, h, root, hdist]

theorem pushChildren_eq {temp : Node} {left right : NodePtr} {q : List Position}
    (h : subtree t p = .node temp left right) :
    pushChild (distance p + 1) right (pushChild (distance p - 1) left (q.map (queued t))) =
      (q ++ children t p).map (queued t) := by
  have hleft : subtree t (p ++ [.left]) = left := by
    rw [subtree_append, h]
    rfl
  have hright : subtree t (p ++ [.right]) = right := by
    rw [subtree_append, h]
    rfl
  have hl := pushChild_eq (t := t) (q := q.map (queued t)) (distance p - 1) (distance_child (d := .left))
  have hr := pushChild_eq (t := t) (q := pushChild (distance p - 1) left (q.map (queued t))) (distance p + 1)
    (distance_child (d := .right))
  rw [hright] at hr
  rw [hleft] at hl
  have hc : children t p = ([p ++ [Side.left]].filter fun q => (valueAt t q).isSome) ++
      ([p ++ [Side.right]].filter fun q => (valueAt t q).isSome) := by
    rw [← List.filter_append]
    rfl
  rw [hr, hl, hc, List.map_append, List.map_append, List.append_assoc]

theorem visit_spec (hf : Frontier t done ps) (hs : Seen t done m) :
    ∃ done' m', visit (ps.map (queued t)) m = some m' ∧ Frontier t done' [] ∧ Seen t done' m' := by
  generalize hq : ps.map (queued t) = q
  induction q, m using visit.induct generalizing done ps with
  | case1 m =>
    obtain rfl := List.map_eq_nil_iff.mp hq
    exact ⟨done, m, by rw [visit], hf, hs⟩
  | case2 q m =>
    obtain ⟨p, ps, rfl, hp, -⟩ := List.map_eq_cons_iff.mp hq
    have hnode := hf.nodes p (by simp)
    cases h : subtree t p with
    | nil => simp [valueAt, h, root] at hnode
    | node temp left right => simp [queued, h, setHd] at hp
  | case3 temp left right q m ih =>
    obtain ⟨p, ps, rfl, hp, rfl⟩ := List.map_eq_cons_iff.mp hq
    have hlast : ∀ q ∈ done, Before q p := fun q hq =>
      (List.pairwise_append.mp hf.order).2.2 q hq p (List.mem_cons_self ..)
    cases h : subtree t p with
    | nil => simp [queued, h, setHd] at hp
    | node node left' right' =>
      rw [queued, h, setHd] at hp
      cases hp
      have hnode : valueAt t p = some node := by rw [valueAt, h, root]
      have hs' := hs.step hlast hnode
      obtain ⟨done', m', hm', h'⟩ := ih hf.step hs' (pushChildren_eq h).symm
      exact ⟨done', m', by rw [visit, hm'], h'⟩

/-- One value is printed for each distance that occurs, from left to right, and it is that of the lowest
node there, of the rightmost one of the lowest. -/
theorem bottomView_prints (root : NodePtr) (hne : root ≠ .nil) :
    ∃ m : List (Int × Int), bottomView root = some (m.map Prod.snd) ∧
      (m.map Prod.fst).Pairwise (· < ·) ∧
      (∀ h, h ∈ m.map Prod.fst ↔ ∃ p, valueAt root p ≠ none ∧ distance p = h) ∧
      ∀ a ∈ m, Bottom root a.1 a.2 := by
  obtain ⟨done, m, hm, hf, hs⟩ := visit_spec (frontier_root hne) seen_nil
  have hbottom : ∀ a ∈ m, Bottom root a.1 a.2 := by
    intro a ha
    obtain ⟨p, -, hdist, ⟨node, hnode, hdata⟩, hmax⟩ := (hs.mem a.1 a.2).mp ha
    exact ⟨p, node, hnode, hdata, hdist, fun q hq => hmax q (hf.all.mpr hq)⟩
  have hvisit : visit [setHd 0 root] [] = some m := hm
  refine ⟨m, ?_, List.pairwise_map.mpr hs.order, fun h => ⟨?_, ?_⟩, hbottom⟩
  · cases root with
    | nil => exact absurd rfl hne
    | node node left right =>
      rw [bottomView, hvisit]
      rfl
  · intro hmem
    obtain ⟨a, ha, rfl⟩ := List.mem_map.mp hmem
    obtain ⟨p, node, hnode, -, hdist, -⟩ := hbottom a ha
    exact ⟨p, by rw [hnode]; simp, hdist⟩
  · rintro ⟨p, hp, rfl⟩
    obtain ⟨x, hx⟩ := hs.keys p (hf.all.mpr hp)
    exact List.mem_map.mpr ⟨_, hx, rfl⟩

/-- Two nodes share the lowest place in the middle. -/
def diamond : NodePtr :=
  .node ⟨1, 0⟩ (.node ⟨2, 0⟩ .nil (.node ⟨4, 0⟩ .nil .nil)) (.node ⟨3, 0⟩ (.node ⟨5, 0⟩ .nil .nil) .nil)

theorem bottomView_diamond :
    ∃ m : List (Int × Int), bottomView diamond = some (m.map Prod.snd) ∧
      (m.map Prod.fst).Pairwise (· < ·) ∧
      (∀ h, h ∈ m.map Prod.fst ↔ ∃ p, valueAt diamond p ≠ none ∧ distance p = h) ∧
      ∀ a ∈ m, Bottom diamond a.1 a.2 :=
  bottomView_prints diamond (by simp [diamond])

end Walk

end C11AndC.BottomView
