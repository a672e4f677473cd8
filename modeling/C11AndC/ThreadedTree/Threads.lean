import Mathlib.Order.Basic
import Mathlib.Data.List.Nodup
import C11AndC.ThreadedTree.Model

namespace C11AndC.ThreadedTree

open C11AndC.Library

section Trees

variable {m m' : Memory Node} {t l r : Tree} {a last : Nat} {key : Int} {flag : Bool} {xs ys : List (Nat × Node)}
  {y : Nat × Node}

theorem root_eq_zero (h : Holds m t) : t.root = 0 ↔ t = .nil := by
  cases t with
  | nil => exact iff_of_true rfl rfl
  | node a key flag l r =>
    have hc : m.cell a = some ⟨key, l.root, r.root, flag⟩ := h.cells (a, _) (by simp [Tree.nodes])
    exact iff_of_false (Memory.ne_zero_of_cell hc) (fun he => by cases he)

theorem holds_congr (h : ∀ a ∈ t.addrs, m'.cell a = m.cell a) (ht : Holds m t) : Holds m' t :=
  ⟨ht.nodup, fun x hx => (h _ (List.mem_map_of_mem hx)).trans (ht.cells x hx)⟩

theorem addrs_node : (Tree.node a key flag l r).addrs = l.addrs ++ a :: r.addrs := by simp [Tree.addrs, Tree.nodes]

/-- The parts of a tree do not share an address. -/
structure Apart (a : Nat) (l r : Tree) : Prop where
  left : a ∉ l.addrs
  right : a ∉ r.addrs
  both : l.addrs.Disjoint r.addrs

theorem holds_node (h : Holds m (.node a key flag l r)) :
    m.cell a = some ⟨key, l.root, r.root, flag⟩ ∧ Holds m l ∧ Holds m r ∧ Apart a l r := by
  obtain ⟨hn, hc⟩ := h
  rw [addrs_node, List.nodup_append] at hn
  obtain ⟨hl, hr, hd⟩ := hn
  rw [List.nodup_cons] at hr
  refine ⟨hc (a, _) (by simp [Tree.nodes]), ⟨hl, fun x hx => hc x ?_⟩, ⟨hr.2, fun x hx => hc x ?_⟩, ⟨?_, hr.1, ?_⟩⟩
  · simp [Tree.nodes, hx]
  · simp [Tree.nodes, hx]
  · exact fun ha => hd a ha a List.mem_cons_self rfl
  · exact fun b hb hb' => hd b hb b (List.mem_cons_of_mem _ hb') rfl

theorem threads_append : Threads m last (xs ++ y :: ys) ↔ Threads m y.1 xs ∧ Threads m last (y :: ys) := by
  induction xs with
  | nil => exact ⟨fun h => ⟨trivial, h⟩, fun h => h.2⟩
  | cons x xs ih =>
    have hhead : ((xs ++ y :: ys).map Prod.fst).headD last = (xs.map Prod.fst).headD y.1 := by cases xs <;> rfl
    rw [List.cons_append, Threads, ih, hhead]
    exact and_assoc.symm

theorem threads_congr (h : ∀ x ∈ xs, m'.cell x.1 = m.cell x.1) (ht : Threads m last xs) : Threads m' last xs := by
  induction xs with
  | nil => trivial
  | cons x xs ih =>
    exact ⟨(h x List.mem_cons_self).trans ht.1, ih (fun y hy => h y (List.mem_cons_of_mem _ hy)) ht.2⟩

end Trees

section Programs

variable {s : Store Node Vars} {t l r : Tree} {a steps : Nat} {queue : List Nat}

theorem wp_pop {Q : Unit → Store Node Vars → Prop} (hq : s.reg.queue = a :: queue)
    (h : Q () ⟨s.mem, queue, s.reg.printed⟩) : wp pop Q s := by
  rw [pop, wp_bind, wp_getReg, hq]
  exact (wp_setReg _).mpr h

theorem wp_front {Q : Nat → Store Node Vars → Prop} (hq : s.reg.queue = a :: queue) (h : Q a s) : wp front Q s := by
  rw [front, wp_bind, wp_getReg, hq]
  exact (wp_pure a).mpr h

theorem not_wp_front {Q : Nat → Store Node Vars → Prop} (hq : s.reg.queue = []) : ¬ wp front Q s := by
  rw [front, wp_bind, wp_getReg, hq, wp_fault]
  exact not_false

theorem wp_onChild {f : Nat → Prog Unit} {Q : Unit → Store Node Vars → Prop} (h : Holds s.mem t)
    (hnil : t = .nil → Q () s) (hf : t.root ≠ 0 → wp (f t.root) Q s) : wp (onChild f t.root) Q s := by
  by_cases hz : t.root = 0
  · rw [onChild, if_pos hz, wp_pure]
    exact hnil ((root_eq_zero h).mp hz)
  · rw [onChild, if_neg hz]
    exact hf hz

theorem wp_populateQueue (h : Holds s.mem t) (hn : t.height < steps) :
    wp (populateQueue steps t.root) (fun _ u => u = ⟨s.mem, s.reg.queue ++ t.addrs, s.reg.printed⟩) s := by
  induction steps generalizing s t with
  | zero => omega
  | succ steps ih =>
    have hnil : ∀ {s : Store Node Vars} {t : Tree}, t = .nil →
        s = ⟨s.mem, s.reg.queue ++ t.addrs, s.reg.printed⟩ := by
      rintro s _ rfl
      simp [Tree.addrs, Tree.nodes]
    rw [populateQueue]
    cases t with
    | nil =>
      have hz : Tree.nil.root = 0 := rfl
      rw [if_pos hz, wp_pure]
      exact hnil rfl
    | node a key flag l r =>
      obtain ⟨hc, hl, hr, -⟩ := holds_node h
      rw [Tree.height] at hn
      simp only [Tree.root, Memory.ne_zero_of_cell hc, if_false, wp_bind, wp_load, hc, Option.some.injEq,
        exists_eq_left']
      refine wp_mono (wp_onChild hl hnil fun _ => ih hl (by omega)) ?_
      rintro _ _ rfl
      simp only [push, wp_setReg, hc, Option.some.injEq, exists_eq_left']
      refine wp_mono (wp_onChild hr hnil fun _ => ih hr (by omega)) ?_
      rintro _ _ rfl
      simp [addrs_node]

/-- The tree is threaded, and the queue starts with the address behind those of the tree. -/
def Threading (s : Store Node Vars) (t : Tree) (next : Nat) (queue : List Nat) (u : Store Node Vars) : Prop :=
  u.reg = ⟨next :: queue, s.reg.printed⟩ ∧ Memory.SameExcept t.addrs s.mem u.mem ∧ Threads u.mem next t.nodes

theorem threading_nil {next : Nat} (hq : s.reg.queue = t.addrs ++ next :: queue) (ht : t = .nil) :
    Threading s t next queue s := by
  subst ht
  exact ⟨congrArg (Vars.mk · s.reg.printed) hq, Memory.sameExcept_refl _ _, trivial⟩

/-- First the nodes on the left are threaded, then the root or the nodes on its right. -/
theorem threading_node {m m' : Memory Node} {next key : _} {flag : Bool} (hapart : Apart a l r)
    (hl : Memory.SameExcept l.addrs s.mem m) (htl : Threads m a l.nodes) (hr : Memory.SameExcept (a :: r.addrs) m m')
    (hc : m'.cell a = some (Node.thread ⟨key, l.root, r.root, flag⟩ (r.addrs.headD next)))
    (htr : Threads m' next r.nodes) :
    Threading s (.node a key flag l r) next queue ⟨m', next :: queue, s.reg.printed⟩ := by
  refine ⟨rfl, fun b hb => ?_, threads_append.mpr ⟨threads_congr (fun x hx => ?_) htl, hc, htr⟩⟩
  · rw [addrs_node, List.mem_append, not_or] at hb
    exact (hr b hb.2).trans (hl b hb.1)
  · have hx : x.1 ∈ l.addrs := List.mem_map_of_mem hx
    refine hr _ (fun ha => ?_)
    rcases List.mem_cons.mp ha with rfl | ha
    · exact hapart.left hx
    · exact hapart.both hx ha

/-- With an address behind those of the tree in the queue, the tree is threaded, its last node to that address. -/
theorem wp_createThreadedUtil {next : Nat} (h : Holds s.mem t) (hq : s.reg.queue = t.addrs ++ next :: queue)
    (hn : t.height < steps) :
    wp (createThreadedUtil steps t.root) (fun _ u => Threading s t next queue u) s := by
  induction steps generalizing s t next queue with
  | zero => omega
  | succ steps ih =>
    rw [createThreadedUtil]
    cases t with
    | nil =>
      have hz : Tree.nil.root = 0 := rfl
      rw [if_pos hz, wp_pure]
      exact threading_nil hq rfl
    | node a key flag l r =>
      obtain ⟨hc, hl, hr, hapart⟩ := holds_node h
      have hlen : l.height < steps ∧ r.height < steps := by
        rw [Tree.height] at hn
        omega
      rw [addrs_node, List.append_assoc, List.cons_append] at hq
      simp only [Tree.root, Memory.ne_zero_of_cell hc, if_false, wp_bind, wp_load, hc, Option.some.injEq,
        exists_eq_left']
      refine wp_mono (wp_onChild hl (threading_nil hq) fun _ => ih hl hq hlen.1) ?_
      rintro _ ⟨m, vars⟩ ⟨rfl, hsame, hthreads⟩
      refine wp_pop rfl ⟨_, (hsame a hapart.left).trans hc, ?_⟩
      have hr' : Holds m r := holds_congr (fun b hb => hsame b (fun hb' => hapart.both hb' hb)) hr
      by_cases hz : r.root = 0
      · obtain rfl := (root_eq_zero hr).mp hz
        rw [if_pos hz, wp_bind]
        refine wp_front rfl ?_
        have hcell : m.cell a = some ⟨key, l.root, 0, flag⟩ := (hsame a hapart.left).trans hc
        simp only [wp_bind, wp_store, hcell, Option.isSome_some, true_and, Memory.cell_modify_self, Option.map_some]
        refine threading_node hapart hsame hthreads ?_ ?_ trivial
        · exact Memory.sameExcept_trans (Memory.sameExcept_modify List.mem_cons_self _ _)
            (Memory.sameExcept_modify List.mem_cons_self _ _)
        · simp [hcell, Node.thread, Tree.root, Tree.addrs, Tree.nodes]
      · rw [if_neg hz]
        refine wp_mono (ih hr' rfl hlen.2) ?_
        rintro _ ⟨m', vars⟩ ⟨rfl, hsame', hthreads'⟩
        refine threading_node hapart hsame hthreads (fun b hb => ?_) ?_ hthreads'
        · exact hsame' b (fun hb' => hb (List.mem_cons_of_mem _ hb'))
        · rw [hsame' a hapart.right, hsame a hapart.left, hc, Node.thread, if_neg hz]

/-- With nothing behind the tree in the queue, the last node looks for its successor in an empty queue. -/
theorem not_wp_createThreadedUtil {Q : Unit → Store Node Vars → Prop} (h : Holds s.mem t) (hne : t ≠ .nil)
    (hq : s.reg.queue = t.addrs) (hn : t.height < steps) : ¬ wp (createThreadedUtil steps t.root) Q s := by
  induction steps generalizing s t with
  | zero => omega
  | succ steps ih =>
    rw [createThreadedUtil]
    cases t with
    | nil => exact absurd rfl hne
    | node a key flag l r =>
      obtain ⟨hc, hl, hr, hapart⟩ := holds_node h
      have hlen : l.height < steps ∧ r.height < steps := by
        rw [Tree.height] at hn
        omega
      rw [addrs_node] at hq
      simp only [Tree.root, Memory.ne_zero_of_cell hc, if_false, wp_bind, wp_load, hc, Option.some.injEq,
        exists_eq_left']
      intro hwp
      obtain ⟨_, ⟨m, vars⟩, ⟨rfl, hsame, -⟩, hwp⟩ := wp_and
        (wp_onChild hl (threading_nil hq) fun _ => wp_createThreadedUtil hl hq hlen.1) hwp
      rw [pop, wp_bind, wp_getReg] at hwp
      obtain ⟨n, hcell, hwp⟩ := (wp_setReg _).mp hwp
      rw [hsame a hapart.left, hc] at hcell
      cases hcell
      have hr' : Holds m r := holds_congr (fun b hb => hsame b (fun hb' => hapart.both hb' hb)) hr
      by_cases hz : r.root = 0
      · obtain rfl := (root_eq_zero hr).mp hz
        rw [if_pos hz, wp_bind] at hwp
        exact not_wp_front rfl hwp
      · rw [if_neg hz] at hwp
        exact ih hr' (mt (root_eq_zero hr).mpr hz) rfl hlen.2 hwp

/-- The queue holds the nodes of the tree and nothing else, so that the last of them has no successor in it. -/
theorem not_wp_createThreaded {Q : Unit → Store Node Vars → Prop} (h : Holds s.mem t) (hne : t ≠ .nil)
    (hn : t.height < steps) : ¬ wp (createThreaded steps t.root) Q s := by
  intro hwp
  simp only [createThreaded, wp_bind, wp_setReg] at hwp
  obtain ⟨_, u, hu, hwp⟩ := wp_and (wp_populateQueue (s := ⟨s.mem, [], s.reg.printed⟩) h hn) hwp
  subst hu
  exact not_wp_createThreadedUtil (s := ⟨s.mem, [] ++ t.addrs, s.reg.printed⟩) h hne (List.nil_append _) hn hwp

theorem not_isThreading (h : Holds s.mem t) (hne : t ≠ .nil) : ¬ IsThreading s t := by
  rintro ⟨enough, hwp⟩
  exact not_wp_createThreaded h hne (by omega) (hwp (max enough (t.height + 1)) (Nat.le_max_left ..))

theorem wp_newNode {raw : Node} {key : Int} {Q : Nat → Store Node Vars → Prop}
    (h : ∀ m, m.cell s.mem.next = some ⟨key, 0, 0, raw.isThreaded⟩ → Q s.mem.next ⟨m, s.reg⟩) :
    wp (newNode raw key) Q s := by
  simp only [newNode, wp_bind, wp_new, wp_store, wp_pure, Memory.cell_alloc_self, Memory.cell_modify_self,
    Option.map_some, Option.isSome_some, true_and]
  exact h _ (by simp)

end Programs

/-- Threading does what it is for exactly on the empty tree. -/
theorem threading_iff (s : Store Node Vars) (t : Tree) (h : Holds s.mem t) : IsThreading s t ↔ t.root = 0 := by
  refine ⟨fun ht => by_contra fun hz => not_isThreading h (mt (root_eq_zero h).mpr hz) ht, fun hz => ?_⟩
  obtain rfl := (root_eq_zero h).mp hz
  refine ⟨1, fun steps hsteps => ?_⟩
  obtain ⟨steps, rfl⟩ := Nat.exists_eq_add_of_le' hsteps
  simp only [createThreaded, populateQueue, createThreadedUtil, inOrder, hz, if_true, wp_bind, wp_setReg, wp_pure]
  exact ⟨trivial, fun _ hx => absurd hx List.not_mem_nil, (List.append_nil _).symm⟩

def threeNodes : Tree := .node 1 2 false (.node 2 1 false .nil .nil) (.node 3 3 false .nil .nil)

def threeStore : Store Node Vars where
  mem := ((Memory.empty.alloc ⟨2, 2, 3, false⟩).alloc ⟨1, 0, 0, false⟩).alloc ⟨3, 0, 0, false⟩
  reg := ⟨[], []⟩

theorem holds_threeNodes : Holds threeStore.mem threeNodes := by
  refine ⟨by decide, fun x hx => ?_⟩
  simp only [threeNodes, Tree.nodes, List.nil_append, List.cons_append, List.mem_cons, List.not_mem_nil,
    or_false] at hx
  obtain rfl | rfl | rfl := hx <;> rfl

/-- On three nodes threading fails, and on none it has nothing to do. -/
theorem threading_iff_three :
    ¬ IsThreading threeStore threeNodes ∧ IsThreading ⟨Memory.empty, ⟨[], []⟩⟩ .nil := by
  constructor
  · intro h
    have hroot := (threading_iff threeStore threeNodes holds_threeNodes).mp h
    exact absurd hroot (by decide)
  · exact (threading_iff _ .nil ⟨List.nodup_nil, fun _ hx => absurd hx List.not_mem_nil⟩).mpr rfl

/-- A tree of one node from `newNode`, whose flag happens to be false, is not threaded. -/
theorem threading_wrong : wp (newNode ⟨7, 7, 7, false⟩ 1)
    (fun root s => root = 1 ∧ ¬ IsThreading s (.node 1 1 false .nil .nil)) ⟨Memory.empty, ⟨[], []⟩⟩ :=
  wp_newNode fun m hm => ⟨rfl, not_isThreading ⟨List.nodup_singleton 1, fun x hx => by
    rw [List.mem_singleton.mp hx]
    exact hm⟩ (fun he => by cases he)⟩

end C11AndC.ThreadedTree
