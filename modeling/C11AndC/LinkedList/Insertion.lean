import Mathlib.Algebra.Order.Ring.Int
import Mathlib.Data.List.Sort
import C11AndC.LinkedList.Node

namespace C11AndC.LinkedList.Insertion

open C11AndC.Library

/-- What `malloc` returns is not written yet; `raw` stands for it. -/
def newNode (raw : Node) (data : Int) : Prog Nat := do
  let node ← new raw
  store node (fun v => { v with data := data })
  store node (fun v => { v with next := 0 })
  return node

/-- The test for the head end. -/
def atHead (head node : Nat) : Prog Bool := do
  if head = 0 then
    return true
  else
    return decide ((← load head).data ≥ (← load node).data)

/-- One round of the search for the node before the point of insertion. -/
def locateStep (node current : Nat) : Prog (Nat ⊕ Nat) := do
  let next := (← load current).next
  if next = 0 then
    return .inr current
  else if (← load next).data < (← load node).data then
    return .inl next
  else
    return .inr current

def sortedInsert (steps node : Nat) : Prog Unit := do
  let head ← getReg
  if ← atHead head node then
    store node (fun v => { v with next := head })
    setReg (fun _ => node)
  else
    let current ← loop (locateStep node) steps head
    let next := (← load current).next
    store node (fun v => { v with next := next })
    store current (fun v => { v with next := node })

/-- What is printed so far is the second argument. -/
def printStep (x : Nat × List Int) : Prog ((Nat × List Int) ⊕ List Int) := do
  if x.1 = 0 then
    return .inr x.2
  else
    let temp ← load x.1
    return .inl (temp.next, x.2 ++ [temp.data])

def printList (steps head : Nat) : Prog (List Int) := loop printStep steps (head, [])

/-- New nodes are put into the list one after the other. -/
def insertAll (steps : Nat) : List (Node × Int) → Prog Unit
  | [] => return ()
  | (raw, data) :: items => do
    sortedInsert steps (← newNode raw data)
    insertAll steps items

/-- The list is filled and printed. -/
def main (steps : Nat) (items : List (Node × Int)) : Prog (List Int) := do
  insertAll steps items
  printList steps (← getReg)

/-- A new node comes in front of the nodes with the same data. -/
abbrev inOrder (x y : Nat × Int) : Prop := x.2 ≤ y.2

variable {m m' : Memory Node} {s : Store Node Nat} {p n steps : Nat} {v : Node} {x y : Nat × Int}
  {l before after : List (Nat × Int)}

theorem insert_front {d : Int} (h : d ≤ x.2) : (x :: l).orderedInsert inOrder (n, d) = (n, d) :: x :: l :=
  if_pos h

theorem insert_later {d : Int} (h : x.2 < d) :
    (x :: l).orderedInsert inOrder (n, d) = x :: l.orderedInsert inOrder (n, d) := if_neg (not_le.mpr h)

/-- The node `n` is linked behind `y`. -/
theorem holds_link (h : Holds m p (before ++ y :: after)) (hn : m.cell n = some v)
    (hnot : n ∉ addrs (before ++ y :: after)) : ∃ next, m.cell y.1 = some ⟨y.2, next⟩ ∧ y.1 ≠ n ∧
      Holds ((m.modify n (fun v => { v with next := next })).modify y.1 (fun v => { v with next := n })) p
        (before ++ y :: (n, v.data) :: after) := by
  have hnodup := holds_nodup h
  rw [addrs_append, List.nodup_append] at hnodup
  obtain ⟨-, htail, happart⟩ := hnodup
  have hafter := (List.nodup_cons.mp htail).1
  have hbefore : y.1 ∉ addrs before := fun hy => happart _ hy _ List.mem_cons_self rfl
  rw [addrs_append, List.mem_append, not_or] at hnot
  obtain ⟨hnb, hna⟩ := hnot
  have hny : y.1 ≠ n := fun he => hna (he ▸ List.mem_cons_self)
  obtain ⟨r, hfront, rfl, next, hc, hrest⟩ := segment_append.mp h
  refine ⟨next, hc, hny, segment_append.mpr ⟨y.1, ?_, rfl, n, ?_, rfl, next, ?_, ?_⟩⟩
  · exact segment_modify hbefore (segment_modify hnb hfront)
  · rw [Memory.cell_modify_self, Memory.cell_modify_ne _ hny, hc]
    rfl
  · rw [Memory.cell_modify_ne _ (Ne.symm hny), Memory.cell_modify_self, hn]
    rfl
  · exact segment_modify hafter (segment_modify (fun ha => hna (List.mem_cons_of_mem _ ha)) hrest)

/-- The search stops at the last node with smaller data; the new node belongs behind it. -/
theorem wp_locate (h : Holds s.mem p (x :: l)) (hn : s.mem.cell n = some v) (hlt : x.2 < v.data)
    (hsteps : l.length < steps) :
    wp (loop (locateStep n) steps p) (fun r t => t = s ∧ ∃ before y after, x :: l = before ++ y :: after ∧
      r = y.1 ∧ (x :: l).orderedInsert inOrder (n, v.data) = before ++ y :: (n, v.data) :: after) s := by
  induction steps generalizing p x l with
  | zero => omega
  | succ steps ih =>
    rw [wp_loop_succ]
    obtain ⟨rfl, next, hc, hrest⟩ := h
    simp only [locateStep, wp_bind, wp_load, hc, Option.some.injEq, exists_eq_left']
    rw [insert_later hlt]
    cases l with
    | nil =>
      cases hrest
      rw [if_pos rfl, wp_pure]
      exact ⟨rfl, [], x, [], rfl, rfl, rfl⟩
    | cons y l =>
      have hy := hrest
      obtain ⟨rfl, next, hcy, -⟩ := hy
      simp only [if_neg (Memory.ne_zero_of_cell hcy), wp_bind, wp_load, hcy, hn, Option.some.injEq,
        exists_eq_left']
      by_cases hd : y.2 < v.data
      · rw [if_pos hd, wp_pure]
        apply wp_mono (ih hrest hd (Nat.lt_of_succ_lt_succ hsteps))
        rintro r t ⟨rfl, before, z, after, hsplit, rfl, hinsert⟩
        exact ⟨rfl, x :: before, z, after, congrArg (x :: ·) hsplit, rfl, congrArg (x :: ·) hinsert⟩
      · rw [if_neg hd, wp_pure, insert_front (not_lt.mp hd)]
        exact ⟨rfl, [], x, y :: l, rfl, rfl, rfl⟩

/-- A new node that is not in the list is put in its place, and nothing else is written. -/
theorem wp_sortedInsert (h : Holds s.mem s.reg l) (hn : s.mem.cell n = some v) (hnot : n ∉ addrs l)
    (hsteps : l.length < steps) :
    wp (sortedInsert steps n) (fun _ t => Holds t.mem t.reg (l.orderedInsert inOrder (n, v.data)) ∧
      Memory.SameExcept (n :: addrs l) s.mem t.mem ∧ t.mem.next = s.mem.next) s := by
  rw [sortedInsert, wp_bind, wp_getReg, wp_bind]
  -- In front of the list only the new node is written.
  have hfront : l.orderedInsert inOrder (n, v.data) = (n, v.data) :: l →
      wp (do store n (fun v => { v with next := s.reg }); setReg (fun _ => n)) (fun _ t =>
        Holds t.mem t.reg (l.orderedInsert inOrder (n, v.data)) ∧
        Memory.SameExcept (n :: addrs l) s.mem t.mem ∧ t.mem.next = s.mem.next) s := by
    intro hinsert
    rw [wp_bind, wp_store, wp_setReg, hinsert, hn]
    refine ⟨rfl, ⟨rfl, s.reg, ?_, segment_modify hnot h⟩, ?_, rfl⟩
    · rw [Memory.cell_modify_self, hn]
      rfl
    · exact Memory.sameExcept_modify List.mem_cons_self _ _
  cases l with
  | nil =>
    have hreg : s.reg = 0 := h
    rw [atHead, if_pos hreg, wp_pure, if_pos rfl]
    exact hfront rfl
  | cons x l =>
    have hx := h
    obtain ⟨hreg, next, hc, -⟩ := hx
    simp only [atHead, if_neg (Memory.ne_zero_of_cell hc), wp_bind, wp_load, hc, hn, Option.some.injEq,
      exists_eq_left', wp_pure, decide_eq_true_eq, ge_iff_le]
    by_cases hd : v.data ≤ x.2
    · rw [if_pos hd]
      exact hfront (insert_front hd)
    · rw [if_neg hd, wp_bind]
      apply wp_mono (wp_locate h hn (not_le.mp hd) (Nat.lt_of_succ_lt hsteps))
      rintro r t ⟨rfl, before, y, after, hsplit, rfl, hinsert⟩
      rw [hsplit] at h hnot
      obtain ⟨next, hcy, hne, hholds⟩ := holds_link h hn hnot
      rw [hinsert]
      have hcy' : (t.mem.modify n (fun v => { v with next := next })).cell y.1 = some ⟨y.2, next⟩ :=
        (Memory.cell_modify_ne _ hne _).trans hcy
      simp only [wp_bind, wp_load, hcy, Option.some.injEq, exists_eq_left', wp_store, hn, Option.isSome_some,
        true_and, hcy']
      have hmem : y.1 ∈ n :: addrs (x :: l) := by
        rw [hsplit, addrs_append]
        exact List.mem_cons_of_mem _ (List.mem_append_right _ List.mem_cons_self)
      exact ⟨hholds, Memory.sameExcept_trans (Memory.sameExcept_modify List.mem_cons_self _ _)
        (Memory.sameExcept_modify hmem _ _), rfl⟩

theorem wp_newNode {raw : Node} {data : Int} {Q : Nat → Store Node Nat → Prop}
    (h : ∀ m, m.cell s.mem.next = some ⟨data, 0⟩ → Memory.SameExcept [s.mem.next] s.mem m →
      m.next = s.mem.next + 1 → Q s.mem.next ⟨m, s.reg⟩) : wp (newNode raw data) Q s := by
  simp only [newNode, wp_bind, wp_new, wp_store, wp_pure, Memory.cell_alloc_self, Memory.cell_modify_self,
    Option.map_some, Option.isSome_some, true_and]
  apply h
  · rw [Memory.cell_modify_self, Memory.cell_modify_self, Memory.cell_alloc_self]
    rfl
  · intro a ha
    have hne : a ≠ s.mem.next := fun he => ha (List.mem_singleton.mpr he)
    rw [Memory.cell_modify_ne _ hne, Memory.cell_modify_ne _ hne, Memory.cell_alloc_ne _ hne]
  · rfl

/-- From `m` to `m'` the new nodes `news` have been put into the list `l`, and outside of it nothing that was
in use has changed. -/
structure Filled (m : Memory Node) (l news : List (Nat × Int)) (m' : Memory Node) (p : Nat) : Prop where
  holds : Holds m' p (news.foldl (fun l x => l.orderedInsert inOrder x) l)
  fresh : ∀ x ∈ news, m.next ≤ x.1
  frame : ∀ a, a < m.next → a ∉ addrs l → m'.cell a = m.cell a

theorem lt_next_of_holds (h : Holds m p l) {a : Nat} (ha : a ∈ addrs l) : a < m.next := by
  obtain ⟨w, hw⟩ := segment_alive h ha
  exact Memory.lt_next_of_cell hw

theorem addrs_orderedInsert (x : Nat × Int) (l : List (Nat × Int)) :
    (addrs (l.orderedInsert inOrder x)).Perm (x.1 :: addrs l) :=
  (List.perm_orderedInsert inOrder x l).map Prod.fst

theorem wp_insertAll (items : List (Node × Int)) (h : Holds s.mem s.reg l)
    (hsteps : l.length + items.length ≤ steps) :
    wp (insertAll steps items) (fun _ t => ∃ news, news.map Prod.snd = items.map Prod.snd ∧
      Filled s.mem l news t.mem t.reg) s := by
  induction items generalizing s l with
  | nil =>
    rw [insertAll, wp_pure]
    exact ⟨[], rfl, h, fun x hx => absurd hx List.not_mem_nil, fun _ _ _ => rfl⟩
  | cons item items ih =>
    obtain ⟨raw, data⟩ := item
    rw [insertAll, wp_bind]
    apply wp_newNode
    intro m hnew hsame hnext
    have hnot : s.mem.next ∉ addrs l := fun ha => absurd (lt_next_of_holds h ha) (Nat.lt_irrefl _)
    have hold : Holds m s.reg l := segment_congr
      (fun a ha => hsame a (fun hm => hnot (List.mem_singleton.mp hm ▸ ha))) h
    rw [List.length_cons] at hsteps
    rw [wp_bind]
    apply wp_mono (wp_sortedInsert (s := ⟨m, s.reg⟩) hold hnew hnot (by omega))
    rintro _ t ⟨hholds, hframe, htnext⟩
    have htnext : t.mem.next = s.mem.next + 1 := htnext.trans hnext
    have hlen : (l.orderedInsert inOrder (s.mem.next, data)).length + items.length ≤ steps := by
      rw [List.orderedInsert_length]
      omega
    apply wp_mono (ih hholds hlen)
    rintro _ u ⟨news, hdata, hfilled⟩
    refine ⟨(s.mem.next, data) :: news, congrArg (data :: ·) hdata, ?_⟩
    constructor
    case holds => exact hfilled.holds
    case fresh =>
      intro x hx
      obtain rfl | hx := List.mem_cons.mp hx
      · exact Nat.le_refl _
      · exact Nat.le_trans (by omega) (hfilled.fresh x hx)
    case frame =>
      intro a ha hal
      have hne : a ≠ s.mem.next := Nat.ne_of_lt ha
      have hmem : a ∉ s.mem.next :: addrs l := fun hm => (List.mem_cons.mp hm).elim hne hal
      rw [hfilled.frame a (by omega) (fun hm => hmem ((addrs_orderedInsert _ l).subset hm)), hframe a hmem]
      exact hsame a (fun hm => hne (List.mem_singleton.mp hm))

theorem wp_printList (out : List Int) (h : Holds s.mem p l) (hsteps : l.length < steps) :
    wp (loop printStep steps (p, out)) (fun r t => r = out ++ l.map Prod.snd ∧ t = s) s := by
  induction steps generalizing p l out with
  | zero => omega
  | succ steps ih =>
    rw [wp_loop_succ]
    cases l with
    | nil =>
      cases h
      rw [printStep, if_pos rfl, wp_pure]
      exact ⟨(List.append_nil out).symm, rfl⟩
    | cons x l =>
      obtain ⟨rfl, next, hc, hrest⟩ := h
      simp only [printStep, if_neg (Memory.ne_zero_of_cell hc), wp_bind, wp_load, hc, Option.some.injEq,
        exists_eq_left', wp_pure]
      apply wp_mono (ih (out ++ [x.2]) hrest (Nat.lt_of_succ_lt_succ hsteps))
      rintro r t ⟨rfl, rfl⟩
      exact ⟨List.append_assoc .., rfl⟩

/-- Insertions one after the other into a sorted list are an insertion sort. -/
theorem foldl_eq_insertionSort (hl : l.Pairwise inOrder) (news : List (Nat × Int)) :
    news.foldl (fun l x => l.orderedInsert inOrder x) l = (news.reverse ++ l).insertionSort inOrder := by
  rw [List.insertionSort, List.foldr_append, List.foldr_reverse]
  congr 1
  exact (hl.insertionSort_eq).symm

/-- Whatever data are put into a sorted list, no call follows a pointer that leads nowhere; the list is the stable
insertion sort of the new nodes, the last one first, and the old ones; what is printed is sorted, and has the new data
and the old ones; outside of the list nothing that was in use has changed. -/
theorem insertions_sort (s : Store Node Nat) (l : List (Nat × Int)) (items : List (Node × Int)) (steps : Nat)
    (h : Holds s.mem s.reg l) (hl : (l.map Prod.snd).Pairwise (· ≤ ·)) (hsteps : l.length + items.length < steps) :
    wp (main steps items) (fun out t =>
      out.Pairwise (· ≤ ·) ∧ out.Perm (items.map Prod.snd ++ l.map Prod.snd) ∧
      ∃ news : List (Nat × Int), news.map Prod.snd = items.map Prod.snd ∧ (∀ x ∈ news, s.mem.next ≤ x.1) ∧
        Holds t.mem t.reg ((news.reverse ++ l).insertionSort inOrder) ∧
        out = ((news.reverse ++ l).insertionSort inOrder).map Prod.snd ∧
        ∀ a, a < s.mem.next → a ∉ addrs l → t.mem.cell a = s.mem.cell a) s := by
  rw [main, wp_bind]
  apply wp_mono (wp_insertAll items h (Nat.le_of_lt hsteps))
  rintro _ t ⟨news, hdata, hholds, hfresh, hframe⟩
  have hsorted : l.Pairwise inOrder := (List.pairwise_map (f := Prod.snd) (R := (· ≤ ·))).mp hl
  rw [foldl_eq_insertionSort hsorted] at hholds
  have hperm := List.perm_insertionSort inOrder (news.reverse ++ l)
  have hlen : ((news.reverse ++ l).insertionSort inOrder).length < steps := by
    have hnews := congrArg List.length hdata
    rw [List.length_map, List.length_map] at hnews
    rw [List.length_insertionSort, List.length_append, List.length_reverse]
    omega
  rw [wp_bind, wp_getReg]
  apply wp_mono (wp_printList [] hholds hlen)
  rintro _ _ ⟨rfl, rfl⟩
  refine ⟨?_, ?_, news, hdata, hfresh, hholds, rfl, hframe⟩
  · exact List.pairwise_map.mpr (List.pairwise_insertionSort inOrder _)
  · apply (hperm.map Prod.snd).trans
    rw [List.map_append, List.map_reverse, hdata]
    exact (List.reverse_perm _).append_right _

/-- Into the list `2 → 7`, the data `5` and another `7`. -/
theorem insertions_sort_short :
    wp (main 5 [(⟨0, 9⟩, 5), (⟨4, 0⟩, 7)]) (fun out _ => out.Pairwise (· ≤ ·) ∧ out.Perm [5, 7, 2, 7])
      ⟨(Memory.empty.alloc ⟨2, 2⟩).alloc ⟨7, 0⟩, 1⟩ := by
  apply wp_mono (insertions_sort ⟨(Memory.empty.alloc ⟨2, 2⟩).alloc ⟨7, 0⟩, 1⟩ [(1, 2), (2, 7)]
    [(⟨0, 9⟩, 5), (⟨4, 0⟩, 7)] 5 ⟨rfl, 2, rfl, rfl, 0, rfl, rfl⟩ (by decide) (Nat.lt_succ_self 4))
  rintro out t ⟨hsorted, hperm, -⟩
  exact ⟨hsorted, hperm⟩

end C11AndC.LinkedList.Insertion
