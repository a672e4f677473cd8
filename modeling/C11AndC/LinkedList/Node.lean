import C11AndC.Library.Program
import C11AndC.Library.Chain

namespace C11AndC.LinkedList

open C11AndC.Library

structure Node where
  data : Int
  next : Nat

/-- Programs on the nodes of lists; the variable they share is a pointer to a list. -/
abbrev Prog := Program Node Nat

/-- Follow `next` a number of times. -/
def advance {ρ : Type} : Nat → Nat → Program Node ρ Nat
  | 0, node => return node
  | count + 1, node => do advance count (← load node).next

/-- The nodes from `p` on as far as the pointer `q`, with their addresses and data. -/
def Segment (m : Memory Node) (q : Nat) : Nat → List (Nat × Int) → Prop
  | p, [] => p = q
  | p, x :: l => p = x.1 ∧ ∃ next, m.cell p = some ⟨x.2, next⟩ ∧ Segment m q next l

/-- The nodes of a list that ends in null. -/
def Holds (m : Memory Node) (p : Nat) (l : List (Nat × Int)) : Prop := Segment m 0 p l

def addrs (l : List (Nat × Int)) : List Nat := l.map Prod.fst

@[simp] theorem addrs_append (xs ys : List (Nat × Int)) : addrs (xs ++ ys) = addrs xs ++ addrs ys :=
  List.map_append

theorem addrs_reverse (l : List (Nat × Int)) : addrs l.reverse = (addrs l).reverse := List.map_reverse

theorem addrs_subset {xs ys : List (Nat × Int)} (h : xs ⊆ ys) : addrs xs ⊆ addrs ys := List.map_subset _ h

section Segments

variable {m m' : Memory Node} {p q r : Nat} {l xs ys : List (Nat × Int)}

theorem segment_congr (h : ∀ a ∈ addrs l, m'.cell a = m.cell a) (hs : Segment m q p l) : Segment m' q p l := by
  induction l generalizing p with
  | nil => exact hs
  | cons x l ih =>
    obtain ⟨rfl, next, hc, hs⟩ := hs
    refine ⟨rfl, next, (h _ List.mem_cons_self).trans hc, ih (fun a ha => h a (List.mem_cons_of_mem _ ha)) hs⟩

/-- A write to a node leaves a list beside it as it is. -/
theorem segment_modify {a : Nat} {f : Node → Node} (ha : a ∉ addrs l) (hs : Segment m q p l) :
    Segment (m.modify a f) q p l := by
  refine segment_congr (fun b hb => Memory.cell_modify_ne m ?_ f) hs
  rintro rfl
  exact ha hb

theorem segment_kept (h : Memory.Kept m m') (hs : Segment m q p l) : Segment m' q p l := by
  induction l generalizing p with
  | nil => exact hs
  | cons x l ih =>
    obtain ⟨rfl, next, hc, hs⟩ := hs
    exact ⟨rfl, next, h _ _ hc, ih hs⟩

theorem segment_append : Segment m q p (xs ++ ys) ↔ ∃ r, Segment m r p xs ∧ Segment m q r ys := by
  induction xs generalizing p with
  | nil => exact ⟨fun h => ⟨p, rfl, h⟩, fun ⟨r, h, hs⟩ => h ▸ hs⟩
  | cons x xs ih =>
    constructor
    · rintro ⟨rfl, next, hc, hs⟩
      obtain ⟨r, h1, h2⟩ := ih.mp hs
      exact ⟨r, ⟨rfl, next, hc, h1⟩, h2⟩
    · rintro ⟨r, ⟨rfl, next, hc, h1⟩, h2⟩
      exact ⟨rfl, next, hc, ih.mpr ⟨r, h1, h2⟩⟩

theorem chain_of_holds (hs : Holds m p l) : Chain m Node.next p (addrs l) := by
  induction l generalizing p with
  | nil => exact hs
  | cons x l ih =>
    obtain ⟨rfl, next, hc, hs⟩ := hs
    exact ⟨rfl, _, hc, ih hs⟩

theorem holds_nodup (hs : Holds m p l) : (addrs l).Nodup := chain_nodup (chain_of_holds hs)

theorem segment_alive (hs : Segment m q p l) {a : Nat} (ha : a ∈ addrs l) : ∃ v, m.cell a = some v := by
  induction l generalizing p with
  | nil => exact absurd ha List.not_mem_nil
  | cons x l ih =>
    obtain ⟨rfl, next, hc, hs⟩ := hs
    rcases List.mem_cons.mp ha with rfl | ha
    · exact ⟨_, hc⟩
    · exact ih hs ha

theorem holds_eq_zero (hs : Holds m p l) : p = 0 ↔ l = [] := by
  cases l with
  | nil => exact iff_of_true hs rfl
  | cons x l =>
    obtain ⟨rfl, next, hc, -⟩ := hs
    exact iff_of_false (Memory.ne_zero_of_cell hc) (List.cons_ne_nil _ _)

/-- The part of a list that is behind a pointer does not come back to it. -/
theorem end_not_mem (hx : Segment m q p xs) (hy : Holds m q ys) : q ∉ addrs xs := by
  have hl : Holds m p (xs ++ ys) := segment_append.mpr ⟨q, hx, hy⟩
  have hn := holds_nodup hl
  cases ys with
  | nil =>
    cases hy
    intro h
    obtain ⟨v, hv⟩ := segment_alive hl (a := 0) (by simp [h])
    exact Memory.ne_zero_of_cell hv rfl
  | cons y ys =>
    obtain ⟨rfl, -⟩ := hy
    rw [addrs_append, List.nodup_append] at hn
    exact fun h => hn.2.2 _ h _ List.mem_cons_self rfl

end Segments

end C11AndC.LinkedList
