import Mathlib.Data.List.Count
import Mathlib.Order.MinMax

namespace C11AndC.Library

variable {α : Type} [LinearOrder α]

/-- Every value is in the sorted list as often as in the list where it is more frequent. -/
structure Unites (a b l : List α) : Prop where
  sorted : l.Pairwise (· ≤ ·)
  count : ∀ v, l.count v = max (a.count v) (b.count v)

/-- Every value is in the sorted list as often as in the list where it is less frequent. -/
structure Meets (a b l : List α) : Prop where
  sorted : l.Pairwise (· ≤ ·)
  count : ∀ v, l.count v = min (a.count v) (b.count v)

variable {a b l : List α} {x y v : α}

section Union

theorem Unites.symm (h : Unites a b l) : Unites b a l :=
  ⟨h.sorted, fun v => (h.count v).trans (max_comm ..)⟩

theorem Unites.mem (h : Unites a b l) (hv : v ∈ l) : v ∈ a ∨ v ∈ b := by
  have hpos := List.count_pos_iff.mpr hv
  rw [h.count v, lt_max_iff] at hpos
  exact hpos.imp List.count_pos_iff.mp List.count_pos_iff.mp

end Union

section Intersection

theorem Meets.symm (h : Meets a b l) : Meets b a l :=
  ⟨h.sorted, fun v => (h.count v).trans (min_comm ..)⟩

theorem Meets.mem (h : Meets a b l) (hv : v ∈ l) : v ∈ a := by
  have hpos := List.count_pos_iff.mpr hv
  rw [h.count v, lt_min_iff] at hpos
  exact List.count_pos_iff.mp hpos.1

end Intersection

end C11AndC.Library
