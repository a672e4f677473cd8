import C11AndC.Library.Lists

namespace C11AndC.Library

variable {α : Type}

/-- The list is put together from all of the others, with the order of each of them kept. -/
inductive Interleaving : List (List α) → List α → Prop
  | done {ls : List (List α)} (h : ∀ l ∈ ls, l = []) : Interleaving ls []
  | take {ls : List (List α)} {l w : List α} {i : Nat} {a : α} (hi : ls[i]? = some (a :: l))
      (hw : Interleaving (ls.set i l) w) : Interleaving ls (a :: w)

namespace Interleaving

variable {ls : List (List α)} {w : List α}

theorem perm (h : Interleaving ls w) : w.Perm ls.flatten := by
  induction h with
  | done h => rw [List.flatten_eq_nil_iff.mpr h]
  | take hi hw ih =>
    obtain ⟨l₁, l₂, rfl, hs, -⟩ := split_at hi
    rw [hs] at ih
    simp only [List.flatten_append, List.flatten_cons, List.cons_append] at ih ⊢
    exact (ih.cons _).trans List.perm_middle.symm

theorem nil_of_empty (h : Interleaving ls w) (hls : ∀ l ∈ ls, l = []) : w = [] := by
  have hperm := h.perm
  rw [List.flatten_eq_nil_iff.mpr hls] at hperm
  exact List.perm_nil.mp hperm

end Interleaving

end C11AndC.Library
