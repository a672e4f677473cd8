import C11AndC.Library.Lists

namespace C11AndC.Library

variable {α : Type}

/-- The owner of a lock is the one entry of a list that holds it. -/
structure Owned (holds : α → Bool) (owner : Option Nat) (l : List α) : Prop where
  holder : ∀ i x, l[i]? = some x → (holds x = true ↔ owner = some i)
  within : ∀ i, owner = some i → i < l.length

section Owners

variable {holds : α → Bool} {owner : Option Nat} {l : List α} {i : Nat} {x y : α}

theorem owned_none (h : ∀ x ∈ l, holds x = false) : Owned holds none l := by
  constructor
  case holder =>
    intro i x hi
    rw [h x (List.mem_of_getElem? hi)]
    exact iff_of_false Bool.false_ne_true (Option.some_ne_none i).symm
  case within =>
    intro i hi
    cases hi

theorem Owned.owner_eq (h : Owned holds owner l) (hi : l[i]? = some x) (hx : holds x = true) : owner = some i :=
  (h.holder i x hi).mp hx

theorem Owned.free (h : Owned holds none l) (hi : l[i]? = some x) : holds x = false := by
  rw [Bool.eq_false_iff]
  intro hx
  cases h.owner_eq hi hx

/-- The entry that holds the lock. -/
theorem Owned.entry (h : Owned holds (some i) l) : ∃ x, l[i]? = some x ∧ holds x = true := by
  have hi := List.getElem?_eq_getElem (h.within i rfl)
  exact ⟨_, hi, (h.holder i _ hi).mpr rfl⟩

/-- A change of an entry that neither takes the lock nor gives it back. -/
theorem Owned.keep (h : Owned holds owner l) (hi : l[i]? = some x) (hxy : holds y = holds x) :
    Owned holds owner (l.set i y) := by
  constructor
  case holder =>
    intro j z hj
    obtain ⟨rfl, rfl⟩ | ⟨-, hj⟩ := getElem?_set_cases hj
    · rw [hxy]
      exact h.holder j x hi
    · exact h.holder j z hj
  case within =>
    intro j hj
    rw [List.length_set]
    exact h.within j hj

theorem Owned.take (h : Owned holds none l) (hi : l[i]? = some x) (hy : holds y = true) :
    Owned holds (some i) (l.set i y) := by
  constructor
  case holder =>
    intro j z hj
    obtain ⟨rfl, rfl⟩ | ⟨hne, hj⟩ := getElem?_set_cases hj
    · exact iff_of_true hy rfl
    · rw [h.free hj]
      exact iff_of_false Bool.false_ne_true fun he => hne (Option.some.inj he).symm
  case within =>
    intro j hj
    cases hj
    rw [List.length_set]
    exact (List.getElem?_eq_some_iff.mp hi).1

theorem Owned.give (h : Owned holds owner l) (hi : l[i]? = some x) (hx : holds x = true) (hy : holds y = false) :
    Owned holds none (l.set i y) := by
  have howner := h.owner_eq hi hx
  subst howner
  apply owned_none
  intro z hz
  obtain ⟨j, hj⟩ := List.getElem?_of_mem hz
  obtain ⟨-, rfl⟩ | ⟨hne, hj⟩ := getElem?_set_cases hj
  · exact hy
  · rw [Bool.eq_false_iff]
    intro hholds
    exact hne (Option.some.inj (h.owner_eq hj hholds)).symm

end Owners

end C11AndC.Library
