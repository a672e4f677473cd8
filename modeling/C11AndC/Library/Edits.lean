import Mathlib.Data.List.Basic
import Mathlib.Order.Bounds.Basic
import Mathlib.Order.MinMax

namespace C11AndC.Library

variable {α : Type}

/-- One entry of a list is inserted, deleted or replaced. -/
inductive Edit : List α → List α → Prop where
  | insert (a b : List α) (x : α) : Edit (a ++ b) (a ++ x :: b)
  | delete (a b : List α) (x : α) : Edit (a ++ x :: b) (a ++ b)
  | replace (a b : List α) (x y : α) : Edit (a ++ x :: b) (a ++ y :: b)

inductive Edits : Nat → List α → List α → Prop where
  | zero (s : List α) : Edits 0 s s
  | succ {k : Nat} {s t u : List α} (h : Edits k s t) (he : Edit t u) : Edits (k + 1) s u

/-- Two lists read side by side, where all but `k` steps read the same entry in both. -/
inductive Aligned : Nat → List α → List α → Prop where
  | nil : Aligned 0 [] []
  | insert {k : Nat} {s t : List α} (y : α) (h : Aligned k s t) : Aligned (k + 1) s (y :: t)
  | delete {k : Nat} {s t : List α} (x : α) (h : Aligned k s t) : Aligned (k + 1) (x :: s) t
  | replace {k : Nat} {s t : List α} (x y : α) (h : Aligned k s t) :
      Aligned (k + 1) (x :: s) (y :: t)
  | keep {k : Nat} {s t : List α} (x : α) (h : Aligned k s t) : Aligned k (x :: s) (x :: t)

variable {k l d : Nat} {s t u : List α} {x y : α}

theorem Edit.cons (x : α) (h : Edit s t) : Edit (x :: s) (x :: t) := by
  cases h with
  | insert a b y => exact .insert (x :: a) b y
  | delete a b y => exact .delete (x :: a) b y
  | replace a b y z => exact .replace (x :: a) b y z

theorem Edit.reverse (h : Edit s t) : Edit s.reverse t.reverse := by
  cases h with
  | insert a b x => simpa using Edit.insert b.reverse a.reverse x
  | delete a b x => simpa using Edit.delete b.reverse a.reverse x
  | replace a b x y => simpa using Edit.replace b.reverse a.reverse x y

theorem Edits.cons (x : α) (h : Edits k s t) : Edits k (x :: s) (x :: t) := by
  induction h with
  | zero s => exact .zero _
  | succ _ he ih => exact .succ ih (he.cons x)

theorem Edits.reverse (h : Edits k s t) : Edits k s.reverse t.reverse := by
  induction h with
  | zero s => exact .zero _
  | succ _ he ih => exact .succ ih he.reverse

theorem edits_reverse_iff : Edits k s.reverse t.reverse ↔ Edits k s t :=
  ⟨fun h => by simpa using h.reverse, Edits.reverse⟩

theorem Edits.prepend (he : Edit s t) (h : Edits k t u) : Edits (k + 1) s u := by
  induction h with
  | zero t => exact .succ (.zero s) he
  | succ _ he' ih => exact .succ (ih he) he'

theorem Edit.nil_cases (h : Edit [] u) : ∃ z, u = [z] := by
  generalize hs : [] = s at h
  cases h with
  | insert a b x =>
    obtain ⟨rfl, rfl⟩ := List.append_eq_nil_iff.mp hs.symm
    exact ⟨x, rfl⟩
  | delete a b x => simp at hs
  | replace a b x y => simp at hs

/-- An edit is made at the head of a list or behind it. -/
theorem Edit.cons_cases (h : Edit (y :: t) u) :
    (∃ z, u = z :: y :: t) ∨ u = t ∨ (∃ z, u = z :: t) ∨ ∃ v, u = y :: v ∧ Edit t v := by
  generalize hs : y :: t = s at h
  cases h with
  | insert a b x =>
    cases a with
    | nil => exact .inl ⟨x, rfl⟩
    | cons c a =>
      obtain ⟨rfl, rfl⟩ := List.cons.inj hs
      exact .inr (.inr (.inr ⟨_, rfl, .insert a b x⟩))
  | delete a b x =>
    cases a with
    | nil => exact .inr (.inl (List.cons.inj hs).2.symm)
    | cons c a =>
      obtain ⟨rfl, rfl⟩ := List.cons.inj hs
      exact .inr (.inr (.inr ⟨_, rfl, .delete a b x⟩))
  | replace a b x z =>
    cases a with
    | nil => exact .inr (.inr (.inl ⟨z, by rw [(List.cons.inj hs).2]; rfl⟩))
    | cons c a =>
      obtain ⟨rfl, rfl⟩ := List.cons.inj hs
      exact .inr (.inr (.inr ⟨_, rfl, .replace a b x z⟩))

namespace Aligned

theorem symm (h : Aligned k s t) : Aligned k t s := by
  induction h with
  | nil => exact .nil
  | insert y _ ih => exact .delete y ih
  | delete x _ ih => exact .insert x ih
  | replace x y _ ih => exact .replace y x ih
  | keep x _ ih => exact .keep x ih

theorem refl (s : List α) : Aligned 0 s s := by
  induction s with
  | nil => exact .nil
  | cons x s ih => exact .keep x ih

/-- The steps that do not read the same entry are edits. -/
theorem edits (h : Aligned k s t) : Edits k s t := by
  induction h with
  | nil => exact .zero []
  | insert y _ ih => exact .succ ih (.insert [] _ y)
  | delete x _ ih => exact .prepend (.delete [] _ x) ih
  | replace x y _ ih => exact .prepend (.replace [] _ x y) (ih.cons y)
  | keep x _ ih => exact ih.cons x

/-- An edit costs at most one more step. -/
theorem edit (h : Aligned k s t) (he : Edit t u) : ∃ j ≤ k + 1, Aligned j s u := by
  induction h generalizing u with
  | nil =>
    obtain ⟨z, rfl⟩ := he.nil_cases
    exact ⟨1, Nat.le_refl 1, .insert z .nil⟩
  | @insert k s t y h ih =>
    obtain ⟨z, rfl⟩ | rfl | ⟨z, rfl⟩ | ⟨v, rfl, hv⟩ := he.cons_cases
    · exact ⟨_, Nat.le_refl _, .insert z (.insert y h)⟩
    · exact ⟨k, by omega, h⟩
    · exact ⟨_, Nat.le_succ _, .insert z h⟩
    · obtain ⟨j, hj, h⟩ := ih hv
      exact ⟨_, Nat.succ_le_succ hj, .insert y h⟩
  | @delete k s t x h ih =>
    obtain ⟨j, hj, h⟩ := ih he
    exact ⟨_, Nat.succ_le_succ hj, .delete x h⟩
  | @replace k s t x y h ih =>
    obtain ⟨z, rfl⟩ | rfl | ⟨z, rfl⟩ | ⟨v, rfl, hv⟩ := he.cons_cases
    · exact ⟨_, Nat.le_refl _, .insert z (.replace x y h)⟩
    · exact ⟨_, Nat.le_succ _, .delete x h⟩
    · exact ⟨_, Nat.le_succ _, .replace x z h⟩
    · obtain ⟨j, hj, h⟩ := ih hv
      exact ⟨_, Nat.succ_le_succ hj, .replace x y h⟩
  | @keep k s t x h ih =>
    obtain ⟨z, rfl⟩ | rfl | ⟨z, rfl⟩ | ⟨v, rfl, hv⟩ := he.cons_cases
    · exact ⟨_, Nat.le_refl _, .insert z (.keep x h)⟩
    · exact ⟨_, Nat.le_refl _, .delete x h⟩
    · exact ⟨_, Nat.le_refl _, .replace x z h⟩
    · obtain ⟨j, hj, h⟩ := ih hv
      exact ⟨j, hj, .keep x h⟩

theorem of_edits (h : Edits k s t) : ∃ j ≤ k, Aligned j s t := by
  induction h with
  | zero s => exact ⟨0, Nat.le_refl 0, refl s⟩
  | succ _ he ih =>
    obtain ⟨j, hj, h⟩ := ih
    obtain ⟨i, hi, h⟩ := h.edit he
    exact ⟨i, by omega, h⟩

/-- Reading the same entry is never worse. -/
theorem tails (h : Aligned k (x :: s) (x :: t)) : ∃ j ≤ k, Aligned j s t := by
  cases h with
  | insert _ h =>
    obtain ⟨j, hj, h⟩ := h.symm.edit (.delete [] s x)
    exact ⟨j, hj, h.symm⟩
  | delete _ h => exact h.edit (.delete [] t x)
  | replace _ _ h => exact ⟨_, Nat.le_succ _, h⟩
  | keep _ h => exact ⟨k, Nat.le_refl k, h⟩

theorem length_le (h : Aligned k s t) : t.length ≤ s.length + k := by
  induction h with
  | nil => simp
  | insert => simp only [List.length_cons]; omega
  | delete => simp only [List.length_cons]; omega
  | replace => simp only [List.length_cons]; omega
  | keep => simp only [List.length_cons]; omega

theorem inserted (t : List α) : Aligned t.length [] t := by
  induction t with
  | nil => exact .nil
  | cons y t ih => exact .insert y ih

end Aligned

theorem isLeast_nil_left (t : List α) : IsLeast {k | Aligned k [] t} t.length :=
  ⟨.inserted t, fun k h => by simpa using h.length_le⟩

theorem isLeast_symm (h : IsLeast {k | Aligned k s t} d) : IsLeast {k | Aligned k t s} d :=
  ⟨h.1.symm, fun _ hk => h.2 hk.symm⟩

theorem isLeast_keep (x : α) (h : IsLeast {k | Aligned k s t} d) :
    IsLeast {k | Aligned k (x :: s) (x :: t)} d := by
  refine ⟨h.1.keep x, fun k hk => ?_⟩
  obtain ⟨j, hj, ha⟩ := hk.tails
  exact (h.2 ha).trans hj

theorem isLeast_step {a b c : Nat} (hne : x ≠ y) (ha : IsLeast {k | Aligned k (x :: s) t} a)
    (hb : IsLeast {k | Aligned k s (y :: t)} b) (hc : IsLeast {k | Aligned k s t} c) :
    IsLeast {k | Aligned k (x :: s) (y :: t)} (1 + min (min a b) c) := by
  constructor
  · rw [Nat.add_comm]
    rcases min_choice (min a b) c with h | h
    · rcases min_choice a b with h' | h'
      · rw [h, h']
        exact ha.1.insert y
      · rw [h, h']
        exact hb.1.delete x
    · rw [h]
      exact hc.1.replace x y
  · intro k hk
    cases hk with
    | insert _ h =>
      have hle := ha.2 h
      omega
    | delete _ h =>
      have hle := hb.2 h
      omega
    | replace _ _ h =>
      have hle := hc.2 h
      omega
    | keep _ h => exact absurd rfl hne

/-- The cheapest way of reading two lists side by side is the shortest way of editing one into the
other. -/
theorem isLeast_edits (h : IsLeast {k | Aligned k s t} d) : IsLeast {k | Edits k s t} d := by
  refine ⟨h.1.edits, fun k hk => ?_⟩
  obtain ⟨j, hj, ha⟩ := Aligned.of_edits hk
  exact (h.2 ha).trans hj

end C11AndC.Library
