import Mathlib.Data.List.Nodup
import Mathlib.Data.List.Perm.Subperm

namespace C11AndC.Library

variable {α : Type}

/-- The list has what satisfies `P`, and has it once. -/
structure Enumerates (l : List α) (P : α → Prop) : Prop where
  nodup : l.Nodup
  mem : ∀ x, x ∈ l ↔ P x

section Enumerations

variable {l m : List α} {P Q : α → Prop}

theorem enumerates_nil (h : ∀ x, ¬ P x) : Enumerates [] P :=
  ⟨List.nodup_nil, fun x => iff_of_false List.not_mem_nil (h x)⟩

theorem enumerates_singleton (x : α) : Enumerates [x] (· = x) :=
  ⟨List.nodup_singleton x, fun _ => List.mem_singleton⟩

theorem enumerates_congr (h : ∀ x, P x ↔ Q x) (hl : Enumerates l P) : Enumerates l Q :=
  ⟨hl.nodup, fun x => (hl.mem x).trans (h x)⟩

theorem enumerates_append (hl : Enumerates l P) (hm : Enumerates m Q) (h : ∀ x, P x → ¬ Q x) :
    Enumerates (l ++ m) (fun x => P x ∨ Q x) := by
  refine ⟨List.nodup_append.mpr ⟨hl.nodup, hm.nodup, ?_⟩, fun x => ?_⟩
  · rintro x hx _ hy rfl
    exact h x ((hl.mem x).mp hx) ((hm.mem x).mp hy)
  · rw [List.mem_append, hl.mem, hm.mem]

end Enumerations

/-- The elements of the list are from `X` and `Y` in turn, the first one from `X`. -/
inductive Alternates : List α → List α → List α → Prop
  | nil (X Y : List α) : Alternates X Y []
  | cons {X Y s : List α} {x : α} (hx : x ∈ X) (h : Alternates Y X s) : Alternates X Y (x :: s)

section Sequences

variable {X X' Y Y' s : List α} {x : α}

theorem alternates_cons : Alternates X Y (x :: s) ↔ x ∈ X ∧ Alternates Y X s :=
  ⟨fun h => by cases h with | cons hx h => exact ⟨hx, h⟩, fun ⟨hx, h⟩ => .cons hx h⟩

theorem alternates_congr (hX : ∀ x ∈ s, x ∈ X ↔ x ∈ X') (hY : ∀ x ∈ s, x ∈ Y ↔ x ∈ Y') :
    Alternates X Y s ↔ Alternates X' Y' s := by
  induction s generalizing X X' Y Y' with
  | nil => exact iff_of_true (.nil X Y) (.nil X' Y')
  | cons x s ih =>
    obtain ⟨hx, hX⟩ := List.forall_mem_cons.mp hX
    rw [alternates_cons, alternates_cons, hx, ih (List.forall_mem_cons.mp hY).2 hX]

theorem alternates_snoc (h : Alternates X Y s) (hX : s.length % 2 = 0 → x ∈ X) (hY : s.length % 2 ≠ 0 → x ∈ Y) :
    Alternates X Y (s ++ [x]) := by
  induction h with
  | nil X Y => exact .cons (hX rfl) (.nil Y X)
  | @cons X Y s y hy _ ih =>
    rw [List.length_cons] at hX hY
    exact .cons hy (ih (fun he => hY (by omega)) fun he => hX (by omega))

theorem alternates_subset (h : Alternates X Y s) : s ⊆ X ++ Y := by
  induction h with
  | nil X Y => exact List.nil_subset _
  | @cons X Y s x hx _ ih =>
    refine List.cons_subset.mpr ⟨List.mem_append_left _ hx, fun y hy => ?_⟩
    exact List.mem_append.mpr (List.mem_append.mp (ih hy)).symm

theorem alternates_length (h : Alternates X Y s) (hs : s.Nodup) : s.length ≤ X.length + Y.length := by
  rw [← List.length_append]
  exact (hs.subperm (alternates_subset h)).length_le

end Sequences

end C11AndC.Library
