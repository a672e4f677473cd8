import Mathlib.Data.List.Chain
import Mathlib.Order.Bounds.Basic

namespace C11AndC.Library

variable {C : Type} {R : C → C → Prop} {c d : C} {k : Nat}

/-- The greatest number of points on a way along `R` from `c`. -/
def Longest (R : C → C → Prop) (c : C) (k : Nat) : Prop :=
  IsGreatest {k | ∃ cs : List C, (c :: cs).IsChain R ∧ (c :: cs).length = k} k

theorem longest_stop (h : ∀ d, ¬ R c d) : Longest R c 1 := by
  refine ⟨⟨[], .singleton c, rfl⟩, ?_⟩
  rintro _ ⟨cs, hcs, rfl⟩
  cases cs with
  | nil => exact Nat.le_refl 1
  | cons d cs => exact absurd (List.isChain_cons_cons.mp hcs).1 (h d)

/-- Where there is one way to go on, the longest way takes it. -/
theorem longest_step (hcd : R c d) (hd : ∀ e, R c e → e = d) (h : Longest R d k) : Longest R c (1 + k) := by
  obtain ⟨⟨cs, hcs, rfl⟩, hmax⟩ := h
  refine ⟨⟨d :: cs, .cons_cons hcd hcs, Nat.add_comm ..⟩, ?_⟩
  rintro _ ⟨es, hes, rfl⟩
  cases es with
  | nil => exact Nat.le_add_right ..
  | cons e es =>
    obtain ⟨hce, hes⟩ := List.isChain_cons_cons.mp hes
    obtain rfl := hd e hce
    have hle := hmax ⟨es, hes, rfl⟩
    rw [List.length_cons, Nat.add_comm]
    exact Nat.add_le_add_left hle 1

theorem longest_unique {k l : Nat} (h : Longest R c k) (h' : Longest R c l) : k = l := IsGreatest.unique h h'

end C11AndC.Library
