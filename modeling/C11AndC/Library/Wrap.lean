import Mathlib.Data.Int.Init
import Mathlib.Tactic.SplitIfs

namespace C11AndC.Library

def INT_MIN : Int := -2147483648

def INT_MAX : Int := 2147483647

/-- A value of type `int`. -/
def IsInt (x : Int) : Prop := INT_MIN ≤ x ∧ x ≤ INT_MAX

/-- What is left of a sum in 32 bits. -/
def wrap (x : Int) : Int := x.bmod 4294967296

variable {x y : Int}

instance : DecidablePred IsInt := fun x => inferInstanceAs (Decidable (INT_MIN ≤ x ∧ x ≤ INT_MAX))

/-- A value of type `int`; what does not fit is undefined. -/
def checked (x : Int) : Option Int := if IsInt x then some x else none

theorem checked_of_isInt (h : IsInt x) : checked x = some x := if_pos h

theorem checked_eq_some : checked x = some y ↔ IsInt x ∧ x = y := by
  rw [checked]
  split_ifs with h
  · rw [Option.some.injEq]
    exact (and_iff_right h).symm
  · exact iff_of_false nofun fun hx => h hx.1

theorem wrap_eq (h : IsInt x) : wrap x = x := by
  obtain ⟨hmin, hmax⟩ := h
  rw [INT_MIN] at hmin
  rw [INT_MAX] at hmax
  exact Int.bmod_eq_of_le (by omega) (by omega)

theorem isInt_wrap (x : Int) : IsInt (wrap x) := by
  have hlow := Int.le_bmod (x := x) (m := 4294967296) (by omega)
  have hhigh := Int.bmod_lt (x := x) (m := 4294967296) (by omega)
  rw [IsInt, INT_MIN, INT_MAX, wrap]
  omega

theorem wrap_eq_iff : wrap x = x ↔ IsInt x :=
  ⟨fun h => h ▸ isInt_wrap x, wrap_eq⟩

@[simp] theorem wrap_wrap_add (x y : Int) : wrap (wrap x + y) = wrap (x + y) :=
  Int.bmod_add_bmod

end C11AndC.Library
