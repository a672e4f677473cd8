import Mathlib.Data.Nat.Basic

namespace C11AndC.Library

/-- The digits that do not carry, and the carries one place further up. -/
theorem xor_add_two_mul_and (x y : Nat) : (x ^^^ y) + 2 * (x &&& y) = x + y := by
  induction x using Nat.strong_induction_on generalizing y with
  | _ x ih =>
    by_cases hx : x = 0
    · subst hx
      simp only [Nat.zero_xor, Nat.zero_and, Nat.mul_zero, Nat.add_zero, Nat.zero_add]
    · have hhalf := ih (x / 2) (by omega) (y / 2)
      have hxor : (x ^^^ y) / 2 = x / 2 ^^^ y / 2 := Nat.xor_div_two
      have hand : (x &&& y) / 2 = x / 2 &&& y / 2 := Nat.and_div_two
      have hxor' := Nat.xor_mod_two_eq_one (a := x) (b := y)
      have hand' := Nat.and_mod_two_eq_one (a := x) (b := y)
      omega

section Words

variable {w : Nat} {a b : BitVec w} {i : Nat}

theorem xor_add_shiftLeft_and (a b : BitVec w) : (a ^^^ b) + (a &&& b) <<< 1 = a + b := by
  apply BitVec.eq_of_toNat_eq
  rw [BitVec.toNat_add, BitVec.toNat_add, BitVec.toNat_xor, BitVec.toNat_shiftLeft, BitVec.toNat_and,
    Nat.shiftLeft_eq, Nat.pow_one, Nat.add_mod_mod, Nat.mul_comm, xor_add_two_mul_and]

/-- The lowest `i` digits are zero. -/
def Cleared (i : Nat) (b : BitVec w) : Prop := ∀ j < i, b.getLsbD j = false

theorem cleared_zero (b : BitVec w) : Cleared 0 b := fun j hj => absurd hj (Nat.not_lt_zero j)

theorem eq_zero_of_cleared (h : Cleared w b) : b = 0 := by
  apply BitVec.eq_of_getLsbD_eq
  intro j hj
  rw [h j hj]
  exact BitVec.getLsbD_zero.symm

/-- A carry comes from a digit of both numbers and goes one place up. -/
theorem cleared_carry (a : BitVec w) (h : Cleared i b) : Cleared (i + 1) ((a &&& b) <<< 1) := by
  intro j hj
  rw [BitVec.getLsbD_shiftLeft, BitVec.getLsbD_and]
  by_cases hj0 : j < 1
  · simp [hj0]
  · rw [h (j - 1) (by omega), Bool.and_false, Bool.and_false]

end Words

end C11AndC.Library
