import C11AndC.Library.Carry

namespace C11AndC.ThreadedTree

open C11AndC.Library

/-- The loop, with the number of its rounds that are allowed. -/
def getSum : Nat → BitVec 32 → BitVec 32 → Option (BitVec 32)
  | 0, a, b => if b ≠ 0 then none else some a
  | steps + 1, a, b =>
    if b ≠ 0 then
      let c := a &&& b
      let a := a ^^^ b
      let b := c <<< 1
      getSum steps a b
    else some a

/-- After `i` rounds the carries have left the lowest `i` digits. -/
theorem getSum_spec {steps i : Nat} {a b : BitVec 32} (h : Cleared i b) (hi : i + steps = 32) :
    getSum steps a b = some (a + b) := by
  induction steps generalizing i a b with
  | zero =>
    obtain rfl := hi
    obtain rfl := eq_zero_of_cleared h
    exact congrArg some (BitVec.add_zero a).symm
  | succ steps ih =>
    rw [getSum]
    by_cases hb : b ≠ 0
    · rw [if_pos hb, ih (cleared_carry a h) (by omega), xor_add_shiftLeft_and]
    · obtain rfl := not_not.mp hb
      exact congrArg some (BitVec.add_zero a).symm

/-- The loop ends after at most 32 rounds with the sum of the two numbers in 32 bits. -/
theorem getSum_sum (a b : BitVec 32) : getSum 32 a b = some (BitVec.ofInt 32 (a.toInt + b.toInt)) := by
  rw [getSum_spec (cleared_zero b) rfl, BitVec.ofInt_add, BitVec.ofInt_toInt, BitVec.ofInt_toInt]

example : (getSum 32 (-7) 5).map BitVec.toInt = some (-2) := by decide

end C11AndC.ThreadedTree
