import C11AndC.Library.SortedPairs
import Mathlib.Algebra.Order.Ring.Int

namespace C11AndC.SortedArrays

open C11AndC.Library

/-- Where the loop is in the two arrays, and what is printed so far. -/
structure Vars where
  i : Nat
  j : Nat
  out : List Int

/-- The loop of both functions; `single` is printed for an element that the other array does not have. -/
def walk (single : Int → List Int) (arr1 arr2 : List Int) (m n : Nat) (vars : Vars) : Option Vars :=
  if vars.i < m ∧ vars.j < n then do
    let x ← arr1[vars.i]?
    let y ← arr2[vars.j]?
    if x < y then
      walk single arr1 arr2 m n ⟨vars.i + 1, vars.j, vars.out ++ single x⟩
    else if y < x then
      walk single arr1 arr2 m n ⟨vars.i, vars.j + 1, vars.out ++ single y⟩
    else
      walk single arr1 arr2 m n ⟨vars.i + 1, vars.j + 1, vars.out ++ [y]⟩
  else some vars
termination_by (m - vars.i) + (n - vars.j)

section Loops

variable {arr1 arr2 arr : List Int} {i j : Nat} {out : List Int}

variable {single : Int → List Int} {R : List Int → List Int → List Int → Prop}

/-- The loop ends in range, where one of the arrays is used up, and has put out what `R` asks for in front
of the rest. -/
def Ends (R : List Int → List Int → List Int → Prop) (arr1 arr2 : List Int) (i j : Nat) (out : List Int)
    (result : Option Vars) : Prop :=
  ∃ i' j' l, result = some ⟨i', j', out ++ l⟩ ∧ i' ≤ arr1.length ∧ j' ≤ arr2.length ∧
    (arr1.drop i' = [] ∨ arr2.drop j' = []) ∧
    ∀ rest, R (arr1.drop i') (arr2.drop j') rest → R (arr1.drop i) (arr2.drop j) (l ++ rest)

theorem Ends.step {i' j' : Nat} {l : List Int} {result : Option Vars}
    (h : Ends R arr1 arr2 i' j' (out ++ l) result)
    (hR : ∀ rest, R (arr1.drop i') (arr2.drop j') rest → R (arr1.drop i) (arr2.drop j) (l ++ rest)) :
    Ends R arr1 arr2 i j out result := by
  obtain ⟨i₂, j₂, l₂, hrun, hi, hj, hend, hkeep⟩ := h
  refine ⟨i₂, j₂, l ++ l₂, by rw [hrun, List.append_assoc], hi, hj, hend, fun rest h => ?_⟩
  rw [List.append_assoc]
  exact hR _ (hkeep rest h)

end Loops

end C11AndC.SortedArrays
