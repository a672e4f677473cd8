import C11AndC.Library.Grid
import C11AndC.Library.Wrap

namespace C11AndC.LongestPath

open C11AndC.Library

/-- A guard, and behind it the comparison of `mat[i][j] + 1` with another entry. -/
def isNext (guard : Prop) [Decidable guard] (mat : Grid Int) (i j i' j' : Nat) : Option Bool :=
  if guard then do
    let v ← getAt mat i j
    let next ← checked (v + 1)
    let w ← getAt mat i' j'
    return decide (next = w)
  else
    some false

/-- `return dp[i][j] = 1 + r`, where `r` comes with what a call has left in the table. -/
def memoise (i j : Nat) (r : Int × Grid Int) : Option (Int × Grid Int) := do
  let length ← checked (1 + r.1)
  let dp ← putAt r.2 i j length
  return (length, dp)

def findLongestFromACell (n : Nat) (mat : Grid Int) : Nat → Nat → Nat → Grid Int → Option (Int × Grid Int)
  | 0, _, _, _ => none
  | steps + 1, i, j, dp => do
    let d ← getAt dp i j
    if d ≠ -1 then
      return (d, dp)
    else
      let right ← isNext (j < n - 1) mat i j i (j + 1)
      if right then
        (findLongestFromACell n mat steps i (j + 1) dp).bind (memoise i j)
      else
        let left ← isNext (j > 0) mat i j i (j - 1)
        if left then
          (findLongestFromACell n mat steps i (j - 1) dp).bind (memoise i j)
        else
          let up ← isNext (i > 0) mat i j (i - 1) j
          if up then
            (findLongestFromACell n mat steps (i - 1) j dp).bind (memoise i j)
          else
            let down ← isNext (i < n - 1) mat i j (i + 1) j
            if down then
              (findLongestFromACell n mat steps (i + 1) j dp).bind (memoise i j)
            else
              let dp ← putAt dp i j 1
              return (1, dp)

/-- A cell whose entry is still `-1` is searched. -/
def search (n : Nat) (mat : Grid Int) (steps i j : Nat) (dp : Grid Int) : Option (Grid Int) := do
  let d ← getAt dp i j
  if d = -1 then
    (findLongestFromACell n mat steps i j dp).map Prod.snd
  else
    return dp

/-- The body of the inner loop. -/
def visit (n : Nat) (mat : Grid Int) (steps i j : Nat) (s : Int × Grid Int) : Option (Int × Grid Int) := do
  let dp ← search n mat steps i j s.2
  let d ← getAt dp i j
  return (max s.1 d, dp)

/-- The answer and what is left in `dp`. -/
def finLongestOverAll (n : Nat) (mat : Grid Int) (steps : Nat) : Option (Int × Grid Int) :=
  (List.range n).foldlM (fun s i => (List.range n).foldlM (fun s j => visit n mat steps i j s) s)
    (1, uniform n (-1))

end C11AndC.LongestPath
