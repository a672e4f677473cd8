import Mathlib.Data.List.Basic

namespace C11AndC.Cyclic

/-- An assignment to an element of an array, which must be there. -/
def assign (f : List Nat) (i v : Nat) : Option (List Nat) :=
  if i < f.length then some (f.set i v) else none

/-- The inner loop, which walks along a cycle; `i` is the element before `g`. -/
def invertCycle : Nat → List Nat → List Nat → Nat → Nat → Option (List Nat)
  | 0, _, _, _, _ => none
  | steps + 1, tp, f, i, g => do
    if (← tp[g]?) = 1 then
      assign f g i
    else
      let t ← f[g]?
      let f ← assign f g i
      invertCycle steps tp f g t

/-- One round of the loop over `k`, on the permutation and the tags. -/
def invertRound (steps : Nat) (s : List Nat × List Nat) (k : Nat) : Option (List Nat × List Nat) := do
  let (f, tp) := s
  if (← tp[k]?) = 1 then
    return (f, tp)
  else
    let tp ← assign tp k 1
    let f ← invertCycle steps tp f k (← f[k]?)
    return (f, tp)

def makeInverse (steps : Nat) (f : List Nat) (n : Nat) (bp : List Nat) : Option (List Nat × List Nat) :=
  (List.range n).foldlM (invertRound steps) (f, bp)

def isInverse (f g : List Nat) (n : Nat) : Bool :=
  (List.range n).all fun k => (g[k]?.bind fun i => f[i]?) == some k

/-- The tags that `clear` leaves. -/
def cleared (n : Nat) : List Nat := List.replicate n 0

end C11AndC.Cyclic
