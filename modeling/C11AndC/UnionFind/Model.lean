import Mathlib.Data.List.Basic

namespace C11AndC.UnionFind

structure Edge where
  src : Int
  dest : Int

structure Graph where
  V : Nat
  E : Nat
  edge : List Edge

/-- An element of an array, which must be there. -/
def entry (parent : List Int) (i : Int) : Option Int := if 0 ≤ i then parent[i.toNat]? else none

def assign (parent : List Int) (i v : Int) : Option (List Int) :=
  if 0 ≤ i ∧ i.toNat < parent.length then some (parent.set i.toNat v) else none

/-- The links are followed for at most the given number of calls. -/
def find : Nat → List Int → Int → Option Int
  | 0, _, _ => none
  | steps + 1, parent, i => do
    let p ← entry parent i
    if p = -1 then return i else find steps parent p

def Union (steps : Nat) (parent : List Int) (x y : Int) : Option (List Int) := do
  let xset ← find steps parent x
  let yset ← find steps parent y
  assign parent xset yset

/-- The loop over the edges with the given numbers. -/
def rounds (steps : Nat) (graph : Graph) : List Nat → List Int → Option Int
  | [], _ => some 0
  | i :: is, parent => do
    let e ← graph.edge[i]?
    let x ← find steps parent e.src
    let y ← find steps parent e.dest
    if x = y then return 1 else rounds steps graph is (← Union steps parent x y)

/-- All bytes of `parent` are set to those of -1. -/
def isCycle (steps : Nat) (graph : Graph) : Option Int :=
  rounds steps graph (List.range graph.E) (List.replicate graph.V (-1))

end C11AndC.UnionFind
