import Mathlib.Data.List.FinRange
import Mathlib.Logic.Function.Basic
import Mathlib.Order.Lattice
import C11AndC.Library.Wrap

namespace C11AndC.Articulation

open C11AndC.Library

/-- The adjacency lists of the vertices below `V`. -/
structure Graph (V : Nat) where
  adj : Fin V → List (Fin V)

variable {V : Nat}

def newGraph (V : Nat) : Graph V := ⟨fun _ => []⟩

def pushBack (g : Graph V) (v w : Fin V) : Graph V := ⟨Function.update g.adj v (g.adj v ++ [w])⟩

def addEdge (g : Graph V) (v w : Fin V) : Graph V := pushBack (pushBack g v w) w v

/-- The graph after the calls of `addEdge`. -/
def build (edges : List (Fin V × Fin V)) : Graph V :=
  edges.foldl (fun g e => addEdge g e.1 e.2) (newGraph V)

/-- The arrays of one search and the static counter; `none` is NIL. -/
structure Search (V : Nat) where
  visited : Fin V → Bool
  disc : Fin V → Int
  low : Fin V → Int
  parent : Fin V → Option (Fin V)
  ap : Fin V → Bool
  time : Int

def stamp (u : Fin V) (time : Int) (s : Search V) : Search V :=
  { s with
    visited := Function.update s.visited u true
    disc := Function.update s.disc u time
    low := Function.update s.low u time
    time := time }

/-- The beginning of `apUtil`, before its loop. -/
def enter (u : Fin V) (s : Search V) : Option (Search V) := do
  let time ← checked (s.time + 1)
  return stamp u time s

def setParent (v u : Fin V) (s : Search V) : Search V :=
  { s with parent := Function.update s.parent v (some u) }

def lower (u : Fin V) (b : Int) (s : Search V) : Search V :=
  { s with low := Function.update s.low u (min (s.low u) b) }

def mark (u : Fin V) (s : Search V) : Search V := { s with ap := Function.update s.ap u true }

def judgeRoot (u : Fin V) (children : Nat) (s : Search V) : Search V :=
  if s.parent u = none ∧ children > 1 then mark u s else s

def judgeInner (u v : Fin V) (s : Search V) : Search V :=
  if s.parent u ≠ none ∧ s.low v ≥ s.disc u then mark u s else s

/-- What is done in the loop of `u` after the call for the child `v`. -/
def judge (u v : Fin V) (children : Nat) (s : Search V) : Search V :=
  judgeInner u v (judgeRoot u children (lower u (s.low v) s))

/-- The loop over the rest of the adjacency list of `u`. -/
def apLoop (call : Fin V → Search V → Option (Search V)) (u : Fin V) :
    List (Fin V) → Nat → Search V → Option (Search V)
  | [], _, s => some s
  | v :: vs, children, s =>
    if s.visited v = false then do
      let s ← call v (setParent v u s)
      apLoop call u vs (children + 1) (judge u v (children + 1) s)
    else if some v ≠ s.parent u then apLoop call u vs children (lower u (s.disc v) s)
    else apLoop call u vs children s

/-- The first argument bounds the depth of the calls. -/
def apUtil (g : Graph V) : Nat → Fin V → Search V → Option (Search V)
  | 0, _, _ => none
  | n + 1, u, s => do
    let s ← enter u s
    apLoop (apUtil g n) u (g.adj u) 0 s

/-- The loop of `ap` over the vertices. -/
def apRoots (g : Graph V) (n : Nat) : List (Fin V) → Search V → Option (Search V)
  | [], s => some s
  | i :: is, s =>
    if s.visited i = false then do
      let s ← apUtil g n i s
      apRoots g n is s
    else apRoots g n is s

/-- Nothing is visited; `disc` and `low` are not initialised. -/
def start (time : Int) (disc low : Fin V → Int) : Search V :=
  ⟨fun _ => false, disc, low, fun _ => none, fun _ => false, time⟩

/-- What is printed, and the counter that is left. -/
def ap (g : Graph V) (n : Nat) (time : Int) (disc low : Fin V → Int) : Option (List (Fin V) × Int) := do
  let s ← apRoots g n (List.finRange V) (start time disc low)
  return ((List.finRange V).filter s.ap, s.time)

end C11AndC.Articulation
