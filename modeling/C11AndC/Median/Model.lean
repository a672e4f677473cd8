import C11AndC.Library.Runs
import Mathlib.Logic.Function.Basic

namespace C11AndC.Median

def MAX_HEAP_SIZE : Nat := 128

/-- The comparators `Greater` and `Smaller`. -/
inductive Comp where
  | greater | smaller
  deriving DecidableEq

def Comp.holds : Comp → Int → Int → Bool
  | .greater, a, b => a > b
  | .smaller, a, b => a < b

def average (a b : Int) : Int := (a + b).tdiv 2

/-- `count` is `heapSize + 1`. -/
structure Heap where
  A : Nat → Int
  comp : Comp
  count : Nat

def parent (i : Nat) : Option Nat := if i = 0 then none else some ((i - 1) / 2)

def top (h : Heap) : Int := if h.count = 0 then -1 else h.A 0

def exch (h : Heap) (i j : Nat) : Heap :=
  { h with A := Function.update (Function.update h.A i (h.A j)) j (h.A i) }

/-- The calls of `heapify` one inside of the other; the indices get smaller. -/
def heapifyRounds : Nat → Nat → Heap → Heap
  | 0, _, h => h
  | n + 1, i, h =>
    match parent i with
    | none => h
    | some p => if h.comp.holds (h.A i) (h.A p) then heapifyRounds n p (exch h i p) else h

def heapify (i : Nat) (h : Heap) : Heap := heapifyRounds i i h

def deleteTop (h : Heap) : Int × Heap :=
  if h.count = 0 then (-1, h)
  else
    let last := h.count - 1
    let h' := { exch h 0 last with count := last }
    match parent last with
    | none => (h.A 0, h')
    | some p => (h.A 0, heapify p h')

/-- There is no place for an element behind the array. -/
def insertHelper (h : Heap) (key : Int) : Option Heap :=
  if h.count ≤ MAX_HEAP_SIZE then
    if h.count < MAX_HEAP_SIZE then
      some (heapify h.count { h with A := Function.update h.A h.count key, count := h.count + 1 })
    else none
  else some h

structure State where
  m : Int
  left : Heap
  right : Heap

def getMedian (s : State) (e : Int) : Option State :=
  let l := s.left
  let r := s.right
  if l.count > r.count then do
    let (l, r) ←
      if e < s.m then do
        let (x, l) := deleteTop l
        let r ← insertHelper r x
        pure (← insertHelper l e, r)
      else pure (l, ← insertHelper r e)
    return ⟨average (top l) (top r), l, r⟩
  else if l.count = r.count then
    if e < s.m then do
      let l ← insertHelper l e
      return ⟨top l, l, r⟩
    else do
      let r ← insertHelper r e
      return ⟨top r, l, r⟩
  else do
    let (l, r) ←
      if e < s.m then pure (← insertHelper l e, r)
      else do
        let (x, r) := deleteTop r
        let l ← insertHelper l x
        pure (l, ← insertHelper r e)
    return ⟨average (top l) (top r), l, r⟩

/-- The arrays are not initialised. -/
def start (A B : Nat → Int) : State := ⟨0, ⟨A, .greater, 0⟩, ⟨B, .smaller, 0⟩⟩

/-- The rest of the list, and what is printed for it. -/
def printRounds : State → List Int → Option (List Int)
  | _, [] => some []
  | s, e :: es => do
    let s ← getMedian s e
    let out ← printRounds s es
    return s.m :: out

def printMedian (A B : Nat → Int) (xs : List Int) : Option (List Int) := printRounds (start A B) xs

end C11AndC.Median
