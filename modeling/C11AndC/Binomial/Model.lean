import C11AndC.Library.Program
import C11AndC.Library.Runs

namespace C11AndC.Binomial

open C11AndC.Library

structure Node where
  n : Int
  degree : Nat
  parent : Nat
  child : Nat
  sibling : Nat
  deriving DecidableEq

/-- The members of the class that its functions use. -/
structure BinomialHeap where
  H : Nat
  Hr : Nat
  deriving DecidableEq

abbrev Prog := Program Node BinomialHeap

def initializeheap : Nat := 0

def binomialLink (y z : Nat) : Prog Unit := do
  store y ({ · with parent := z })
  let child := (← load z).child
  store y ({ · with sibling := child })
  store z ({ · with child := y })
  store z (fun v => { v with degree := v.degree + 1 })

/-- A new node with its key; the rest is as `new` found it. -/
def createNode (garbage : Node) (k : Int) : Prog Nat := new { garbage with n := k }

/-- One round of the loop of `Merge`. -/
def mergeRound (p : Nat × Nat) : Prog ((Nat × Nat) ⊕ Unit) := do
  let (y, z) := p
  if y ≠ 0 ∧ z ≠ 0 then
    let v ← load y
    let w ← load z
    if v.degree < w.degree then
      return .inl (v.sibling, z)
    else if v.degree = w.degree then
      store y ({ · with sibling := z })
      return .inl (v.sibling, z)
    else
      store z ({ · with sibling := y })
      return .inl (y, w.sibling)
  else
    return .inr ()

/-- The head that `Merge` chooses. -/
def mergeHead (y z : Nat) : Prog Nat := do
  if y ≠ 0 then
    if z ≠ 0 then
      if (← load y).degree ≤ (← load z).degree then return y else return z
    else
      return y
  else
    return z

def merge (steps H1 H2 : Nat) : Prog Nat := do
  let H ← mergeHead H1 H2
  loop mergeRound steps (H1, H2)
  return H

/-- The variables of the loop of `Union`. -/
structure Cursor where
  H : Nat
  prev : Nat
  x : Nat
  next : Nat

/-- Whether `Union` goes on to the next root. -/
def passes (x next : Node) : Prog Bool := do
  if x.degree ≠ next.degree then
    return true
  else if next.sibling ≠ 0 then
    return (← load next.sibling).degree = x.degree
  else
    return false

/-- Let the root before, or the head, lead to `next`. -/
def relink (c : Cursor) : Prog Nat := do
  if c.prev = 0 then
    return c.next
  else
    store c.prev ({ · with sibling := c.next })
    return c.H

/-- One round of the loop of `Union`. -/
def unionRound (c : Cursor) : Prog (Cursor ⊕ Nat) := do
  if c.next ≠ 0 then
    let v ← load c.x
    let w ← load c.next
    if ← passes v w then
      return .inl ⟨c.H, c.x, c.next, w.sibling⟩
    else if v.n ≤ w.n then
      store c.x ({ · with sibling := w.sibling })
      binomialLink c.next c.x
      return .inl ⟨c.H, c.prev, c.x, (← load c.x).sibling⟩
    else
      let H ← relink c
      binomialLink c.x c.next
      return .inl ⟨H, c.prev, c.next, (← load c.next).sibling⟩
  else
    return .inr c.H

def union (steps H1 H2 : Nat) : Prog Nat := do
  let H ← merge steps H1 H2
  if H = 0 then
    return H
  loop unionRound steps ⟨H, 0, H, (← load H).sibling⟩

def insert (steps H x : Nat) : Prog Nat := do
  store x ({ · with parent := 0 })
  store x ({ · with child := 0 })
  store x ({ · with sibling := 0 })
  store x ({ · with degree := 0 })
  union steps H x

/-- The variables of the loop of `Extract_Min`. -/
structure Scan where
  min : Int
  t : Nat
  x : Nat
  p : Nat

def scanRound (c : Scan) : Prog (Scan ⊕ (Nat × Nat)) := do
  let v ← load c.p
  if v.sibling ≠ 0 then
    let w ← load v.sibling
    if w.n < c.min then
      return .inl ⟨w.n, c.p, v.sibling, v.sibling⟩
    else
      return .inl ⟨c.min, c.t, c.x, v.sibling⟩
  else
    return .inr (c.t, c.x)

/-- Take the root `x` out of the list, which begins at `H1`; `t` is the root before. -/
def unlink (H1 t x : Nat) : Prog Nat := do
  let v ← load x
  if t = 0 ∧ v.sibling = 0 then
    return 0
  else if t = 0 then
    return v.sibling
  else if (← load t).sibling = 0 then
    return H1
  else
    store t ({ · with sibling := v.sibling })
    return H1

def revertList : Nat → Nat → Prog Unit
  | 0, _ => outOfSteps
  | n + 1, y => do
    let v ← load y
    if v.sibling ≠ 0 then
      revertList n v.sibling
      store (← load y).sibling ({ · with sibling := y })
    else
      setReg ({ · with Hr := y })

/-- Make the children of the extracted root, if it has any, the list at `Hr`. -/
def revertChildren (steps child : Nat) : Prog Unit := do
  if child ≠ 0 then
    revertList steps child
    store child ({ · with sibling := 0 })

def extractMin (steps H1 : Nat) : Prog Nat := do
  setReg ({ · with Hr := 0 })
  if H1 = 0 then
    return H1
  let v ← load H1
  let (t, x) ← loop scanRound steps ⟨v.n, 0, H1, H1⟩
  let H1 ← unlink H1 t x
  revertChildren steps (← load x).child
  let H ← union steps H1 (← getReg).Hr
  setReg ({ · with H := H })
  return x

def search : Nat → Nat → Int → Prog Nat
  | 0, _, _ => outOfSteps
  | steps + 1, x, k => do
    let v ← load x
    if v.n = k then
      return x
    let p ← if v.child ≠ 0 then search steps v.child k else pure 0
    if v.sibling ≠ 0 ∧ p = 0 then
      search steps v.sibling k
    else
      return p

def siftRound (p : Nat × Nat) : Prog ((Nat × Nat) ⊕ Unit) := do
  let (y, z) := p
  if z ≠ 0 then
    let v ← load y
    let w ← load z
    if v.n < w.n then
      store y ({ · with n := w.n })
      store z ({ · with n := v.n })
      return .inl (z, w.parent)
    else
      return .inr ()
  else
    return .inr ()

/-- The key `i` is replaced by `k`; the answer is whether it was. -/
def decreaseKey (steps H : Nat) (i k : Int) : Prog Bool := do
  let p ← search steps H i
  if p = 0 then
    return false
  else if k > (← load p).n then
    return false
  else
    store p ({ · with n := k })
    loop siftRound steps (p, (← load p).parent)
    return true

/-- The keys of the roots, as `Display` prints them. -/
def display : Nat → Nat → Prog (List Int)
  | 0, _ => outOfSteps
  | steps + 1, p => do
    if p = 0 then
      return []
    let v ← load p
    return v.n :: (← display steps v.sibling)

def insertKey (steps H : Nat) (garbage : Node) (k : Int) : Prog Nat := do
  let x ← createNode garbage k
  insert steps H x

/-- Extract a node and look at its key. -/
def extractKey (steps H : Nat) : Prog (Option Int) := do
  let x ← extractMin steps H
  if x = 0 then
    return none
  else
    return some (← load x).n

/-- A heap that is used through its head, which is what `Insert` returned or what `Extract_Min`
stored last. The last two lists record the keys that should be in the heap, and what each
`Extract_Min` returned with the keys that were there. -/
structure State where
  store : Store Node BinomialHeap
  head : Nat
  crashed : Bool
  keys : List Int
  extracted : List (Option Int × List Int)

def init : State := ⟨⟨Memory.empty, ⟨initializeheap, initializeheap⟩⟩, initializeheap, false, [], []⟩

/-- More rounds than any loop over the nodes needs. -/
def State.steps (s : State) : Nat := s.store.mem.next + 1

inductive Operation where
  | insert (garbage : Node) (k : Int)
  | extractMin
  deriving DecidableEq

/-- Run a part of the program on the heap; a fault ends it. -/
def within {β : Type} (s : State) (p : Prog β) (k : β → State → State) : State :=
  match p s.store with
  | .ok (r, t) => k r { s with store := t }
  | .error _ => { s with crashed := true }

def perform (s : State) : Operation → State
  | .insert garbage k => within s (insertKey s.steps s.head garbage k) fun H s =>
      { s with head := H, keys := k :: s.keys }
  | .extractMin => within s (extractKey s.steps s.head) fun r s => { s with
      head := if r = none then s.head else s.store.reg.H
      keys := r.elim s.keys s.keys.erase
      extracted := s.extracted ++ [(r, s.keys)] }

def step (s : State) (a : Operation) : Option State := if s.crashed then none else some (perform s a)

/-- The operations, and `Decrease_key` of a key that is there to one that is not greater. -/
inductive Command where
  | operation (a : Operation)
  | decreaseKey (i k : Int)
  deriving DecidableEq

/-- `main`, where `head` is its local variable `H`. What is recorded besides is whether it has
extracted a node since the last insertion. -/
structure Main where
  heap : State
  extracting : Bool

/-- The choices 1, 2 and 5 of the menu. -/
inductive Choice where
  | insert (garbage : Node) (k : Int)
  | extractMin
  | display
  deriving DecidableEq

/-- The keys here are those of a queue that gives out its least key each time. -/
def mainExtract (s : Main) : Main :=
  match extractKey s.heap.steps s.heap.head s.heap.store with
  | .ok (r, t) => ⟨{ s.heap with
      store := t
      keys := s.heap.keys.min?.elim s.heap.keys s.heap.keys.erase
      extracted := s.heap.extracted ++ [(r, s.heap.keys)] }, s.extracting || r.isSome⟩
  | .error _ => { s with heap := { s.heap with crashed := true } }

def mainStep (s : Main) (c : Choice) : Option Main :=
  if s.heap.crashed then none
  else match c with
  | .insert garbage k => some ⟨perform s.heap (.insert garbage k), false⟩
  | .extractMin => some (mainExtract s)
  | .display => some { s with heap := within s.heap (display s.heap.steps s.heap.head) fun _ h => h }

end C11AndC.Binomial
