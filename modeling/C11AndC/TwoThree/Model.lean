import C11AndC.Library.Program
import Mathlib.Order.Lattice

namespace C11AndC.TwoThree

open C11AndC.Library

inductive Code where
  | success
  | failure
  | isEmpty
  | notFound
  | duplicateValue
  deriving DecidableEq

inductive Size where
  | empty
  | twoNode
  | threeNode
  deriving DecidableEq

inductive Direction where
  | left
  | middle
  | right
  deriving DecidableEq

inductive Slot where
  | small
  | big
  deriving DecidableEq

/-- The two places of a node for keys. What a place holds that is not set is left over
from before. -/
@[ext] structure Keys (K : Type) where
  small : K
  big : K
  smallSet : Bool
  bigSet : Bool

namespace Keys

variable {K : Type}

def get (v : Keys K) : Slot → K
  | .small => v.small
  | .big => v.big

def set (v : Keys K) (w : Slot) (k : K) : Keys K :=
  match w with
  | .small => { v with small := k, smallSet := true }
  | .big => { v with big := k, bigSet := true }

def clear (v : Keys K) : Slot → Keys K
  | .small => { v with smallSet := false }
  | .big => { v with bigSet := false }

def getSize (v : Keys K) : Size :=
  if v.bigSet && v.smallSet then .threeNode
  else if v.smallSet then .twoNode
  else .empty

end Keys

@[ext] structure CNode (K : Type) where
  keys : Keys K
  left : Nat
  middle : Nat
  right : Nat
  parent : Nat

namespace CNode

variable {K : Type}

def getSize (n : CNode K) : Size := n.keys.getSize

def getChild (n : CNode K) : Direction → Nat
  | .left => n.left
  | .middle => n.middle
  | .right => n.right

def withChild (n : CNode K) (d : Direction) (c : Nat) : CNode K :=
  match d with
  | .left => { n with left := c }
  | .middle => { n with middle := c }
  | .right => { n with right := c }

/-- The right child is not asked for; the source looks at the middle one twice. -/
def isLeaf (n : CNode K) : Bool := n.left = 0 && n.middle = 0 && n.middle = 0

end CNode

/-- Programs on the nodes of one tree; the variable they share is its root pointer. -/
abbrev Prog (K : Type) := Program (CNode K) Nat

variable {K : Type}

def setParent (node parent : Nat) : Prog K Unit := store node ({ · with parent := parent })

/-- Tell a node its parent, unless there is no such node. -/
def adopt (parent child : Nat) : Prog K Unit :=
  if child ≠ 0 then setParent child parent else pure ()

def setKey (node : Nat) (w : Slot) (k : K) : Prog K Unit :=
  store node (fun n => { n with keys := n.keys.set w k })

def clearKey (node : Nat) (w : Slot) : Prog K Unit :=
  store node (fun n => { n with keys := n.keys.clear w })

def setChild (node : Nat) (d : Direction) (child : Nat) : Prog K Unit := do
  store node (·.withChild d child)
  adopt node child

/-- Copy a key from one node to another. -/
def copyKey (node : Nat) (w : Slot) (source : Nat) (w' : Slot) : Prog K Unit := do
  setKey node w ((← load source).keys.get w')

/-- Hang a child of one node under another. -/
def moveChild (node : Nat) (d : Direction) (source : Nat) (d' : Direction) : Prog K Unit := do
  setChild node d ((← load source).getChild d')

/-- A new node with two children; `unset` is what its other place for a key holds. -/
def newNode (unset : K) (leftChild rightChild : Nat) (key : K) : Prog K Nat := do
  let node ← new ⟨⟨key, unset, true, false⟩, leftChild, 0, rightChild, 0⟩
  adopt node leftChild
  adopt node rightChild
  return node

/-- One round of the way down on one side. -/
def goDown (d : Direction) (node : Nat) : Prog K (Nat ⊕ Nat) := do
  let n ← load node
  if n.getChild d ≠ 0 then return .inl (n.getChild d) else return .inr node

def getMinNode (steps node : Nat) : Prog K Nat := loop (goDown .left) steps node

def getMaxNode (steps node : Nat) : Prog K Nat := loop (goDown .right) steps node

section Search

variable [LinearOrder K]

def tCompare (k₁ k₂ : K) : Ordering :=
  if k₁ < k₂ then .lt
  else if k₂ < k₁ then .gt
  else .eq

/-- The key is one of those of the node. -/
def hasKey (key : K) (v : Keys K) : Bool :=
  tCompare key v.small = .eq || (v.getSize = .threeNode && tCompare key v.big = .eq)

def searchDirection (key : K) (v : Keys K) : Direction :=
  if tCompare key v.small = .lt then .left
  else if (v.getSize = .threeNode && tCompare key v.big = .gt) ||
      (v.getSize = .twoNode && tCompare key v.small = .gt) then .right
  else .middle

/-- One round of the search; it ends with the node and whether it has the key. -/
def searchStep (key : K) (node : Nat) : Prog K (Nat ⊕ (Nat × Bool)) := do
  let n ← load node
  if hasKey key n.keys then
    return .inr (node, true)
  else if n.getChild (searchDirection key n.keys) = 0 then
    return .inr (node, false)
  else
    return .inl (n.getChild (searchDirection key n.keys))

def search (steps : Nat) (key : K) : Prog K (Code × Nat × Bool) := do
  if (← getReg) = 0 then
    return (.isEmpty, 0, false)
  else
    return (.success, ← loop (searchStep key) steps (← getReg))

/-- The key that is found, in place of its address. -/
def find (steps : Nat) (key : K) : Prog K (Option K) := do
  let (_, node, found) ← search steps key
  if found then
    let n ← load node
    if tCompare key n.keys.small = .eq then
      return some n.keys.small
    else if n.getSize = .threeNode && tCompare key n.keys.big = .eq then
      return some n.keys.big
    else
      return none
  else
    return none

def add (node : Nat) (key : K) : Prog K Code := do
  let n ← load node
  if n.getSize = .empty then
    setKey node .small key
    return .success
  else if n.getSize = .twoNode && tCompare key n.keys.small = .gt then
    setKey node .big key
    return .success
  else if n.getSize = .twoNode && tCompare key n.keys.small = .lt then
    copyKey node .big node .small
    setKey node .small key
    return .success
  else
    return .failure

/-- Split a full node around the carried key, with the carried node to the left of it.
The answer is the key to carry on and the new left node. -/
def split (unset key : K) (node added : Nat) : Prog K (K × Nat) := do
  let n ← load node
  let (key, new) ←
    if tCompare key n.keys.big = .gt then do
      let new ← newNode unset n.left n.middle n.keys.small
      setKey node .small key
      let key := (← load node).keys.big
      setChild node .left added
      pure (key, new)
    else if tCompare key n.keys.small = .lt then do
      let new ← newNode unset added n.left key
      let key := (← load node).keys.small
      copyKey node .small node .big
      moveChild node .left node .middle
      pure (key, new)
    else do
      let new ← newNode unset n.left added n.keys.small
      copyKey node .small node .big
      moveChild node .left node .middle
      pure (key, new)
  clearKey node .big
  setChild node .middle 0
  return (key, new)

/-- Hand the carried key and node to the parent: it is a new root, it has room for them,
or it is the next node to be split. -/
def passUp (unset key : K) (node added : Nat) : Prog K ((K × Nat × Nat) ⊕ Code) := do
  let parent := (← load node).parent
  if parent = 0 then
    let root ← newNode unset added node key
    setReg (fun _ => root)
    return .inr .success
  else
    let p ← load parent
    if p.getSize = .twoNode then
      if tCompare key p.keys.small = .lt then
        let _ ← add parent key
        moveChild parent .middle parent .left
        setChild parent .left added
        return .inr .success
      else if tCompare key p.keys.small = .gt then
        let _ ← add parent key
        setChild parent .middle added
        return .inr .success
      else
        return .inl (key, parent, added)
    else
      return .inl (key, parent, added)

/-- One round of the insertion into full nodes, with the key, the node and the new node
that are carried from round to round. -/
def splitStep (unset : K) : K × Nat × Nat → Prog K ((K × Nat × Nat) ⊕ Code)
  | (key, node, added) => do
    if node = 0 then
      return .inr .isEmpty
    else
      let (key, added) ← split unset key node added
      passUp unset key node added

def insert (unset : K) (steps : Nat) (key : K) : Prog K Code := do
  if (← getReg) = 0 then
    let root ← new ⟨⟨unset, unset, false, false⟩, 0, 0, 0, 0⟩
    setReg (fun _ => root)
    let _ ← add root key
    return .success
  else
    let (code, node, found) ← search steps key
    if code = .success && node ≠ 0 then
      if found then
        return .duplicateValue
      else
        let n ← load node
        if n.getSize = .twoNode then
          let _ ← add node key
          return .success
        else if n.getSize = .threeNode then
          loop (splitStep unset) steps (key, node, 0)
        else
          return code
    else
      return code

end Search

end C11AndC.TwoThree
