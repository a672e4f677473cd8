import C11AndC.TwoThree.Deletion

namespace C11AndC.TwoThree

open C11AndC.Library

variable {K : Type}

inductive TreeTraversal where
  | inorder
  | preorder
  | postorder
  deriving DecidableEq

/-- The least key below a node. -/
def getMinKey (steps node : Nat) : Prog K (Nat × K) := do
  let min ← getMinNode steps node
  return (min, (← load min).keys.small)

/-- One round of the way up from right children; it ends with the node and the child it has
come from. -/
def goUp (prev : Nat) : Prog K (Nat ⊕ (Nat × Nat)) := do
  let parent := (← load prev).parent
  if parent = 0 then
    return .inr (0, prev)
  else if (← load parent).right = prev then
    return .inl parent
  else
    return .inr (parent, prev)

section Order

variable [LinearOrder K]

def getNextPostorderKey (steps node : Nat) (key : K) : Prog K (Nat × K) := do
  let n ← load node
  if n.getSize = .threeNode && tCompare key n.keys.small = .eq then
    if n.isLeaf then
      return (node, n.keys.big)
    else
      getMinKey steps n.right
  else if n.parent = 0 then
    return (0, key)
  else
    let p ← load n.parent
    if p.getSize = .twoNode then
      if p.left = node then
        getMinKey steps p.right
      else if p.right = node then
        return (n.parent, p.keys.small)
      else
        return (n.parent, key)
    else if p.getSize = .threeNode then
      if p.left = node then
        getMinKey steps p.middle
      else if p.middle = node then
        return (n.parent, p.keys.small)
      else if p.right = node then
        return (n.parent, p.keys.big)
      else
        return (n.parent, key)
    else
      return (n.parent, key)

/-- The step to a node, where the way up from the child `prev` has ended. -/
def fromChild (key : K) : Nat × Nat → Prog K (Nat × K)
  | (node, prev) => do
    if node = 0 then
      return (0, key)
    else
      let n ← load node
      if (n.getSize = .twoNode && n.left = prev) || (n.getSize = .threeNode && n.middle = prev) then
        return (n.right, (← load n.right).keys.small)
      else if n.left = prev && n.getSize = .threeNode then
        return (node, n.keys.big)
      else
        return (node, key)

def getNextPreorderKey (steps node : Nat) (key : K) : Prog K (Nat × K) := do
  let n ← load node
  if n.getSize = .threeNode && tCompare key n.keys.small = .eq && n.isLeaf then
    return (node, n.keys.big)
  else if tCompare key n.keys.small = .eq && !n.isLeaf then
    return (n.left, (← load n.left).keys.small)
  else if tCompare key n.keys.big = .eq && !n.isLeaf then
    return (n.middle, (← load n.middle).keys.small)
  else
    fromChild key (← loop goUp steps node)

def TreeTraversal.next : TreeTraversal → Nat → Nat → K → Prog K (Nat × K)
  | .inorder => getNextInorderKey
  | .preorder => getNextPreorderKey
  | .postorder => getNextPostorderKey

def TreeTraversal.first (eTraversalMethod : TreeTraversal) (steps root : Nat) : Prog K (Nat × K) :=
  match eTraversalMethod with
  | .inorder => getMinKey steps root
  | .preorder => return (root, (← load root).keys.small)
  | .postorder => getMinKey steps root

/-- One round of the output: the node and the key, the count and what is printed so far. -/
def printRound (eTraversalMethod : TreeTraversal) (steps : Nat) :
    (Nat × K) × Nat × List K → Prog K (((Nat × K) × Nat × List K) ⊕ (Nat × List K))
  | ((node, key), count, out) => do
    let next ← eTraversalMethod.next steps node key
    if next.1 ≠ 0 then
      return .inl (next, count + 1, out ++ [key])
    else
      return .inr (count + 1, out ++ [key])

/-- The code, the number of items and the keys that are printed. The code is never that of
success. -/
def print (eTraversalMethod : TreeTraversal) (steps : Nat) : Prog K (Code × Nat × List K) := do
  let root ← getReg
  if root = 0 then
    return (.isEmpty, 0, [])
  else
    let start ← eTraversalMethod.first steps root
    return (.failure, ← loop (printRound eTraversalMethod steps) steps (start, 0, []))

/-- The three outputs, each with its number of items behind it. -/
def printOrders (steps : Nat) : Prog K (List (List K × Nat)) := do
  let (_, pre, preKeys) ← print .preorder steps
  let (_, mid, midKeys) ← print .inorder steps
  let (_, post, postKeys) ← print .postorder steps
  return [(preKeys, pre), (midKeys, mid), (postKeys, post)]

end Order

end C11AndC.TwoThree
