import C11AndC.TwoThree.Model

namespace C11AndC.TwoThree

open C11AndC.Library

variable {K : Type}

def isThree (node : Nat) : Prog K Bool := do
  return (← load node).getSize = .threeNode

/-- The second test is made only if the first one holds. -/
def both (b : Bool) (p : Prog K Bool) : Prog K Bool := if b then p else pure false

/-- Take the place of a key from the neighbour to the right, through the parent's key `w`. -/
def borrowRight (w : Slot) (node parent right : Nat) : Prog K Unit := do
  copyKey node .small parent w
  moveChild node .right right .left
  copyKey parent w right .small
  copyKey right .small right .big
  clearKey right .big
  moveChild right .left right .middle
  setChild right .middle 0

/-- Take it from the neighbour to the left. -/
def borrowLeft (w : Slot) (node parent left : Nat) : Prog K Unit := do
  copyKey node .small parent w
  moveChild node .right node .left
  moveChild node .left left .right
  copyKey parent w left .big
  clearKey left .big
  moveChild left .right left .middle
  setChild left .middle 0

/-- Take it from the rightmost child, through the middle one. -/
def borrowRightmost (left parent middle right : Nat) : Prog K Unit := do
  copyKey left .small parent .small
  moveChild left .right middle .left
  copyKey parent .small middle .small
  copyKey middle .small parent .big
  moveChild middle .left middle .right
  moveChild middle .right right .left
  copyKey parent .big right .small
  copyKey right .small right .big
  clearKey right .big
  moveChild right .left right .middle
  setChild right .middle 0

/-- Take it from the leftmost child, through the middle one. -/
def borrowLeftmost (right parent middle left : Nat) : Prog K Unit := do
  copyKey right .small parent .big
  moveChild right .right right .left
  moveChild right .left middle .right
  copyKey parent .big middle .small
  copyKey middle .small parent .small
  moveChild middle .right middle .left
  moveChild middle .left left .right
  copyKey parent .small left .big
  clearKey left .big
  moveChild left .right left .middle
  setChild left .middle 0

/-- The cases of a left or middle child, in the order of the source. -/
def rotateFirst (node parent : Nat) (p : CNode K) : Prog K Code := do
  if ← both (node = p.left && p.getSize = .twoNode) (isThree p.right) then
    borrowRight .small p.left parent p.right
    return .success
  else if ← both (node = p.left && p.getSize = .threeNode) (isThree p.middle) then
    borrowRight .small p.left parent p.middle
    return .success
  else if ← both (node = p.left && p.getSize = .threeNode) (isThree p.right) then
    borrowRightmost p.left parent p.middle p.right
    return .success
  else if ← both (node = p.middle) (isThree p.right) then
    borrowRight .big p.middle parent p.right
    return .success
  else if ← both (node = p.middle) (isThree p.left) then
    borrowLeft .small p.middle parent p.left
    return .success
  else
    return .failure

/-- The cases of a right child, which the source tests in any case. -/
def rotateLast (code : Code) (node parent : Nat) (p : CNode K) : Prog K Code := do
  let size := (← load parent).getSize
  if ← both (node = p.right && size = .twoNode) (isThree p.left) then
    borrowLeft .small p.right parent p.left
    return .success
  else if ← both (node = p.right && size = .threeNode) (isThree p.middle) then
    borrowLeft .big p.right parent p.middle
    return .success
  else if ← both (node = p.right && size = .threeNode) (isThree p.left) then
    borrowLeftmost p.right parent p.middle p.left
    return .success
  else
    return code

def localRotation (node : Nat) : Prog K Code := do
  if node = 0 then
    return .isEmpty
  else
    let parent := (← load node).parent
    let p ← load parent
    rotateLast (← rotateFirst node parent p) node parent p

/-- Rotate a key of the leftmost leaf `min` to the left, through the key `w` of the root. -/
def takeMin (w : Slot) (node root min : Nat) : Prog K Unit := do
  copyKey node .small root w
  copyKey root w min .small
  copyKey min .small min .big
  clearKey min .big

/-- Rotate a key of the rightmost leaf `max` to the right, through the key `w` of the root. -/
def takeMax (w : Slot) (node root max : Nat) : Prog K Unit := do
  copyKey node .small root w
  copyKey root w max .big
  clearKey max .big

/-- The cases of a root with three children, in the order of the source. -/
def rotateAroundThree (node root leftMax middleMin middleMax rightMin : Nat) : Prog K Code := do
  if ← both (node = leftMax) (isThree middleMin) then
    takeMin .small leftMax root middleMin
    return .success
  else if ← both (node = middleMin) (isThree leftMax) then
    takeMax .small middleMin root leftMax
    return .success
  else if ← both (node = middleMax) (isThree rightMin) then
    takeMin .big middleMax root rightMin
    return .success
  else if ← both (node = rightMin) (isThree middleMax) then
    takeMax .big rightMin root middleMax
    return .success
  else
    return .failure

def rotateAroundTwo (node root leftMax rightMin : Nat) : Prog K Code := do
  if ← both (node = rightMin) (isThree leftMax) then
    takeMax .small rightMin root leftMax
    return .success
  else if ← both (node = leftMax) (isThree rightMin) then
    takeMin .small leftMax root rightMin
    return .success
  else
    return .failure

def globalRotation (steps node : Nat) : Prog K Code := do
  if node = 0 then
    return .isEmpty
  else
    let root ← getReg
    let r ← load root
    let rightMin ← getMinNode steps r.right
    let leftMax ← getMaxNode steps r.left
    if r.getSize = .threeNode then
      let middleMin ← getMinNode steps r.middle
      let middleMax ← getMaxNode steps r.middle
      rotateAroundThree node root leftMax middleMin middleMax rightMin
    else
      rotateAroundTwo node root leftMax rightMin

/-- Fill the node with the parent's key and all of its two-node neighbour to the right. -/
def absorbRight (node parent right : Nat) : Prog K Unit := do
  copyKey node .small parent .small
  copyKey node .big right .small
  moveChild node .middle right .left
  moveChild node .right right .right

/-- Hand the parent's key and the only child over to the two-node neighbour to the left. -/
def absorbedByLeft (node parent left : Nat) : Prog K Unit := do
  copyKey left .big parent .small
  moveChild left .middle left .right
  moveChild left .right node .left

/-- The parent is left with its big key and two children. -/
def dropMiddle (parent : Nat) : Prog K Unit := do
  copyKey parent .small parent .big
  clearKey parent .big
  setChild parent .middle 0

def mergeRight (right parent middle : Nat) : Prog K Unit := do
  copyKey right .small middle .small
  copyKey right .big parent .big
  moveChild right .right right .left
  moveChild right .middle middle .right
  moveChild right .left middle .left
  clearKey parent .big
  setChild parent .middle 0

def localNodeMerger (node : Nat) : Prog K Code := do
  if node = 0 then
    return .isEmpty
  else
    let parent := (← load node).parent
    let p ← load parent
    if node = p.left ∧ p.getSize = .threeNode then
      absorbRight p.left parent p.middle
      dropMiddle parent
      delete p.middle
      return .success
    else if node = p.middle ∧ p.getSize = .threeNode then
      absorbedByLeft p.middle parent p.left
      dropMiddle parent
      delete p.middle
      return .success
    else if node = p.right ∧ p.getSize = .threeNode then
      mergeRight p.right parent p.middle
      delete p.middle
      return .success
    else
      return .failure

def globalNodeMerger (node : Nat) : Prog K (Code × Nat) := do
  if node = 0 then
    return (.isEmpty, 0)
  else
    let parent := (← load node).parent
    let p ← load parent
    if node = p.left then
      absorbRight p.left parent p.right
      clearKey parent .small
      setChild parent .right 0
      delete p.right
      return (.success, parent)
    else if node = p.right then
      absorbedByLeft p.right parent p.left
      setChild parent .right 0
      clearKey parent .small
      delete p.right
      return (.success, parent)
    else
      return (.failure, 0)

def deleteRoot (node : Nat) : Prog K Unit := do
  let child := (← load node).left
  setReg (fun _ => child)
  adopt 0 child
  delete node

/-- One round of the repair at a node without a key. -/
def deleteStep (steps node : Nat) : Prog K (Nat ⊕ Code) := do
  if node = (← getReg) then
    deleteRoot node
    return .inr .success
  else if (← localRotation node) = .success then
    return .inr .success
  else if (← globalRotation steps node) = .success then
    return .inr .success
  else if (← localNodeMerger node) = .success then
    return .inr .success
  else
    let (code, next) ← globalNodeMerger node
    if code = .success then
      return .inl next
    else
      return .inr .failure

section Order

variable [LinearOrder K]

def nextAbove (key : K) (node : Nat) : Prog K (Nat ⊕ (Nat × K)) := do
  let parent := (← load node).parent
  if parent = 0 then
    return .inr (0, key)
  else
    let p ← load parent
    if tCompare key p.keys.small = .lt then
      return .inr (parent, p.keys.small)
    else if p.getSize = .threeNode && tCompare key p.keys.big = .lt then
      return .inr (parent, p.keys.big)
    else
      return .inl parent

def getNextInorderKey (steps node : Nat) (key : K) : Prog K (Nat × K) := do
  let n ← load node
  if n.getSize = .threeNode && tCompare key n.keys.small = .eq then
    if n.isLeaf then
      return (node, n.keys.big)
    else
      let min ← getMinNode steps n.middle
      return (min, (← load min).keys.small)
  else if !n.isLeaf && ((n.getSize = .twoNode && tCompare key n.keys.small = .eq) ||
      (n.getSize = .threeNode && tCompare key n.keys.big = .eq)) then
    let min ← getMinNode steps n.right
    return (min, (← load min).keys.small)
  else
    loop (nextAbove key) steps node

def swapWithInOrderSuccessor (steps node : Nat) (key : K) : Prog K (Code × Nat) := do
  if node = 0 then
    return (.isEmpty, 0)
  else
    let (leaf, leafKey) ← getNextInorderKey steps node key
    let n ← load node
    if tCompare key n.keys.small = .eq then
      setKey leaf .small key
      setKey node .small leafKey
      return (.success, leaf)
    else if tCompare key n.keys.big = .eq then
      setKey leaf .small key
      setKey node .big leafKey
      return (.success, leaf)
    else
      return (.failure, 0)

/-- An internal node first gives the key to a leaf. -/
def toLeaf (steps node : Nat) (key : K) : Prog K (Code × Nat) := do
  if (← load node).isLeaf then
    return (.success, node)
  else
    swapWithInOrderSuccessor steps node key

def removeFromLeaf (node : Nat) (key : K) : Prog K Code := do
  if node = 0 then
    return .isEmpty
  else
    let n ← load node
    if tCompare key n.keys.small = .eq then
      copyKey node .small node .big
      clearKey node .big
      return .success
    else if tCompare key n.keys.big = .eq then
      clearKey node .big
      return .success
    else
      return .failure

def deleteItem (steps : Nat) (key : K) : Prog K Code := do
  if (← getReg) = 0 then
    return .isEmpty
  else
    let (code, node, found) ← search steps key
    if code = .success ∧ found = false then
      return .notFound
    else if code = .success then
      let (code, leaf) ← toLeaf steps node key
      if code = .success then
        if ← isThree leaf then
          removeFromLeaf leaf key
        else
          loop (deleteStep steps) steps leaf
      else
        return code
    else
      return code

end Order

end C11AndC.TwoThree
