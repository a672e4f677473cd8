import C11AndC.Library.Program

namespace C11AndC.RedBlack

open C11AndC.Library

inductive Color where
  | red
  | black
  deriving DecidableEq

inductive Side where
  | left
  | right
  deriving DecidableEq

def Side.other : Side → Side
  | .left => .right
  | .right => .left

@[ext] structure Node where
  data : Int
  color : Color
  left : Nat
  right : Nat
  parent : Nat

namespace Node

def child (n : Node) : Side → Nat
  | .left => n.left
  | .right => n.right

def setChild (n : Node) (d : Side) (a : Nat) : Node :=
  match d with
  | .left => { n with left := a }
  | .right => { n with right := a }

def setParent (n : Node) (a : Nat) : Node := { n with parent := a }

def setColor (n : Node) (c : Color) : Node := { n with color := c }

end Node

/-- Programs on the nodes of one tree; the variable they share is its root pointer. -/
abbrev Prog := Program Node Nat

def link (d : Side) (root child : Nat) : Prog Unit := do
  store root (·.setChild d child)
  store child (·.setParent root)

def bstInsert : Nat → Nat → Nat → Prog Nat
  | 0, _, _ => outOfSteps
  | n + 1, root, pt => do
    if root = 0 then
      return pt
    let p ← load pt
    let r ← load root
    if p.data < r.data then
      link .left root (← bstInsert n r.left pt)
    else if p.data > r.data then
      link .right root (← bstInsert n r.right pt)
    return root

def setParentOf (child pt : Nat) : Prog Unit := do
  if child ≠ 0 then
    store child (·.setParent pt)

/-- Let the parent of `pt`, or the root pointer, lead to `up` instead. -/
def replace (parent pt up : Nat) : Prog Unit := do
  if parent = 0 then
    setReg (fun _ => up)
  else if pt = (← load parent).left then
    store parent (·.setChild .left up)
  else
    store parent (·.setChild .right up)

/-- Move `pt` down to the side `d`, under the child it has on the other side. -/
def rotate (d : Side) (pt : Nat) : Prog Unit := do
  let up := (← load pt).child d.other
  let inner := (← load up).child d
  store pt (·.setChild d.other inner)
  setParentOf inner pt
  let parent := (← load pt).parent
  store up (·.setParent parent)
  replace parent pt up
  store up (·.setChild d pt)
  store pt (·.setParent up)

def rotateLeft : Nat → Prog Unit := rotate .left

def rotateRight : Nat → Prog Unit := rotate .right

def swapColors (a b : Nat) : Prog Unit := do
  let ca := (← load a).color
  let cb := (← load b).color
  store a (·.setColor cb)
  store b (·.setColor ca)

def isRed (a : Nat) : Prog Bool := do
  if a = 0 then
    return false
  return (← load a).color = .red

def recolor (grandParent parent uncle : Nat) : Prog Unit := do
  store grandParent (·.setColor .red)
  store parent (·.setColor .black)
  store uncle (·.setColor .black)

/-- Bring `pt` to the outer side of its parent; the answer is the parent it then has. -/
def straighten (d : Side) (turn : Nat → Prog Unit) (pt parent : Nat) : Prog Nat := do
  if pt = (← load parent).child d.other then
    turn parent
    return (← load parent).parent
  else
    return parent

/-- One round of the repair, where the parent hangs on the side `d` of the grandparent:
`turn` is the rotation to that side and `turnBack` the one away from it. The answer
is the node to go on with. -/
def repair (d : Side) (turn turnBack : Nat → Prog Unit) (pt parent grandParent : Nat) :
    Prog Nat := do
  let uncle := (← load grandParent).child d.other
  if ← isRed uncle then
    recolor grandParent parent uncle
    return grandParent
  else
    let parent ← straighten d turn pt parent
    turnBack grandParent
    swapColors parent grandParent
    return parent

def repairLeft : Nat → Nat → Nat → Prog Nat := repair .left rotateLeft rotateRight

def repairRight : Nat → Nat → Nat → Prog Nat := repair .right rotateRight rotateLeft

/-- The test of the loop, from left to right. -/
def violated (pt : Nat) : Prog Bool := do
  if pt = (← getReg) then
    return false
  let n ← load pt
  if n.color = .black then
    return false
  return (← load n.parent).color = .red

def fixRound (pt : Nat) : Prog (Nat ⊕ Unit) := do
  if ← violated pt then
    let parent := (← load pt).parent
    let grandParent := (← load parent).parent
    if parent = (← load grandParent).left then
      return .inl (← repairLeft pt parent grandParent)
    else
      return .inl (← repairRight pt parent grandParent)
  else
    return .inr ()

def fixViolation (steps pt : Nat) : Prog Unit := do
  loop fixRound steps pt
  store (← getReg) (·.setColor .black)

/-- Insertion; the constructor leaves the colour of a new node as it finds it. -/
def insert (steps : Nat) (fresh : Color) (data : Int) : Prog Unit := do
  let pt ← new ⟨data, fresh, 0, 0, 0⟩
  let root ← bstInsert steps (← getReg) pt
  setReg (fun _ => root)
  fixViolation steps pt

end C11AndC.RedBlack
