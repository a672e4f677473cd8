import C11AndC.Library.Program

namespace C11AndC.ThreadedTree

open C11AndC.Library

structure Node where
  key : Int
  left : Nat
  right : Nat
  isThreaded : Bool

/-- The queue of a call of `createThreaded`, and the keys that are printed. -/
structure Vars where
  queue : List Nat
  printed : List Int

abbrev Prog := Program Node Vars

/-- What `new` returns is not written yet; `raw` stands for it. Nothing is written into `isThreaded`. -/
def newNode (raw : Node) (key : Int) : Prog Nat := do
  let temp ← new raw
  store temp (fun n => { n with left := 0, right := 0 })
  store temp (fun n => { n with key := key })
  return temp

def push (node : Nat) : Prog Unit := setReg (fun vars => { vars with queue := vars.queue ++ [node] })

/-- Neither `front` nor `pop` is defined on an empty queue. -/
def front : Prog Nat := do
  match (← getReg).queue with
  | [] => fault
  | node :: _ => return node

def pop : Prog Unit := do
  match (← getReg).queue with
  | [] => fault
  | _ :: queue => setReg (fun vars => { vars with queue := queue })

/-- A call for a child that is there. -/
def onChild (f : Nat → Prog Unit) (child : Nat) : Prog Unit := do
  if child = 0 then
    return
  else
    f child

def populateQueue : Nat → Nat → Prog Unit
  | 0, _ => outOfSteps
  | steps + 1, root => do
    if root = 0 then
      return
    else
      onChild (populateQueue steps) (← load root).left
      push root
      onChild (populateQueue steps) (← load root).right

def createThreadedUtil : Nat → Nat → Prog Unit
  | 0, _ => outOfSteps
  | steps + 1, root => do
    if root = 0 then
      return
    else
      onChild (createThreadedUtil steps) (← load root).left
      pop
      let right := (← load root).right
      if right = 0 then
        let successor ← front
        store root (fun n => { n with right := successor })
        store root (fun n => { n with isThreaded := true })
      else
        createThreadedUtil steps right

def createThreaded (steps root : Nat) : Prog Unit := do
  setReg (fun vars => { vars with queue := [] })
  populateQueue steps root
  createThreadedUtil steps root

def leftMostStep (root : Nat) : Prog (Nat ⊕ Nat) := do
  if root = 0 then
    return .inr root
  else
    let left := (← load root).left
    if left = 0 then
      return .inr root
    else
      return .inl left

def leftMost (steps root : Nat) : Prog Nat := loop leftMostStep steps root

def inOrderStep (steps cur : Nat) : Prog (Nat ⊕ Unit) := do
  if cur = 0 then
    return .inr ()
  else
    let n ← load cur
    setReg (fun vars => { vars with printed := vars.printed ++ [n.key] })
    if n.isThreaded then
      return .inl n.right
    else
      return .inl (← leftMost steps n.right)

def inOrder (steps root : Nat) : Prog Unit := do
  if root = 0 then
    return
  else
    loop (inOrderStep steps) steps (← leftMost steps root)

/-- A binary tree with what its nodes hold; the flag of a node is what it happens to be. -/
inductive Tree where
  | nil
  | node (a : Nat) (key : Int) (flag : Bool) (l r : Tree)

namespace Tree

def root : Tree → Nat
  | nil => 0
  | node a _ _ _ _ => a

/-- The nodes with their addresses, in inorder. -/
def nodes : Tree → List (Nat × Node)
  | nil => []
  | node a key flag l r => l.nodes ++ (a, ⟨key, l.root, r.root, flag⟩) :: r.nodes

def addrs (t : Tree) : List Nat := t.nodes.map Prod.fst

def keys (t : Tree) : List Int := t.nodes.map (fun x => x.2.key)

def height : Tree → Nat
  | nil => 0
  | node _ _ _ l r => max l.height r.height + 1

end Tree

/-- The memory holds the tree, no two nodes of which are the same. -/
structure Holds (m : Memory Node) (t : Tree) : Prop where
  nodup : t.addrs.Nodup
  cells : ∀ x ∈ t.nodes, m.cell x.1 = some x.2

/-- A node with its thread, if it has no right child. -/
def Node.thread (n : Node) (successor : Nat) : Node :=
  if n.right = 0 then { n with right := successor, isThreaded := true } else n

/-- The nodes of a list are threaded to the next one each, the last one to `last`. -/
def Threads (m : Memory Node) (last : Nat) : List (Nat × Node) → Prop
  | [] => True
  | x :: xs => m.cell x.1 = some (x.2.thread ((xs.map Prod.fst).headD last)) ∧ Threads m last xs

/-- Threading does what it is for: each node without a right child leads to its successor in inorder, no other
node counts as threaded, and the traversal prints the keys in inorder. -/
def IsThreading (s : Store Node Vars) (t : Tree) : Prop :=
  ∃ enough, ∀ steps, enough ≤ steps → wp (createThreaded steps t.root) (fun _ u => Threads u.mem 0 t.nodes ∧
    (∀ x ∈ t.nodes, x.2.right ≠ 0 → ∃ n, u.mem.cell x.1 = some n ∧ n.isThreaded = false) ∧
    wp (inOrder steps t.root) (fun _ v => v.reg.printed = u.reg.printed ++ t.keys) u) s

end C11AndC.ThreadedTree
