import C11AndC.Library.Runs

namespace C11AndC.Avl

/-- A tree as its root pointer sees it. Every node is owned by the one pointer
that leads to it, so an update in place is a new value of that pointer. -/
inductive Node where
  | null
  | node (key : Int) (left right : Node) (height : Int)
  deriving DecidableEq

def height : Node → Int
  | .null => 0
  | .node _ _ _ h => h

@[simp] theorem height_node (k : Int) (l r : Node) (h : Int) : height (.node k l r h) = h := rfl

def newNode (key : Int) : Node := .node key .null .null 1

/-- The height of the new root is taken before that of `z`, which still has its old one. -/
def rightRotate : Node → Option Node
  | .node zk (.node yk yl yr _) zr zh =>
      let z := .node zk yr zr zh
      let yh := max (height yl) (height z) + 1
      let zh := max (height yr) (height zr) + 1
      some (.node yk yl (.node zk yr zr zh) yh)
  | _ => none

def leftRotate : Node → Option Node
  | .node zk zl (.node yk yl yr _) _ =>
      let z := .node zk zl yl (max (height zl) (height yl) + 1)
      some (.node yk z yr (max (height z) (height yr) + 1))
  | _ => none

def getBalance : Node → Int
  | .null => 0
  | .node _ l r _ => height l - height r

def getKey : Node → Option Int
  | .null => none
  | .node k _ _ _ => some k

@[simp] theorem getBalance_node (k : Int) (l r : Node) (h : Int) :
    getBalance (.node k l r h) = height l - height r := rfl

@[simp] theorem getKey_node (k : Int) (l r : Node) (h : Int) : getKey (.node k l r h) = some k := rfl

/-- The four cases at a node whose subtrees differ too much in height. -/
def rebalance (key k : Int) (l r : Node) : Option Node := do
  let h := max (height l) (height r) + 1
  let balance := getBalance (.node k l r h)
  if balance > 1 then
    let lk ← getKey l
    if key < lk then
      rightRotate (.node k l r h)
    else if key > lk then
      rightRotate (.node k (← leftRotate l) r h)
    else
      some (.node k l r h)
  else if balance < -1 then
    let rk ← getKey r
    if key > rk then
      leftRotate (.node k l r h)
    else if key < rk then
      leftRotate (.node k l (← rightRotate r) h)
    else
      some (.node k l r h)
  else
    some (.node k l r h)

/-- Insertion; `none` stands for following a null pointer. -/
def insert : Node → Int → Option Node
  | .null, key => some (newNode key)
  | .node k l r _, key =>
      if key < k then
        (insert l key).bind fun l => rebalance key k l r
      else
        (insert r key).bind fun r => rebalance key k l r

end C11AndC.Avl
