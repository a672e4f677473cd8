import C11AndC.Avl.Balance
import C11AndC.Avl.Order
import C11AndC.Library.SearchTrees

namespace C11AndC.Avl

open C11AndC.Library

/-- What is printed from the root on. -/
def preOrder : Node → List Int
  | .null => []
  | .node k l r _ => k :: (preOrder l ++ preOrder r)

/-- The tree without the stored heights. -/
def keyTree : Node → BinaryTree Int
  | .null => .nil
  | .node k l r _ => .node k (keyTree l) (keyTree r)

theorem inorder_keyTree (t : Node) : Library.inorder (keyTree t) = inorder t := by
  induction t with
  | null => rfl
  | node k l r h ihl ihr => rw [keyTree, Library.inorder, ihl, ihr, inorder]

theorem rootsFirst_keyTree (t : Node) : rootsFirst (keyTree t) = preOrder t := by
  induction t with
  | null => rfl
  | node k l r h ihl ihr => rw [keyTree, rootsFirst, ihl, ihr, preOrder]

theorem numNodes_keyTree (t : Node) : (keyTree t).numNodes = (inorder t).length := by
  induction t with
  | null => rfl
  | node k l r h ihl ihr =>
    simp only [keyTree, BinaryTree.numNodes, ihl, ihr, inorder, List.length_append, List.length_cons]
    omega

theorem height_keyTree (t : Node) : ((keyTree t).height : Int) = trueHeight t := by
  induction t with
  | null => rfl
  | node k l r h ihl ihr =>
    simp only [keyTree, BinaryTree.height, trueHeight, ← ihl, ← ihr]
    omega

theorem nearlyEven_keyTree {t : Node} (h : Balanced t) : NearlyEven (keyTree t) := by
  induction t with
  | null => trivial
  | node k l r h' ihl ihr =>
    obtain ⟨hl, hr, -, h₁, h₂⟩ := h
    have hleft := height_keyTree l
    have hright := height_keyTree r
    exact ⟨ihl hl, ihr hr, by omega, by omega⟩

/-- In a run of safe insertions of distinct keys the tree is no higher than the Fibonacci numbers allow,
and what is printed of it determines it: it is rebuilt from the printed keys by plain insertions, one
after the other. -/
theorem preOrder_rebuilds (keys : List Int) (hd : keys.Nodup) (hs : SafeRun .null keys) :
    ∃ t, run insert .null keys = some t ∧ Nat.fib ((keyTree t).height + 2) ≤ keys.length + 1 ∧
      (preOrder t).Perm keys ∧ (preOrder t).foldl hang .nil = keyTree t := by
  obtain ⟨-, halways⟩ := run_balanced (t := .null) trivial hs
  obtain ⟨t, ht, ho, hperm⟩ := run_of_sound (t := .null) ⟨List.Pairwise.nil, trivial⟩
    (soundRun_of_safeRun trivial hs)
  rw [inorder, List.append_nil] at hperm
  have hstrict : (Library.inorder (keyTree t)).Pairwise (· < ·) := by
    rw [inorder_keyTree]
    exact ho.sorted.imp₂ (fun _ _ => lt_of_le_of_ne) (hperm.nodup_iff.mpr hd)
  have hfib := fib_height_le (nearlyEven_keyTree (always_run halways ht))
  rw [numNodes_keyTree, hperm.length_eq] at hfib
  have hpre := rootsFirst_perm (keyTree t)
  rw [rootsFirst_keyTree, inorder_keyTree] at hpre
  have hback := hangAll_rootsFirst hstrict
  rw [rootsFirst_keyTree] at hback
  exact ⟨t, ht, hfib, hpre.trans hperm, hback⟩

/-- The keys of the driver, the last of which is rotated twice. -/
theorem preOrder_rebuilds_six :
    ∃ t, run insert .null [10, 20, 30, 40, 50, 25] = some t ∧ Nat.fib ((keyTree t).height + 2) ≤ 7 ∧
      (preOrder t).Perm [10, 20, 30, 40, 50, 25] ∧ (preOrder t).foldl hang .nil = keyTree t :=
  preOrder_rebuilds [10, 20, 30, 40, 50, 25] (by decide) (by decide)

end C11AndC.Avl
