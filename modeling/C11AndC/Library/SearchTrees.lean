import C11AndC.Library.Trees
import Mathlib.Data.Nat.Fib.Basic
import Mathlib.Order.Lattice

namespace C11AndC.Library

variable {α : Type}

/-- The values with that of a node in front of those below it. -/
def rootsFirst : BinaryTree α → List α
  | .nil => []
  | .node v l r => v :: (rootsFirst l ++ rootsFirst r)

theorem rootsFirst_perm (t : BinaryTree α) : (rootsFirst t).Perm (inorder t) := by
  induction t with
  | nil => exact List.Perm.refl _
  | node v l r ihl ihr =>
    apply List.Perm.trans _ List.perm_middle.symm
    exact (ihl.append ihr).cons v

section Search

variable [LinearOrder α]

/-- Hang a value under the last node that the search for it meets. -/
def hang (t : BinaryTree α) (x : α) : BinaryTree α :=
  match t with
  | .nil => .node x .nil .nil
  | .node v l r => if x < v then .node v (hang l x) r else .node v l (hang r x)

theorem hangAll_left {v : α} {l r : BinaryTree α} {xs : List α} (h : ∀ x ∈ xs, x < v) :
    xs.foldl hang (.node v l r) = .node v (xs.foldl hang l) r := by
  induction xs generalizing l with
  | nil => rfl
  | cons x xs ih =>
    obtain ⟨hx, hxs⟩ := List.forall_mem_cons.mp h
    rw [List.foldl_cons, hang, if_pos hx, ih hxs, List.foldl_cons]

theorem hangAll_right {v : α} {l r : BinaryTree α} {xs : List α} (h : ∀ x ∈ xs, v ≤ x) :
    xs.foldl hang (.node v l r) = .node v l (xs.foldl hang r) := by
  induction xs generalizing r with
  | nil => rfl
  | cons x xs ih =>
    obtain ⟨hx, hxs⟩ := List.forall_mem_cons.mp h
    rw [List.foldl_cons, hang, if_neg (not_lt.mpr hx), ih hxs, List.foldl_cons]

/-- A search tree is rebuilt from its values, taken from the top. -/
theorem hangAll_rootsFirst {t : BinaryTree α} (h : (inorder t).Pairwise (· < ·)) :
    (rootsFirst t).foldl hang .nil = t := by
  induction t with
  | nil => rfl
  | node v l r ihl ihr =>
    obtain ⟨hl, hvr, hcross⟩ := List.pairwise_append.mp h
    obtain ⟨hv, hr⟩ := List.pairwise_cons.mp hvr
    have hleft : ∀ x ∈ rootsFirst l, x < v := fun x hx =>
      hcross x ((rootsFirst_perm l).mem_iff.mp hx) v List.mem_cons_self
    have hright : ∀ x ∈ rootsFirst r, v ≤ x := fun x hx => (hv x ((rootsFirst_perm r).mem_iff.mp hx)).le
    calc
      (rootsFirst (.node v l r)).foldl hang .nil
        = (rootsFirst r).foldl hang ((rootsFirst l).foldl hang (.node v .nil .nil)) := by
          rw [rootsFirst, List.foldl_cons, List.foldl_append, hang]
      _ = .node v ((rootsFirst l).foldl hang .nil) ((rootsFirst r).foldl hang .nil) := by
          rw [hangAll_left hleft, hangAll_right hright]
      _ = .node v l r := by rw [ihl hl, ihr hr]

end Search

/-- The subtrees of every node are of nearly the same height. -/
def NearlyEven : BinaryTree α → Prop
  | .nil => True
  | .node _ l r => NearlyEven l ∧ NearlyEven r ∧ l.height ≤ r.height + 1 ∧ r.height ≤ l.height + 1

/-- The thinnest of these trees are the Fibonacci trees. -/
theorem fib_height_le {t : BinaryTree α} (h : NearlyEven t) : Nat.fib (t.height + 2) ≤ t.numNodes + 1 := by
  induction t with
  | nil => exact Nat.le_refl 1
  | node v l r ihl ihr =>
    obtain ⟨hl, hr, hle, hre⟩ := h
    have hleft := ihl hl
    have hright := ihr hr
    simp only [BinaryTree.height, BinaryTree.numNodes]
    have hfib : Nat.fib (max l.height r.height + 1 + 2) =
        Nat.fib (max l.height r.height + 1) + Nat.fib (max l.height r.height + 2) := Nat.fib_add_two
    rw [hfib]
    obtain hlr | hrl := Nat.le_total l.height r.height
    · rw [Nat.max_eq_right hlr]
      have hmono : Nat.fib (r.height + 1) ≤ Nat.fib (l.height + 2) := Nat.fib_mono (by omega)
      omega
    · rw [Nat.max_eq_left hrl]
      have hmono : Nat.fib (l.height + 1) ≤ Nat.fib (r.height + 2) := Nat.fib_mono (by omega)
      omega

end C11AndC.Library
