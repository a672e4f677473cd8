import C11AndC.Library.Trees
import Mathlib.Data.List.Infix

namespace C11AndC.ShortPaths

open C11AndC.Library

def removeShortPathNodesUtil : BinaryTree Int → Int → Int → BinaryTree Int
  | .nil, _, _ => .nil
  | .node data left right, level, k =>
    let left := removeShortPathNodesUtil left (level + 1) k
    let right := removeShortPathNodesUtil right (level + 1) k
    if left = .nil ∧ right = .nil ∧ level < k then .nil else .node data left right

def removeShortPathNodes (root : BinaryTree Int) (k : Int) : BinaryTree Int :=
  removeShortPathNodesUtil root 1 k

/-- The position is on a way from the root to a leaf with at least `k` nodes. -/
def OnLongPath (t : BinaryTree Int) (k : Int) (p : Position) : Prop :=
  ∃ q, IsLeaf t q ∧ p <+: q ∧ k ≤ q.length + 1

section Levels

variable {t : BinaryTree Int} {level k v : Int} {p : Position}

/-- Something is left of a tree if one of its leaves is low enough. -/
theorem util_ne_nil_iff :
    removeShortPathNodesUtil t level k ≠ .nil ↔ ∃ q, IsLeaf t q ∧ k ≤ level + q.length := by
  induction t generalizing level with
  | nil => simp [removeShortPathNodesUtil, IsLeaf, subtree_nil]
  | node data l r hl hr =>
    rw [removeShortPathNodesUtil]
    constructor
    · intro h
      obtain ⟨d, q, hq, hk⟩ | hk : (∃ d q, IsLeaf (child (.node data l r) d) q ∧ k ≤ level + 1 + q.length) ∨
          k ≤ level := by
        by_cases hln : removeShortPathNodesUtil l (level + 1) k = .nil
        · by_cases hrn : removeShortPathNodesUtil r (level + 1) k = .nil
          · refine .inr (Int.not_lt.mp fun hlt => h ?_)
            rw [if_pos ⟨hln, hrn, hlt⟩]
          · exact .inl ⟨.right, hr.mp hrn⟩
        · exact .inl ⟨.left, hl.mp hln⟩
      · exact ⟨d :: q, isLeaf_node_iff.mpr (.inr ⟨d, q, rfl, hq⟩), by rw [List.length_cons]; omega⟩
      · obtain ⟨q, hq⟩ := exists_isLeaf (t := .node data l r) (by simp)
        exact ⟨q, hq, by omega⟩
    · rintro ⟨q, hq, hk⟩
      have hkept : ¬ (removeShortPathNodesUtil l (level + 1) k = .nil ∧
          removeShortPathNodesUtil r (level + 1) k = .nil ∧ level < k) := by
        rintro ⟨hln, hrn, hlt⟩
        obtain ⟨rfl, -⟩ | ⟨d, q, rfl, hq⟩ := isLeaf_node_iff.mp hq
        · simp at hk
          omega
        · rw [List.length_cons] at hk
          cases d with
          | left => exact hl.mpr ⟨q, hq, by omega⟩ hln
          | right => exact hr.mpr ⟨q, hq, by omega⟩ hrn
      rw [if_neg hkept]
      simp

theorem util_cons (d : Side) : valueAt (removeShortPathNodesUtil t level k) (d :: p) =
    valueAt (removeShortPathNodesUtil (child t d) (level + 1) k) p := by
  cases t with
  | nil => cases d <;> simp [removeShortPathNodesUtil, child, valueAt_nil_tree]
  | node data l r =>
    rw [removeShortPathNodesUtil]
    split_ifs with h
    · have hchild : removeShortPathNodesUtil (child (.node data l r) d) (level + 1) k = .nil := by
        cases d with
        | left => exact h.1
        | right => exact h.2.1
      rw [hchild, valueAt_nil_tree, valueAt_nil_tree]
    · cases d <;> rfl

theorem valueAt_util : valueAt (removeShortPathNodesUtil t level k) p = some v ↔
    valueAt t p = some v ∧ ∃ q, IsLeaf t q ∧ p <+: q ∧ k ≤ level + q.length := by
  induction p generalizing t level with
  | nil =>
    simp only [List.nil_prefix, true_and, ← util_ne_nil_iff]
    cases t with
    | nil => simp [removeShortPathNodesUtil, valueAt_nil_tree]
    | node data l r =>
      rw [removeShortPathNodesUtil]
      split_ifs <;> simp [valueAt, subtree, root]
  | cons d p ih =>
    rw [util_cons, ih, valueAt_cons]
    refine and_congr_right fun hv => ?_
    constructor
    · rintro ⟨q, hq, hp, hk⟩
      exact ⟨d :: q, hq, (List.prefix_cons_inj d).mpr hp, by rw [List.length_cons]; omega⟩
    · rintro ⟨q, hq, hp, hk⟩
      obtain ⟨s, rfl⟩ := hp
      refine ⟨p ++ s, hq, List.prefix_append p s, ?_⟩
      rw [List.cons_append, List.length_cons] at hk
      omega

theorem util_util : removeShortPathNodesUtil (removeShortPathNodesUtil t level k) level k =
    removeShortPathNodesUtil t level k := by
  induction t generalizing level with
  | nil => rfl
  | node data l r hl hr =>
    rw [removeShortPathNodesUtil]
    split_ifs with h
    · rfl
    · rw [removeShortPathNodesUtil, hl, hr, if_neg h]

/-- The nodes that are left are those on the long paths of the tree, where they were; nothing is left
if there are none; and nothing more is removed the next time. -/
theorem removeShortPathNodes_keeps (root : BinaryTree Int) (k : Int) :
    (∀ p v, valueAt (removeShortPathNodes root k) p = some v ↔ valueAt root p = some v ∧ OnLongPath root k p) ∧
      (removeShortPathNodes root k = .nil ↔ ∀ p, ¬ OnLongPath root k p) ∧
      removeShortPathNodes (removeShortPathNodes root k) k = removeShortPathNodes root k := by
  refine ⟨fun p v => ?_, ?_, util_util⟩
  · rw [removeShortPathNodes, valueAt_util]
    simp only [OnLongPath, Int.add_comm]
  · rw [removeShortPathNodes, ← not_iff_not, ← ne_eq, util_ne_nil_iff, not_forall_not]
    constructor
    · rintro ⟨q, hq, hk⟩
      exact ⟨q, q, hq, List.prefix_rfl, by omega⟩
    · rintro ⟨p, q, hq, -, hk⟩
      exact ⟨q, hq, by omega⟩

end Levels

end C11AndC.ShortPaths
