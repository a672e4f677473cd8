import C11AndC.Library.LevelOrder
import C11AndC.Library.TreePaths
import Mathlib.Data.List.Infix

namespace C11AndC.Library

variable {α : Type}

/-- The leaves from left to right. -/
def leaves : BinaryTree α → List Position
  | .nil => []
  | .node _ .nil .nil => [[]]
  | .node _ l r => below .left (leaves l) ++ below .right (leaves r)

/-- The values from the root down to a position. -/
def pathTo (t : BinaryTree α) (p : Position) : List α := valuesOn t p.inits

variable {t l r : BinaryTree α} {v : α} {d : Side} {p : Position} {ps : List Position}

theorem leaves_node (h : ¬ (l = .nil ∧ r = .nil)) :
    leaves (.node v l r) = below .left (leaves l) ++ below .right (leaves r) := by
  cases l with
  | nil =>
    cases r with
    | nil => exact absurd ⟨rfl, rfl⟩ h
    | node => rfl
  | node => rfl

theorem mem_leaves : p ∈ leaves t ↔ IsLeaf t p := by
  induction t generalizing p with
  | nil => simp [leaves, IsLeaf, subtree_nil]
  | node v l r hl hr =>
    rw [isLeaf_node_iff]
    by_cases h : l = .nil ∧ r = .nil
    · obtain ⟨rfl, rfl⟩ := h
      have hno : ¬ ∃ d q, p = d :: q ∧ IsLeaf (child (.node v .nil .nil) d) q := by
        rintro ⟨d, q, -, w, hq⟩
        cases d <;> simp [child, subtree_nil] at hq
      simp [leaves, hno]
    · have hroot : ¬ (p = [] ∧ l = .nil ∧ r = .nil) := fun hp => h hp.2
      rw [or_iff_right hroot, leaves_node h, List.mem_append]
      simp only [below, List.mem_map, hl, hr]
      constructor
      · rintro (⟨q, hq, rfl⟩ | ⟨q, hq, rfl⟩)
        · exact ⟨.left, q, rfl, hq⟩
        · exact ⟨.right, q, rfl, hq⟩
      · rintro ⟨d, q, rfl, hq⟩
        cases d with
        | left => exact .inl ⟨q, hq, rfl⟩
        | right => exact .inr ⟨q, hq, rfl⟩

theorem below_pairwise (h : ps.Pairwise LeftOf) : (below d ps).Pairwise LeftOf := by
  refine List.pairwise_map.mpr (h.imp fun hpq => ?_)
  exact leftOf_cons_iff.mpr (.inr ⟨rfl, hpq⟩)

theorem leaves_pairwise : (leaves t).Pairwise LeftOf := by
  induction t with
  | nil => exact List.Pairwise.nil
  | node v l r hl hr =>
    by_cases h : l = .nil ∧ r = .nil
    · obtain ⟨rfl, rfl⟩ := h
      exact List.pairwise_singleton _ _
    · rw [leaves_node h]
      refine List.pairwise_append.mpr ⟨below_pairwise hl, below_pairwise hr, fun p hp q hq => ?_⟩
      obtain ⟨a, -, rfl⟩ := List.mem_map.mp hp
      obtain ⟨b, -, rfl⟩ := List.mem_map.mp hq
      exact leftOf_cons_iff.mpr (.inl ⟨rfl, rfl⟩)

theorem pathTo_nil : pathTo (.node v l r) [] = [v] := rfl

theorem pathTo_cons : pathTo (.node v l r) (d :: p) = v :: pathTo (child (.node v l r) d) p := by
  rw [pathTo, List.inits_cons, valuesOn_nil]
  exact congrArg (v :: ·) valuesOn_below

/-- The paths to the leaves of a tree, from those of its children. -/
theorem map_leaves_node (h : ¬ (l = .nil ∧ r = .nil)) : (leaves (.node v l r)).map (pathTo (.node v l r)) =
    (leaves l).map (fun q => v :: pathTo l q) ++ (leaves r).map fun q => v :: pathTo r q := by
  rw [leaves_node h, List.map_append, below, below, List.map_map, List.map_map]
  refine congrArg₂ _ (List.map_congr_left fun q _ => ?_) (List.map_congr_left fun q _ => ?_)
  · exact pathTo_cons
  · exact pathTo_cons

end C11AndC.Library
