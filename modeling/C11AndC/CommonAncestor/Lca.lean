import Mathlib.Data.Int.Order.Basic
import C11AndC.Library.Trees

namespace C11AndC.CommonAncestor

open C11AndC.Library

/-- The pointer to a node is its position in the tree, and `none` is `NULL`. -/
def lca : BinaryTree Int → Int → Int → Option Position
  | .nil, _, _ => none
  | .node data left right, n1, n2 =>
      if data > n1 ∧ data > n2 then (lca left n1 n2).map (.left :: ·)
      else if data < n1 ∧ data < n2 then (lca right n1 n2).map (.right :: ·)
      else some []

/-- The data are from the one value to the other, whichever is the smaller. -/
def Between (n1 n2 v : Int) : Prop := ¬ (v > n1 ∧ v > n2) ∧ ¬ (v < n1 ∧ v < n2)

/-- The node at `p` has data between the two values, and every node that has is below it. -/
structure Above (t : BinaryTree Int) (n1 n2 : Int) (p : Position) : Prop where
  between : ∃ v, valueAt t p = some v ∧ Between n1 n2 v
  above : ∀ q w, valueAt t q = some w → Between n1 n2 w → p <+: q

variable {t l r : BinaryTree Int} {n1 n2 v w : Int} {p q : Position} {d : Side}

theorem mem_of_valueAt (h : valueAt t p = some v) : v ∈ inorder t := by
  apply (inorder_subtree p).subset
  rw [valueAt] at h
  cases hs : subtree t p with
  | nil =>
    rw [hs] at h
    cases h
  | node x l r =>
    rw [hs] at h
    cases h
    exact List.mem_append_right _ List.mem_cons_self

theorem left_lt (h : (inorder (.node v l r)).Pairwise (· < ·)) (hq : valueAt l q = some w) : w < v :=
  (List.pairwise_append.mp h).2.2 w (mem_of_valueAt hq) v List.mem_cons_self

theorem lt_right (h : (inorder (.node v l r)).Pairwise (· < ·)) (hq : valueAt r q = some w) : v < w :=
  (List.pairwise_cons.mp (List.pairwise_append.mp h).2.1).1 w (mem_of_valueAt hq)

/-- What has been found below a node, where no other node has data between the values. -/
theorem above_child (h : Above (child t d) n1 n2 p)
    (hd : ∀ q w, valueAt t q = some w → Between n1 n2 w → ∃ q', q = d :: q') : Above t n1 n2 (d :: p) := by
  obtain ⟨hbetween, habove⟩ := h
  constructor
  case between => exact hbetween
  case above =>
    intro q w hq hw
    obtain ⟨q', rfl⟩ := hd q w hq hw
    exact List.cons_prefix_cons.mpr ⟨rfl, habove q' w hq hw⟩

theorem lca_cases (h : (inorder t).Pairwise (· < ·)) (n1 n2 : Int) :
    (lca t n1 n2 = none ∧ ∀ q w, valueAt t q = some w → ¬ Between n1 n2 w) ∨
      ∃ p, lca t n1 n2 = some p ∧ Above t n1 n2 p := by
  induction t with
  | nil =>
    left
    refine ⟨rfl, fun q w hq => ?_⟩
    rw [valueAt_nil_tree] at hq
    cases hq
  | node v l r ihl ihr =>
    have hl : (inorder l).Pairwise (· < ·) := (List.pairwise_append.mp h).1
    have hr : (inorder r).Pairwise (· < ·) := (List.pairwise_cons.mp (List.pairwise_append.mp h).2.1).2
    rw [lca]
    by_cases hleft : v > n1 ∧ v > n2
    · -- Only nodes on the left can have data between the values.
      have hd : ∀ q w, valueAt (.node v l r) q = some w → Between n1 n2 w → ∃ q', q = .left :: q' := by
        intro q w hq hw
        cases q with
        | nil =>
          cases hq
          exact absurd hleft hw.1
        | cons d q =>
          cases d with
          | left => exact ⟨q, rfl⟩
          | right =>
            have hlt := lt_right h hq
            exact absurd ⟨Int.lt_trans hleft.1 hlt, Int.lt_trans hleft.2 hlt⟩ hw.1
      rw [if_pos hleft]
      obtain ⟨hnone, hall⟩ | ⟨p, hp, habove⟩ := ihl hl
      · left
        rw [hnone]
        refine ⟨rfl, fun q w hq hw => ?_⟩
        obtain ⟨q', rfl⟩ := hd q w hq hw
        exact hall q' w hq hw
      · right
        rw [hp]
        exact ⟨_, rfl, above_child (t := .node v l r) (d := .left) habove hd⟩
    · rw [if_neg hleft]
      by_cases hright : v < n1 ∧ v < n2
      · have hd : ∀ q w, valueAt (.node v l r) q = some w → Between n1 n2 w → ∃ q', q = .right :: q' := by
          intro q w hq hw
          cases q with
          | nil =>
            cases hq
            exact absurd hright hw.2
          | cons d q =>
            cases d with
            | right => exact ⟨q, rfl⟩
            | left =>
              have hlt := left_lt h hq
              exact absurd ⟨Int.lt_trans hlt hright.1, Int.lt_trans hlt hright.2⟩ hw.2
        rw [if_pos hright]
        obtain ⟨hnone, hall⟩ | ⟨p, hp, habove⟩ := ihr hr
        · left
          rw [hnone]
          refine ⟨rfl, fun q w hq hw => ?_⟩
          obtain ⟨q', rfl⟩ := hd q w hq hw
          exact hall q' w hq hw
        · right
          rw [hp]
          exact ⟨_, rfl, above_child (t := .node v l r) (d := .right) habove hd⟩
      · right
        rw [if_neg hright]
        exact ⟨[], rfl, ⟨v, rfl, hleft, hright⟩, fun _ _ _ _ => List.nil_prefix⟩

/-- Both values are not on the same side of the node that is above them. -/
theorem above_lowest (h : (inorder t).Pairwise (· < ·)) (hp : Above t n1 n2 p) {p1 p2 : Position}
    (h1 : valueAt t p1 = some n1) (h2 : valueAt t p2 = some n2) (hq1 : q <+: p1) (hq2 : q <+: p2) : q <+: p := by
  obtain ⟨⟨v, hv, hbetween⟩, habove⟩ := hp
  have hn1 : Between n1 n2 n1 := ⟨fun hlt => lt_irrefl _ hlt.1, fun hlt => lt_irrefl _ hlt.1⟩
  obtain hqp | ⟨rest, rfl⟩ := List.prefix_or_prefix_of_prefix hq1 (habove p1 n1 h1 hn1)
  · exact hqp
  cases rest with
  | nil => exact (List.append_nil p).symm ▸ List.prefix_refl p
  | cons d rest =>
    exfalso
    obtain ⟨r1, rfl⟩ := hq1
    obtain ⟨r2, rfl⟩ := hq2
    rw [List.append_assoc, valueAt, subtree_append] at h1 h2
    have hs := List.Pairwise.sublist (inorder_subtree (t := t) p).sublist h
    rw [valueAt] at hv
    cases hsub : subtree t p with
    | nil =>
      rw [hsub] at hv
      cases hv
    | node x l r =>
      rw [hsub] at hv hs h1 h2
      cases hv
      cases d with
      | left => exact hbetween.1 ⟨left_lt hs h1, left_lt hs h2⟩
      | right => exact hbetween.2 ⟨lt_right hs h1, lt_right hs h2⟩

/-- In a search tree, `lca` answers `NULL` exactly if no node has data between the two values, and else with the
lowest node that is above all of those; for two values of the tree this is their lowest common ancestor. -/
theorem lca_lowest (t : BinaryTree Int) (n1 n2 : Int) (h : (inorder t).Pairwise (· < ·)) :
    (lca t n1 n2 = none ↔ ∀ q w, valueAt t q = some w → ¬ Between n1 n2 w) ∧
      (∀ p, lca t n1 n2 = some p → Above t n1 n2 p) ∧
      ∀ p1 p2, valueAt t p1 = some n1 → valueAt t p2 = some n2 →
        ∃ p, lca t n1 n2 = some p ∧ p <+: p1 ∧ p <+: p2 ∧ ∀ q, q <+: p1 → q <+: p2 → q <+: p := by
  have hn1 : Between n1 n2 n1 := ⟨fun hlt => lt_irrefl _ hlt.1, fun hlt => lt_irrefl _ hlt.1⟩
  have hn2 : Between n1 n2 n2 := ⟨fun hlt => lt_irrefl _ hlt.2, fun hlt => lt_irrefl _ hlt.2⟩
  obtain ⟨hnone, hall⟩ | ⟨p, hp, habove⟩ := lca_cases h n1 n2
  · refine ⟨iff_of_true hnone hall, fun p hp => ?_, fun p1 p2 h1 h2 => ?_⟩
    · rw [hnone] at hp
      cases hp
    · exact absurd hn1 (hall p1 n1 h1)
  · obtain ⟨v, hv, hbetween⟩ := habove.between
    refine ⟨iff_of_false ?_ fun hall => hall p v hv hbetween, fun q hq => ?_, fun p1 p2 h1 h2 => ?_⟩
    · rw [hp]
      exact Option.some_ne_none p
    · rw [hp] at hq
      cases hq
      exact habove
    · exact ⟨p, hp, habove.above p1 n1 h1 hn1, habove.above p2 n2 h2 hn2,
        fun q hq1 hq2 => above_lowest h habove h1 h2 hq1 hq2⟩

/-- The tree of the source. -/
def sample : BinaryTree Int :=
  .node 20 (.node 8 (.node 4 .nil .nil) (.node 12 (.node 10 .nil .nil) (.node 14 .nil .nil))) (.node 22 .nil .nil)

/-- The lowest common ancestor of `14` and `8` is `8` itself. -/
theorem lca_lowest_sample : Above sample 14 8 [.left] :=
  (lca_lowest sample 14 8 (by decide)).2.1 [.left] rfl

end C11AndC.CommonAncestor
