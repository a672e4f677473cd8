import C11AndC.TwoThree.Local

namespace C11AndC.TwoThree

open C11AndC.Library

variable {K : Type} {s : Store (CNode K) Nat} {ps : List (Library.Part (CNode K))}

section Merge

variable {n x p q : Nat} {k k₁ k₂ u j₁ j₂ : K} {b : Bool} {xl l m r : Tree K}

theorem wp_localNodeMerger_threeLeft (hx : Valid n xl) (hm : Valid (n + 1) m)
    (hr : Valid (n + 1) r) (h2 : m.size = .twoNode)
    (h : Parts s.mem (treePart q
      (.node p (.three k₁ k₂) (.node x ⟨j₁, j₂, b, false⟩ xl .nil .nil) m r) :: ps)) :
    wp (localNodeMerger x) (fun code s' => code = .success ∧
      Refilled (n + 2) p q (xl.keys ++ k₁ :: m.keys ++ k₂ :: r.keys) ps s.reg s') s := by
  have h₁ := (parts_hole_at (l := [_])).mp (parts_node.mp h)
  have hp := cell_of_parts (i := 0) h₁ rfl
  have hxc := cell_of_parts (i := 1) h₁ rfl
  have hx0 := Memory.ne_zero_of_cell hxc
  simp only [localNodeMerger, hx0, ↓reduceIte, wp_bind, wp_load, hxc, hp, Option.some.injEq,
    exists_eq_left', Tree.root_node, CNode.getSize, Keys.getSize_three, and_self, wp_pure]
  cases hm with
  | three => cases h2
  | @two _ z a v ml mr hml hmr =>
    have h₂ := (parts_two_at (l := [_, _, _])).mp h₁
    have h₃ := parts_pick [1, 0, 3, 4, 5, 2, 6] h₂ (l := [_, _, _, _, _, _, _]) rfl (by decide)
    refine wp_absorbRight h₃ (fun μ h₄ => ?_)
    have h₅ := parts_pick [1, 0, 2, 3, 4, 5, 6] h₄ (l := [_, _, _, _, _, _, _]) rfl (by decide)
    refine wp_dropMiddle h₅ (fun μ h₆ => ?_)
    have h₇ := parts_pick [2, 0, 1, 3, 4, 5, 6] h₆ (l := [_, _, _, _, _, _, _]) rfl (by decide)
    refine wp_delete_part h₇ (fun μ h₈ => ⟨trivial, ?_⟩)
    have h₉ := parts_pick [0, 1, 4, 2, 3, 5] h₈ (l := [_, _, _, _, _, _]) rfl (by decide)
    refine ⟨.node p (.two k₂ k₂) (.node x (.three k₁ a) xl ml mr) .nil r, rfl,
      .two (.three hx hml hmr) hr, by simp [Tree.keys], ?_, rfl⟩
    exact parts_two.mpr ((parts_node_at (l := [_])).mpr h₉)

theorem wp_localNodeMerger_threeMiddle (hx : Valid n xl) (hl : Valid (n + 1) l)
    (hr : Valid (n + 1) r) (h2 : l.size = .twoNode)
    (h : Parts s.mem (treePart q
      (.node p (.three k₁ k₂) l (.node x ⟨j₁, j₂, b, false⟩ xl .nil .nil) r) :: ps)) :
    wp (localNodeMerger x) (fun code s' => code = .success ∧
      Refilled (n + 2) p q (l.keys ++ k₁ :: xl.keys ++ k₂ :: r.keys) ps s.reg s') s := by
  have h₁ := (parts_hole_at (l := [_, _])).mp (parts_node.mp h)
  have hp := cell_of_parts (i := 0) h₁ rfl
  have hxc := cell_of_parts (i := 2) h₁ rfl
  have hx0 := Memory.ne_zero_of_cell hxc
  have hxl : x ≠ l.root := part_root_ne (i := 2) (j := 1) h₁ rfl rfl (by decide)
  simp only [localNodeMerger, hx0, ↓reduceIte, wp_bind, wp_load, hxc, hp, Option.some.injEq,
    exists_eq_left', Tree.root_node, CNode.getSize, Keys.getSize_three, hxl, false_and, and_self,
    wp_pure]
  cases hl with
  | three => cases h2
  | @two _ z a v zl zr hzl hzr =>
    have h₂ := (parts_two_at (l := [_])).mp h₁
    have h₃ := parts_pick [4, 0, 1, 5, 3, 2, 6] h₂ (l := [_, _, _, _, _, _, _]) rfl (by decide)
    refine wp_absorbedByLeft h₃ (fun μ h₄ => ?_)
    have h₅ := parts_pick [1, 0, 2, 3, 4, 5, 6] h₄ (l := [_, _, _, _, _, _, _]) rfl (by decide)
    refine wp_dropMiddle h₅ (fun μ h₆ => ?_)
    have h₇ := parts_pick [1, 0, 2, 3, 4, 5, 6] h₆ (l := [_, _, _, _, _, _, _]) rfl (by decide)
    refine wp_delete_part h₇ (fun μ h₈ => ⟨trivial, ?_⟩)
    have h₉ := parts_pick [0, 1, 4, 3, 2, 5] h₈ (l := [_, _, _, _, _, _]) rfl (by decide)
    refine ⟨.node p (.two k₂ k₂) (.node z (.three a k₁) zl zr xl) .nil r, rfl,
      .two (.three hzl hzr hx) hr, by simp [Tree.keys], ?_, rfl⟩
    exact parts_two.mpr ((parts_node_at (l := [_])).mpr h₉)

theorem wp_localNodeMerger_threeRight (hx : Valid n xl) (hl : Valid (n + 1) l)
    (hm : Valid (n + 1) m) (h2 : m.size = .twoNode)
    (h : Parts s.mem (treePart q
      (.node p (.three k₁ k₂) l m (.node x ⟨j₁, j₂, b, false⟩ xl .nil .nil)) :: ps)) :
    wp (localNodeMerger x) (fun code s' => code = .success ∧
      Refilled (n + 2) p q (l.keys ++ k₁ :: m.keys ++ k₂ :: xl.keys) ps s.reg s') s := by
  have h₁ := (parts_hole_at (l := [_, _, _])).mp (parts_node.mp h)
  have hp := cell_of_parts (i := 0) h₁ rfl
  have hxc := cell_of_parts (i := 3) h₁ rfl
  have hx0 := Memory.ne_zero_of_cell hxc
  have hxl : x ≠ l.root := part_root_ne (i := 3) (j := 1) h₁ rfl rfl (by decide)
  have hxm : x ≠ m.root := part_root_ne (i := 3) (j := 2) h₁ rfl rfl (by decide)
  simp only [localNodeMerger, hx0, ↓reduceIte, wp_bind, wp_load, hxc, hp, Option.some.injEq,
    exists_eq_left', Tree.root_node, CNode.getSize, Keys.getSize_three, hxl, hxm, false_and,
    and_self, wp_pure]
  cases hm with
  | three => cases h2
  | @two _ z a v ml mr hml hmr =>
    have h₂ := (parts_two_at (l := [_, _])).mp h₁
    have h₃ := parts_pick [5, 0, 2, 6, 3, 4, 1] h₂ (l := [_, _, _, _, _, _, _]) rfl (by decide)
    refine wp_mergeRight h₃ (fun μ h₄ => ?_)
    have h₅ := parts_pick [2, 0, 1, 3, 4, 5, 6] h₄ (l := [_, _, _, _, _, _, _]) rfl (by decide)
    refine wp_delete_part h₅ (fun μ h₆ => ⟨trivial, ?_⟩)
    have h₇ := parts_pick [1, 5, 0, 3, 4, 2] h₆ (l := [_, _, _, _, _, _]) rfl (by decide)
    refine ⟨.node p (.two k₁ k₂) l .nil (.node x (.three a k₂) ml mr xl), rfl,
      .two hl (.three hml hmr hx), by simp [Tree.keys], ?_, rfl⟩
    exact parts_two.mpr ((parts_node_at (l := [_, _])).mpr h₇)

/-- The parent has lost its key, and all the keys are in its left child. -/
def Emptied (n p q : Nat) (keys : List K) (ps : List (Library.Part (CNode K))) (root : Nat)
    (s : Store (CNode K) Nat) : Prop :=
  ∃ j₁ j₂ t, Valid n t ∧ t.keys = keys ∧ s.reg = root ∧
    Parts s.mem (treePart q (.node p ⟨j₁, j₂, false, false⟩ t .nil .nil) :: ps)

theorem wp_globalNodeMerger_left (hx : Valid n xl) (hr : Valid (n + 1) r) (h2 : r.size = .twoNode)
    (h : Parts s.mem (treePart q
      (.node p (.two k u) (.node x ⟨j₁, j₂, b, false⟩ xl .nil .nil) .nil r) :: ps)) :
    wp (globalNodeMerger x) (fun res s' => res = (.success, p) ∧
      Emptied (n + 1) p q (xl.keys ++ k :: r.keys) ps s.reg s') s := by
  have h₁ := (parts_hole_at (l := [_])).mp (parts_two.mp h)
  have hp := cell_of_parts (i := 0) h₁ rfl
  have hxc := cell_of_parts (i := 1) h₁ rfl
  have hx0 := Memory.ne_zero_of_cell hxc
  simp only [globalNodeMerger, hx0, ↓reduceIte, wp_bind, wp_load, hxc, hp, Option.some.injEq,
    exists_eq_left', Tree.root_node, wp_pure]
  cases hr with
  | three => cases h2
  | @two _ z a v zl zr hzl hzr =>
    have h₂ := (parts_two_at (l := [_, _, _])).mp h₁
    have h₃ := parts_pick [1, 0, 3, 4, 5, 2] h₂ (l := [_, _, _, _, _, _]) rfl (by decide)
    refine wp_absorbRight h₃ (fun μ h₄ => ?_)
    refine wp_clearKey_part (i := 1) h₄ rfl (fun μ h₅ => ?_)
    refine wp_setChild_null (i := 1) h₅ rfl (fun μ h₆ => ?_)
    have h₇ := parts_pick [2, 0, 1, 3, 4, 5] h₆ (l := [_, _, _, _, _, _]) rfl (by decide)
    refine wp_delete_part h₇ (fun μ h₈ => ⟨trivial, ?_⟩)
    have h₉ := parts_pick [1, 0, 4, 2, 3] h₈ (l := [_, _, _, _, _]) rfl (by decide)
    refine ⟨k, u, .node x (.three k a) xl zl zr, .three hx hzl hzr, by simp [Tree.keys], rfl, ?_⟩
    exact (parts_hole ps).mpr ((parts_node_at (l := [_])).mpr h₉)

theorem wp_globalNodeMerger_right (hx : Valid n xl) (hl : Valid (n + 1) l)
    (h2 : l.size = .twoNode)
    (h : Parts s.mem (treePart q
      (.node p (.two k u) l .nil (.node x ⟨j₁, j₂, b, false⟩ xl .nil .nil)) :: ps)) :
    wp (globalNodeMerger x) (fun res s' => res = (.success, p) ∧
      Emptied (n + 1) p q (l.keys ++ k :: xl.keys) ps s.reg s') s := by
  have h₁ := (parts_hole_at (l := [_, _])).mp (parts_two.mp h)
  have hp := cell_of_parts (i := 0) h₁ rfl
  have hxc := cell_of_parts (i := 2) h₁ rfl
  have hx0 := Memory.ne_zero_of_cell hxc
  have hxl : x ≠ l.root := part_root_ne (i := 2) (j := 1) h₁ rfl rfl (by decide)
  simp only [globalNodeMerger, hx0, ↓reduceIte, wp_bind, wp_load, hxc, hp, Option.some.injEq,
    exists_eq_left', Tree.root_node, hxl, wp_pure]
  cases hl with
  | three => cases h2
  | @two _ z a v zl zr hzl hzr =>
    have h₂ := (parts_two_at (l := [_])).mp h₁
    have h₃ := parts_pick [4, 0, 1, 5, 3, 2] h₂ (l := [_, _, _, _, _, _]) rfl (by decide)
    refine wp_absorbedByLeft h₃ (fun μ h₄ => ?_)
    refine wp_setChild_null (i := 1) h₄ rfl (fun μ h₅ => ?_)
    refine wp_clearKey_part (i := 1) h₅ rfl (fun μ h₆ => ?_)
    refine wp_delete_part h₆ (fun μ h₇ => ⟨trivial, ?_⟩)
    have h₈ := parts_pick [0, 1, 4, 3, 2] h₇ (l := [_, _, _, _, _]) rfl (by decide)
    refine ⟨k, u, .node z (.three a k) zl zr xl, .three hzl hzr hx, by simp [Tree.keys], rfl, ?_⟩
    exact (parts_hole ps).mpr ((parts_node_at (l := [_])).mpr h₈)

end Merge

end C11AndC.TwoThree
