import C11AndC.TwoThree.Rotations

namespace C11AndC.TwoThree

open C11AndC.Library

variable {K : Type} {s : Store (CNode K) Nat} {ps : List (Library.Part (CNode K))}

@[simp] theorem wp_both {b : Bool} {p : Prog K Bool} {Q : Bool → Store (CNode K) Nat → Prop} :
    wp (both b p) Q s ↔ if b then wp p Q s else Q false s := by
  cases b <;> simp [both]

theorem wp_isThree {a : Nat} {o : CNode K} {Q : Bool → Store (CNode K) Nat → Prop}
    (hc : s.mem.cell a = some o) : wp (isThree a) Q s ↔ Q (o.keys.getSize = .threeNode) s := by
  simp only [isThree, wp_bind, wp_load, hc, Option.some.injEq, exists_eq_left', wp_pure]
  rfl

/-- A tree of the height `n` with the root `p` and the keys `keys` is in the place of the
subtree that had lost a key. -/
def Refilled (n p q : Nat) (keys : List K) (ps : List (Library.Part (CNode K))) (root : Nat)
    (s : Store (CNode K) Nat) : Prop :=
  ∃ t, t.root = p ∧ Valid n t ∧ t.keys = keys ∧ Parts s.mem (treePart q t :: ps) ∧ s.reg = root

section Rotate

variable {x p : Nat} {o np : CNode K} {code : Code} {Q : Code → Store (CNode K) Nat → Prop}

theorem wp_rotateLast_skip (hc : s.mem.cell p = some o) (hne : x ≠ np.right) (hq : Q code s) :
    wp (rotateLast code x p np) Q s := by
  simpa [rotateLast, hc, hne] using hq

theorem wp_rotateFirst_skip (h₁ : x ≠ np.left) (h₂ : x ≠ np.middle) (hq : Q .failure s) :
    wp (rotateFirst x p np) Q s := by
  simpa [rotateFirst, h₁, h₂] using hq

end Rotate

section Borrow

variable {n x p q : Nat} {k k₁ k₂ u j₁ j₂ : K} {b : Bool} {xl l m r : Tree K}

/-- What the rotation does: it succeeds if a neighbour has a key to give. -/
theorem wp_localRotation_twoLeft (hx : Valid n xl) (hr : Valid (n + 1) r)
    (h : Parts s.mem (treePart q
      (.node p (.two k u) (.node x ⟨j₁, j₂, b, false⟩ xl .nil .nil) .nil r) :: ps)) :
    wp (localRotation x) (fun code s' =>
      (r.size = .threeNode ∧ code = .success ∧
        Refilled (n + 2) p q (xl.keys ++ k :: r.keys) ps s.reg s') ∨
      (r.size = .twoNode ∧ code = .failure ∧ s' = s)) s := by
  have h₁ := (parts_hole_at (l := [_])).mp (parts_two.mp h)
  have hp := cell_of_parts (i := 0) h₁ rfl
  have hxc := cell_of_parts (i := 1) h₁ rfl
  have hx0 := Memory.ne_zero_of_cell hxc
  obtain ⟨o, hrc, hrs⟩ := part_cell (i := 3) h₁ rfl hr
  have hxr : x ≠ r.root := part_root_ne (i := 1) (j := 3) h₁ rfl rfl (by decide)
  obtain hsz | hsz := size_of_valid hr
  · rw [hsz] at hrs
    simp only [localRotation, hx0, ↓reduceIte, wp_bind, wp_load, hxc, hp, Option.some.injEq,
      exists_eq_left', rotateFirst, wp_both, Tree.root_node, decide_true, Bool.and_self,
      wp_isThree hrc, hrs, CNode.getSize, Keys.getSize_two, wp_pure, reduceCtorEq, decide_false,
      Bool.false_eq_true]
    refine wp_rotateLast_skip (cell_of_parts (i := 0) h₁ rfl) hxr ?_
    exact .inr ⟨hsz, rfl, rfl⟩
  · rw [hsz] at hrs
    simp only [localRotation, hx0, ↓reduceIte, wp_bind, wp_load, hxc, hp, Option.some.injEq,
      exists_eq_left', rotateFirst, wp_both, Tree.root_node, decide_true, Bool.and_self,
      wp_isThree hrc, hrs, CNode.getSize, Keys.getSize_two, wp_pure]
    cases hr with
    | two => cases hsz
    | @three _ y a c yl ym yr hyl hym hyr =>
      have h₂ := (parts_node_at (l := [_, _, _])).mp h₁
      have h₃ := parts_pick [1, 0, 3, 4, 5, 2, 6] h₂ (l := [_, _, _, _, _, _, _]) rfl (by decide)
      refine wp_borrowRight h₃ (fun μ h₄ => ?_)
      have h₅ := parts_pick [1, 0, 5, 3, 2, 4, 6] h₄ (l := [_, _, _, _, _, _, _]) rfl (by decide)
      refine wp_rotateLast_skip (cell_of_parts (i := 0) h₅ rfl) hxr (.inl ⟨rfl, rfl, ?_⟩)
      refine ⟨.node p (.two a u) (.node x (.two k j₂) xl .nil yl) .nil
        (.node y (.two c c) ym .nil yr), rfl, .two (.two hx hyl) (.two hym hyr),
        by simp [Tree.keys], ?_, rfl⟩
      exact parts_two.mpr ((parts_two_at (l := [_])).mpr
        ((parts_two_at (l := [_, _, _, _])).mpr h₅))

theorem wp_localRotation_twoRight (hx : Valid n xl) (hl : Valid (n + 1) l)
    (h : Parts s.mem (treePart q
      (.node p (.two k u) l .nil (.node x ⟨j₁, j₂, b, false⟩ xl .nil .nil)) :: ps)) :
    wp (localRotation x) (fun code s' =>
      (l.size = .threeNode ∧ code = .success ∧
        Refilled (n + 2) p q (l.keys ++ k :: xl.keys) ps s.reg s') ∨
      (l.size = .twoNode ∧ code = .failure ∧ s' = s)) s := by
  have h₁ := (parts_hole_at (l := [_, _])).mp (parts_two.mp h)
  have hp := cell_of_parts (i := 0) h₁ rfl
  have hxc := cell_of_parts (i := 2) h₁ rfl
  have hx0 := Memory.ne_zero_of_cell hxc
  obtain ⟨o, hlc, hls⟩ := part_cell (i := 1) h₁ rfl hl
  have hxl : x ≠ l.root := part_root_ne (i := 2) (j := 1) h₁ rfl rfl (by decide)
  obtain hsz | hsz := size_of_valid hl
  · rw [hsz] at hls
    simp only [localRotation, hx0, ↓reduceIte, wp_bind, wp_load, hxc, hp, Option.some.injEq,
      exists_eq_left']
    refine wp_rotateFirst_skip hxl hx0 ?_
    simp only [rotateLast, wp_bind, wp_load, hp, Option.some.injEq, exists_eq_left', wp_both,
      Tree.root_node, decide_true, Bool.and_self, ↓reduceIte, wp_isThree hlc, hls, CNode.getSize,
      Keys.getSize_two, reduceCtorEq, decide_false, Bool.and_false, Bool.false_eq_true, wp_pure]
    exact .inr ⟨hsz, trivial, trivial⟩
  · rw [hsz] at hls
    simp only [localRotation, hx0, ↓reduceIte, wp_bind, wp_load, hxc, hp, Option.some.injEq,
      exists_eq_left']
    refine wp_rotateFirst_skip hxl hx0 ?_
    simp only [rotateLast, wp_bind, wp_load, hp, Option.some.injEq, exists_eq_left', wp_both,
      Tree.root_node, decide_true, Bool.and_self, ↓reduceIte, wp_isThree hlc, hls, CNode.getSize,
      Keys.getSize_two, wp_pure]
    cases hl with
    | two => cases hsz
    | @three _ y a c yl ym yr hyl hym hyr =>
      have h₂ := (parts_node_at (l := [_])).mp h₁
      have h₃ := parts_pick [5, 0, 1, 6, 3, 4, 2] h₂ (l := [_, _, _, _, _, _, _]) rfl (by decide)
      refine wp_borrowLeft h₃ (fun μ h₄ => .inl ⟨rfl, trivial, ?_⟩)
      have h₅ := parts_pick [1, 2, 6, 4, 0, 5, 3] h₄ (l := [_, _, _, _, _, _, _]) rfl (by decide)
      refine ⟨.node p (.two c u) (.node y (.two a c) yl .nil ym) .nil
        (.node x (.two k j₂) yr .nil xl), rfl, .two (.two hyl hym) (.two hyr hx),
        by simp [Tree.keys], ?_, rfl⟩
      exact parts_two.mpr ((parts_two_at (l := [_])).mpr
        ((parts_two_at (l := [_, _, _, _])).mpr h₅))

theorem wp_localRotation_threeLeft (hx : Valid n xl) (hm : Valid (n + 1) m) (hr : Valid (n + 1) r)
    (h : Parts s.mem (treePart q
      (.node p (.three k₁ k₂) (.node x ⟨j₁, j₂, b, false⟩ xl .nil .nil) m r) :: ps)) :
    wp (localRotation x) (fun code s' =>
      ((m.size = .threeNode ∨ r.size = .threeNode) ∧ code = .success ∧
        Refilled (n + 2) p q (xl.keys ++ k₁ :: m.keys ++ k₂ :: r.keys) ps s.reg s') ∨
      ((m.size = .twoNode ∧ r.size = .twoNode) ∧ code = .failure ∧ s' = s)) s := by
  have h₁ := (parts_hole_at (l := [_])).mp (parts_node.mp h)
  have hp := cell_of_parts (i := 0) h₁ rfl
  have hxc := cell_of_parts (i := 1) h₁ rfl
  have hx0 := Memory.ne_zero_of_cell hxc
  obtain ⟨om, hmc, hms⟩ := part_cell (i := 3) h₁ rfl hm
  obtain ⟨or, hrc, hrs⟩ := part_cell (i := 4) h₁ rfl hr
  have hxm : x ≠ m.root := part_root_ne (i := 1) (j := 3) h₁ rfl rfl (by decide)
  have hxr : x ≠ r.root := part_root_ne (i := 1) (j := 4) h₁ rfl rfl (by decide)
  obtain hsm | hsm := size_of_valid hm
  · rw [hsm] at hms
    obtain hsr | hsr := size_of_valid hr
    · rw [hsr] at hrs
      simp only [localRotation, hx0, ↓reduceIte, wp_bind, wp_load, hxc, hp, Option.some.injEq,
        exists_eq_left', rotateFirst, wp_both, Tree.root_node, decide_true, Bool.and_self,
        wp_isThree hmc, hms, wp_isThree hrc, hrs, hxm, CNode.getSize, Keys.getSize_three, reduceCtorEq,
        decide_false, Bool.and_false, Bool.false_eq_true, wp_pure]
      refine wp_rotateLast_skip (cell_of_parts (i := 0) h₁ rfl) hxr ?_
      exact .inr ⟨⟨hsm, hsr⟩, rfl, rfl⟩
    · rw [hsr] at hrs
      simp only [localRotation, hx0, ↓reduceIte, wp_bind, wp_load, hxc, hp, Option.some.injEq,
        exists_eq_left', rotateFirst, wp_both, Tree.root_node, decide_true, Bool.and_self,
        wp_isThree hmc, hms, wp_isThree hrc, hrs, CNode.getSize, Keys.getSize_three, reduceCtorEq,
        decide_false, Bool.and_false, Bool.false_eq_true, wp_pure]
      cases hm with
      | three => cases hsm
      | @two _ z a v ml mr hml hmr =>
        cases hr with
        | two => cases hsr
        | @three _ y c e yl ym yr hyl hym hyr =>
          have h₂ := (parts_two_at (l := [_, _, _])).mp ((parts_node_at (l := [_, _, _, _])).mp h₁)
          have h₃ := parts_pick [1, 0, 3, 6, 4, 5, 7, 8, 2, 9] h₂
            (l := [_, _, _, _, _, _, _, _, _, _]) rfl (by decide)
          refine wp_borrowRightmost h₃ (fun μ h₄ => ?_)
          have h₅ := parts_pick [1, 0, 8, 4, 2, 5, 6, 3, 7, 9] h₄
            (l := [_, _, _, _, _, _, _, _, _, _]) rfl (by decide)
          refine wp_rotateLast_skip (cell_of_parts (i := 0) h₅ rfl) hxr
            (.inl ⟨.inr rfl, rfl, ?_⟩)
          refine ⟨.node p (.three a c) (.node x (.two k₁ j₂) xl .nil ml)
            (.node z (.two k₂ v) mr .nil yl) (.node y (.two e e) ym .nil yr), rfl,
            .three (.two hx hml) (.two hmr hyl) (.two hym hyr), by simp [Tree.keys], ?_, rfl⟩
          exact parts_node.mpr ((parts_two_at (l := [_])).mpr ((parts_two_at (l := [_, _, _, _])).mpr
            ((parts_two_at (l := [_, _, _, _, _, _, _])).mpr h₅)))
  · rw [hsm] at hms
    simp only [localRotation, hx0, ↓reduceIte, wp_bind, wp_load, hxc, hp, Option.some.injEq,
      exists_eq_left', rotateFirst, wp_both, Tree.root_node, decide_true, Bool.and_self,
      wp_isThree hmc, hms, CNode.getSize, Keys.getSize_three, reduceCtorEq, decide_false,
      Bool.and_false, Bool.false_eq_true, wp_pure]
    cases hm with
    | two => cases hsm
    | @three _ y a c yl ym yr hyl hym hyr =>
      have h₂ := (parts_node_at (l := [_, _, _])).mp h₁
      have h₃ := parts_pick [1, 0, 3, 4, 5, 2, 6, 7] h₂ (l := [_, _, _, _, _, _, _, _]) rfl
        (by decide)
      refine wp_borrowRight h₃ (fun μ h₄ => ?_)
      have h₅ := parts_pick [1, 0, 5, 3, 2, 4, 6, 7] h₄ (l := [_, _, _, _, _, _, _, _]) rfl
        (by decide)
      refine wp_rotateLast_skip (cell_of_parts (i := 0) h₅ rfl) hxr (.inl ⟨.inl rfl, rfl, ?_⟩)
      refine ⟨.node p (.three a k₂) (.node x (.two k₁ j₂) xl .nil yl)
        (.node y (.two c c) ym .nil yr) r, rfl, .three (.two hx hyl) (.two hym hyr) hr,
        by simp [Tree.keys], ?_, rfl⟩
      exact parts_node.mpr ((parts_two_at (l := [_])).mpr
        ((parts_two_at (l := [_, _, _, _])).mpr h₅))

theorem wp_localRotation_threeMiddle (hx : Valid n xl) (hl : Valid (n + 1) l)
    (hr : Valid (n + 1) r)
    (h : Parts s.mem (treePart q
      (.node p (.three k₁ k₂) l (.node x ⟨j₁, j₂, b, false⟩ xl .nil .nil) r) :: ps)) :
    wp (localRotation x) (fun code s' =>
      ((l.size = .threeNode ∨ r.size = .threeNode) ∧ code = .success ∧
        Refilled (n + 2) p q (l.keys ++ k₁ :: xl.keys ++ k₂ :: r.keys) ps s.reg s') ∨
      ((l.size = .twoNode ∧ r.size = .twoNode) ∧ code = .failure ∧ s' = s)) s := by
  have h₁ := (parts_hole_at (l := [_, _])).mp (parts_node.mp h)
  have hp := cell_of_parts (i := 0) h₁ rfl
  have hxc := cell_of_parts (i := 2) h₁ rfl
  have hx0 := Memory.ne_zero_of_cell hxc
  obtain ⟨ol, hlc, hls⟩ := part_cell (i := 1) h₁ rfl hl
  obtain ⟨or, hrc, hrs⟩ := part_cell (i := 4) h₁ rfl hr
  have hxl : x ≠ l.root := part_root_ne (i := 2) (j := 1) h₁ rfl rfl (by decide)
  have hxr : x ≠ r.root := part_root_ne (i := 2) (j := 4) h₁ rfl rfl (by decide)
  obtain hsr | hsr := size_of_valid hr
  · rw [hsr] at hrs
    obtain hsl | hsl := size_of_valid hl
    · rw [hsl] at hls
      simp only [localRotation, hx0, ↓reduceIte, wp_bind, wp_load, hxc, hp, Option.some.injEq,
        exists_eq_left', rotateFirst, wp_both, Tree.root_node, decide_true, Bool.and_self, hxl,
        wp_isThree hlc, hls, wp_isThree hrc, hrs, CNode.getSize, Keys.getSize_three, reduceCtorEq,
        decide_false, Bool.false_and, Bool.false_eq_true, wp_pure]
      refine wp_rotateLast_skip (cell_of_parts (i := 0) h₁ rfl) hxr ?_
      exact .inr ⟨⟨hsl, hsr⟩, rfl, rfl⟩
    · rw [hsl] at hls
      simp only [localRotation, hx0, ↓reduceIte, wp_bind, wp_load, hxc, hp, Option.some.injEq,
        exists_eq_left', rotateFirst, wp_both, Tree.root_node, decide_true, Bool.false_and, hxl,
        wp_isThree hlc, hls, wp_isThree hrc, hrs, reduceCtorEq, decide_false, Bool.false_eq_true,
        wp_pure]
      cases hl with
      | two => cases hsl
      | @three _ y a c yl ym yr hyl hym hyr =>
        have h₂ := (parts_node_at (l := [_])).mp h₁
        have h₃ := parts_pick [5, 0, 1, 6, 3, 4, 2, 7] h₂ (l := [_, _, _, _, _, _, _, _]) rfl
          (by decide)
        refine wp_borrowLeft h₃ (fun μ h₄ => ?_)
        have h₅ := parts_pick [1, 2, 6, 4, 0, 5, 3, 7] h₄ (l := [_, _, _, _, _, _, _, _]) rfl
          (by decide)
        refine wp_rotateLast_skip (cell_of_parts (i := 0) h₅ rfl) hxr (.inl ⟨.inl rfl, rfl, ?_⟩)
        refine ⟨.node p (.three c k₂) (.node y (.two a c) yl .nil ym)
          (.node x (.two k₁ j₂) yr .nil xl) r, rfl, .three (.two hyl hym) (.two hyr hx) hr,
          by simp [Tree.keys], ?_, rfl⟩
        exact parts_node.mpr ((parts_two_at (l := [_])).mpr
          ((parts_two_at (l := [_, _, _, _])).mpr h₅))
  · rw [hsr] at hrs
    simp only [localRotation, hx0, ↓reduceIte, wp_bind, wp_load, hxc, hp, Option.some.injEq,
      exists_eq_left', rotateFirst, wp_both, Tree.root_node, decide_true, Bool.false_and, hxl,
      wp_isThree hrc, hrs, decide_false, Bool.false_eq_true, wp_pure]
    cases hr with
    | two => cases hsr
    | @three _ y a c yl ym yr hyl hym hyr =>
      have h₂ := (parts_node_at (l := [_, _, _, _])).mp h₁
      have h₃ := parts_pick [2, 0, 4, 5, 6, 1, 3, 7] h₂ (l := [_, _, _, _, _, _, _, _]) rfl
        (by decide)
      refine wp_borrowRight h₃ (fun μ h₄ => ?_)
      have h₅ := parts_pick [1, 5, 0, 6, 3, 2, 4, 7] h₄ (l := [_, _, _, _, _, _, _, _]) rfl
        (by decide)
      refine wp_rotateLast_skip (cell_of_parts (i := 0) h₅ rfl) hxr (.inl ⟨.inr rfl, rfl, ?_⟩)
      refine ⟨.node p (.three k₁ a) l (.node x (.two k₂ j₂) xl .nil yl)
        (.node y (.two c c) ym .nil yr), rfl, .three hl (.two hx hyl) (.two hym hyr),
        by simp [Tree.keys], ?_, rfl⟩
      exact parts_node.mpr ((parts_two_at (l := [_, _])).mpr
        ((parts_two_at (l := [_, _, _, _, _])).mpr h₅))

theorem wp_localRotation_threeRight (hx : Valid n xl) (hl : Valid (n + 1) l)
    (hm : Valid (n + 1) m)
    (h : Parts s.mem (treePart q
      (.node p (.three k₁ k₂) l m (.node x ⟨j₁, j₂, b, false⟩ xl .nil .nil)) :: ps)) :
    wp (localRotation x) (fun code s' =>
      ((l.size = .threeNode ∨ m.size = .threeNode) ∧ code = .success ∧
        Refilled (n + 2) p q (l.keys ++ k₁ :: m.keys ++ k₂ :: xl.keys) ps s.reg s') ∨
      ((l.size = .twoNode ∧ m.size = .twoNode) ∧ code = .failure ∧ s' = s)) s := by
  have h₁ := (parts_hole_at (l := [_, _, _])).mp (parts_node.mp h)
  have hp := cell_of_parts (i := 0) h₁ rfl
  have hxc := cell_of_parts (i := 3) h₁ rfl
  have hx0 := Memory.ne_zero_of_cell hxc
  obtain ⟨ol, hlc, hls⟩ := part_cell (i := 1) h₁ rfl hl
  obtain ⟨om, hmc, hms⟩ := part_cell (i := 2) h₁ rfl hm
  have hxl : x ≠ l.root := part_root_ne (i := 3) (j := 1) h₁ rfl rfl (by decide)
  have hxm : x ≠ m.root := part_root_ne (i := 3) (j := 2) h₁ rfl rfl (by decide)
  simp only [localRotation, hx0, ↓reduceIte, wp_bind, wp_load, hxc, hp, Option.some.injEq,
    exists_eq_left']
  refine wp_rotateFirst_skip hxl hxm ?_
  obtain hsm | hsm := size_of_valid hm
  · rw [hsm] at hms
    obtain hsl | hsl := size_of_valid hl
    · rw [hsl] at hls
      simp [hp, rotateLast, wp_isThree hlc, wp_isThree hmc, hls, hms, CNode.getSize, hsl, hsm]
    · rw [hsl] at hls
      simp only [rotateLast, ↓reduceIte, wp_bind, wp_load, hp, Option.some.injEq,
        exists_eq_left', wp_both, Tree.root_node, decide_true, Bool.true_and, wp_isThree hlc, hls,
        wp_isThree hmc, hms, CNode.getSize, Keys.getSize_three, reduceCtorEq, decide_false,
        Bool.false_eq_true, wp_pure]
      cases hm with
      | three => cases hsm
      | @two _ z a v ml mr hml hmr =>
        cases hl with
        | two => cases hsl
        | @three _ y c e yl ym yr hyl hym hyr =>
          have h₂ := (parts_two_at (l := [_, _, _, _, _])).mp ((parts_node_at (l := [_])).mp h₁)
          have h₃ := parts_pick [8, 0, 5, 1, 9, 6, 7, 3, 4, 2] h₂
            (l := [_, _, _, _, _, _, _, _, _, _]) rfl (by decide)
          refine wp_borrowLeftmost h₃ (fun μ h₄ => .inl ⟨.inl rfl, trivial, ?_⟩)
          have h₅ := parts_pick [1, 3, 9, 7, 2, 8, 5, 0, 6, 4] h₄
            (l := [_, _, _, _, _, _, _, _, _, _]) rfl (by decide)
          refine ⟨.node p (.three e a) (.node y (.two c e) yl .nil ym)
            (.node z (.two k₁ v) yr .nil ml) (.node x (.two k₂ j₂) mr .nil xl), rfl,
            .three (.two hyl hym) (.two hyr hml) (.two hmr hx), by simp [Tree.keys], ?_, rfl⟩
          exact parts_node.mpr ((parts_two_at (l := [_])).mpr ((parts_two_at (l := [_, _, _, _])).mpr
            ((parts_two_at (l := [_, _, _, _, _, _, _])).mpr h₅)))
  · rw [hsm] at hms
    simp only [rotateLast, ↓reduceIte, wp_bind, wp_load, hp, Option.some.injEq,
      exists_eq_left', wp_both, Tree.root_node, decide_true, Bool.true_and,
      wp_isThree hmc, hms, CNode.getSize, Keys.getSize_three, reduceCtorEq, decide_false,
      Bool.false_eq_true, wp_pure]
    cases hm with
    | two => cases hsm
    | @three _ y a c yl ym yr hyl hym hyr =>
      have h₂ := (parts_node_at (l := [_, _])).mp h₁
      have h₃ := parts_pick [6, 0, 2, 7, 4, 5, 1, 3] h₂ (l := [_, _, _, _, _, _, _, _]) rfl
        (by decide)
      refine wp_borrowLeft h₃ (fun μ h₄ => .inl ⟨.inr rfl, trivial, ?_⟩)
      have h₅ := parts_pick [1, 6, 2, 7, 4, 0, 5, 3] h₄ (l := [_, _, _, _, _, _, _, _]) rfl
        (by decide)
      refine ⟨.node p (.three k₁ c) l (.node y (.two a c) yl .nil ym)
        (.node x (.two k₂ j₂) yr .nil xl), rfl, .three hl (.two hyl hym) (.two hyr hx),
        by simp [Tree.keys], ?_, rfl⟩
      exact parts_node.mpr ((parts_two_at (l := [_, _])).mpr
        ((parts_two_at (l := [_, _, _, _, _])).mpr h₅))

end Borrow

end C11AndC.TwoThree
