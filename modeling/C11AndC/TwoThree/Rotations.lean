import C11AndC.TwoThree.Search
import C11AndC.TwoThree.Deletion

namespace C11AndC.TwoThree

open C11AndC.Library

variable {K : Type} {s : Store (CNode K) Nat} {ps : List (Library.Part (CNode K))}
  {Q : Unit → Store (CNode K) Nat → Prop}

section Moves

variable {w : Slot} {x p y c q : Nat} {nx np : CNode K} {k₁ k₂ : K} {xl yl ym yr : Tree K}

theorem wp_borrowRight
    (h : Parts s.mem (cellPart x nx :: cellPart p np ::
      cellPart y ⟨.three k₁ k₂, yl.root, ym.root, c, q⟩ :: treePart y yl :: treePart y ym :: ps))
    (hq : ∀ m, Parts m (cellPart x ⟨nx.keys.set .small (np.keys.get w), nx.left, nx.middle, yl.root,
        nx.parent⟩ :: cellPart p { np with keys := np.keys.set w k₁ } ::
      cellPart y ⟨.two k₂ k₂, ym.root, 0, c, q⟩ :: treePart x yl :: treePart y ym :: ps) →
      Q () ⟨m, s.reg⟩) : wp (borrowRight w x p y) Q s := by
  simp only [borrowRight, wp_bind]
  refine wp_copyKey_part (i := 0) (j := 1) h rfl rfl (fun m h => ?_)
  refine wp_moveChild_part (i := 0) (j := 2) (l := 3) h rfl rfl rfl rfl (fun m h => ?_)
  refine wp_copyKey_part (i := 1) (j := 2) h rfl rfl (fun m h => ?_)
  refine wp_copyKey_part (i := 2) (j := 2) h rfl rfl (fun m h => ?_)
  refine wp_clearKey_part (i := 2) h rfl (fun m h => ?_)
  refine wp_moveChild_part (i := 2) (j := 2) (l := 4) h rfl rfl rfl rfl (fun m h => ?_)
  refine wp_setChild_null (i := 2) h rfl (fun m h => ?_)
  exact hq m h

theorem wp_borrowLeft {o r : Nat} {v : Keys K}
    (h : Parts s.mem (cellPart x ⟨v, xl.root, o, r, q⟩ :: cellPart p np ::
      cellPart y ⟨.three k₁ k₂, c, ym.root, yr.root, q⟩ :: treePart x xl :: treePart y ym ::
      treePart y yr :: ps))
    (hq : ∀ m, Parts m (cellPart x ⟨v.set .small (np.keys.get w), yr.root, o, xl.root, q⟩ ::
      cellPart p { np with keys := np.keys.set w k₂ } ::
      cellPart y ⟨.two k₁ k₂, c, 0, ym.root, q⟩ :: treePart x xl :: treePart y ym ::
      treePart x yr :: ps) → Q () ⟨m, s.reg⟩) : wp (borrowLeft w x p y) Q s := by
  simp only [borrowLeft, wp_bind]
  refine wp_copyKey_part (i := 0) (j := 1) h rfl rfl (fun m h => ?_)
  refine wp_moveChild_part (i := 0) (j := 0) (l := 3) h rfl rfl rfl rfl (fun m h => ?_)
  refine wp_moveChild_part (i := 0) (j := 2) (l := 5) h rfl rfl rfl rfl (fun m h => ?_)
  refine wp_copyKey_part (i := 1) (j := 2) h rfl rfl (fun m h => ?_)
  refine wp_clearKey_part (i := 2) h rfl (fun m h => ?_)
  refine wp_moveChild_part (i := 2) (j := 2) (l := 4) h rfl rfl rfl rfl (fun m h => ?_)
  refine wp_setChild_null (i := 2) h rfl (fun m h => ?_)
  exact hq m h

variable {d o r : Nat} {v : Keys K} {a b₁ b₂ u : K} {ml mr : Tree K}

theorem wp_borrowRightmost
    (h : Parts s.mem (cellPart x nx :: cellPart p ⟨.three k₁ k₂, o, r, c, d⟩ ::
      cellPart y ⟨.two a u, ml.root, 0, mr.root, p⟩ ::
      cellPart q ⟨.three b₁ b₂, yl.root, ym.root, yr.root, p⟩ :: treePart y ml :: treePart y mr ::
      treePart q yl :: treePart q ym :: ps))
    (hq : ∀ m, Parts m (cellPart x ⟨nx.keys.set .small k₁, nx.left, nx.middle, ml.root,
        nx.parent⟩ :: cellPart p ⟨.three a b₁, o, r, c, d⟩ ::
      cellPart y ⟨.two k₂ u, mr.root, 0, yl.root, p⟩ ::
      cellPart q ⟨.two b₂ b₂, ym.root, 0, yr.root, p⟩ :: treePart x ml :: treePart y mr ::
      treePart y yl :: treePart q ym :: ps) → Q () ⟨m, s.reg⟩) :
    wp (borrowRightmost x p y q) Q s := by
  simp only [borrowRightmost, wp_bind]
  refine wp_copyKey_part (i := 0) (j := 1) h rfl rfl (fun m h => ?_)
  refine wp_moveChild_part (i := 0) (j := 2) (l := 4) h rfl rfl rfl rfl (fun m h => ?_)
  refine wp_copyKey_part (i := 1) (j := 2) h rfl rfl (fun m h => ?_)
  refine wp_copyKey_part (i := 2) (j := 1) h rfl rfl (fun m h => ?_)
  refine wp_moveChild_part (i := 2) (j := 2) (l := 5) h rfl rfl rfl rfl (fun m h => ?_)
  have h : Parts _ (cellPart x ⟨nx.keys.set .small k₁, nx.left, nx.middle, ml.root, nx.parent⟩ ::
      cellPart p ⟨.three a k₂, o, r, c, d⟩ :: cellPart y ⟨.two k₂ u, mr.root, 0, mr.root, p⟩ ::
      cellPart q ⟨.three b₁ b₂, yl.root, ym.root, yr.root, p⟩ :: treePart x ml :: treePart y mr ::
      treePart q yl :: treePart q ym :: ps) := h
  refine wp_moveChild_part (i := 2) (j := 3) (l := 6) h rfl rfl rfl rfl (fun m h => ?_)
  refine wp_copyKey_part (i := 1) (j := 3) h rfl rfl (fun m h => ?_)
  refine wp_copyKey_part (i := 3) (j := 3) h rfl rfl (fun m h => ?_)
  refine wp_clearKey_part (i := 3) h rfl (fun m h => ?_)
  refine wp_moveChild_part (i := 3) (j := 3) (l := 7) h rfl rfl rfl rfl (fun m h => ?_)
  refine wp_setChild_null (i := 3) h rfl (fun m h => ?_)
  exact hq m h

theorem wp_borrowLeftmost
    (h : Parts s.mem (cellPart x ⟨v, xl.root, 0, 0, p⟩ :: cellPart p ⟨.three k₁ k₂, o, r, c, d⟩ ::
      cellPart y ⟨.two a u, ml.root, 0, mr.root, p⟩ ::
      cellPart q ⟨.three b₁ b₂, yl.root, ym.root, yr.root, p⟩ :: treePart x xl :: treePart y ml ::
      treePart y mr :: treePart q ym :: treePart q yr :: ps))
    (hq : ∀ m, Parts m (cellPart x ⟨v.set .small k₂, mr.root, 0, xl.root, p⟩ ::
      cellPart p ⟨.three b₂ a, o, r, c, d⟩ :: cellPart y ⟨.two k₁ u, yr.root, 0, ml.root, p⟩ ::
      cellPart q ⟨.two b₁ b₂, yl.root, 0, ym.root, p⟩ :: treePart x xl :: treePart y ml ::
      treePart x mr :: treePart q ym :: treePart y yr :: ps) → Q () ⟨m, s.reg⟩) :
    wp (borrowLeftmost x p y q) Q s := by
  simp only [borrowLeftmost, wp_bind]
  refine wp_copyKey_part (i := 0) (j := 1) h rfl rfl (fun m h => ?_)
  refine wp_moveChild_part (i := 0) (j := 0) (l := 4) h rfl rfl rfl rfl (fun m h => ?_)
  refine wp_moveChild_part (i := 0) (j := 2) (l := 6) h rfl rfl rfl rfl (fun m h => ?_)
  refine wp_copyKey_part (i := 1) (j := 2) h rfl rfl (fun m h => ?_)
  refine wp_copyKey_part (i := 2) (j := 1) h rfl rfl (fun m h => ?_)
  have h : Parts _ (cellPart x ⟨v.set .small k₂, mr.root, 0, xl.root, p⟩ ::
      cellPart p ⟨.three k₁ a, o, r, c, d⟩ :: cellPart y ⟨.two k₁ u, ml.root, 0, mr.root, p⟩ ::
      cellPart q ⟨.three b₁ b₂, yl.root, ym.root, yr.root, p⟩ :: treePart x xl :: treePart y ml ::
      treePart x mr :: treePart q ym :: treePart q yr :: ps) := h
  refine wp_moveChild_part (i := 2) (j := 2) (l := 5) h rfl rfl rfl rfl (fun m h => ?_)
  refine wp_moveChild_part (i := 2) (j := 3) (l := 8) h rfl rfl rfl rfl (fun m h => ?_)
  refine wp_copyKey_part (i := 1) (j := 3) h rfl rfl (fun m h => ?_)
  refine wp_clearKey_part (i := 3) h rfl (fun m h => ?_)
  refine wp_moveChild_part (i := 3) (j := 3) (l := 7) h rfl rfl rfl rfl (fun m h => ?_)
  refine wp_setChild_null (i := 3) h rfl (fun m h => ?_)
  exact hq m h

theorem wp_absorbRight
    (h : Parts s.mem (cellPart x nx :: cellPart p np ::
      cellPart y ⟨.two a u, yl.root, 0, yr.root, q⟩ :: treePart y yl :: treePart y yr :: ps))
    (hq : ∀ m, Parts m (cellPart x ⟨(nx.keys.set .small (np.keys.get .small)).set .big a, nx.left,
        yl.root, yr.root, nx.parent⟩ :: cellPart p np ::
      cellPart y ⟨.two a u, yl.root, 0, yr.root, q⟩ :: treePart x yl :: treePart x yr :: ps) →
      Q () ⟨m, s.reg⟩) : wp (absorbRight x p y) Q s := by
  simp only [absorbRight, wp_bind]
  refine wp_copyKey_part (i := 0) (j := 1) h rfl rfl (fun m h => ?_)
  refine wp_copyKey_part (i := 0) (j := 2) h rfl rfl (fun m h => ?_)
  refine wp_moveChild_part (i := 0) (j := 2) (l := 3) h rfl rfl rfl rfl (fun m h => ?_)
  refine wp_moveChild_part (i := 0) (j := 2) (l := 4) h rfl rfl rfl rfl (fun m h => ?_)
  exact hq m h

theorem wp_absorbedByLeft
    (h : Parts s.mem (cellPart x ⟨v, xl.root, o, r, p⟩ :: cellPart p np ::
      cellPart y ⟨.two a u, yl.root, 0, yr.root, q⟩ :: treePart x xl :: treePart y yr :: ps))
    (hq : ∀ m, Parts m (cellPart x ⟨v, xl.root, o, r, p⟩ :: cellPart p np ::
      cellPart y ⟨.three a (np.keys.get .small), yl.root, yr.root, xl.root, q⟩ ::
      treePart y xl :: treePart y yr :: ps) → Q () ⟨m, s.reg⟩) :
    wp (absorbedByLeft x p y) Q s := by
  simp only [absorbedByLeft, wp_bind]
  refine wp_copyKey_part (i := 2) (j := 1) h rfl rfl (fun m h => ?_)
  refine wp_moveChild_part (i := 2) (j := 2) (l := 4) h rfl rfl rfl rfl (fun m h => ?_)
  refine wp_moveChild_part (i := 2) (j := 0) (l := 3) h rfl rfl rfl rfl (fun m h => ?_)
  exact hq m h

theorem wp_dropMiddle
    (h : Parts s.mem (cellPart p ⟨.three k₁ k₂, o, r, c, d⟩ :: ps))
    (hq : ∀ m, Parts m (cellPart p ⟨.two k₂ k₂, o, 0, c, d⟩ :: ps) → Q () ⟨m, s.reg⟩) :
    wp (dropMiddle p) Q s := by
  simp only [dropMiddle, wp_bind]
  refine wp_copyKey_part (i := 0) (j := 0) h rfl rfl (fun m h => ?_)
  refine wp_clearKey_part (i := 0) h rfl (fun m h => ?_)
  refine wp_setChild_null (i := 0) h rfl (fun m h => ?_)
  exact hq m h

theorem wp_mergeRight
    (h : Parts s.mem (cellPart x ⟨v, xl.root, 0, 0, p⟩ :: cellPart p ⟨.three k₁ k₂, o, r, c, d⟩ ::
      cellPart y ⟨.two a u, ml.root, 0, mr.root, p⟩ :: treePart x xl :: treePart y ml ::
      treePart y mr :: ps))
    (hq : ∀ m, Parts m (cellPart x ⟨(v.set .small a).set .big k₂, ml.root, mr.root, xl.root, p⟩ ::
      cellPart p ⟨.two k₁ k₂, o, 0, c, d⟩ :: cellPart y ⟨.two a u, ml.root, 0, mr.root, p⟩ ::
      treePart x xl :: treePart x ml :: treePart x mr :: ps) → Q () ⟨m, s.reg⟩) :
    wp (mergeRight x p y) Q s := by
  simp only [mergeRight, wp_bind]
  refine wp_copyKey_part (i := 0) (j := 2) h rfl rfl (fun m h => ?_)
  refine wp_copyKey_part (i := 0) (j := 1) h rfl rfl (fun m h => ?_)
  refine wp_moveChild_part (i := 0) (j := 0) (l := 3) h rfl rfl rfl rfl (fun m h => ?_)
  refine wp_moveChild_part (i := 0) (j := 2) (l := 5) h rfl rfl rfl rfl (fun m h => ?_)
  refine wp_moveChild_part (i := 0) (j := 2) (l := 4) h rfl rfl rfl rfl (fun m h => ?_)
  refine wp_clearKey_part (i := 1) h rfl (fun m h => ?_)
  refine wp_setChild_null (i := 1) h rfl (fun m h => ?_)
  exact hq m h

end Moves

end C11AndC.TwoThree
