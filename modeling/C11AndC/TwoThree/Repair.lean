import C11AndC.TwoThree.Global
import C11AndC.TwoThree.Mergers

namespace C11AndC.TwoThree

open C11AndC.Library

variable {K : Type} {s : Store (CNode K) Nat} {ps : List (Library.Part (CNode K))}

/-- A node beside the place has a key to give. -/
def Frame.rich (f : Frame K) : Bool := f.fst.size = .threeNode || f.snd.size = .threeNode

section Round

variable {n x q : Nat} {j₁ j₂ : K} {b : Bool} {xl : Tree K} {f : Frame K}

theorem wp_localRotation (hx : Valid n xl) (hf : FrameOk (n + 1) f)
    (h : Parts s.mem (treePart q (f.plug (.node x ⟨j₁, j₂, b, false⟩ xl .nil .nil)) :: ps)) :
    wp (localRotation x) (fun code s' =>
      (f.rich = true ∧ code = .success ∧
        Refilled (n + 2) f.addr q (f.before ++ xl.keys ++ f.after) ps s.reg s') ∨
      (f.rich = false ∧ code = .failure ∧ s' = s)) s := by
  cases hf with
  | twoLeft hr =>
    refine wp_mono (wp_localRotation_twoLeft hx hr h) ?_
    rintro code s' (⟨h3, rfl, hq⟩ | ⟨h2, rfl, rfl⟩)
    · exact .inl ⟨by simp [Frame.rich, h3], rfl, by simpa [Frame.before, Frame.after, Tree.keys] using hq⟩
    · exact .inr ⟨by simp [Frame.rich, h2], rfl, rfl⟩
  | twoRight hl =>
    refine wp_mono (wp_localRotation_twoRight hx hl h) ?_
    rintro code s' (⟨h3, rfl, hq⟩ | ⟨h2, rfl, rfl⟩)
    · exact .inl ⟨by simp [Frame.rich, h3], rfl, by simpa [Frame.before, Frame.after, Tree.keys] using hq⟩
    · exact .inr ⟨by simp [Frame.rich, h2], rfl, rfl⟩
  | @three d _ _ _ _ _ hy hz =>
    cases d with
    | left =>
      refine wp_mono (wp_localRotation_threeLeft hx hy hz h) ?_
      rintro code s' (⟨h3, rfl, hq⟩ | ⟨⟨h2, h2'⟩, rfl, rfl⟩)
      · exact .inl ⟨by simp [Frame.rich, h3], rfl, by simpa [Frame.before, Frame.after] using hq⟩
      · exact .inr ⟨by simp [Frame.rich, h2, h2'], rfl, rfl⟩
    | middle =>
      refine wp_mono (wp_localRotation_threeMiddle hx hy hz h) ?_
      rintro code s' (⟨h3, rfl, hq⟩ | ⟨⟨h2, h2'⟩, rfl, rfl⟩)
      · exact .inl ⟨by simp [Frame.rich, h3], rfl, by simpa [Frame.before, Frame.after] using hq⟩
      · exact .inr ⟨by simp [Frame.rich, h2, h2'], rfl, rfl⟩
    | right =>
      refine wp_mono (wp_localRotation_threeRight hx hy hz h) ?_
      rintro code s' (⟨h3, rfl, hq⟩ | ⟨⟨h2, h2'⟩, rfl, rfl⟩)
      · exact .inl ⟨by simp [Frame.rich, h3], rfl, by simpa [Frame.before, Frame.after] using hq⟩
      · exact .inr ⟨by simp [Frame.rich, h2, h2'], rfl, rfl⟩

theorem two_of_poor {t : Tree K} (ht : Valid (n + 1) t) (h : t.size ≠ .threeNode) :
    t.size = .twoNode := (size_of_valid ht).resolve_right h

/-- Under a parent with two keys the node is merged with a neighbour. -/
theorem wp_localNodeMerger_three (hx : Valid n xl) (hf : FrameOk (n + 1) f)
    (h3 : f.keys.getSize = .threeNode) (hr : f.rich = false)
    (h : Parts s.mem (treePart q (f.plug (.node x ⟨j₁, j₂, b, false⟩ xl .nil .nil)) :: ps)) :
    wp (localNodeMerger x) (fun code s' => code = .success ∧
      Refilled (n + 2) f.addr q (f.before ++ xl.keys ++ f.after) ps s.reg s') s := by
  simp only [Frame.rich, Bool.or_eq_false_iff, decide_eq_false_iff_not] at hr
  cases hf with
  | twoLeft => cases h3
  | twoRight => cases h3
  | @three d _ _ _ _ _ hy hz =>
    cases d with
    | left =>
      refine wp_mono (wp_localNodeMerger_threeLeft hx hy hz (two_of_poor hy hr.1) h) ?_
      exact fun code s' hq => ⟨hq.1, by simpa [Frame.before, Frame.after] using hq.2⟩
    | middle =>
      refine wp_mono (wp_localNodeMerger_threeMiddle hx hy hz (two_of_poor hy hr.1) h) ?_
      exact fun code s' hq => ⟨hq.1, by simpa [Frame.before, Frame.after] using hq.2⟩
    | right =>
      refine wp_mono (wp_localNodeMerger_threeRight hx hy hz (two_of_poor hz hr.2) h) ?_
      exact fun code s' hq => ⟨hq.1, by simpa [Frame.before, Frame.after] using hq.2⟩

theorem wp_localNodeMerger_two (hf : FrameOk (n + 1) f) (h2 : f.keys.getSize = .twoNode)
    (h : Parts s.mem (treePart q (f.plug (.node x ⟨j₁, j₂, b, false⟩ xl .nil .nil)) :: ps)) :
    wp (localNodeMerger x) (fun code s' => code = .failure ∧ s' = s) s := by
  cases hf with
  | twoLeft =>
    have h₁ := (parts_hole_at (l := [_])).mp (parts_two.mp h)
    have hxc := cell_of_parts (i := 1) h₁ rfl
    simp [localNodeMerger, Memory.ne_zero_of_cell hxc, hxc, cell_of_parts (i := 0) h₁ rfl,
      CNode.getSize]
  | twoRight =>
    have h₁ := (parts_hole_at (l := [_, _])).mp (parts_two.mp h)
    have hxc := cell_of_parts (i := 2) h₁ rfl
    simp [localNodeMerger, Memory.ne_zero_of_cell hxc, hxc, cell_of_parts (i := 0) h₁ rfl,
      CNode.getSize]
  | three => cases h2

/-- Under a parent with one key the merger takes that key, and the parent is without one. -/
theorem wp_globalNodeMerger (hx : Valid n xl) (hf : FrameOk (n + 1) f)
    (h2 : f.keys.getSize = .twoNode) (hr : f.rich = false)
    (h : Parts s.mem (treePart q (f.plug (.node x ⟨j₁, j₂, b, false⟩ xl .nil .nil)) :: ps)) :
    wp (globalNodeMerger x) (fun res s' => res = (.success, f.addr) ∧
      Emptied (n + 1) f.addr q (f.before ++ xl.keys ++ f.after) ps s.reg s') s := by
  simp only [Frame.rich, Bool.or_eq_false_iff, decide_eq_false_iff_not] at hr
  cases hf with
  | twoLeft hz =>
    refine wp_mono (wp_globalNodeMerger_left hx hz (two_of_poor hz hr.2) h) ?_
    exact fun code s' hq => ⟨hq.1, by simpa [Frame.before, Frame.after, Tree.keys] using hq.2⟩
  | twoRight hy =>
    refine wp_mono (wp_globalNodeMerger_right hx hy (two_of_poor hy hr.1) h) ?_
    exact fun code s' hq => ⟨hq.1, by simpa [Frame.before, Frame.after, Tree.keys] using hq.2⟩
  | three => cases h2

end Round

/-- The repair from this place up comes to a node above the leaves that it takes for the
end of a way down, and moves a key to it through the root. -/
def misfires (atLeaf : Bool) : List (Frame K) → Bool
  | [] => false
  | f :: fs =>
      !f.rich &&
        if reaches .right (f :: fs) then !atLeaf
        else !(atLeaf && reaches .left (f :: fs)) && f.keys.getSize = .twoNode && misfires false fs

/-- The node at `x` is without a key and has at most a left child, of the height `n`. The
keys of the tree are those it should have in the end. -/
structure Repairing (keys : List K) (fs : List (Frame K)) (n x : Nat) (s : Store (CNode K) Nat) :
    Prop where
  root : s.reg = rootAddr fs x
  above : AboveOk (n + 1) fs
  hole : ∃ j₁ j₂ b xl, Valid n xl ∧ keys = before fs ++ xl.keys ++ after fs ∧
    Parts s.mem [treePart (top 0 fs) (.node x ⟨j₁, j₂, b, false⟩ xl .nil .nil), abovePart 0 x fs]

/-- The repair is over. It has left the right keys, but a 2-3 tree only if it has not
gone wrong. -/
def Settled (wrong : Bool) (keys : List K) (s : Store (CNode K) Nat) : Prop :=
  ∃ t, Parts s.mem [treePart 0 t] ∧ s.reg = t.root ∧ t.keys = keys ∧
    ((∃ m, Valid m t) ↔ wrong = false)

/-- What a round of the repair leaves to the next one, or at the end. -/
def Repaired (keys : List K) (fs : List (Frame K)) (n : Nat) (r : Nat ⊕ Code)
    (s : Store (CNode K) Nat) : Prop :=
  match r with
  | .inl x => ∃ f gs, fs = f :: gs ∧ Repairing keys gs (n + 1) x s ∧
      misfires (n = 0) fs = misfires false gs
  | .inr code => code = .success ∧ Settled (misfires (n = 0) fs) keys s

section Rounds

variable {n x steps root : Nat} {keys : List K} {f : Frame K} {fs : List (Frame K)} {xl : Tree K}
  {j₁ j₂ : K} {b : Bool}

theorem rootAddr_mem (f : Frame K) (fs : List (Frame K)) :
    rootAddr fs f.addr ∈ aboveAddrs (f :: fs) := by
  induction fs generalizing f with
  | nil => exact List.mem_cons_self
  | cons g fs ih =>
    rw [rootAddr, aboveAddrs]
    have hm := ih g
    simp only [List.mem_cons, List.mem_append]
    exact .inr (.inr (.inr hm))

theorem settled_of_refilled (hfs : AboveOk (n + 2) fs)
    (h : Refilled (n + 2) f.addr (top 0 fs) (f.before ++ xl.keys ++ f.after)
      [abovePart 0 f.addr fs] (rootAddr fs f.addr) s) :
    Settled false (before (f :: fs) ++ xl.keys ++ after (f :: fs)) s := by
  obtain ⟨t, hroot, hv, hk, hp, hreg⟩ := h
  rw [← hroot] at hp hreg
  refine ⟨plug fs t, parts_whole.mp hp, ?_, ?_, ?_⟩
  · rw [hreg, root_plug]
  · simp [keys_plug, hk, before, after]
  · exact ⟨fun _ => rfl, fun _ => ⟨_, valid_plug hfs hv⟩⟩

theorem wp_deleteRoot (hx : Valid n xl)
    (h : Parts s.mem [treePart 0 (.node x ⟨j₁, j₂, b, false⟩ xl .nil .nil), abovePart 0 x []]) :
    wp (deleteRoot x) (fun _ s' => Settled false xl.keys s') s := by
  have h₁ := (parts_hole _).mp h
  simp only [deleteRoot, wp_bind, wp_setReg]
  refine wp_load_part (i := 0) h₁ rfl ?_
  refine wp_adopt_part (s := ⟨s.mem, xl.root⟩) (i := 1) h₁ rfl (fun μ h₂ => ?_)
  refine wp_delete_part h₂ (fun μ h₃ => ?_)
  have h₄ := parts_above_nil.mp (parts_pick [1, 0] h₃ (l := [_, _]) rfl (by decide))
  exact ⟨xl, h₄, rfl, rfl, fun _ => rfl, fun _ => ⟨n, hx⟩⟩

theorem settled_of_turned (h : Turned n keys root s) {wrong : Bool}
    (hw : n = 0 ↔ wrong = false) : Settled wrong keys s := by
  obtain ⟨t, hp, hroot, hreg, hk, hv⟩ := h
  exact ⟨t, hp, hreg.trans hroot.symm, hk, hv.trans hw⟩

theorem wp_deleteStep (h : Repairing keys fs n x s) (hn : n + fs.length ≤ steps) :
    wp (deleteStep steps x) (Repaired keys fs n) s := by
  obtain ⟨hreg, hab, j₁, j₂, b, xl, hx, rfl, hp⟩ := h
  cases fs with
  | nil =>
    simp only [deleteStep, wp_bind, wp_getReg, hreg, rootAddr, ↓reduceIte, wp_pure]
    refine wp_mono (wp_deleteRoot hx hp) (fun _ s' hs => ⟨rfl, ?_⟩)
    simpa [before, after, misfires] using hs
  | cons f fs =>
    have hne : x ≠ s.reg := by
      intro he
      rw [hreg] at he
      have hm := rootAddr_mem f fs
      rw [rootAddr] at he
      rw [← he] at hm
      exact parts_not_mem (i := 0) (j := 2) ((parts_hole _).mp hp) rfl rfl (by decide) hm
    have hp₁ := parts_plug.mp hp
    simp only [deleteStep, wp_bind, wp_getReg, hne, ↓reduceIte]
    refine wp_mono (wp_localRotation hx hab.1 hp₁) ?_
    rintro _ s' (⟨hr, rfl, hq⟩ | ⟨hr, rfl, rfl⟩)
    · simp only [↓reduceIte, wp_pure]
      rw [hreg] at hq
      refine ⟨rfl, ?_⟩
      simpa [misfires, hr] using settled_of_refilled hab.2 hq
    · simp only [reduceCtorEq, ↓reduceIte, wp_bind]
      refine wp_mono (wp_globalRotation hx hab (by simp at hn; omega) hreg (parts_whole.mp hp)) ?_
      intro code s'' ht
      by_cases hc : reaches .right (f :: fs) = true ∨ (n = 0 ∧ reaches .left (f :: fs) = true)
      · rw [Turns, if_pos hc] at ht
        obtain ⟨rfl, ht⟩ := ht
        simp only [↓reduceIte, wp_pure]
        refine ⟨rfl, settled_of_turned ht ?_⟩
        obtain hc | ⟨rfl, hc⟩ := hc
        · simp [misfires, hr, hc]
        · simp [misfires, hr, hc]
      · rw [Turns, if_neg hc] at ht
        obtain ⟨rfl, rfl⟩ := ht
        rw [not_or, not_and] at hc
        simp only [reduceCtorEq, ↓reduceIte, wp_bind]
        obtain h2 | h3 := frame_size hab.1
        · refine wp_mono (wp_localNodeMerger_two hab.1 h2 hp₁) ?_
          rintro _ _ ⟨rfl, rfl⟩
          simp only [reduceCtorEq, ↓reduceIte, wp_bind]
          refine wp_mono (wp_globalNodeMerger hx hab.1 h2 hr hp₁) ?_
          rintro _ s₁ ⟨rfl, j₁', j₂', t, hv, hk, hreg', hp'⟩
          simp only [↓reduceIte, wp_pure]
          refine ⟨f, fs, rfl, ⟨hreg'.trans hreg, hab.2, j₁', j₂', false, t, hv, ?_, hp'⟩, ?_⟩
          · simp [hk, before, after]
          · have hl : (decide (n = 0) && reaches .left (f :: fs)) = false := by simpa using hc.2
            simp [misfires, hr, hc.1, h2, hl]
        · refine wp_mono (wp_localNodeMerger_three hx hab.1 h3 hr hp₁) ?_
          rintro _ s₁ ⟨rfl, hq⟩
          simp only [↓reduceIte, wp_pure]
          rw [hreg] at hq
          refine ⟨rfl, ?_⟩
          simpa [misfires, hr, hc.1, h3] using settled_of_refilled hab.2 hq

/-- The rounds come to an end, at the latest at the root. -/
theorem wp_deleteLoop {m : Nat} (h : Repairing keys fs n x s) (hn : n + fs.length ≤ steps)
    (hm : fs.length < m) :
    wp (loop (deleteStep steps) m x) (fun code s' =>
      code = .success ∧ Settled (misfires (n = 0) fs) keys s') s := by
  refine wp_loop (fun j y s' => ∃ gs i, gs.length = j ∧ i + gs.length ≤ steps ∧
    Repairing keys gs i y s' ∧ misfires (i = 0) gs = misfires (n = 0) fs) ?_
    ⟨fs, n, rfl, hn, h, rfl⟩ hm
  rintro j y s' ⟨gs, i, rfl, hi, hg, hw⟩
  refine wp_mono (wp_deleteStep hg hi) ?_
  rintro (y' | code) s'' hr
  · obtain ⟨f, gs', rfl, hg', hw'⟩ := hr
    refine ⟨gs'.length, by simp, gs', i + 1, rfl, ?_, hg', ?_⟩
    · simp only [List.length_cons] at hi
      omega
    · rw [← hw, hw']
      simp
  · obtain ⟨rfl, hs⟩ := hr
    exact ⟨rfl, hw ▸ hs⟩

end Rounds

end C11AndC.TwoThree
