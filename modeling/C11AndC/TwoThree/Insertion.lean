import C11AndC.TwoThree.Search

namespace C11AndC.TwoThree

open C11AndC.Library

variable {K : Type} {s : Store (CNode K) Nat}

/-- The keys of a full node with a key `c` too much, and the tree `w` to the left of it,
before the child on the side `d`. -/
def overfull (d : Direction) (k₁ k₂ c : K) (l m r w : Tree K) : List K :=
  match d with
  | .left => w.keys ++ c :: l.keys ++ k₁ :: m.keys ++ k₂ :: r.keys
  | .middle => l.keys ++ k₁ :: w.keys ++ c :: m.keys ++ k₂ :: r.keys
  | .right => l.keys ++ k₁ :: m.keys ++ k₂ :: w.keys ++ c :: r.keys

/-- Two two-nodes are put together, with a part between them. -/
theorem parts_halves {m : Memory (CNode K)} {x a q : Nat} {v v' : Keys K} {l r l' r' : Tree K}
    {p : Library.Part (CNode K)}
    (h : Parts m [cellPart x ⟨v, l.root, 0, r.root, q⟩, treePart x l, treePart x r, p,
      cellPart a ⟨v', l'.root, 0, r'.root, 0⟩, treePart a l', treePart a r']) :
    Parts m [treePart q (.node x v l .nil r), p, treePart 0 (.node a v' l' .nil r')] := by
  have h₁ := parts_pick [2, 3, 4, 0, 1] (parts_two.mpr h) (l := [_, _, _, _, _]) rfl (by decide)
  exact parts_pick [1, 2, 0] (parts_two.mpr h₁) (l := [_, _, _]) rfl (by decide)

def rootAddr : List (Frame K) → Nat → Nat
  | [], x => x
  | f :: fs, _ => rootAddr fs f.addr

theorem root_plug (fs : List (Frame K)) (t : Tree K) : (plug fs t).root = rootAddr fs t.root := by
  induction fs generalizing t with
  | nil => rfl
  | cons f fs ih =>
    obtain ⟨d, a, v, x, y⟩ := f
    rw [plug, ih]
    cases d <;> rfl

theorem not_nil {n : Nat} {t : Tree K} (h : Valid (n + 1) t) : t.isNil = false := by
  cases h <;> rfl

theorem frame_size {n : Nat} {f : Frame K} (h : FrameOk n f) :
    f.keys.getSize = .twoNode ∨ f.keys.getSize = .threeNode := by
  cases h with
  | twoLeft => exact .inl rfl
  | twoRight => exact .inl rfl
  | three => exact .inr rfl

variable [LinearOrder K]

/-- The side of a full node on which its surplus key lies. -/
def OnSide (d : Direction) (k₁ k₂ c : K) : Prop :=
  match d with
  | .left => c < k₁ ∧ k₁ < k₂
  | .middle => k₁ < c ∧ c < k₂
  | .right => k₁ < k₂ ∧ k₂ < c

theorem onSide_of_sorted {d : Direction} {k₁ k₂ c : K} {l m r w : Tree K} {xs ys : List K}
    (h : (xs ++ overfull d k₁ k₂ c l m r w ++ ys).Pairwise (· < ·)) : OnSide d k₁ k₂ c := by
  have hmid : (overfull d k₁ k₂ c l m r w).Pairwise (· < ·) :=
    (List.pairwise_append.mp (List.pairwise_append.mp h).1).2.1
  cases d <;> simp only [overfull, List.pairwise_append, List.mem_append] at hmid <;>
    exact ⟨by grind, by grind⟩

/-- Splitting a full node makes two-nodes of it and of a new node to the left of the key
that is carried on. -/
theorem wp_split {unset c k₁ k₂ : K} {x q : Nat} {d : Direction} {l m r w : Tree K} {n : Nat}
    {fs : List (Frame K)}
    (h : Parts s.mem [treePart (top 0 fs) (.node x (.three k₁ k₂) l m r), abovePart 0 x fs,
      treePart q w]) (hd : OnSide d k₁ k₂ c) (hl : Valid n l) (hm : Valid n m) (hr : Valid n r)
    (hw : Valid n w) :
    wp (split unset c x w.root) (fun res s' => ∃ u w', res.2 = w'.root ∧ u.root = x ∧
      Parts s'.mem [treePart (top 0 fs) u, abovePart 0 x fs, treePart 0 w'] ∧
      Valid (n + 1) u ∧ Valid (n + 1) w' ∧ s'.reg = s.reg ∧
      w'.keys ++ res.1 :: u.keys = overfull d k₁ k₂ c l m r w) s := by
  have hn := parts_node.mp h
  have hc := cell_of_parts (i := 0) hn rfl
  simp only [split, wp_bind, wp_load, hc, Option.some.injEq, exists_eq_left']
  cases d with
  | right =>
    have hgt : tCompare c k₂ = .gt := tCompare_gt.mpr hd.2
    simp only [Keys.three, hgt, ↓reduceIte, wp_bind, wp_pure]
    refine wp_newNode_part (i := 1) (j := 2) hn rfl (fun _ => rfl) rfl rfl (fun a μ h => ?_)
    refine wp_setKey_part (i := 1) h rfl (fun μ h => ?_)
    refine wp_load_part (i := 1) h rfl ?_
    refine wp_setChild_part (i := 1) (j := 6) h rfl rfl rfl (fun μ h => ?_)
    refine wp_clearKey_part (i := 1) h rfl (fun μ h => ?_)
    refine wp_setChild_null (i := 1) h rfl (fun μ h => ?_)
    have hp := parts_pick [1, 6, 4, 5, 0, 2, 3] h (l := [_, _, _, _, _, _, _]) rfl (by decide)
    refine ⟨.node x (.two c k₂) w .nil r, .node a (.two k₁ unset) l .nil m, rfl, rfl,
      parts_halves hp, .two hw hr, .two hl hm, rfl, ?_⟩
    show _ ++ k₂ :: _ = _
    simp [overfull, Tree.keys]
  | left =>
    have hlt : tCompare c k₁ = .lt := tCompare_lt.mpr hd.1
    have hng : ¬ tCompare c k₂ = .gt := by
      rw [tCompare_gt]
      exact not_lt_of_gt (lt_trans hd.1 hd.2)
    simp only [Keys.three, hlt, hng, ↓reduceIte, wp_bind, wp_pure]
    refine wp_newNode_part (i := 5) (j := 1) hn rfl (fun _ => rfl) rfl rfl (fun a μ h => ?_)
    refine wp_load_part (i := 1) h rfl ?_
    refine wp_copyKey_part (i := 1) (j := 1) h rfl rfl (fun μ h => ?_)
    refine wp_moveChild_part (i := 1) (j := 1) (l := 3) h rfl rfl rfl rfl (fun μ h => ?_)
    refine wp_clearKey_part (i := 1) h rfl (fun μ h => ?_)
    refine wp_setChild_null (i := 1) h rfl (fun μ h => ?_)
    have hp := parts_pick [1, 3, 4, 5, 0, 6, 2] h (l := [_, _, _, _, _, _, _]) rfl (by decide)
    refine ⟨.node x (.two k₂ k₂) m .nil r, .node a (.two c unset) w .nil l, rfl, rfl,
      parts_halves hp, .two hm hr, .two hw hl, rfl, ?_⟩
    show _ ++ k₁ :: _ = _
    simp [overfull, Tree.keys]
  | middle =>
    have hnl : ¬ tCompare c k₁ = .lt := by
      rw [tCompare_lt]
      exact not_lt_of_gt hd.1
    have hng : ¬ tCompare c k₂ = .gt := by
      rw [tCompare_gt]
      exact not_lt_of_gt hd.2
    simp only [Keys.three, hnl, hng, ↓reduceIte, wp_bind, wp_pure]
    refine wp_newNode_part (i := 1) (j := 5) hn rfl (fun _ => rfl) rfl rfl (fun a μ h => ?_)
    refine wp_copyKey_part (i := 1) (j := 1) h rfl rfl (fun μ h => ?_)
    refine wp_moveChild_part (i := 1) (j := 1) (l := 3) h rfl rfl rfl rfl (fun μ h => ?_)
    refine wp_clearKey_part (i := 1) h rfl (fun μ h => ?_)
    refine wp_setChild_null (i := 1) h rfl (fun μ h => ?_)
    have hp := parts_pick [1, 3, 4, 5, 0, 2, 6] h (l := [_, _, _, _, _, _, _]) rfl (by decide)
    refine ⟨.node x (.two k₂ k₂) m .nil r, .node a (.two k₁ unset) l .nil w, rfl, rfl,
      parts_halves hp, .two hm hr, .two hl hw, rfl, ?_⟩
    simp [overfull, Tree.keys]

/-- The store holds a 2-3 tree. -/
structure IsTree (s : Store (CNode K) Nat) (t : Tree K) : Prop where
  parts : Parts s.mem [treePart 0 t]
  root : s.reg = t.root
  valid : ∃ n, Valid n t
  sorted : t.keys.Pairwise (· < ·)

/-- A full node at `x` has the surplus key `c`, with the tree at `added` to the left of it;
with them the tree has the keys `keys`. -/
structure Splitting (keys : List K) (fs : List (Frame K)) (c : K) (x added : Nat)
    (s : Store (CNode K) Nat) : Prop where
  root : s.reg = rootAddr fs x
  full : ∃ n d k₁ k₂ l m r w q, w.root = added ∧
    Parts s.mem [treePart (top 0 fs) (.node x (.three k₁ k₂) l m r), abovePart 0 x fs, treePart q w] ∧
    Valid n l ∧ Valid n m ∧ Valid n r ∧ Valid n w ∧ AboveOk (n + 1) fs ∧
    keys = before fs ++ overfull d k₁ k₂ c l m r w ++ after fs

section Add

variable {a l m r par : Nat} {c k u : K} {ps : List (Library.Part (CNode K))}
  {Q : Code → Store (CNode K) Nat → Prop}

theorem wp_add_less (h : Parts s.mem (cellPart a ⟨.two k u, l, m, r, par⟩ :: ps)) (hlt : c < k)
    (hq : ∀ μ, Parts μ (cellPart a ⟨.three c k, l, m, r, par⟩ :: ps) → Q .success ⟨μ, s.reg⟩) :
    wp (add a c) Q s := by
  have hc := cell_of_parts (i := 0) h rfl
  have hlt' : tCompare c k = .lt := tCompare_lt.mpr hlt
  simp only [add, wp_bind, wp_load, hc, Option.some.injEq, exists_eq_left', CNode.getSize,
    Keys.getSize_two, Keys.small_two, hlt', reduceCtorEq, ↓reduceIte, decide_true, decide_false,
    Bool.and_true, Bool.and_false, Bool.false_eq_true, wp_pure]
  refine wp_copyKey_part (i := 0) (j := 0) h rfl rfl (fun μ h => ?_)
  exact wp_setKey_part (i := 0) h rfl (fun μ h => hq μ h)

theorem wp_add_greater (h : Parts s.mem (cellPart a ⟨.two k u, l, m, r, par⟩ :: ps)) (hgt : k < c)
    (hq : ∀ μ, Parts μ (cellPart a ⟨.three k c, l, m, r, par⟩ :: ps) → Q .success ⟨μ, s.reg⟩) :
    wp (add a c) Q s := by
  have hc := cell_of_parts (i := 0) h rfl
  have hgt' : tCompare c k = .gt := tCompare_gt.mpr hgt
  simp only [add, wp_bind, wp_load, hc, Option.some.injEq, exists_eq_left', CNode.getSize,
    Keys.getSize_two, Keys.small_two, hgt', reduceCtorEq, ↓reduceIte, decide_true, Bool.and_true, wp_pure]
  exact wp_setKey_part (i := 0) h rfl (fun μ h => hq μ h)

end Add

theorem isTree_of_parts {fs : List (Frame K)} {t : Tree K} {n : Nat} {μ : Memory (CNode K)}
    {root : Nat} (h : Parts μ [treePart (top 0 fs) t, abovePart 0 t.root fs])
    (hr : root = rootAddr fs t.root) (hf : AboveOk n fs) (ht : Valid n t)
    (hs : (before fs ++ t.keys ++ after fs).Pairwise (· < ·)) :
    IsTree ⟨μ, root⟩ (plug fs t) := by
  refine ⟨parts_whole.mp h, ?_, ⟨_, valid_plug hf ht⟩, ?_⟩
  · rw [root_plug]
    exact hr
  · rw [keys_plug]
    exact hs

/-- What a round of the insertion leaves to the next one, or at the end. -/
def Passed (keys : List K) (bound : Nat) (r : (K × Nat × Nat) ⊕ Code)
    (s : Store (CNode K) Nat) : Prop :=
  match r with
  | .inl (c, x, added) => ∃ fs, fs.length < bound ∧ Splitting keys fs c x added s
  | .inr code => code = .success ∧ ∃ t, IsTree s t ∧ t.keys = keys

theorem passed_done {fs : List (Frame K)} {t : Tree K} {n root b : Nat} {μ : Memory (CNode K)}
    {keys : List K} (h : Parts μ [treePart (top 0 fs) t, abovePart 0 t.root fs])
    (hr : root = rootAddr fs t.root) (hf : AboveOk n fs) (ht : Valid n t)
    (hk : before fs ++ t.keys ++ after fs = keys) (hs : keys.Pairwise (· < ·)) :
    Passed keys b (.inr .success) ⟨μ, root⟩ := by
  subst hk
  exact ⟨rfl, plug fs t, isTree_of_parts h hr hf ht hs, keys_plug fs t⟩

section PassUp

variable {unset c : K} {n : Nat} {u w : Tree K}

theorem wp_passUp_root (h : Parts s.mem [treePart 0 u, abovePart 0 u.root [], treePart 0 w])
    (hu : Valid (n + 1) u) (hw : Valid (n + 1) w)
    (hs : (w.keys ++ c :: u.keys).Pairwise (· < ·)) (b : Nat) :
    wp (passUp unset c u.root w.root) (Passed (w.keys ++ c :: u.keys) b) s := by
  obtain ⟨o, ho, hpar⟩ := shape_parent (parts_get (i := 0) h rfl) (not_nil hu)
  simp only [passUp, wp_bind, wp_load, ho, Option.some.injEq, exists_eq_left', hpar, ↓reduceIte,
    wp_setReg, wp_pure]
  refine wp_newNode_part (i := 2) (j := 0) h rfl (fun _ => rfl) rfl rfl (fun a μ h => ?_)
  have h₁ := parts_two.mpr (parts_pick [0, 3, 1, 2] h (l := [_, _, _, _]) rfl (by decide))
  have h₂ := parts_above_nil.mp (parts_pick [1, 0] h₁ (l := [_, _]) rfl (by decide))
  have hk : (Tree.node a (.two c unset) w .nil u).keys = w.keys ++ c :: u.keys := by
    simp [Tree.keys]
  exact ⟨rfl, _, ⟨h₂, rfl, ⟨_, .two hw hu⟩, hk ▸ hs⟩, hk⟩

variable {f : Frame K} {fs : List (Frame K)}

/-- A parent with one key has room; the key goes before or after its own one. -/
theorem wp_passUp_two (hf : FrameOk (n + 1) f) (h2 : f.keys.getSize = .twoNode)
    (h : Parts s.mem [treePart f.addr u, abovePart 0 u.root (f :: fs), treePart 0 w])
    (hfs : AboveOk (n + 1 + 1) fs) (hu : Valid (n + 1) u) (hw : Valid (n + 1) w)
    (hr : s.reg = rootAddr fs f.addr)
    (hs : (before (f :: fs) ++ (w.keys ++ c :: u.keys) ++ after (f :: fs)).Pairwise (· < ·))
    (b : Nat) :
    wp (passUp unset c u.root w.root)
      (Passed (before (f :: fs) ++ (w.keys ++ c :: u.keys) ++ after (f :: fs)) b) s := by
  obtain ⟨o, ho, hpar⟩ := shape_parent (parts_get (i := 0) h rfl) (not_nil hu)
  have hp := parts_plug.mp h
  obtain ⟨-, hbefore, hafter⟩ := between_cons.mp (between_of_sorted hs (List.mem_append_right _ List.mem_cons_self))
  cases hf with
  | @twoLeft p k v r hr' =>
    have hlt : c < k := hafter k (by simp [Frame.after])
    have hlt' : tCompare c k = .lt := tCompare_lt.mpr hlt
    have h₁ := parts_two.mp hp
    have hc := cell_of_parts (i := 0) h₁ rfl
    have hpz : p ≠ 0 := Memory.ne_zero_of_cell hc
    simp only [passUp, wp_bind, wp_load, ho, Option.some.injEq, exists_eq_left', hpar, hpz,
      ↓reduceIte, hc, CNode.getSize, Keys.getSize_two, Keys.small_two, hlt', wp_pure]
    refine wp_add_less h₁ hlt (fun μ h => ?_)
    refine wp_moveChild_part (i := 0) (j := 0) (l := 1) h rfl rfl rfl rfl (fun μ h => ?_)
    refine wp_setChild_part (i := 0) (j := 4) h rfl rfl rfl (fun μ h => ?_)
    have h₂ : Parts μ [treePart (top 0 fs) (.node p (.three c k) w u r), abovePart 0 p fs] :=
      parts_node.mpr (parts_pick [0, 4, 1, 2, 3] h (l := [_, _, _, _, _]) rfl (by decide))
    refine passed_done h₂ hr hfs (.three hw hu hr') ?_ hs
    simp [before, after, Frame.before, Frame.after, Tree.keys]
  | @twoRight p k v l hl =>
    have hgt : k < c := hbefore k (by simp [Frame.before])
    have hgt' : tCompare c k = .gt := tCompare_gt.mpr hgt
    have h₁ := parts_two.mp hp
    have hc := cell_of_parts (i := 0) h₁ rfl
    have hpz : p ≠ 0 := Memory.ne_zero_of_cell hc
    simp only [passUp, wp_bind, wp_load, ho, Option.some.injEq, exists_eq_left', hpar, hpz,
      ↓reduceIte, hc, CNode.getSize, Keys.getSize_two, Keys.small_two, hgt', reduceCtorEq, wp_pure]
    refine wp_add_greater h₁ hgt (fun μ h => ?_)
    refine wp_setChild_part (i := 0) (j := 4) h rfl rfl rfl (fun μ h => ?_)
    have h₂ : Parts μ [treePart (top 0 fs) (.node p (.three k c) l w u), abovePart 0 p fs] :=
      parts_node.mpr (parts_pick [0, 1, 4, 2, 3] h (l := [_, _, _, _, _]) rfl (by decide))
    refine passed_done h₂ hr hfs (.three hl hw hu) ?_ hs
    simp [before, after, Frame.before, Frame.after, Tree.keys]
  | three => cases h2

/-- A parent with two keys is the next node to be split. -/
theorem wp_passUp_three (hf : FrameOk (n + 1) f) (h3 : f.keys.getSize = .threeNode)
    (h : Parts s.mem [treePart f.addr u, abovePart 0 u.root (f :: fs), treePart 0 w])
    (hfs : AboveOk (n + 1 + 1) fs) (hu : Valid (n + 1) u) (hw : Valid (n + 1) w)
    (hr : s.reg = rootAddr fs f.addr) :
    wp (passUp unset c u.root w.root)
      (Passed (before (f :: fs) ++ (w.keys ++ c :: u.keys) ++ after (f :: fs)) (fs.length + 1))
      s := by
  obtain ⟨o, ho, hpar⟩ := shape_parent (parts_get (i := 0) h rfl) (not_nil hu)
  have hp := parts_plug.mp h
  cases hf with
  | twoLeft => cases h3
  | twoRight => cases h3
  | @three d p k₁ k₂ x y hx hy =>
    obtain ⟨k, hk, hsize⟩ : ∃ k, s.mem.cell p = some k ∧ k.getSize = .threeNode := by
      cases d <;> exact ⟨_, cell_of_parts (i := 0) (parts_node.mp hp) rfl, rfl⟩
    have hpz : p ≠ 0 := Memory.ne_zero_of_cell hk
    simp only [passUp, wp_bind, wp_load, ho, Option.some.injEq, exists_eq_left', hpar, hpz,
      ↓reduceIte, hk, hsize, reduceCtorEq, wp_pure]
    refine ⟨fs, Nat.lt_succ_self _, hr, n + 1, d, k₁, k₂, ?_⟩
    cases d with
    | left =>
      refine ⟨u, x, y, w, 0, rfl, hp, hu, hx, hy, hw, hfs, ?_⟩
      simp [before, after, Frame.before, Frame.after, overfull]
    | middle =>
      refine ⟨x, u, y, w, 0, rfl, hp, hx, hu, hy, hw, hfs, ?_⟩
      simp [before, after, Frame.before, Frame.after, overfull]
    | right =>
      refine ⟨x, y, u, w, 0, rfl, hp, hx, hy, hu, hw, hfs, ?_⟩
      simp [before, after, Frame.before, Frame.after, overfull]

end PassUp

theorem wp_splitStep {unset c : K} {x added : Nat} {fs : List (Frame K)} {keys : List K}
    (h : Splitting keys fs c x added s) (hs : keys.Pairwise (· < ·)) :
    wp (splitStep unset (c, x, added)) (Passed keys fs.length) s := by
  obtain ⟨hreg, n, d, k₁, k₂, l, m, r, w, q, rfl, hp, hl, hm, hr, hw, hf, rfl⟩ := h
  have hx : x ≠ 0 := Memory.ne_zero_of_cell (cell_of_parts (i := 0) (parts_node.mp hp) rfl)
  simp only [splitStep, hx, ↓reduceIte, wp_bind]
  refine wp_mono (wp_split hp (onSide_of_sorted hs) hl hm hr hw) ?_
  rintro ⟨c', _⟩ s₁ ⟨u, w', rfl, rfl, hp₁, hu, hw', hreg₁, hk⟩
  rw [← hk] at hs ⊢
  rw [hreg] at hreg₁
  cases fs with
  | nil =>
    simp only [before, after, List.nil_append, List.append_nil] at hs ⊢
    exact wp_passUp_root hp₁ hu hw' hs _
  | cons f fs =>
    obtain h2 | h3 := frame_size hf.1
    · exact wp_passUp_two hf.1 h2 hp₁ hf.2 hu hw' hreg₁ hs _
    · exact wp_passUp_three hf.1 h3 hp₁ hf.2 hu hw' hreg₁

/-- The rounds come to an end, at the latest with a new root. -/
theorem wp_splitLoop {unset c : K} {x added n : Nat} {fs : List (Frame K)} {keys : List K}
    (h : Splitting keys fs c x added s) (hs : keys.Pairwise (· < ·)) (hn : fs.length < n) :
    wp (loop (splitStep unset) n (c, x, added)) (fun code s' =>
      code = .success ∧ ∃ t, IsTree s' t ∧ t.keys = keys) s := by
  refine wp_loop (fun j b s' => ∃ gs, gs.length = j ∧ Splitting keys gs b.1 b.2.1 b.2.2 s') ?_
    ⟨fs, rfl, h⟩ hn
  rintro j ⟨c', x', a'⟩ s' ⟨gs, rfl, hg⟩
  refine wp_mono (wp_splitStep hg hs) ?_
  rintro (⟨c'', x'', a''⟩ | code) s'' hr
  · obtain ⟨gs', hlt, hg'⟩ := hr
    exact ⟨gs'.length, hlt, gs', rfl, hg'⟩
  · exact hr

end C11AndC.TwoThree
