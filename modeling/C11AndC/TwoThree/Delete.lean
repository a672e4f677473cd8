import C11AndC.TwoThree.Repair
import C11AndC.TwoThree.Insert

namespace C11AndC.TwoThree

open C11AndC.Library

variable {K : Type} {s : Store (CNode K) Nat} {ps : List (Library.Part (CNode K))}

namespace Frame

@[simp] theorem keys_cell (f : Frame K) (p q : Nat) : (f.cell p q).keys = f.keys := by
  obtain ⟨d, a, v, x, y⟩ := f
  cases d <;> rfl

theorem cell_withKeys (f : Frame K) (v : Keys K) (p q : Nat) :
    { f.cell p q with keys := v } = ({ f with keys := v } : Frame K).cell p q := by
  obtain ⟨d, a, w, x, y⟩ := f
  cases d <;> rfl

end Frame

/-- The nearest node above a place as a part of its own. -/
theorem parts_above {m : Memory (CNode K)} {q p : Nat} {f : Frame K} {fs : List (Frame K)} :
    Parts m (abovePart q p (f :: fs) :: ps) ↔
      Parts m (cellPart f.addr (f.cell p (top q fs)) :: treePart f.addr f.fst ::
        treePart f.addr f.snd :: abovePart q f.addr fs :: ps) := by
  have hf : ((abovePart q p (f :: fs) :: ps).flatMap Library.Part.addrs) =
      (cellPart f.addr (f.cell p (top q fs)) :: treePart f.addr f.fst ::
        treePart f.addr f.snd :: abovePart q f.addr fs :: ps).flatMap Library.Part.addrs := by
    simp [treePart, cellPart, abovePart, aboveAddrs]
  constructor
  · rintro ⟨hn, hh⟩
    simp only [List.mem_cons, forall_eq_or_imp] at hh
    obtain ⟨⟨hc, hx, hy, ha⟩, hps⟩ := hh
    refine ⟨hf ▸ hn, ?_⟩
    simp only [List.mem_cons, forall_eq_or_imp]
    exact ⟨hc, hx, hy, ha, hps⟩
  · rintro ⟨hn, hh⟩
    simp only [List.mem_cons, forall_eq_or_imp] at hh
    obtain ⟨hc, hx, hy, ha, hps⟩ := hh
    refine ⟨hf ▸ hn, ?_⟩
    simp only [List.mem_cons, forall_eq_or_imp]
    exact ⟨⟨hc, hx, hy, ha⟩, hps⟩

section Exchange

variable {f : Frame K} {fs hs : List (Frame K)} {y : Nat} {v : Keys K}
  {Q : Unit → Store (CNode K) Nat → Prop}

/-- A key of a node is exchanged with the small key of a leaf below it. -/
theorem wp_exchange (w : Slot) (key j : K)
    (h : Parts s.mem [treePart 0 (plug (hs ++ f :: fs) (.node y v .nil .nil .nil))])
    (hq : ∀ m, Parts m [treePart 0 (plug (hs ++ { f with keys := f.keys.set w j } :: fs)
      (.node y (v.set .small key) .nil .nil .nil))] → Q () ⟨m, s.reg⟩) :
    wp (do setKey y .small key; setKey f.addr w j) Q s := by
  rw [plug_append] at h
  have h₁ : Parts s.mem [abovePart 0 (plug hs (.node y v .nil .nil .nil)).root (f :: fs),
      treePart f.addr (plug hs (.node y v .nil .nil .nil))] :=
    parts_pick [1, 0] (parts_whole.mpr h) (l := [_, _]) rfl (by decide)
  have h₂ := (parts_inside (l := [_, _, _, _])).mp (parts_above.mp h₁)
  rw [wp_bind]
  refine wp_setKey_part (i := 4) h₂ rfl (fun m h₃ => ?_)
  refine wp_setKey_part (i := 0) h₃ rfl (fun m h₄ => hq m ?_)
  have h₅ : Parts m [cellPart f.addr { f.cell (plug hs (.node y v .nil .nil .nil)).root (top 0 fs) with
        keys := (f.cell (plug hs (.node y v .nil .nil .nil)).root (top 0 fs)).keys.set w j },
      treePart f.addr f.fst, treePart f.addr f.snd, abovePart 0 f.addr fs,
      treePart f.addr (plug hs (.node y (v.set .small key) .nil .nil .nil))] :=
    (parts_inside (l := [_, _, _, _])).mpr h₄
  rw [Frame.keys_cell, Frame.cell_withKeys, hole_root (v.set .small key)] at h₅
  rw [plug_append]
  have h₆ := (parts_above (f := { f with keys := f.keys.set w j })).mpr h₅
  exact parts_whole.mp (parts_pick [1, 0] h₆ (l := [_, _]) rfl (by decide))

end Exchange

/-- Down to the left until there is a leaf. -/
def descend : List (Frame K) → Tree K → List (Frame K) × Tree K
  | fs, .nil => (fs, .nil)
  | fs, .node a v l m r =>
      if l.isNil then (fs, .node a v l m r) else descend (⟨.left, a, v, m, r⟩ :: fs) l

theorem descend_endLeaf {fs hs : List (Frame K)} {y : Nat} {v : Keys K} (h : Along .left hs) :
    descend fs (plug hs (.node y v .nil .nil .nil)) = (hs ++ fs, .node y v .nil .nil .nil) := by
  induction hs using List.reverseRecOn generalizing fs with
  | nil => rfl
  | append_singleton hs f ih =>
    have hf : f.side = .left := h f (by simp)
    obtain ⟨d, a, w, l, r⟩ := f
    cases hf
    rw [plug_append]
    simp only [plug, Frame.plug, descend, hole_isNil, Bool.false_eq_true, ↓reduceIte]
    rw [ih (fun g hg => h g (List.mem_append_left _ hg))]
    simp

/-- What the keys in the nodes above a place are does not matter, only how many. -/
theorem misfires_withKeys {b : Bool} {f : Frame K} {fs hs : List (Frame K)} {v : Keys K}
    (h : v.getSize = f.keys.getSize) :
    misfires b (hs ++ { f with keys := v } :: fs) = misfires b (hs ++ f :: fs) := by
  have hr : ∀ d (gs : List (Frame K)),
      reaches d (gs ++ { f with keys := v } :: fs) = reaches d (gs ++ f :: fs) := by
    intro d gs
    induction gs with
    | nil => cases fs <;> rfl
    | cons g gs ih =>
      cases gs with
      | nil => simp only [List.cons_append, List.nil_append, reaches] at ih ⊢; rw [ih]
      | cons g' gs => simp only [List.cons_append, reaches] at ih ⊢; rw [ih]
  induction hs generalizing b with
  | nil =>
    have hr := fun d => hr d []
    simp only [List.nil_append] at hr ⊢
    simp only [misfires, hr, h]
    rfl
  | cons g hs ih =>
    have hr := fun d => hr d (g :: hs)
    simp only [List.cons_append] at hr ⊢
    simp only [misfires, hr, ih]

section Leaf

variable [LinearOrder K] {key : K} {keys : List K} {fs : List (Frame K)} {y steps : Nat}
  {v : Keys K}

/-- The leaf at `y` has the key that is to be taken away. -/
structure Ready (key : K) (keys : List K) (fs : List (Frame K)) (y : Nat) (v : Keys K)
    (s : Store (CNode K) Nat) : Prop where
  parts : Parts s.mem [treePart 0 (plug fs (.node y v .nil .nil .nil))]
  root : s.reg = rootAddr fs y
  above : AboveOk 1 fs
  valid : Valid 1 (.node y v .nil .nil .nil)
  has : hasKey key v = true
  rest : keys = before fs ++ (v.smallList ++ v.bigList).erase key ++ after fs

theorem wp_removeFromLeaf {k₁ k₂ : K} (h : Ready key keys fs y (.three k₁ k₂) s) :
    wp (removeFromLeaf y key) (fun code s' => code = .success ∧ Settled false keys s') s := by
  have h₁ := (parts_inside (l := [])).mp h.parts
  have hc := cell_of_parts (i := 0) h₁ rfl
  have hdone : ∀ {μ : Memory (CNode K)} {k j : K},
      Parts μ [treePart 0 (plug fs (.node y (.two k j) .nil .nil .nil))] →
      keys = before fs ++ [k] ++ after fs → Settled false keys ⟨μ, s.reg⟩ := by
    intro μ k j hp hk
    refine ⟨_, hp, ?_, ?_, fun _ => rfl, fun _ => ⟨_, valid_plug h.above (.two .nil .nil)⟩⟩
    · rw [root_plug]
      exact h.root
    · rw [keys_plug, hk]
      simp [Tree.keys]
  have hrest := h.rest
  simp only [Keys.smallList_three, Keys.bigList_three, List.cons_append, List.nil_append] at hrest
  simp only [removeFromLeaf, Memory.ne_zero_of_cell hc, ↓reduceIte, wp_bind, wp_load, hc,
    Option.some.injEq, exists_eq_left', Keys.small_three, Keys.big_three, tCompare_eq]
  by_cases hk : key = k₁
  · subst hk
    simp only [↓reduceIte, wp_bind, wp_pure]
    refine wp_copyKey_part (i := 0) (j := 0) h₁ rfl rfl (fun μ h₂ => ?_)
    refine wp_clearKey_part (i := 0) h₂ rfl (fun μ h₃ => ⟨trivial, ?_⟩)
    exact hdone (k := k₂) (j := k₂) ((parts_inside (l := [])).mpr h₃) (by simpa using hrest)
  · obtain rfl := (hasKey_three.mp h.has).resolve_left hk
    simp only [hk, ↓reduceIte, wp_bind, wp_pure]
    refine wp_clearKey_part (i := 0) h₁ rfl (fun μ h₂ => ⟨trivial, ?_⟩)
    refine hdone (k := k₁) (j := key) ((parts_inside (l := [])).mpr h₂) ?_
    simpa [List.erase_cons, Ne.symm hk] using hrest

/-- The key is taken from the leaf, and the tree is repaired if that leaves it empty. -/
theorem wp_removeKey (h : Ready key keys fs y v s) (hn : fs.length < steps) :
    wp (do if ← isThree y then removeFromLeaf y key else loop (deleteStep steps) steps y)
      (fun code s' => code = .success ∧
        Settled (v.getSize = .twoNode && misfires true fs) keys s') s := by
  have h₁ := (parts_inside (l := [])).mp h.parts
  have hc := cell_of_parts (i := 0) h₁ rfl
  rw [wp_bind, wp_isThree hc]
  cases h.valid with
  | @two _ _ k u =>
    obtain rfl := hasKey_two.mp h.has
    have hr : Repairing keys fs 0 y s := by
      refine ⟨h.root, h.above, key, u, true, .nil, .nil, ?_, parts_whole.mpr h.parts⟩
      simpa [Tree.keys] using h.rest
    simp only [Keys.getSize_two, reduceCtorEq, decide_false, Bool.false_eq_true, ↓reduceIte,
      decide_true, Bool.true_and]
    simpa using wp_deleteLoop hr (by omega) hn
  | three =>
    simpa using wp_removeFromLeaf h

end Leaf

section Successor

variable [LinearOrder K] {key : K} {f : Frame K} {fs hs : List (Frame K)} {n y steps q : Nat}
  {v : Keys K} {w : Slot} {t c : Tree K}

omit [LinearOrder K] in
/-- The least key of a subtree. -/
theorem wp_leastKey (hc : Shape s.mem q c) (he : EndLeaf .left c hs y v) (hv : Valid (n + 1) c)
    (hn : n < steps) :
    wp (do
        let min ← getMinNode steps c.root
        return (min, (← load min).keys.small))
      (fun r s' => s' = s ∧ r = (y, v.small)) s := by
  have hend := endOf_endLeaf he
  obtain ⟨q', hq⟩ := shape_endOf (d := .left) hc
  rw [hend] at hq
  simp only [wp_bind]
  refine wp_mono (wp_goDown (d := .left) hc (by rw [depth_valid hv]; omega) (not_nil hv)) ?_
  rintro _ _ ⟨rfl, rfl⟩
  simp [hend, hq.1]

theorem wp_swapWithInOrderSuccessor
    (h : Parts s.mem [treePart 0 (plug (hs ++ f :: fs) (.node y v .nil .nil .nil))])
    (hnext : wp (getNextInorderKey steps f.addr key) (fun r s' => s' = s ∧ r = (y, v.small)) s)
    (hw : (w = .small ∧ key = f.keys.small) ∨
      (w = .big ∧ key ≠ f.keys.small ∧ key = f.keys.big)) :
    wp (swapWithInOrderSuccessor steps f.addr key) (fun res s' => res = (.success, y) ∧
      s'.reg = s.reg ∧ Parts s'.mem [treePart 0 (plug
        (hs ++ { f with keys := f.keys.set w v.small } :: fs)
        (.node y (v.set .small key) .nil .nil .nil))]) s := by
  have hcell : ∃ o, s.mem.cell f.addr = some o ∧ o.keys = f.keys := by
    rw [plug_append] at h
    have h₁ := parts_pick [1, 0] (parts_whole.mpr h) (l := [_, _]) rfl (by decide)
    exact ⟨_, cell_of_parts (i := 0) (parts_above.mp h₁) rfl, Frame.keys_cell _ _ _⟩
  obtain ⟨o, ho, hk⟩ := hcell
  have hx := fun w => wp_exchange w key v.small
    (Q := fun _ s' => s'.reg = s.reg ∧ Parts s'.mem [treePart 0 (plug
        (hs ++ { f with keys := f.keys.set w v.small } :: fs)
        (.node y (v.set .small key) .nil .nil .nil))]) h (fun m hm => ⟨rfl, hm⟩)
  simp only [wp_bind] at hx
  simp only [swapWithInOrderSuccessor, Memory.ne_zero_of_cell ho, ↓reduceIte, wp_bind]
  refine wp_mono hnext ?_
  rintro _ _ ⟨rfl, rfl⟩
  simp only [wp_load, ho, Option.some.injEq, exists_eq_left', hk, tCompare_eq]
  obtain ⟨rfl, hs⟩ | ⟨rfl, hs, hb⟩ := hw
  · simp only [← hs, ↓reduceIte, wp_bind, wp_pure, true_and]
    exact hx .small
  · simp only [hs, ← hb, ↓reduceIte, wp_bind, wp_pure, true_and]
    exact hx .big

theorem erase_middle {xs ys : List K} (h : (xs ++ key :: ys).Pairwise (· < ·)) :
    (xs ++ key :: ys).erase key = xs ++ ys := by
  have hn : key ∉ xs := by
    intro hm
    exact lt_irrefl key ((List.pairwise_append.mp h).2.2 key hm key List.mem_cons_self)
  rw [List.erase_append_right _ hn, List.erase_cons_head]

omit [LinearOrder K] in
theorem rootAddr_append (hs : List (Frame K)) (g : Frame K) (fs : List (Frame K)) (y : Nat) :
    rootAddr (hs ++ g :: fs) y = rootAddr fs g.addr := by
  induction hs generalizing y with
  | nil => rfl
  | cons f hs ih => exact ih f.addr

/-- After the exchange the leaf is ready. -/
theorem ready_of_swapped {g : Frame K} {xs : List K} (h : IsTree s t)
    (ht : t = plug fs (f.plug c)) (he : EndLeaf .left c hs y v) (hc : Valid (n + 1) c)
    (hfs : AboveOk (n + 2) fs) (hg : FrameOk (n + 1) g) (haddr : g.addr = f.addr)
    (hb : f.before = xs ++ [key]) (hb' : g.before = xs ++ [v.small]) (ha' : g.after = f.after)
    {s' : Store (CNode K) Nat} (hreg : s'.reg = s.reg)
    (hp : Parts s'.mem [treePart 0 (plug (hs ++ g :: fs)
      (.node y (v.set .small key) .nil .nil .nil))]) :
    Ready key (t.keys.erase key) (hs ++ g :: fs) y (v.set .small key) s' := by
  obtain ⟨rfl, hok, hal, hv⟩ := he
  have hlen := valid_height (valid_plug hok hv) hc
  have hsmall : v.smallList = [v.small] := by cases hv <;> rfl
  have hkeys : t.keys = before fs ++ xs ++ key :: (v.small :: v.bigList ++ after hs ++ f.after ++
      after fs) := by
    rw [ht, keys_plug, Frame.keys_plug, keys_plug, before_along hal, hb]
    simp [Tree.keys, hsmall]
  have hsort := h.sorted
  rw [hkeys] at hsort
  refine ⟨hp, ?_, aboveOk_append.mpr ⟨hok, ?_, ?_⟩, ?_, ?_, ?_⟩
  · rw [hreg, h.root, ht, root_plug, rootAddr_append, haddr]
    obtain ⟨d, a, w, l, r⟩ := f
    cases d <;> rfl
  · rw [hlen]
    exact hg
  · rw [hlen]
    exact hfs
  · cases hv with
    | two => exact .two .nil .nil
    | three => exact .three .nil .nil .nil
  · simp [hasKey, Keys.set, tCompare_eq]
  · have hleaf : ((v.set .small key).smallList ++ (v.set .small key).bigList).erase key =
        v.bigList := List.erase_cons_head key v.bigList
    rw [hkeys, erase_middle hsort, hleaf, before_append, after_append]
    simp [before, after, before_along hal, hb', ha']

/-- The place of the leaf that loses a key when one of a node is deleted: the leaf with
the next key, unless the node itself is a leaf. -/
def leafFor (key : K) (fs : List (Frame K)) : Tree K → List (Frame K) × Tree K
  | .nil => (fs, .nil)
  | .node a v l m r =>
      if l.isNil then (fs, .node a v l m r)
      else if v.getSize = .threeNode && tCompare key v.small = .eq then
        descend (⟨.middle, a, v, l, r⟩ :: fs) m
      else descend (⟨.right, a, v, l, m⟩ :: fs) r

/-- What the way to the leaf has led to: the key is in a leaf, and that leaf is the one
foreseen. -/
def Prepared (key : K) (t : Tree K) (fs : List (Frame K)) (u : Tree K) (res : Code × Nat)
    (s : Store (CNode K) Nat) : Prop :=
  res.1 = .success ∧ ∃ gs v, Ready key (t.keys.erase key) gs res.2 v s ∧
    misfires true gs = misfires true (leafFor key fs u).1 ∧
    v.getSize = (leafFor key fs u).2.size ∧ ∀ m, Valid m t → gs.length < m

/-- An internal node: the key is exchanged with the next one. -/
theorem prepared_internal {a : Nat} {e : List K} (h : IsTree s t) (ht : t = plug fs (f.plug c))
    (hc : Valid (n + 1) c) (hf : FrameOk (n + 1) f) (hfs : AboveOk (n + 2) fs)
    (hb : f.before = e ++ [key])
    (hg : ∀ j, FrameOk (n + 1) { f with keys := f.keys.set w j } ∧
      (f.keys.set w j).getSize = f.keys.getSize ∧
      ({ f with keys := f.keys.set w j } : Frame K).before = e ++ [j] ∧
      ({ f with keys := f.keys.set w j } : Frame K).after = f.after)
    (hw : (w = .small ∧ key = f.keys.small) ∨
      (w = .big ∧ key ≠ f.keys.small ∧ key = f.keys.big))
    (hplace : leafFor key fs (f.plug c) = descend (f :: fs) c) (ha : a = f.addr)
    (hnext : ∀ hs y v, EndLeaf .left c hs y v → Shape s.mem f.addr c →
      wp (getNextInorderKey steps f.addr key) (fun r s' => s' = s ∧ r = (y, v.small)) s) :
    wp (swapWithInOrderSuccessor steps a key) (Prepared key t fs (f.plug c)) s := by
  subst ha
  obtain ⟨hs, y, v, he⟩ := endLeaf_left hc
  have hp := h.parts
  rw [ht] at hp
  have hsc : Shape s.mem f.addr c :=
    parts_get (i := 0) (parts_whole.mpr (show Parts s.mem [treePart 0 (plug (f :: fs) c)] from hp))
      rfl
  have hp' : Parts s.mem [treePart 0 (plug (hs ++ f :: fs) (.node y v .nil .nil .nil))] := by
    rw [plug_append, ← he.1]
    exact hp
  obtain ⟨hok, hsize, hb', ha'⟩ := hg v.small
  refine wp_mono (wp_swapWithInOrderSuccessor hp' (hnext hs y v he hsc) hw) ?_
  rintro _ s' ⟨rfl, hreg, hp₁⟩
  refine ⟨rfl, _, _, ready_of_swapped h ht he hc hfs hok rfl hb hb' ha' hreg hp₁, ?_, ?_, ?_⟩
  · rw [misfires_withKeys hsize, hplace, he.1, descend_endLeaf he.2.2.1]
  · rw [hplace, he.1, descend_endLeaf he.2.2.1]
    obtain ⟨-, -, -, hv⟩ := he
    cases hv <;> rfl
  · intro m hm
    rw [ht] at hm
    have h₁ := valid_height (valid_plug hfs (valid_frame hf hc)) hm
    obtain ⟨rfl, hok', -, hv⟩ := he
    have h₂ := valid_height (valid_plug hok' hv) hc
    simp only [List.length_append, List.length_cons]
    omega

theorem prepared_leaf {a : Nat} (h : IsTree s t) (hl : Located key t fs (.node a v .nil .nil .nil))
    (hv : Valid 1 (.node a v .nil .nil .nil)) (hf : hasKey key v = true) (hab : AboveOk 1 fs) :
    Prepared key t fs (.node a v .nil .nil .nil) (.success, a) s := by
  refine ⟨rfl, fs, v, ⟨?_, reg_located h hl, hab, hv, hf, ?_⟩, rfl, rfl, ?_⟩
  · rw [hl.plugged]
    exact h.parts
  · have hk : key ∉ before fs := fun hm => lt_irrefl key (hl.between.1 key hm)
    have hm : key ∈ v.smallList ++ v.bigList := by
      simpa [Tree.keys] using mem_keys_of_found hv hf
    rw [← hl.plugged, keys_plug, List.append_assoc, List.erase_append_right _ hk]
    simp only [Tree.keys, List.nil_append, List.append_nil]
    rw [List.erase_append_left _ hm, List.append_assoc]
  · intro m hm
    rw [← hl.plugged] at hm
    have hh := valid_height (valid_plug hab hv) hm
    omega

/-- The step from the node with the key to the leaf. -/
theorem wp_toLeaf {u : Tree K} {j : Nat} (h : IsTree s t) (hl : Located key t fs u)
    (hv : Valid (j + 1) u) (hab : AboveOk (j + 1) fs) (hf : found key u = true) (hn : j ≤ steps) :
    wp (toLeaf steps u.root key) (Prepared key t fs u) s := by
  have hp := parts_located h hl
  have ht := hl.plugged.symm
  cases j with
  | zero =>
    obtain ⟨a, v, rfl⟩ := leaf_of_valid hv
    have hc := cell_of_parts (i := 0) (parts_node.mp hp) rfl
    simp only [toLeaf, wp_bind, Tree.root_node, wp_load, hc, Option.some.injEq, exists_eq_left',
      CNode.isLeaf, Tree.root_nil, decide_true, Bool.and_self, ↓reduceIte, wp_pure]
    exact prepared_leaf h hl hv hf hab
  | succ j =>
    have hln : ∀ {l : Tree K} {q : Nat}, Valid (j + 1) l → Shape s.mem q l → l.root ≠ 0 :=
      fun hv hs => mt (root_eq_zero hs).mp (by simp [not_nil hv])
    cases hv with
    | @two _ a k x l r hvl hvr =>
      have hc := cell_of_parts (i := 0) (parts_node.mp hp) rfl
      have hl0 := hln hvl (parts_get (i := 1) (parts_node.mp hp) rfl)
      obtain rfl := hasKey_two.mp hf
      simp only [toLeaf, wp_bind, Tree.root_node, wp_load, hc, Option.some.injEq, exists_eq_left',
        CNode.isLeaf, hl0, decide_false, Bool.false_and, Bool.false_eq_true, ↓reduceIte]
      refine prepared_internal (f := ⟨.right, a, .two key x, l, .nil⟩) (w := .small) (e := l.keys)
        h ht hvr (.twoRight hvl) hab ?_ (fun j => ⟨.twoRight hvl, rfl, ?_, rfl⟩) (.inl ⟨rfl, rfl⟩) ?_ rfl ?_
      · simp [Frame.before, Tree.keys]
      · simp [Frame.before, Tree.keys, Keys.set, Keys.smallList, Keys.bigList, Keys.two]
      · simp [Frame.plug, leafFor, not_nil hvl]
      · intro hs y v he hsc
        simp only [getNextInorderKey, wp_bind, wp_load, hc, Option.some.injEq, exists_eq_left',
          CNode.getSize, CNode.isLeaf, hl0, Keys.getSize_two, reduceCtorEq, tCompare_eq,
          decide_false, decide_true, Bool.false_and, Bool.not_false, Bool.true_and, Bool.or_false,
          Bool.false_eq_true, Keys.small_two, ↓reduceIte]
        simpa only [wp_bind, wp_load] using wp_leastKey hsc he hvr hn
    | @three _ a k₁ k₂ l m r hvl hvm hvr =>
      have hc := cell_of_parts (i := 0) (parts_node.mp hp) rfl
      have hl0 := hln hvl (parts_get (i := 1) (parts_node.mp hp) rfl)
      simp only [toLeaf, wp_bind, Tree.root_node, wp_load, hc, Option.some.injEq, exists_eq_left',
        CNode.isLeaf, hl0, decide_false, Bool.false_and, Bool.false_eq_true, ↓reduceIte]
      by_cases hk : key = k₁
      · subst hk
        refine prepared_internal (f := ⟨.middle, a, .three key k₂, l, r⟩) (w := .small) (e := l.keys)
          h ht hvm (.three hvl hvr) hab ?_ (fun j => ⟨.three hvl hvr, rfl, ?_, rfl⟩) (.inl ⟨rfl, rfl⟩) ?_ rfl ?_
        · simp [Frame.before]
        · simp [Frame.before, Keys.set, Keys.smallList]
        · simp [Frame.plug, leafFor, not_nil hvl, tCompare_eq]
        · intro hs y v he hsc
          simp only [getNextInorderKey, wp_bind, wp_load, hc, Option.some.injEq, exists_eq_left',
            CNode.getSize, CNode.isLeaf, hl0, Keys.getSize_three, tCompare_eq, decide_false,
            decide_true, Bool.false_and, Bool.true_and, Bool.false_eq_true, Keys.small_three,
            ↓reduceIte]
          simpa only [wp_bind, wp_load] using wp_leastKey hsc he hvm hn
      · obtain rfl := (hasKey_three.mp hf).resolve_left hk
        refine prepared_internal (f := ⟨.right, a, .three k₁ key, l, m⟩) (w := .big)
          (e := l.keys ++ k₁ :: m.keys) h ht hvr (.three hvl hvm) hab ?_
          (fun j => ⟨.three hvl hvm, rfl, ?_, rfl⟩) (.inr ⟨rfl, hk, rfl⟩) ?_ rfl ?_
        · simp [Frame.before]
        · simp [Frame.before, Keys.set, Keys.smallList, Keys.bigList, Keys.three]
        · simp [Frame.plug, leafFor, not_nil hvl, tCompare_eq, hk]
        · intro hs y v he hsc
          simp only [getNextInorderKey, wp_bind, wp_load, hc, Option.some.injEq, exists_eq_left',
            CNode.getSize, CNode.isLeaf, hl0, Keys.getSize_three, tCompare_eq, hk, decide_false,
            decide_true, Bool.false_and, Bool.and_false, Bool.true_and, Bool.not_false,
            Bool.or_true, Bool.false_eq_true, Keys.small_three, Keys.big_three, ↓reduceIte]
          simpa only [wp_bind, wp_load] using wp_leastKey hsc he hvr hn

/-- The deletion of the key goes wrong: the key is there, the leaf that loses a key is
left empty, and the repair misfires. -/
def goesWrong (key : K) (t : Tree K) : Bool :=
  let place := locate key [] t
  let leaf := leafFor key place.1 place.2
  found key place.2 && (leaf.2.size = .twoNode && misfires true leaf.1)

theorem wp_deleteItem_nonempty (h : IsTree s t) (hv : Valid (n + 1) t) (hn : n < steps) :
    wp (deleteItem steps key) (fun code s' =>
      (key ∈ t.keys → code = .success ∧ Settled (goesWrong key t) (t.keys.erase key) s') ∧
      (key ∉ t.keys → code = .notFound ∧ s' = s)) s := by
  have hl := located key h hv
  have hs : Shape s.mem 0 t := parts_get (i := 0) h.parts rfl
  have hr : t.root ≠ 0 := mt (root_eq_zero hs).mp (by simp [not_nil hv])
  simp only [deleteItem, wp_bind, wp_getReg, h.root, hr, ↓reduceIte]
  refine wp_mono (wp_search h hv hn) ?_
  rintro _ _ ⟨rfl, rfl⟩
  by_cases hk : key ∈ t.keys
  · have hf := (found_iff hl).mpr hk
    obtain ⟨j, hab, hvu, -⟩ := hl.place
    have hjn : j ≤ n := by
      have hp := valid_plug hab hvu
      rw [hl.plugged] at hp
      have := valid_height hp hv
      omega
    simp only [hf, Bool.true_eq_false, and_false, ↓reduceIte]
    rw [wp_bind]
    refine wp_mono (wp_toLeaf h hl hvu hab hf (by omega)) ?_
    rintro ⟨code, y⟩ s' ⟨rfl, gs, v, hready, hmis, hsize, hlen⟩
    simp only [↓reduceIte]
    refine wp_mono (wp_removeKey hready (by have := hlen _ hv; omega)) ?_
    rintro code s'' ⟨rfl, hset⟩
    refine ⟨fun _ => ⟨rfl, ?_⟩, fun hn => absurd hk hn⟩
    simpa [goesWrong, hf, hmis, hsize] using hset
  · have hf : found key (locate key [] t).2 = false := by
      simpa using mt (found_iff hl).mp hk
    simp only [hf, and_self, ↓reduceIte, wp_pure]
    exact ⟨fun hk' => absurd hk' hk, fun _ => trivial⟩

end Successor

/-- The memory holds only one tree at a root. -/
theorem shape_unique {m : Memory (CNode K)} {p q : Nat} {t t' : Tree K} (h : Shape m p t)
    (h' : Shape m q t') (hr : t.root = t'.root) : t = t' := by
  induction t generalizing p q t' with
  | nil =>
    cases t' with
    | nil => rfl
    | node a v l u r => exact absurd hr.symm (Memory.ne_zero_of_cell h'.1)
  | node a v l u r ihl ihu ihr =>
    cases t' with
    | nil => exact absurd hr (Memory.ne_zero_of_cell h.1)
    | node a' v' l' u' r' =>
      obtain rfl : a = a' := hr
      have hc := h.1.symm.trans h'.1
      simp only [Option.some.injEq, CNode.mk.injEq] at hc
      obtain ⟨rfl, hl, hu, hr, -⟩ := hc
      rw [ihl h.2.1 h'.2.1 hl, ihu h.2.2.1 h'.2.2.1 hu, ihr h.2.2.2 h'.2.2.2 hr]

section Outcome

variable [LinearOrder K] {t : Tree K} {key : K}

/-- What a deletion is to do. -/
def Deleted (key : K) (t : Tree K) (s : Store (CNode K) Nat) (code : Code)
    (s' : Store (CNode K) Nat) : Prop :=
  (key ∈ t.keys → code = .success ∧ ∃ t', IsTree s' t' ∧ t'.keys = t.keys.erase key) ∧
  (key ∉ t.keys → code = (if t.isNil then .isEmpty else .notFound) ∧ s' = s)

theorem wp_deleteItem_ok (h : IsTree s t) (hw : goesWrong key t = false) :
    ∃ enough, ∀ steps, enough ≤ steps → wp (deleteItem steps key) (Deleted key t s) s := by
  obtain ⟨n, hv⟩ := h.valid
  refine ⟨n, fun steps hn => ?_⟩
  cases n with
  | zero =>
    cases nil_of_valid_zero hv
    have hr := h.root
    simp only [Tree.root_nil] at hr
    simp [deleteItem, hr, Deleted, Tree.keys, Tree.isNil]
  | succ n =>
    refine wp_mono (wp_deleteItem_nonempty h hv hn) ?_
    rintro code s' ⟨h₁, h₂⟩
    refine ⟨fun hk => ?_, fun hk => by simpa [not_nil hv] using h₂ hk⟩
    obtain ⟨rfl, t', hp, hroot, hkeys, hvalid⟩ := h₁ hk
    refine ⟨rfl, t', ⟨hp, hroot, hvalid.mpr hw, ?_⟩, hkeys⟩
    rw [hkeys]
    exact h.sorted.sublist List.erase_sublist

theorem not_wp_deleteItem (h : IsTree s t) (hw : goesWrong key t = true) (enough : Nat) :
    ¬ ∀ steps, enough ≤ steps → wp (deleteItem steps key) (Deleted key t s) s := by
  intro hd
  obtain ⟨n, hv⟩ := h.valid
  cases n with
  | zero =>
    cases nil_of_valid_zero hv
    cases hw
  | succ n =>
    have hl := located key h hv
    have hk : key ∈ t.keys := by
      simp only [goesWrong, Bool.and_eq_true] at hw
      exact (found_iff hl).mp hw.1
    obtain ⟨code, s', ⟨h₁, -⟩, h₂, -⟩ := wp_and (hd (max enough (n + 1)) (Nat.le_max_left _ _))
      (wp_deleteItem_nonempty h hv (Nat.le_max_right _ _))
    obtain ⟨-, t₁, ht₁, -⟩ := h₁ hk
    obtain ⟨-, t₂, hp, hroot, -, hvalid⟩ := h₂ hk
    have he : t₁ = t₂ := shape_unique (parts_get (i := 0) ht₁.parts rfl)
      (parts_get (i := 0) hp rfl) (ht₁.root.symm.trans hroot)
    rw [hw] at hvalid
    cases hvalid.mp (he ▸ ht₁.valid)

/-- Deletion returns, and leaves a 2-3 tree without the key, or the store as it was if
the key is not there: exactly if the repair does not go wrong. -/
theorem delete_correct_iff (s : Store (CNode K) Nat) (t : Tree K) (key : K) (h : IsTree s t) :
    (∃ enough, ∀ steps, enough ≤ steps → wp (deleteItem steps key) (Deleted key t s) s) ↔
      goesWrong key t = false := by
  constructor
  · rintro ⟨enough, hd⟩
    by_contra hw
    exact not_wp_deleteItem h (by simpa using hw) enough hd
  · exact wp_deleteItem_ok h

/-- A tree of seven nodes. Without the key 1 its left half has no key to spare, and the
first leaf of the right half has one. -/
def spareRight : Tree Nat :=
  .node 1 (.two 4 0) (.node 2 (.two 2 0) (.node 4 (.two 1 0) .nil .nil .nil) .nil
      (.node 5 (.two 3 0) .nil .nil .nil)) .nil
    (.node 3 (.two 7 0) (.node 6 (.three 5 6) .nil .nil .nil) .nil
      (.node 7 (.two 8 0) .nil .nil .nil))

def spareRightStore : Store (CNode Nat) Nat where
  mem := ((((((Memory.empty.alloc ⟨.two 4 0, 2, 0, 3, 0⟩).alloc ⟨.two 2 0, 4, 0, 5, 1⟩).alloc
    ⟨.two 7 0, 6, 0, 7, 1⟩).alloc ⟨.two 1 0, 0, 0, 0, 2⟩).alloc ⟨.two 3 0, 0, 0, 0, 2⟩).alloc
    ⟨.three 5 6, 0, 0, 0, 3⟩).alloc ⟨.two 8 0, 0, 0, 0, 3⟩
  reg := 1

theorem isTree_spareRight : IsTree spareRightStore spareRight := by
  refine ⟨⟨by decide, ?_⟩, rfl, ⟨3, ?_⟩, by decide⟩
  · intro p hp
    obtain rfl := List.mem_singleton.mp hp
    exact ⟨rfl, ⟨rfl, ⟨rfl, trivial, trivial, trivial⟩, trivial, rfl, trivial, trivial, trivial⟩,
      trivial, rfl, ⟨rfl, trivial, trivial, trivial⟩, trivial, rfl, trivial, trivial, trivial⟩
  · exact .two (.two (.two .nil .nil) (.two .nil .nil))
      (.two (.three .nil .nil .nil) (.two .nil .nil))

/-- Three nodes without a key to spare. -/
def noSpare : Tree Nat :=
  .node 1 (.two 2 0) (.node 2 (.two 1 0) .nil .nil .nil) .nil (.node 3 (.two 3 0) .nil .nil .nil)

def noSpareStore : Store (CNode Nat) Nat where
  mem := ((Memory.empty.alloc ⟨.two 2 0, 2, 0, 3, 0⟩).alloc ⟨.two 1 0, 0, 0, 0, 1⟩).alloc ⟨.two 3 0, 0, 0, 0, 1⟩
  reg := 1

theorem isTree_noSpare : IsTree noSpareStore noSpare := by
  refine ⟨⟨by decide, ?_⟩, rfl, ⟨2, ?_⟩, by decide⟩
  · intro p hp
    obtain rfl := List.mem_singleton.mp hp
    exact ⟨rfl, ⟨rfl, trivial, trivial, trivial⟩, trivial, rfl, trivial, trivial, trivial⟩
  · exact .two (.two .nil .nil) (.two .nil .nil)

/-- Without the key 8 a key is moved to its leaf from the one beside it, and without 3 one from the other
half of the tree. The two leaves of the small tree are merged. -/
theorem delete_correct_iff_repairs :
    (∃ enough, ∀ steps, enough ≤ steps →
      wp (deleteItem steps 8) (Deleted 8 spareRight spareRightStore) spareRightStore) ∧
    (∃ enough, ∀ steps, enough ≤ steps →
      wp (deleteItem steps 3) (Deleted 3 spareRight spareRightStore) spareRightStore) ∧
    ∃ enough, ∀ steps, enough ≤ steps →
      wp (deleteItem steps 3) (Deleted 3 noSpare noSpareStore) noSpareStore :=
  ⟨(delete_correct_iff spareRightStore spareRight 8 isTree_spareRight).mpr (by decide),
    (delete_correct_iff spareRightStore spareRight 3 isTree_spareRight).mpr (by decide),
    (delete_correct_iff noSpareStore noSpare 3 isTree_noSpare).mpr (by decide)⟩

theorem delete_wrong : IsTree spareRightStore spareRight ∧
    ¬ ∃ enough, ∀ steps, enough ≤ steps →
      wp (deleteItem steps 1) (Deleted 1 spareRight spareRightStore) spareRightStore := by
  refine ⟨isTree_spareRight, ?_⟩
  rintro ⟨enough, hd⟩
  exact not_wp_deleteItem isTree_spareRight (by decide) enough hd

end Outcome

end C11AndC.TwoThree
