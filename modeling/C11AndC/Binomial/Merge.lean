import C11AndC.Binomial.Heap

namespace C11AndC.Binomial

open C11AndC.Library

/-- Each degree of the second list is one of the first list, or the greatest of the first list
is below it and in the second list as well. -/
def Covers (ds es : List Nat) : Prop :=
  ∀ e ∈ es, e ∈ ds ∨ ∃ t ∈ ds, (∀ d ∈ ds, d ≤ t) ∧ t < e ∧ t ∈ es

/-- The degrees of two lists of which `Merge` loses no tree. The first degree of the second list
does not count if it is below all others. -/
def Fits : List Nat → List Nat → Prop
  | d :: ds, e :: es => Covers (d :: ds) (if e < d then es else e :: es)
  | _, _ => True

section Degrees

variable {d e : Nat} {ds es : List Nat}

theorem covers_lt (hd : (d :: ds).Pairwise (· < ·)) (he : (e :: es).Pairwise (· < ·)) (h : d < e) :
    Covers (d :: ds) (e :: es) ↔ Covers ds (e :: es) := by
  obtain ⟨hlt, -⟩ := List.pairwise_cons.mp hd
  obtain ⟨hle, -⟩ := List.pairwise_cons.mp he
  have hgt : ∀ x ∈ e :: es, d < x := by
    intro x hx
    obtain rfl | hx := List.mem_cons.mp hx
    · exact h
    · exact Nat.lt_trans h (hle x hx)
  constructor
  · intro hc x hx
    obtain hm | ⟨t, ht, hmax, htx, hte⟩ := hc x hx
    · exact .inl ((List.mem_cons.mp hm).resolve_left (Nat.ne_of_gt (hgt x hx)))
    · have hne := Nat.ne_of_gt (hgt t hte)
      exact .inr ⟨t, (List.mem_cons.mp ht).resolve_left hne,
        fun b hb => hmax b (List.mem_cons_of_mem _ hb), htx, hte⟩
  · intro hc x hx
    obtain hm | ⟨t, ht, hmax, htx, hte⟩ := hc x hx
    · exact .inl (List.mem_cons_of_mem _ hm)
    · refine .inr ⟨t, List.mem_cons_of_mem _ ht, fun b hb => ?_, htx, hte⟩
      obtain rfl | hb := List.mem_cons.mp hb
      · exact Nat.le_of_lt (hlt t ht)
      · exact hmax b hb


theorem covers_eq (hd : (d :: ds).Pairwise (· < ·)) (he : (d :: es).Pairwise (· < ·))
    (hne : ds ≠ []) : Covers (d :: ds) (d :: es) ↔ Covers ds es := by
  obtain ⟨hlt, -⟩ := List.pairwise_cons.mp hd
  obtain ⟨hle, -⟩ := List.pairwise_cons.mp he
  constructor
  · intro hc x hx
    have hdx := hle x hx
    obtain hm | ⟨t, ht, hmax, htx, hte⟩ := hc x (List.mem_cons_of_mem _ hx)
    · exact .inl ((List.mem_cons.mp hm).resolve_left (Nat.ne_of_gt hdx))
    · obtain ⟨d', ds, rfl⟩ := List.exists_cons_of_ne_nil hne
      have hdt : d < t := Nat.lt_of_lt_of_le (hlt d' (by simp)) (hmax d' (by simp))
      exact .inr ⟨t, (List.mem_cons.mp ht).resolve_left (Nat.ne_of_gt hdt),
        fun b hb => hmax b (List.mem_cons_of_mem _ hb), htx,
        (List.mem_cons.mp hte).resolve_left (Nat.ne_of_gt hdt)⟩
  · intro hc x hx
    obtain rfl | hx := List.mem_cons.mp hx
    · exact .inl List.mem_cons_self
    · obtain hm | ⟨t, ht, hmax, htx, hte⟩ := hc x hx
      · exact .inl (List.mem_cons_of_mem _ hm)
      · refine .inr ⟨t, List.mem_cons_of_mem _ ht, fun b hb => ?_, htx, List.mem_cons_of_mem _ hte⟩
        obtain rfl | hb := List.mem_cons.mp hb
        · exact Nat.le_of_lt (hlt t ht)
        · exact hmax b hb

theorem covers_gt (hd : (d :: ds).Pairwise (· < ·)) (h : e < d) : ¬ Covers (d :: ds) (e :: es) := by
  obtain ⟨hlt, -⟩ := List.pairwise_cons.mp hd
  have hgt : ∀ x ∈ d :: ds, e < x := by
    intro x hx
    obtain rfl | hx := List.mem_cons.mp hx
    · exact h
    · exact Nat.lt_trans h (hlt x hx)
  intro hc
  obtain hm | ⟨t, ht, -, hte, -⟩ := hc e List.mem_cons_self
  · exact Nat.lt_irrefl e (hgt e hm)
  · exact Nat.lt_asymm hte (hgt t ht)

theorem covers_single (he : (d :: es).Pairwise (· < ·)) : Covers [d] (d :: es) := by
  intro x hx
  obtain rfl | hx := List.mem_cons.mp hx
  · exact .inl List.mem_cons_self
  · refine .inr ⟨d, List.mem_cons_self, fun b hb => ?_, (List.pairwise_cons.mp he).1 x hx,
      List.mem_cons_self⟩
    exact Nat.le_of_eq (List.mem_singleton.mp hb)

end Degrees

section Roots

variable {ys zs l : List Root}

/-- Only where the degrees fit are the lists spliced as a whole. -/
theorem spliceRoots_covers (hy : (degrees ys).Pairwise (· < ·)) (hz : (degrees zs).Pairwise (· < ·)) :
    (Covers (degrees ys) (degrees zs) → spliceRoots ys zs = mergeRoots ys zs) ∧
      (¬ Covers (degrees ys) (degrees zs) → (spliceRoots ys zs).length < ys.length + zs.length) := by
  fun_induction spliceRoots ys zs with
  | case1 ys =>
    refine ⟨fun _ => by rw [mergeRoots, List.merge_right], fun h => absurd ?_ h⟩
    intro e he
    cases he
  | case2 z zs =>
    refine ⟨fun h => ?_, fun _ => by simp⟩
    obtain hm | ⟨t, ht, -⟩ := h z.degree (by simp [degrees])
    · cases hm
    · cases ht
  | case3 y ys z zs h ih =>
    have hc : Covers (degrees (y :: ys)) (degrees (z :: zs)) ↔ _ := covers_lt hy hz h
    obtain ⟨ih₁, ih₂⟩ := ih (List.pairwise_cons.mp hy).2 hz
    rw [hc]
    refine ⟨fun hf => ?_, fun hf => ?_⟩
    · rw [ih₁ hf, mergeRoots, mergeRoots,
        List.cons_merge_cons_pos _ _ _ (by simpa using Nat.le_of_lt h)]
    · have := ih₂ hf
      simp only [List.length_cons] at this ⊢
      omega
  | case4 y z zs h h' =>
    have hc : Covers (degrees [y]) (degrees (z :: zs)) := by
      simp only [degrees, List.map_cons, List.map_nil, h'] at hz ⊢
      exact covers_single hz
    exact ⟨fun _ => by rw [mergeRoots, List.cons_merge_cons_pos _ _ _ (by simp [h']), List.nil_merge],
      fun hf => absurd hc hf⟩
  | case5 y z zs h h' y' ys ih =>
    have hc : Covers (degrees (y :: y' :: ys)) (degrees (z :: zs)) ↔
        Covers (degrees (y' :: ys)) (degrees zs) := by
      simp only [degrees, List.map_cons, ← h'] at hy hz ⊢
      exact covers_eq hy hz (List.cons_ne_nil _ _)
    obtain ⟨hlt, hy⟩ := List.pairwise_cons.mp hy
    have hz' : z.degree < y'.degree := h' ▸ hlt y'.degree (by simp)
    obtain ⟨ih₁, ih₂⟩ := ih hy (List.pairwise_cons.mp hz).2
    rw [hc]
    refine ⟨fun hf => ?_, fun hf => ?_⟩
    · rw [ih₁ hf, mergeRoots, mergeRoots, List.cons_merge_cons_pos _ _ _ (by simp [h']),
        List.cons_merge_cons_neg _ _ _ (by simpa using hz')]
    · have := ih₂ hf
      simp only [List.length_cons] at this ⊢
      omega
  | case6 y ys z zs h h' ih =>
    have hc : ¬ Covers (degrees (y :: ys)) (degrees (z :: zs)) := covers_gt hy (by omega)
    have hle := length_spliceRoots_le (y :: ys) zs
    refine ⟨fun hf => absurd hf hc, fun _ => ?_⟩
    simp only [List.length_cons] at hle ⊢
    omega

/-- No tree is made up. -/
theorem subperm_spliceRoots (ys zs : List Root) : (spliceRoots ys zs).Subperm (ys ++ zs) := by
  fun_induction spliceRoots ys zs with
  | case1 ys => simp [List.Subperm.refl]
  | case2 z zs => exact List.nil_subperm
  | case3 y ys z zs h ih => exact (List.subperm_cons y).mpr ih
  | case4 y z zs h h' => exact List.Subperm.refl _
  | case5 y z zs h h' y' ys ih =>
    refine (List.subperm_cons y).mpr (((List.subperm_cons z).mpr ih).trans ?_)
    exact List.perm_middle.symm.subperm
  | case6 y ys z zs h h' ih =>
    exact ih.trans ((List.sublist_cons_self z zs).append_left _).subperm

theorem subperm_meldRoots (ys zs : List Root) : (meldRoots ys zs).Subperm (ys ++ zs) := by
  cases ys with
  | nil => simp [meldRoots, List.Subperm.refl]
  | cons y ys =>
    cases zs with
    | nil => simp [meldRoots, List.Subperm.refl]
    | cons z zs =>
      rw [meldRoots]
      split_ifs
      · exact subperm_spliceRoots ..
      · refine ((List.subperm_cons z).mpr (subperm_spliceRoots (y :: ys) zs)).trans ?_
        exact List.perm_middle.symm.subperm

theorem meldRoots_fits (hy : (degrees ys).Pairwise (· < ·)) (hz : (degrees zs).Pairwise (· < ·)) :
    (Fits (degrees ys) (degrees zs) → meldRoots ys zs = mergeRoots ys zs) ∧
      (¬ Fits (degrees ys) (degrees zs) → (meldRoots ys zs).length < ys.length + zs.length) := by
  cases ys with
  | nil => exact ⟨fun _ => by simp [meldRoots, mergeRoots], fun h => absurd trivial h⟩
  | cons y ys =>
    cases zs with
    | nil => exact ⟨fun _ => by simp [meldRoots, mergeRoots], fun h => absurd trivial h⟩
    | cons z zs =>
      have hf : Fits (degrees (y :: ys)) (degrees (z :: zs)) ↔ Covers (degrees (y :: ys))
          (if z.degree < y.degree then degrees zs else degrees (z :: zs)) := Iff.rfl
      rw [hf, meldRoots]
      by_cases hd : z.degree < y.degree
      · rw [if_pos hd, if_neg (Nat.not_le_of_lt hd)]
        obtain ⟨h₁, h₂⟩ := spliceRoots_covers hy (List.pairwise_cons.mp hz).2
        refine ⟨fun hc => ?_, fun hc => ?_⟩
        · rw [h₁ hc, mergeRoots, mergeRoots, List.cons_merge_cons_neg _ _ _ (by simpa using hd)]
        · have := h₂ hc
          simp only [List.length_cons] at this ⊢
          omega
      · rw [if_neg hd, if_pos (Nat.le_of_not_lt hd)]
        exact spliceRoots_covers hy hz

/-- With a tree a key is lost. -/
theorem length_keys_lt (hs : l.Subperm (ys ++ zs)) (hl : l.length < ys.length + zs.length) :
    (keys l).length < (keys ys ++ keys zs).length := by
  obtain ⟨l', hp, hsub⟩ := hs
  obtain ⟨lost, hlost⟩ := hsub.exists_perm_append
  have hlen := hlost.length_eq
  have hperm : (keys ys ++ keys zs).Perm (keys l ++ keys lost) := by
    simp only [keys, ← List.flatMap_append]
    exact (hlost.trans (hp.append_right lost)).flatMap_right _
  have hne : lost ≠ [] := by
    rintro rfl
    have := hp.length_eq
    simp only [List.append_nil, List.length_append] at hlen
    omega
  obtain ⟨r, lost, rfl⟩ := List.exists_cons_of_ne_nil hne
  rw [hperm.length_eq, List.length_append, keys, keys, List.flatMap_cons, List.length_append,
    Root.keys, List.length_cons]
  omega

end Roots

section Memory

variable {m : Memory Node} {s : Store Node BinomialHeap} {ys zs l l' : List Root} {steps : Nat}

theorem forest_unique {f g : Forest} (hf : f.Shape m) (hg : g.Shape m) (ha : f.addr = g.addr) :
    f = g := by
  induction f generalizing g with
  | nil => exact (nil_of_addr hg ha.symm).symm
  | node a n d p c sib ihc ihs =>
    cases g with
    | nil => exact absurd ha (Memory.ne_zero_of_cell hf.1)
    | node a' n' d' p' c' sib' =>
      obtain rfl : a = a' := ha
      have he := hf.1.symm.trans hg.1
      simp only [Option.some.injEq, Node.mk.injEq] at he
      obtain ⟨rfl, rfl, rfl, hc, hs⟩ := he
      rw [ihc hf.2.1 hg.2.1 hc, ihs hf.2.2 hg.2.2 hs]

/-- What a pointer leads to is determined by the memory. -/
theorem seg_unique (hl : Seg m 0 l) (hl' : Seg m 0 l') (hh : headAddr 0 l = headAddr 0 l') :
    l = l' := by
  induction l generalizing l' with
  | nil =>
    cases l' with
    | nil => rfl
    | cons r' l' => exact absurd hh.symm (Memory.ne_zero_of_cell hl'.1)
  | cons r l ih =>
    cases l' with
    | nil => exact absurd hh (Memory.ne_zero_of_cell hl.1)
    | cons r' l' =>
      obtain ⟨a, n, d, p, c⟩ := r
      obtain ⟨a', n', d', p', c'⟩ := r'
      obtain rfl : a = a' := hh
      have he := hl.1.symm.trans hl'.1
      simp only [Root.node, Option.some.injEq, Node.mk.injEq] at he
      obtain ⟨rfl, rfl, rfl, hc, ht⟩ := he
      obtain rfl : c = c' := forest_unique hl.2.1 hl'.2.1 hc
      rw [ih hl.2.2 hl'.2.2 ht]

/-- From `H` one meets every root of both lists exactly once, by degree. -/
def Merged (ys zs : List Root) (H : Nat) (t : Store Node BinomialHeap) : Prop :=
  ∃ l, Parts t.mem [segPart 0 l] ∧ H = headAddr 0 l ∧ l.Perm (ys ++ zs) ∧
    (degrees l).Pairwise (· ≤ ·)

/-- At `H` there is a binomial heap with the keys of both lists. -/
def United (ys zs : List Root) (H : Nat) (t : Store Node BinomialHeap) : Prop :=
  ∃ l, Parts t.mem [segPart 0 l] ∧ H = headAddr 0 l ∧ Valid l ∧ (keys l).Perm (keys ys ++ keys zs)

theorem wp_merge_fits (hy : Valid ys) (hz : Valid zs)
    (hs : Parts s.mem [segPart 0 ys, segPart 0 zs]) (hn : ys.length + zs.length < steps) :
    wp (merge steps (headAddr 0 ys) (headAddr 0 zs)) (Merged ys zs) s ↔
      Fits (degrees ys) (degrees zs) := by
  have hrun := wp_merge hy.sorted hs hn
  constructor
  · intro h
    by_contra hf
    obtain ⟨H, t, ⟨-, rfl, ht⟩, l, hl, hH, hp, -⟩ := wp_and hrun h
    have hlt := (meldRoots_fits hy.sorted hz.sorted).2 hf
    rw [seg_unique (parts_get (i := 0) ht rfl) (parts_get (i := 0) hl rfl) hH, hp.length_eq,
      List.length_append] at hlt
    exact Nat.lt_irrefl _ hlt
  · intro hf
    refine wp_mono hrun ?_
    rintro H t ⟨-, rfl, ht⟩
    rw [(meldRoots_fits hy.sorted hz.sorted).1 hf] at ht ⊢
    exact ⟨_, ht, rfl, mergeRoots_perm ys zs, sorted_mergeRoots hy.sorted hz.sorted⟩

theorem wp_union_fits (hy : Valid ys) (hz : Valid zs)
    (hs : Parts s.mem [segPart 0 ys, segPart 0 zs]) (hn : ys.length + zs.length < steps) :
    wp (union steps (headAddr 0 ys) (headAddr 0 zs)) (United ys zs) s ↔
      Fits (degrees ys) (degrees zs) := by
  have hrun := wp_union hy.sorted hs hn
  constructor
  · intro h
    by_contra hf
    obtain ⟨H, t, ⟨-, rfl, ht⟩, l, hl, hH, -, hk⟩ := wp_and hrun h
    have hlt := length_keys_lt (subperm_meldRoots ys zs)
      ((meldRoots_fits hy.sorted hz.sorted).2 hf)
    rw [← (keys_consolidate _).length_eq,
      seg_unique (parts_get (i := 0) ht rfl) (parts_get (i := 0) hl rfl) hH, hk.length_eq] at hlt
    exact Nat.lt_irrefl _ hlt
  · intro hf
    refine wp_mono hrun ?_
    rintro H t ⟨-, rfl, ht⟩
    rw [(meldRoots_fits hy.sorted hz.sorted).1 hf] at ht ⊢
    exact ⟨_, ht, rfl, valid_unionRoots hy hz, keys_unionRoots ys zs⟩

/-- `Merge` and `Union` keep all trees of two binomial heaps exactly when their degrees fit. -/
theorem union_fits_iff (s : Store Node BinomialHeap) (ys zs : List Root) (hy : Valid ys)
    (hz : Valid zs) (hs : Parts s.mem [segPart 0 ys, segPart 0 zs]) :
    ∃ enough, ∀ steps, enough ≤ steps →
      (wp (merge steps (headAddr 0 ys) (headAddr 0 zs)) (Merged ys zs) s ↔
        Fits (degrees ys) (degrees zs)) ∧
      (wp (union steps (headAddr 0 ys) (headAddr 0 zs)) (United ys zs) s ↔
        Fits (degrees ys) (degrees zs)) :=
  ⟨ys.length + zs.length + 1, fun _ hn => ⟨wp_merge_fits hy hz hs hn, wp_union_fits hy hz hs hn⟩⟩

end Memory

def single : Root := ⟨1, 5, 0, 0, .nil⟩

def pair : Root := ⟨2, 3, 1, 0, .node 3 4 0 2 .nil .nil⟩

/-- The memory with both trees. -/
def twoHeaps : Store Node BinomialHeap :=
  ⟨((Memory.empty.alloc ⟨5, 0, 0, 0, 0⟩).alloc ⟨3, 1, 0, 3, 0⟩).alloc ⟨4, 0, 2, 0, 0⟩, ⟨0, 0⟩⟩

theorem valid_single : Valid [single] :=
  ⟨fun r hr => by rw [List.mem_singleton.mp hr]; exact ⟨trivial, trivial⟩, List.pairwise_singleton ..⟩

theorem valid_pair : Valid [pair] :=
  ⟨fun r hr => by
    rw [List.mem_singleton.mp hr]
    exact ⟨⟨rfl, trivial, trivial⟩, by decide, trivial, trivial⟩, List.pairwise_singleton ..⟩

theorem parts_twoHeaps : Parts twoHeaps.mem [segPart 0 [single], segPart 0 [pair]] := by
  refine ⟨by decide, fun p hp => ?_⟩
  simp only [List.mem_cons, List.not_mem_nil, or_false] at hp
  obtain rfl | rfl := hp
  · exact ⟨rfl, trivial, trivial⟩
  · exact ⟨rfl, ⟨rfl, trivial, trivial⟩, trivial⟩

theorem union_fits_iff_pair : ∃ enough, ∀ steps, enough ≤ steps →
    (wp (merge steps 2 1) (Merged [pair] [single]) twoHeaps ↔ Fits [1] [0]) ∧
    (wp (union steps 2 1) (United [pair] [single]) twoHeaps ↔ Fits [1] [0]) :=
  union_fits_iff twoHeaps [pair] [single] valid_pair valid_single
    ((parts_perm (List.Perm.swap ..)).mp parts_twoHeaps)

/-- With the tree of degree 0 in the first list the other tree is lost. -/
theorem union_loses : Valid [single] ∧ Valid [pair] ∧
    Parts twoHeaps.mem [segPart 0 [single], segPart 0 [pair]] ∧
    ∀ steps, 2 < steps → ¬ wp (merge steps 1 2) (Merged [single] [pair]) twoHeaps ∧
      ¬ wp (union steps 1 2) (United [single] [pair]) twoHeaps := by
  refine ⟨valid_single, valid_pair, parts_twoHeaps, fun steps hn => ?_⟩
  have hf : ¬ Fits (degrees [single]) (degrees [pair]) := by
    intro h
    obtain hm | ⟨t, ht, -, -, hte⟩ := h 1 (by decide)
    · exact absurd hm (by decide)
    · rw [List.mem_singleton.mp ht] at hte
      exact absurd hte (by decide)
  exact ⟨fun h => hf ((wp_merge_fits valid_single valid_pair parts_twoHeaps hn).mp h),
    fun h => hf ((wp_union_fits valid_single valid_pair parts_twoHeaps hn).mp h)⟩

end C11AndC.Binomial
