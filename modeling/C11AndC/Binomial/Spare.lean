import C11AndC.Binomial.Merge

namespace C11AndC.Binomial

open C11AndC.Library

/-- The degrees of the roots are such that no tree is lost when `x` is taken apart. -/
def Spares (l : List Root) (x : Root) : Prop :=
  ∀ j < x.degree, 0 < j → (∃ e ∈ degrees l, j < e ∧ e ≠ x.degree) → j ∈ degrees l

section Lists

variable {l pre post : List Root} {x : Root} {d : Nat}

theorem exists_greatest (d : Nat) (ds : List Nat) : ∃ t ∈ d :: ds, ∀ e ∈ d :: ds, e ≤ t := by
  induction ds generalizing d with
  | nil => exact ⟨d, List.mem_cons_self, by simp⟩
  | cons e ds ih =>
    obtain ⟨t, ht, hmax⟩ := ih e
    obtain hd | hd := Nat.le_total d t
    · exact ⟨t, List.mem_cons_of_mem _ ht, List.forall_mem_cons.mpr ⟨hd, hmax⟩⟩
    · refine ⟨d, List.mem_cons_self, List.forall_mem_cons.mpr ⟨Nat.le_refl d, fun b hb => ?_⟩⟩
      exact Nat.le_trans (hmax b hb) hd

/-- What it means that a list of all degrees below a bound fits. -/
theorem fits_range (ds : List Nat) (hd : ds.Pairwise (· < ·)) :
    Fits ds (List.range d) ↔ ∀ j < d, 0 < j → (∃ e ∈ ds, j < e) → j ∈ ds := by
  cases ds with
  | nil => exact iff_of_true trivial (fun _ _ _ ⟨_, he, _⟩ => by cases he)
  | cons y ys =>
    cases d with
    | zero => exact iff_of_true trivial (fun j hj => by omega)
    | succ d =>
      obtain ⟨hle, -⟩ := List.pairwise_cons.mp hd
      have hleast : ∀ e ∈ y :: ys, y ≤ e :=
        List.forall_mem_cons.mpr ⟨Nat.le_refl y, fun e he => Nat.le_of_lt (hle e he)⟩
      have hmem : ∀ x, x ∈ (if 0 < y then (List.range d).map (· + 1) else 0 :: (List.range d).map (· + 1)) ↔
          x < d + 1 ∧ (0 < y → 0 < x) := by
        intro x
        cases x with
        | zero => split_ifs with hy <;> simp [hy]
        | succ x => split_ifs with hy <;> simp
      rw [List.range_succ_eq_map]
      simp only [Fits, Covers, hmem]
      constructor
      · rintro h j hj hj0 ⟨e, he, hje⟩
        obtain hm | ⟨t, -, hmax, htj, -⟩ := h j ⟨hj, fun _ => hj0⟩
        · exact hm
        · have := hmax e he
          omega
      · rintro h x ⟨hx, hyx⟩
        obtain ⟨t, ht, hmax⟩ := exists_greatest y ys
        have hyt := hleast t ht
        by_cases hm : x ∈ y :: ys
        · exact .inl hm
        · have htx : t < x := by
            by_contra hxt
            have hne : x ≠ t := fun he => hm (he ▸ ht)
            obtain rfl | hx0 := Nat.eq_zero_or_pos x
            · have hy : y = 0 := by omega
              exact hm (hy ▸ List.mem_cons_self)
            · exact hm (h x hx hx0 ⟨t, ht, by omega⟩)
          exact .inr ⟨t, ht, hmax, htx, by omega, fun hy => by omega⟩

/-- The others of the roots and the children of one of them. -/
theorem fits_children (h : Valid (pre ++ x :: post)) :
    Fits (degrees (pre ++ post)) (degrees x.child.roots.reverse) ↔ Spares (pre ++ x :: post) x := by
  have hx := h.trees x (by simp)
  obtain ⟨hd, -⟩ := kids_roots hx.kids hx.ordered
  have hmem : ∀ e, e ∈ degrees (pre ++ x :: post) ↔ e = x.degree ∨ e ∈ degrees (pre ++ post) := by
    intro e
    simp only [degrees, List.map_append, List.map_cons, List.mem_append, List.mem_cons]
    tauto
  have hne : x.degree ∉ degrees (pre ++ post) := by
    have hnd : (degrees (pre ++ x :: post)).Nodup := h.sorted.imp Nat.ne_of_lt
    simp only [degrees, List.map_append, List.map_cons] at hnd
    simpa [degrees] using (List.nodup_middle.mp hnd).notMem
  have hsorted : (degrees (pre ++ post)).Pairwise (· < ·) :=
    h.sorted.sublist (((List.sublist_cons_self x post).append_left pre).map _)
  have hkids : degrees x.child.roots.reverse = List.range x.degree := by
    rw [degrees, List.map_reverse, ← degrees, hd, List.reverse_reverse]
  rw [hkids, fits_range _ hsorted]
  refine forall_congr' fun j => forall_congr' fun hj => forall_congr' fun _ => ?_
  simp only [hmem, Nat.ne_of_lt hj, false_or]
  refine imp_congr (exists_congr fun e => ?_) Iff.rfl
  constructor
  · rintro ⟨he, hje⟩
    exact ⟨.inr he, hje, fun hex => hne (hex ▸ he)⟩
  · rintro ⟨he, hje, hex⟩
    exact ⟨he.resolve_left hex, hje⟩

end Lists

section Extract

variable {s : Store Node BinomialHeap} {r x : Root} {l pre post : List Root} {ks : List Int}
  {steps : Nat}

/-- When `Extract_Min` leaves a heap with given keys, of which there is at most one less. -/
theorem wp_extractMin_iff (hl : Parts s.mem [segPart 0 (r :: l)]) (hv : Valid (r :: l))
    (hsplit : minSplit [] r [] l = (pre, x, post))
    (hks : (keys (r :: l)).length ≤ ks.length + 1) (hn : ((r :: l).flatMap Root.addrs).length < steps) :
    wp (extractMin steps r.addr) (fun _ t => Holds (fun _ => True) t t.reg.H ks) s ↔
      Spares (r :: l) x ∧ (keys (r :: l)).Perm (x.n :: ks) := by
  have hsteps := length_split hsplit hn
  have hrun := wp_extractMin hl hsplit hv.sorted hsteps
  obtain ⟨hL, -⟩ := minSplit_spec hsplit
  rw [← hL] at hv hks ⊢
  have hkeys := keys_split pre x post
  have hothers := valid_others hv
  have hkids := valid_children (hv.trees x (by simp))
  obtain ⟨hfits, hlost⟩ := meldRoots_fits hothers.sorted hkids.sorted
  rw [fits_children hv] at hfits hlost
  constructor
  · intro h
    obtain ⟨a, t, ⟨-, hH, ht⟩, l', hl', hH', hv', hk', -⟩ := wp_and hrun h
    have heq := seg_unique (parts_get (i := 0) ht rfl) (parts_get (i := 0) hl' rfl) (hH.symm.trans hH')
    have hperm := (keys_consolidate (meldRoots (pre ++ post) x.child.roots.reverse)).symm
    rw [heq] at hperm
    have hspares : Spares (pre ++ x :: post) x := by
      by_contra hf
      have hlt := length_keys_lt (subperm_meldRoots _ _) (hlost hf)
      have hlen := hkeys.length_eq
      rw [hperm.length_eq, hk'.length_eq] at hlt
      simp only [List.length_cons] at hlen
      omega
    refine ⟨hspares, hkeys.trans (List.Perm.cons _ ?_)⟩
    rw [hfits hspares] at heq
    refine (keys_unionRoots _ _).symm.trans ?_
    rw [unionRoots, heq]
    exact hk'
  · rintro ⟨hspares, hk⟩
    refine wp_mono hrun ?_
    rintro a t ⟨-, hH, ht⟩
    rw [hfits hspares] at hH ht
    refine ⟨_, (parts_cons.mp ((parts_perm (List.Perm.swap ..)).mp ht)).2.2.2, hH,
      valid_unionRoots hothers hkids, ?_, fun _ _ => trivial⟩
    exact (keys_unionRoots _ _).trans ((hkeys.symm.trans hk).cons_inv)

/-- What the degrees of the root nodes say about the trees, and the other way round. -/
theorem keepsTrees_iff (hsplit : minSplit [] r [] l = (pre, x, post)) :
    KeepsTrees (nodes (r :: l)) ↔ Spares (r :: l) x := by
  refine ⟨keepsTrees_roots hsplit, fun h => ?_⟩
  obtain ⟨e', he'⟩ := leastNode_eq (l := l) [] r [] (headAddr 0 l)
  rw [hsplit] at he'
  rw [nodes, KeepsTrees, he']
  rintro j hj hj0 ⟨w, hw, hjw, hne⟩
  obtain ⟨y, hy, e, rfl⟩ := mem_nodes (l := r :: l) hw
  obtain ⟨z, hz, hzj⟩ := List.mem_map.mp (h j hj hj0 ⟨y.degree, List.mem_map_of_mem hy, hjw, hne⟩)
  obtain ⟨e₁, he₁⟩ := exists_node hz
  exact ⟨_, he₁, hzj⟩

end Extract

end C11AndC.Binomial
