import C11AndC.Binomial.Extract

namespace C11AndC.Binomial

open C11AndC.Library

/-- The list of roots as one meets it from `p`. -/
def rootList (m : Memory Node) : Nat → Nat → List Node
  | 0, _ => []
  | steps + 1, p =>
    match m.cell p with
    | some v => v :: rootList m steps v.sibling
    | none => []

/-- The first of the nodes with the least key. -/
def leastNode : Node → List Node → Node
  | v, [] => v
  | v, w :: l => if w.n < v.n then leastNode w l else leastNode v l

/-- The degrees of the roots are such that `Extract_Min` loses no tree: if a degree below that of
the least root is missing, other than degree 0, then no other root has a greater degree. -/
def KeepsTrees : List Node → Prop
  | [] => True
  | v :: l =>
      ∀ j < (leastNode v l).degree, 0 < j →
        (∃ w ∈ v :: l, j < w.degree ∧ w.degree ≠ (leastNode v l).degree) → ∃ w ∈ v :: l, w.degree = j

instance decidableKeepsTrees : (l : List Node) → Decidable (KeepsTrees l)
  | [] => .isTrue trivial
  | v :: l => inferInstanceAs (Decidable (∀ j < (leastNode v l).degree, 0 < j →
      (∃ w ∈ v :: l, j < w.degree ∧ w.degree ≠ (leastNode v l).degree) → ∃ w ∈ v :: l, w.degree = j))

def nodes : List Root → List Node
  | [] => []
  | r :: l => r.node (headAddr 0 l) :: nodes l

/-- The memory holds a binomial heap with the given keys whose roots all have the property. -/
def Holds (P : Root → Prop) (st : Store Node BinomialHeap) (head : Nat) (ks : List Int) : Prop :=
  ∃ l, Parts st.mem [segPart 0 l] ∧ head = headAddr 0 l ∧ Valid l ∧ (keys l).Perm ks ∧ ∀ r ∈ l, P r

/-- A property that linking keeps. -/
def Linking (P : Root → Prop) : Prop :=
  ∀ x y : Root, P x → P y → x.degree = y.degree → x.n ≤ y.n → P (x.link y)

section Roots

variable {m : Memory Node} {r x : Root} {l pre mid post : List Root} {steps : Nat}

theorem rootList_eq (h : Seg m 0 l) (hn : l.length ≤ steps) :
    rootList m steps (headAddr 0 l) = nodes l := by
  induction l generalizing steps with
  | nil =>
    cases steps with
    | zero => rfl
    | succ steps => simp [rootList, headAddr, m.cell_null, nodes]
  | cons r l ih =>
    simp only [List.length_cons] at hn
    obtain ⟨n, rfl⟩ : ∃ n, steps = n + 1 := ⟨steps - 1, by omega⟩
    have hr : m.cell r.addr = some (r.node (headAddr 0 l)) := h.1
    simp only [rootList, headAddr, hr, nodes, List.cons.injEq, true_and]
    exact ih h.2.2 (by omega)

theorem mem_nodes {v : Node} (h : v ∈ nodes l) : ∃ r ∈ l, ∃ e, v = r.node e := by
  induction l with
  | nil => cases h
  | cons r l ih =>
    obtain rfl | h := List.mem_cons.mp h
    · exact ⟨r, List.mem_cons_self, _, rfl⟩
    · obtain ⟨r', hr', he⟩ := ih h
      exact ⟨r', List.mem_cons_of_mem _ hr', he⟩

theorem exists_node (h : r ∈ l) : ∃ e, r.node e ∈ nodes l := by
  induction l with
  | nil => cases h
  | cons r' l ih =>
    obtain rfl | h := List.mem_cons.mp h
    · exact ⟨_, List.mem_cons_self⟩
    · obtain ⟨e, he⟩ := ih h
      exact ⟨e, List.mem_cons_of_mem _ he⟩

theorem leastNode_eq (pre : List Root) (x : Root) (mid : List Root) (e : Nat) :
    ∃ e', leastNode (x.node e) (nodes l) = (minSplit pre x mid l).2.1.node e' := by
  induction l generalizing pre x mid e with
  | nil => exact ⟨e, rfl⟩
  | cons r l ih =>
    simp only [nodes, leastNode, minSplit, Root.node]
    split_ifs
    · exact ih _ r [] _
    · exact ih pre x _ e

end Roots

section Degrees

variable {y z x : Root} {l ys zs pre post : List Root} {a : Nat}

/-- Lists in which the first one has all degrees that the second one has, until it ends. -/
theorem alternate_of (hz : degrees zs = List.range' a zs.length)
    (hy : (degrees (y :: ys)).Pairwise (· < ·)) (ha : ∀ e ∈ degrees (y :: ys), a ≤ e)
    (hfit : ∀ j, a ≤ j → j < a + zs.length → (∃ e ∈ degrees (y :: ys), j < e) →
      j ∈ degrees (y :: ys)) : Alternate (y :: ys) zs := by
  induction zs generalizing a y ys with
  | nil => exact .done _
  | cons z zs ih =>
    simp only [degrees, List.map_cons, List.length_cons, List.range'_succ, List.cons.injEq] at hz
    obtain ⟨hza, hz⟩ := hz
    obtain ⟨hlt, hy'⟩ := List.pairwise_cons.mp hy
    have hya : y.degree = z.degree := by
      have hle := ha y.degree (by simp [degrees])
      by_contra hne
      have hmem := hfit a (Nat.le_refl a) (by simp) ⟨y.degree, by simp [degrees], by omega⟩
      obtain he | hmem := List.mem_cons.mp hmem
      · omega
      · have := hlt a hmem
        omega
    cases ys with
    | nil => exact .last zs hya
    | cons y' ys =>
      have hy'z : y.degree < y'.degree := hlt _ (by simp)
      refine .next hya (by omega) (ih hz hy' ?_ ?_)
      · intro e he
        have := hlt e he
        omega
      · rintro j haj hj ⟨e, he, hje⟩
        simp only [List.length_cons] at hfit
        have hmem := hfit j (by omega) (by omega) ⟨e, List.mem_cons_of_mem _ he, hje⟩
        obtain hj' | hmem := List.mem_cons.mp hmem
        · omega
        · exact hmem

/-- A single new node can be merged with every heap. -/
theorem mergeable_single (hy : (degrees ys).Pairwise (· < ·)) (hx : x.degree = 0) :
    Mergeable ys [x] := by
  cases ys with
  | nil => trivial
  | cons y ys =>
    rw [Mergeable]
    split_ifs with hd
    · have hy0 : y.degree = 0 := by omega
      refine alternate_of (a := 0) (by simp [degrees, hx]) hy (fun _ _ => Nat.zero_le _) ?_
      intro j _ hj _
      have : j = 0 := by simpa using hj
      rw [this, ← hy0]
      simp [degrees]
    · exact .done _

theorem mergeable_range (hz : degrees zs = List.range zs.length) (hy : (degrees ys).Pairwise (· < ·))
    (hfit : ∀ j, 0 < j → j < zs.length → (∃ e ∈ degrees ys, j < e) → j ∈ degrees ys) :
    Mergeable ys zs := by
  cases ys with
  | nil => trivial
  | cons y ys =>
    cases zs with
    | nil => trivial
    | cons z zs =>
      have hz0 : z.degree = 0 ∧ degrees zs = List.range' 1 zs.length := by
        rw [List.range_eq_range'] at hz
        simpa [degrees, List.range'_succ] using hz
      rw [Mergeable]
      split_ifs with hd
      · have hy0 : y.degree = 0 := by omega
        refine alternate_of (a := 0) (by rwa [← List.range_eq_range']) hy (fun _ _ => Nat.zero_le _) ?_
        intro j _ hj he
        obtain rfl | hj0 : j = 0 ∨ 0 < j := by omega
        · rw [← hy0]
          simp [degrees]
        · exact hfit j hj0 (by simpa using hj) he
      · refine alternate_of hz0.2 hy ?_ ?_
        · intro e he
          obtain rfl | he := List.mem_cons.mp he
          · omega
          · have := (List.pairwise_cons.mp hy).1 e he
            omega
        · intro j hj hj' he
          exact hfit j (by omega) (by simp only [List.length_cons]; omega) he

/-- The others of the roots can be merged with the children of the least one. -/
theorem mergeable_children (h : Valid (pre ++ x :: post))
    (hk : ∀ j < x.degree, 0 < j → (∃ e ∈ degrees (pre ++ x :: post), j < e ∧ e ≠ x.degree) →
      j ∈ degrees (pre ++ x :: post)) : Mergeable (pre ++ post) x.child.roots.reverse := by
  have hx := h.trees x (by simp)
  obtain ⟨hd, -⟩ := kids_roots hx.kids hx.ordered
  have hlen := length_children hx
  have hmem : ∀ e, e ∈ degrees (pre ++ x :: post) ↔ e = x.degree ∨ e ∈ degrees (pre ++ post) := by
    intro e
    simp only [degrees, List.map_append, List.map_cons, List.mem_append, List.mem_cons]
    tauto
  have hsorted : (degrees (pre ++ post)).Pairwise (· < ·) := by
    refine h.sorted.sublist ?_
    exact ((List.sublist_cons_self x post).append_left pre).map _
  have hne : ∀ e ∈ degrees (pre ++ post), e ≠ x.degree := by
    have hnd : (degrees (pre ++ x :: post)).Nodup := h.sorted.imp Nat.ne_of_lt
    simp only [degrees, List.map_append, List.map_cons] at hnd
    have hnot := (List.nodup_middle.mp hnd).notMem
    rintro e he rfl
    apply hnot
    simpa [degrees] using he
  apply mergeable_range
  · rw [degrees, List.map_reverse, ← degrees, hd, List.reverse_reverse, List.length_reverse, hlen]
  · exact hsorted
  · rintro j hj hjd ⟨e, he, hje⟩
    rw [List.length_reverse, hlen] at hjd
    have hj' := hk j hjd hj ⟨e, (hmem e).mpr (.inr he), hje, hne e he⟩
    exact ((hmem j).mp hj').resolve_left (Nat.ne_of_lt hjd)

end Degrees

section Operations

variable {P : Root → Prop} {st : Store Node BinomialHeap} {head steps : Nat} {ks : List Int}

theorem length_le_addrs (l : List Root) : l.length ≤ (l.flatMap Root.addrs).length := by
  induction l with
  | nil => simp
  | cons r l ih =>
    simp only [List.flatMap_cons, List.length_append, List.length_cons, Root.addrs]
    omega

theorem length_lt_next {m : Memory Node} {l : List Root} (h : Parts m [segPart 0 l]) :
    (l.flatMap Root.addrs).length < m.next := by
  have hl := parts_length h
  simpa [segPart] using hl

theorem rootList_of_parts {m : Memory Node} {l : List Root} (h : Parts m [segPart 0 l]) :
    rootList m m.next (headAddr 0 l) = nodes l := by
  apply rootList_eq (parts_get (i := 0) h rfl)
  exact Nat.le_trans (length_le_addrs l) (Nat.le_of_lt (length_lt_next h))

/-- `Insert` of a new node. -/
theorem wp_insertKey (hP : Linking P) (hnew : ∀ a k, P ⟨a, k, 0, 0, .nil⟩) (h : Holds P st head ks)
    (garbage : Node) (k : Int) (hn : st.mem.next < steps) :
    wp (insertKey steps head garbage k) (fun H t => t.reg = st.reg ∧ Holds P t H (k :: ks)) st := by
  obtain ⟨l, hl, rfl, hv, hk, hp⟩ := h
  have hlen := length_lt_next hl
  have hle := length_le_addrs l
  have hx : Valid [(⟨st.mem.next, k, 0, 0, .nil⟩ : Root)] := by
    refine ⟨?_, List.pairwise_singleton ..⟩
    intro r hr
    rw [List.mem_singleton.mp hr]
    exact ⟨trivial, trivial⟩
  simp only [insertKey, createNode, insert, wp_bind, wp_new]
  have ha := parts_alloc hl { garbage with n := k }
  refine wp_store_part (i := 0) ha rfl fun m hm => ?_
  refine wp_store_part (i := 0) hm rfl fun m hm => ?_
  refine wp_store_part (i := 0) hm rfl fun m hm => ?_
  refine wp_store_part (i := 0) hm rfl fun m hm => ?_
  have hs : Parts m (segPart 0 l :: segPart 0 [(⟨st.mem.next, k, 0, 0, .nil⟩ : Root)] :: []) := by
    refine (parts_perm (List.Perm.swap ..)).mp (parts_seg_cons.mpr ?_)
    refine (parts_within (l := [_]) (r := []) (fun _ => parts_forest_nil)).mpr ?_
    exact (parts_within (l := [_]) (r := []) (fun _ => parts_seg_nil)).mpr hm
  have hsteps : l.length + [(⟨st.mem.next, k, 0, 0, .nil⟩ : Root)].length < steps := by
    rw [List.length_singleton]
    omega
  have hunion := wp_union (s := ⟨m, st.reg⟩) hv.sorted hs hsteps
  rw [meldRoots_eq (mergeable_single hv.sorted rfl)] at hunion
  refine wp_mono hunion ?_
  rintro H t ⟨hreg, rfl, ht⟩
  refine ⟨hreg, _, ht, rfl, valid_unionRoots hv hx, ?_, ?_⟩
  · refine (keys_unionRoots _ _).trans ?_
    refine List.perm_append_comm.trans ?_
    exact List.Perm.cons k hk
  · refine unionRoots_all hP hp ?_
    intro r hr
    rw [List.mem_singleton.mp hr]
    exact hnew _ _

/-- What the degrees of the root nodes say about the trees. -/
theorem keepsTrees_roots {r x : Root} {l pre post : List Root} (hsplit : minSplit [] r [] l = (pre, x, post))
    (h : KeepsTrees (nodes (r :: l))) : ∀ j < x.degree, 0 < j →
      (∃ e ∈ degrees (r :: l), j < e ∧ e ≠ x.degree) → j ∈ degrees (r :: l) := by
  obtain ⟨e', he'⟩ := leastNode_eq (l := l) [] r [] (headAddr 0 l)
  rw [hsplit] at he'
  rw [nodes, KeepsTrees, he'] at h
  rintro j hj hj0 ⟨e, he, hje, hne⟩
  obtain ⟨w, hw, rfl⟩ := List.mem_map.mp he
  obtain ⟨e₁, he₁⟩ := exists_node hw
  obtain ⟨v, hv, hvj⟩ := h j hj hj0 ⟨_, he₁, hje, hne⟩
  obtain ⟨r', hr', e₂, rfl⟩ := mem_nodes (l := r :: l) hv
  exact List.mem_map.mpr ⟨r', hr', hvj⟩

theorem le_of_roots {x : Root} {l : List Root} (ht : ∀ r ∈ l, Tree r) (hx : ∀ r ∈ l, x.n ≤ r.n) :
    ∀ n ∈ keys l, x.n ≤ n := by
  intro n hn
  obtain ⟨r, hr, hrn⟩ := List.mem_flatMap.mp hn
  obtain rfl | hrn := List.mem_cons.mp hrn
  · exact hx r hr
  · exact Int.le_trans (hx r hr) (le_of_ordered (ht r hr).ordered n hrn)

theorem nil_of_addr {m : Memory Node} {f : Forest} (h : f.Shape m) (h0 : f.addr = 0) : f = .nil := by
  cases f with
  | nil => rfl
  | node a n d p c s => exact absurd h0 (Memory.ne_zero_of_cell h.1)

theorem keys_split (pre : List Root) (x : Root) (post : List Root) :
    (keys (pre ++ x :: post)).Perm (x.n :: (keys (pre ++ post) ++ keys x.child.roots.reverse)) := by
  have hrev : (keys x.child.roots.reverse).Perm x.child.keys := by
    rw [← keys_roots]
    exact (List.reverse_perm _).flatMap_right _
  have hmid : (keys (pre ++ x :: post)).Perm (x.keys ++ keys (pre ++ post)) := by
    simp only [keys, List.flatMap_append, List.flatMap_cons]
    exact List.perm_append_comm_assoc ..
  refine hmid.trans (List.Perm.cons x.n ?_)
  exact List.perm_append_comm.trans (hrev.symm.append_left _)

theorem valid_others {x : Root} {pre post : List Root} (hv : Valid (pre ++ x :: post)) :
    Valid (pre ++ post) := by
  have hsub : (pre ++ post).Sublist (pre ++ x :: post) :=
    (List.sublist_cons_self x post).append_left pre
  exact ⟨fun r hr => hv.trees r (hsub.subset hr), hv.sorted.sublist (hsub.map _)⟩

/-- There are steps enough for the roots and the children of one of them. -/
theorem length_split {r x : Root} {l pre post : List Root}
    (hsplit : minSplit [] r [] l = (pre, x, post))
    (hn : ((r :: l).flatMap Root.addrs).length < steps) :
    (r :: l).length + x.child.roots.length < steps := by
  obtain ⟨hL, -⟩ := minSplit_spec hsplit
  have hroots := length_le_addrs x.child.roots
  have hpre := length_le_addrs pre
  have hpost := length_le_addrs post
  rw [addrs_roots] at hroots
  rw [← hL] at hn ⊢
  simp only [List.flatMap_append, List.flatMap_cons, List.length_append, List.length_cons,
    Root.addrs] at hn ⊢
  omega

/-- `Extract_Min` returns the least key, and the others stay. -/
theorem wp_extractKey (hP : Linking P) (h : Holds P st head ks)
    (hf : KeepsTrees (rootList st.mem st.mem.next head))
    (hkids : (∀ x r : Root, P x → r ∈ x.child.roots → P r) ∨
      ∀ v l, rootList st.mem st.mem.next head = v :: l → (leastNode v l).child = 0)
    (hn : st.mem.next < steps) :
    wp (extractKey steps head) (fun r t => r = ks.min? ∧ (r = none → t.reg.H = st.reg.H) ∧
      Holds P t (if r = none then head else t.reg.H) (r.elim ks ks.erase)) st := by
  obtain ⟨l, hl, rfl, hv, hk, hp⟩ := h
  cases l with
  | nil =>
    have hks : ks = [] := hk.symm.eq_nil
    subst hks
    simp only [extractKey, extractMin, headAddr, ↓reduceIte, wp_bind, wp_setReg, wp_pure]
    exact ⟨rfl, fun _ => trivial, [], hl, rfl, hv, hk, hp⟩
  | cons r l =>
    obtain ⟨pre, x, post, hsplit⟩ : ∃ pre x post, minSplit [] r [] l = (pre, x, post) := ⟨_, _, _, rfl⟩
    obtain ⟨hL, hmin⟩ := minSplit_spec hsplit
    have hlen := length_split hsplit (Nat.lt_trans (length_lt_next hl) hn)
    have hseg : Seg st.mem 0 (r :: l) := parts_get (i := 0) hl rfl
    rw [rootList_of_parts hl] at hf hkids
    have hkeeps := keepsTrees_roots hsplit hf
    rw [← hL] at hkeeps hv hp hk
    have hxv := valid_others hv
    have hxk : ∀ r ∈ x.child.roots.reverse, P r := by
      intro r' hr'
      obtain hkids | hkids := hkids
      · exact hkids x r' (hp x (by simp)) (List.mem_reverse.mp hr')
      · obtain ⟨e, he⟩ := leastNode_eq (l := l) [] r [] (headAddr 0 l)
        have h0 := hkids _ _ rfl
        rw [he, hsplit] at h0
        rw [← hL] at hseg
        have hnil : x.child = .nil := nil_of_addr (seg_append.mp hseg).2.2.1 h0
        rw [hnil] at hr'
        cases hr'
    rw [extractKey, wp_bind]
    have hsorted := hv.sorted
    rw [hL] at hsorted
    refine wp_mono (wp_extractMin hl hsplit hsorted hlen) ?_
    rintro _ t ⟨rfl, hH, ht⟩
    rw [meldRoots_eq (mergeable_children hv hkeeps)] at hH ht
    have hx0 : x.addr ≠ 0 := Memory.ne_zero_of_cell (cell_of_parts (i := 1) ht rfl)
    rw [if_neg hx0, wp_bind]
    refine wp_load_part (i := 1) ht rfl ?_
    rw [wp_pure]
    have hkx : (keys (pre ++ x :: post)).Perm
        (x.n :: (keys (pre ++ post) ++ keys x.child.roots.reverse)) := keys_split pre x post
    have hmem : x.n ∈ ks := hk.mem_iff.mp (hkx.mem_iff.mpr List.mem_cons_self)
    have hle : ∀ n ∈ ks, x.n ≤ n := by
      intro n hn
      rw [← hL] at hmin
      exact le_of_roots hv.trees hmin n (hk.mem_iff.mpr hn)
    refine ⟨(List.min?_eq_some_iff.mpr ⟨hmem, hle⟩).symm, fun he => absurd he (Option.some_ne_none _), ?_⟩
    refine ⟨_, (parts_cons.mp ((parts_perm (List.Perm.swap ..)).mp ht)).2.2.2, ?_,
      valid_unionRoots hxv (valid_children (hv.trees x (by simp))), ?_, ?_⟩
    · rw [if_neg (by simp)]
      exact hH
    · refine (keys_unionRoots _ _).trans ?_
      exact (List.cons_perm_iff_perm_erase.mp (hkx.symm.trans hk)).2
    · refine unionRoots_all hP (fun r hr => hp r ?_) hxk
      simp only [List.mem_append, List.mem_cons] at hr ⊢
      tauto

end Operations

end C11AndC.Binomial
