import C11AndC.Binomial.Union
import Mathlib.Data.List.Perm.Basic
import Mathlib.Data.Nat.BitIndices

namespace C11AndC.Binomial

/-- The children of the root of a binomial tree of degree `d`: trees of the degrees below. -/
def Kids : Nat → Forest → Prop
  | 0, .nil => True
  | d + 1, .node _ _ degree _ c s => degree = d ∧ Kids d c ∧ Kids d s
  | _, _ => False

/-- No key is below that of the node above it, which for the whole forest is `k`. -/
def Ordered : Int → Forest → Prop
  | _, .nil => True
  | k, .node _ n _ _ c s => k ≤ n ∧ Ordered n c ∧ Ordered k s

/-- A heap-ordered binomial tree. -/
structure Tree (r : Root) : Prop where
  kids : Kids r.degree r.child
  ordered : Ordered r.n r.child

def degrees (l : List Root) : List Nat := l.map Root.degree

def keys (l : List Root) : List Int := l.flatMap Root.keys

section Trees

variable {x y : Root} {l ys zs : List Root} {d : Nat} {k : Int} {f : Forest}

theorem tree_link (hx : Tree x) (hy : Tree y) (hd : x.degree = y.degree) (hn : x.n ≤ y.n) :
    Tree (x.link y) :=
  ⟨⟨hd.symm, hd ▸ hy.kids, hx.kids⟩, hn, hy.ordered, hx.ordered⟩

theorem keys_link (x y : Root) : (x.link y).keys.Perm (x.keys ++ y.keys) := by
  simp only [Root.keys, Root.link, Forest.keys, List.cons_append]
  refine List.Perm.cons _ ?_
  rw [← List.cons_append]
  exact List.perm_append_comm

/-- What linking keeps, consolidating keeps. -/
theorem consolidate_all {P : Root → Prop}
    (hlink : ∀ x y : Root, P x → P y → x.degree = y.degree → x.n ≤ y.n → P (x.link y))
    (h : ∀ r ∈ l, P r) : ∀ r ∈ consolidate l, P r := by
  fun_induction consolidate l with
  | case1 => exact h
  | case2 x => exact h
  | case3 x y l hd ih =>
    obtain ⟨hx, hl⟩ := List.forall_mem_cons.mp h
    exact List.forall_mem_cons.mpr ⟨hx, ih hl⟩
  | case4 x y l hd hn ih =>
    obtain ⟨hx, hl⟩ := List.forall_mem_cons.mp h
    obtain ⟨hy, hl⟩ := List.forall_mem_cons.mp hl
    have hdeg : x.degree = y.degree := by
      by_contra hne
      exact hd (.inl hne)
    exact ih (List.forall_mem_cons.mpr ⟨hlink x y hx hy hdeg hn, hl⟩)
  | case5 x y l hd hn ih =>
    obtain ⟨hx, hl⟩ := List.forall_mem_cons.mp h
    obtain ⟨hy, hl⟩ := List.forall_mem_cons.mp hl
    have hdeg : x.degree = y.degree := by
      by_contra hne
      exact hd (.inl hne)
    exact ih (List.forall_mem_cons.mpr ⟨hlink y x hy hx hdeg.symm (by omega), hl⟩)

/-- What linking puts together, consolidating keeps. -/
theorem flatMap_consolidate {β : Type} {g : Root → List β}
    (hlink : ∀ x y : Root, (g (x.link y)).Perm (g x ++ g y)) (l : List Root) :
    ((consolidate l).flatMap g).Perm (l.flatMap g) := by
  fun_induction consolidate l with
  | case1 => exact List.Perm.refl _
  | case2 x => exact List.Perm.refl _
  | case3 x y l hd ih => exact ih.append_left _
  | case4 x y l hd hn ih =>
    refine ih.trans ?_
    simp only [List.flatMap_cons]
    rw [← List.append_assoc]
    exact (hlink x y).append_right _
  | case5 x y l hd hn ih =>
    refine ih.trans ?_
    simp only [List.flatMap_cons]
    rw [← List.append_assoc]
    exact ((hlink y x).trans List.perm_append_comm).append_right _

theorem keys_consolidate (l : List Root) : (keys (consolidate l)).Perm (keys l) :=
  flatMap_consolidate keys_link l

/-- A list of trees, at most two of each degree, after one of a degree not above theirs. -/
structure Carry (x : Root) (l : List Root) : Prop where
  first : ∀ r ∈ l, x.degree ≤ r.degree
  sorted : (degrees l).Pairwise (· ≤ ·)
  twice : ∀ d, (degrees l).count d ≤ 2

theorem carry_tail (h : Carry x (y :: l)) : Carry y l := by
  obtain ⟨hy, hs⟩ := List.pairwise_cons.mp h.sorted
  refine ⟨?_, hs, fun d => ?_⟩
  · intro r hr
    exact hy _ (List.mem_map_of_mem hr)
  · exact Nat.le_trans (List.count_le_count_cons ..) (h.twice d)

/-- Above a pair the degrees are greater, unless a third tree has the same. -/
theorem carry_pair (h : Carry x (y :: l)) (hd : x.degree = y.degree)
    (hl : l.head?.map Root.degree ≠ some x.degree) : ∀ r ∈ l, x.degree < r.degree := by
  obtain ⟨-, hs⟩ := List.pairwise_cons.mp h.sorted
  cases l with
  | nil => simp
  | cons z l =>
    have hz : x.degree < z.degree := by
      have hle := h.first z (by simp)
      have hne : z.degree ≠ x.degree := fun he => hl (by simp [he])
      omega
    obtain ⟨hz', -⟩ := List.pairwise_cons.mp hs
    intro r hr
    obtain rfl | hr := List.mem_cons.mp hr
    · exact hz
    · exact Nat.lt_of_lt_of_le hz (hz' _ (List.mem_map_of_mem hr))

/-- Of three trees of the same degree the last two are a pair. -/
theorem carry_third (h : Carry x (y :: l)) (hd : x.degree = y.degree)
    (hl : l.head?.map Root.degree = some x.degree) :
    ∃ z l', l = z :: l' ∧ y.degree = z.degree ∧ l'.head?.map Root.degree ≠ some y.degree := by
  cases l with
  | nil => cases hl
  | cons z l =>
    simp only [List.head?_cons, Option.map_some, Option.some.injEq] at hl
    refine ⟨z, l, rfl, by omega, fun hw => ?_⟩
    cases l with
    | nil => cases hw
    | cons w l =>
      simp only [List.head?_cons, Option.map_some, Option.some.injEq] at hw
      have hc := h.twice y.degree
      simp only [degrees, List.map_cons, hw, hl, ← hd, List.count_cons_self] at hc
      omega

theorem carry_link (h : Carry x (y :: l)) (hd : x.degree = y.degree)
    (hl : l.head?.map Root.degree ≠ some x.degree) {z : Root} (hz : z.degree = x.degree + 1) :
    Carry z l := by
  obtain ⟨-, hs⟩ := List.pairwise_cons.mp h.sorted
  refine ⟨?_, hs, (carry_tail h).twice⟩
  intro r hr
  rw [hz]
  exact carry_pair h hd hl r hr

/-- Consolidating leaves one tree of each degree. -/
theorem degrees_consolidate (h : Carry x l) :
    (degrees (consolidate (x :: l))).Pairwise (· < ·) ∧
      (∀ r ∈ consolidate (x :: l), x.degree ≤ r.degree) ∧
      (∀ y l', l = y :: l' → x.degree = y.degree → l'.head?.map Root.degree ≠ some x.degree →
        ∀ r ∈ consolidate (x :: l), x.degree < r.degree) := by
  generalize hxl : x :: l = xl
  fun_induction consolidate xl generalizing x l with
  | case1 => cases hxl
  | case2 x' =>
    cases hxl
    exact ⟨List.pairwise_singleton .., by simp, nofun⟩
  | case3 x' y l' hd ih =>
    cases hxl
    obtain ⟨ih₁, ih₂, ih₃⟩ := ih (carry_tail h) rfl
    have hlt : ∀ r ∈ consolidate (y :: l'), x'.degree < r.degree := by
      intro r hr
      obtain hlt | heq : x'.degree < y.degree ∨ x'.degree = y.degree :=
        Nat.lt_or_eq_of_le (h.first y (by simp))
      · exact Nat.lt_of_lt_of_le hlt (ih₂ r hr)
      · obtain ⟨z, l'', rfl, hz, hl⟩ := carry_third h heq (hd.resolve_left (fun hne => hne heq))
        rw [heq]
        exact ih₃ z l'' rfl hz hl r hr
    refine ⟨?_, ?_, ?_⟩
    · refine List.pairwise_cons.mpr ⟨fun d hd => ?_, ih₁⟩
      obtain ⟨r, hr, rfl⟩ := List.mem_map.mp hd
      exact hlt r hr
    · intro r hr
      obtain rfl | hr := List.mem_cons.mp hr
      · exact Nat.le_refl _
      · exact Nat.le_of_lt (hlt r hr)
    · intro y' l'' he hxy hne
      cases he
      exact absurd hd (fun hd => hd.elim (fun hn => hn hxy) hne)
  | case4 x' y l' hd hn ih =>
    cases hxl
    obtain ⟨hxy, hne⟩ := not_or.mp hd
    obtain ⟨ih₁, ih₂, -⟩ := ih (carry_link h (not_not.mp hxy) hne rfl) rfl
    exact ⟨ih₁, fun r hr => Nat.le_of_lt (ih₂ r hr), fun _ _ _ _ _ r hr => ih₂ r hr⟩
  | case5 x' y l' hd hn ih =>
    cases hxl
    obtain ⟨hxy, hne⟩ := not_or.mp hd
    have hdeg : (y.link x').degree = x'.degree + 1 := congrArg (· + 1) (not_not.mp hxy).symm
    obtain ⟨ih₁, ih₂, -⟩ := ih (carry_link h (not_not.mp hxy) hne hdeg) rfl
    rw [hdeg] at ih₂
    exact ⟨ih₁, fun r hr => Nat.le_of_lt (ih₂ r hr), fun _ _ _ _ _ r hr => ih₂ r hr⟩

end Trees

/-- A binomial heap: trees of increasing degrees. -/
structure Valid (l : List Root) : Prop where
  trees : ∀ r ∈ l, Tree r
  sorted : (degrees l).Pairwise (· < ·)

section Heaps

variable {x y : Root} {l ys zs : List Root} {d : Nat} {k : Int} {f : Forest}

theorem mergeRoots_perm (ys zs : List Root) : (mergeRoots ys zs).Perm (ys ++ zs) :=
  List.merge_perm_append _

theorem flatMap_unionRoots {β : Type} {g : Root → List β}
    (hlink : ∀ x y : Root, (g (x.link y)).Perm (g x ++ g y)) (ys zs : List Root) :
    ((unionRoots ys zs).flatMap g).Perm (ys.flatMap g ++ zs.flatMap g) := by
  refine (flatMap_consolidate hlink _).trans ?_
  rw [← List.flatMap_append]
  exact (mergeRoots_perm ys zs).flatMap_right _

theorem keys_unionRoots (ys zs : List Root) : (keys (unionRoots ys zs)).Perm (keys ys ++ keys zs) :=
  flatMap_unionRoots keys_link ys zs

theorem unionRoots_all {P : Root → Prop}
    (hlink : ∀ x y : Root, P x → P y → x.degree = y.degree → x.n ≤ y.n → P (x.link y))
    (hy : ∀ r ∈ ys, P r) (hz : ∀ r ∈ zs, P r) : ∀ r ∈ unionRoots ys zs, P r := by
  apply consolidate_all hlink
  intro r hr
  obtain hr | hr := List.mem_append.mp ((mergeRoots_perm ys zs).mem_iff.mp hr)
  · exact hy r hr
  · exact hz r hr

theorem sorted_mergeRoots (hy : (degrees ys).Pairwise (· < ·)) (hz : (degrees zs).Pairwise (· < ·)) :
    (degrees (mergeRoots ys zs)).Pairwise (· ≤ ·) := by
  have hle : ∀ {ws : List Root}, (degrees ws).Pairwise (· < ·) →
      ws.Pairwise (fun a b => decide (a.degree ≤ b.degree) = true) := by
    intro ws hw
    refine (List.pairwise_map.mp hw).imp ?_
    intro a b hab
    simpa using Nat.le_of_lt hab
  have hsorted : (mergeRoots ys zs).Pairwise (fun a b => decide (a.degree ≤ b.degree) = true) := by
    apply List.pairwise_merge
    · intro a b c hab hbc
      simp only [decide_eq_true_eq] at hab hbc ⊢
      omega
    · intro a b
      simp only [Bool.or_eq_true, decide_eq_true_eq]
      omega
    · exact hle hy
    · exact hle hz
  exact List.pairwise_map.mpr (hsorted.imp (fun h => by simpa using h))

/-- In two lists of increasing degrees no degree occurs more than twice. -/
theorem carry_mergeRoots (hy : (degrees ys).Pairwise (· < ·)) (hz : (degrees zs).Pairwise (· < ·))
    (hm : mergeRoots ys zs = x :: l) : Carry x l := by
  have hcount : ∀ d, (degrees (mergeRoots ys zs)).count d ≤ 2 := by
    intro d
    have hp := ((mergeRoots_perm ys zs).map Root.degree).count_eq d
    rw [List.map_append, List.count_append] at hp
    have hy' := List.nodup_iff_count_le_one.mp (hy.imp Nat.ne_of_lt) d
    have hz' := List.nodup_iff_count_le_one.mp (hz.imp Nat.ne_of_lt) d
    simp only [degrees] at hy' hz' ⊢
    omega
  have hsorted := sorted_mergeRoots hy hz
  rw [hm] at hsorted hcount
  obtain ⟨hx, hl⟩ := List.pairwise_cons.mp hsorted
  exact ⟨fun r hr => hx _ (List.mem_map_of_mem hr), hl,
    fun d => Nat.le_trans (List.count_le_count_cons ..) (hcount d)⟩

theorem valid_unionRoots (hy : Valid ys) (hz : Valid zs) : Valid (unionRoots ys zs) := by
  refine ⟨unionRoots_all (fun _ _ => tree_link) hy.trees hz.trees, ?_⟩
  rw [unionRoots]
  cases hm : mergeRoots ys zs with
  | nil =>
    rw [consolidate]
    exact List.Pairwise.nil
  | cons x l => exact (degrees_consolidate (carry_mergeRoots hy.sorted hz.sorted hm)).1

theorem length_kids (h : Kids d f) : f.keys.length + 1 = 2 ^ d := by
  induction f generalizing d with
  | nil =>
    cases d with
    | zero => rfl
    | succ d => exact h.elim
  | node a n degree p c s ihc ihs =>
    cases d with
    | zero => exact h.elim
    | succ d =>
      have hc := ihc h.2.1
      have hs := ihs h.2.2
      simp only [Forest.keys, List.length_cons, List.length_append, Nat.pow_succ]
      omega

/-- The degrees of a heap are the positions of the 1 bits of the number of its keys. -/
theorem degrees_eq (h : Valid l) : degrees l = (keys l).length.bitIndices := by
  have hsum : (keys l).length = ((degrees l).map (2 ^ ·)).sum := by
    have ht := h.trees
    clear h
    induction l with
    | nil => rfl
    | cons r l ih =>
      obtain ⟨hr, hl⟩ := List.forall_mem_cons.mp ht
      have hk := length_kids hr.kids
      simp only [keys, degrees, List.flatMap_cons, List.length_append, List.map_cons, List.sum_cons,
        Root.keys, List.length_cons] at ih ⊢
      rw [ih hl, hk]
  rw [hsum, Nat.bitIndices_sum_map_two_pow h.sorted.sortedLT]

/-- The children of a root are binomial trees again. -/
theorem kids_roots (h : Kids d f) (ho : Ordered k f) :
    degrees f.roots = (List.range d).reverse ∧ ∀ r ∈ f.roots, Tree r := by
  induction f generalizing d with
  | nil =>
    cases d with
    | zero => exact ⟨rfl, by simp [Forest.roots]⟩
    | succ d => exact h.elim
  | node a n degree p c s ihc ihs =>
    cases d with
    | zero => exact h.elim
    | succ d =>
      obtain ⟨rfl, hc, hs⟩ := h
      obtain ⟨hd, ht⟩ := ihs hs ho.2.2
      refine ⟨?_, List.forall_mem_cons.mpr ⟨⟨hc, ho.2.1⟩, ht⟩⟩
      rw [List.range_succ, List.reverse_append]
      exact congrArg (degree :: ·) hd

theorem length_children (h : Tree x) : x.child.roots.length = x.degree := by
  have hd := congrArg List.length (kids_roots h.kids h.ordered).1
  simpa [degrees] using hd

theorem valid_children (h : Tree x) : Valid x.child.roots.reverse := by
  obtain ⟨hd, ht⟩ := kids_roots h.kids h.ordered
  refine ⟨fun r hr => ht r (List.mem_reverse.mp hr), ?_⟩
  rw [degrees, List.map_reverse, ← degrees, hd, List.reverse_reverse]
  exact List.pairwise_lt_range

theorem le_of_ordered (h : Ordered k f) : ∀ n ∈ f.keys, k ≤ n := by
  induction f generalizing k with
  | nil => simp [Forest.keys]
  | node a m degree p c s ihc ihs =>
    intro n hn
    simp only [Forest.keys, List.mem_cons, List.mem_append] at hn
    obtain rfl | hn | hn := hn
    · exact h.1
    · exact Int.le_trans h.1 (ihc h.2.1 n hn)
    · exact ihs h.2.2 n hn

end Heaps

end C11AndC.Binomial
