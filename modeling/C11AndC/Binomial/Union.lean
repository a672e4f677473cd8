import C11AndC.Binomial.Forest

namespace C11AndC.Binomial

open C11AndC.Library

/-- Both lists in one by degree, the trees of the first list before equal ones. -/
def mergeRoots (ys zs : List Root) : List Root :=
  ys.merge zs (fun y z => decide (y.degree ≤ z.degree))

/-- Two lists whose trees `Merge` takes in turn, beginning with the first list: whenever it
looks at a tree of the second list, the first one has a tree of the same degree, as long as it
lasts. -/
inductive Alternate : List Root → List Root → Prop
  | done (ys : List Root) : Alternate ys []
  | last {y z : Root} (zs : List Root) (h : y.degree = z.degree) : Alternate [y] (z :: zs)
  | next {y y' z : Root} {ys zs : List Root} (h : y.degree = z.degree) (h' : z.degree < y'.degree)
      (ht : Alternate (y' :: ys) zs) : Alternate (y :: y' :: ys) (z :: zs)

/-- Two lists of which `Merge` loses no tree. -/
def Mergeable : List Root → List Root → Prop
  | y :: ys, z :: zs =>
      if y.degree ≤ z.degree then Alternate (y :: ys) (z :: zs) else Alternate (y :: ys) zs
  | _, _ => True

/-- The trees `Merge` keeps when what it has linked so far leads to the first list: it goes over to
the second list at a tree of the same degree only, and a tree that it meets before one is lost. -/
def spliceRoots : List Root → List Root → List Root
  | ys, [] => ys
  | [], _ :: _ => []
  | y :: ys, z :: zs =>
      if y.degree < z.degree then y :: spliceRoots ys (z :: zs)
      else if y.degree = z.degree then
        match ys with
        | [] => y :: z :: zs
        | y' :: ys => y :: z :: spliceRoots (y' :: ys) zs
      else spliceRoots (y :: ys) zs
  termination_by ys zs => ys.length + zs.length

/-- The list that `Merge` returns. -/
def meldRoots : List Root → List Root → List Root
  | y :: ys, z :: zs =>
      if y.degree ≤ z.degree then spliceRoots (y :: ys) (z :: zs) else z :: spliceRoots (y :: ys) zs
  | [], zs => zs
  | ys, [] => ys

/-- The tree with the greater key under the other one. -/
def Root.link (x y : Root) : Root :=
  ⟨x.addr, x.n, x.degree + 1, x.parent, .node y.addr y.n y.degree x.addr y.child x.child⟩

/-- What `Union` does to the merged list. -/
def consolidate : List Root → List Root
  | [] => []
  | [x] => [x]
  | x :: y :: l =>
      if x.degree ≠ y.degree ∨ l.head?.map Root.degree = some x.degree then x :: consolidate (y :: l)
      else if x.n ≤ y.n then consolidate (x.link y :: l)
      else consolidate (y.link x :: l)
  termination_by l => l.length

def unionRoots (ys zs : List Root) : List Root := consolidate (mergeRoots ys zs)

section Merge

variable {s : Store Node BinomialHeap} {y z : Root} {ys zs : List Root} {ps : List (Library.Part Node)}
  {steps : Nat}

theorem headAddr_spliceRoots (ys zs : List Root) :
    headAddr 0 (spliceRoots ys zs) = headAddr 0 ys := by
  fun_induction spliceRoots ys zs with
  | case1 ys => rfl
  | case2 z zs => rfl
  | case3 y ys z zs h ih => rfl
  | case4 y z zs h h' => rfl
  | case5 y z zs h h' y' ys ih => rfl
  | case6 y ys z zs h h' ih => exact ih

/-- If the lists fit, the trees come in order, and none is lost. -/
theorem spliceRoots_eq (h : Alternate ys zs) : spliceRoots ys zs = mergeRoots ys zs := by
  induction h with
  | done ys => rw [spliceRoots, mergeRoots, List.merge_right]
  | @last y z zs h =>
    rw [spliceRoots, if_neg (by omega), if_pos h, mergeRoots,
      List.cons_merge_cons_pos _ _ _ (by simp [h]), List.nil_merge]
  | @next y y' z ys zs h h' ht ih =>
    rw [spliceRoots, if_neg (by omega), if_pos h, ih, mergeRoots, mergeRoots,
      List.cons_merge_cons_pos _ _ _ (by simp [h]), List.cons_merge_cons_neg _ _ _ (by simpa using h')]

theorem meldRoots_eq (h : Mergeable ys zs) : meldRoots ys zs = mergeRoots ys zs := by
  cases ys with
  | nil => simp [meldRoots, mergeRoots]
  | cons y ys =>
    cases zs with
    | nil => simp [meldRoots, mergeRoots]
    | cons z zs =>
      rw [Mergeable] at h
      rw [meldRoots]
      split_ifs at h ⊢ with hd
      · exact spliceRoots_eq h
      · rw [spliceRoots_eq h, mergeRoots, mergeRoots,
          List.cons_merge_cons_neg _ _ _ (by simpa using hd)]

theorem ne_zero_of_seg {m : Memory Node} {e : Nat} (h : Parts m (segPart e (y :: ys) :: ps)) :
    y.addr ≠ 0 :=
  Memory.ne_zero_of_cell (cell_of_parts (i := 0) (parts_seg_cons.mp h) rfl)

/-- Both lists with their first trees as parts of their own. -/
theorem parts_two_seg {m : Memory Node} : Parts m (segPart 0 (y :: ys) :: segPart 0 (z :: zs) :: ps) ↔
    Parts m (cellPart y.addr (y.node (headAddr 0 ys)) :: forestPart y.child :: segPart 0 ys ::
      cellPart z.addr (z.node (headAddr 0 zs)) :: forestPart z.child :: segPart 0 zs :: ps) := by
  rw [parts_seg_cons]
  exact parts_within (l := [_, _, _]) (r := [_, _, _]) (fun _ => parts_seg_cons)

theorem wp_mergeRound_end {a b : Nat} {Q : (Nat × Nat) ⊕ Unit → Store Node BinomialHeap → Prop}
    (h : a = 0 ∨ b = 0) (hq : Q (.inr ()) s) : wp (mergeRound (a, b)) Q s := by
  have hn : ¬ (a ≠ 0 ∧ b ≠ 0) := by
    rintro ⟨ha, hb⟩
    exact h.elim ha hb
  simpa only [mergeRound, hn, ↓reduceIte, wp_pure] using hq

/-- A round on trees of the same degree: the first list goes on. -/
theorem wp_mergeRound_eq {Q : (Nat × Nat) ⊕ Unit → Store Node BinomialHeap → Prop}
    (h : y.degree = z.degree) (hs : Parts s.mem (segPart 0 (y :: ys) :: segPart 0 (z :: zs) :: ps))
    (hq : ∀ m, Parts m (cellPart y.addr (y.node z.addr) :: forestPart y.child :: segPart 0 ys ::
      segPart 0 (z :: zs) :: ps) → Q (.inl (headAddr 0 ys, z.addr)) ⟨m, s.reg⟩) :
    wp (mergeRound (y.addr, z.addr)) Q s := by
  have hy := ne_zero_of_seg hs
  have hz := ne_zero_of_seg ((parts_perm (List.Perm.swap ..)).mp hs)
  have hp := parts_two_seg.mp hs
  simp only [mergeRound, ne_eq, hy, hz, not_false_eq_true, and_self, ↓reduceIte, wp_bind]
  refine wp_load_part (i := 0) hp rfl (wp_load_part (i := 3) hp rfl ?_)
  simp only [Root.node, h, Nat.lt_irrefl, ↓reduceIte, wp_bind]
  refine wp_store_part (i := 0) hp rfl fun m hm => ?_
  rw [wp_pure]
  apply hq
  exact (parts_within (l := [_, _, _]) (r := [_, _, _]) (fun _ => parts_seg_cons)).mpr hm

/-- A round on a tree of lower degree in the second list, which goes on. -/
theorem wp_mergeRound_lt {Q : (Nat × Nat) ⊕ Unit → Store Node BinomialHeap → Prop}
    (h : z.degree < y.degree) (hs : Parts s.mem (segPart 0 (y :: ys) :: segPart 0 (z :: zs) :: ps))
    (hq : ∀ m, Parts m (segPart 0 (y :: ys) :: cellPart z.addr (z.node y.addr) :: forestPart z.child ::
      segPart 0 zs :: ps) → Q (.inl (y.addr, headAddr 0 zs)) ⟨m, s.reg⟩) :
    wp (mergeRound (y.addr, z.addr)) Q s := by
  have hy := ne_zero_of_seg hs
  have hz := ne_zero_of_seg ((parts_perm (List.Perm.swap ..)).mp hs)
  have hp := parts_two_seg.mp hs
  have hlt : ¬ y.degree < z.degree := Nat.not_lt.mpr (Nat.le_of_lt h)
  have hne : ¬ y.degree = z.degree := Nat.ne_of_gt h
  simp only [mergeRound, ne_eq, hy, hz, not_false_eq_true, and_self, ↓reduceIte, wp_bind]
  refine wp_load_part (i := 0) hp rfl (wp_load_part (i := 3) hp rfl ?_)
  simp only [Root.node, hlt, hne, ↓reduceIte, wp_bind]
  refine wp_store_part (i := 3) hp rfl fun m hm => ?_
  rw [wp_pure]
  apply hq
  exact parts_seg_cons.mpr hm

/-- A round on a tree of lower degree in the first list, which goes on. -/
theorem wp_mergeRound_gt {Q : (Nat × Nat) ⊕ Unit → Store Node BinomialHeap → Prop}
    (h : y.degree < z.degree) (hs : Parts s.mem (segPart 0 (y :: ys) :: segPart 0 (z :: zs) :: ps))
    (hq : Q (.inl (headAddr 0 ys, z.addr)) s) : wp (mergeRound (y.addr, z.addr)) Q s := by
  have hy := ne_zero_of_seg hs
  have hz := ne_zero_of_seg ((parts_perm (List.Perm.swap ..)).mp hs)
  have hp := parts_two_seg.mp hs
  simp only [mergeRound, ne_eq, hy, hz, not_false_eq_true, and_self, ↓reduceIte, wp_bind]
  refine wp_load_part (i := 0) hp rfl (wp_load_part (i := 3) hp rfl ?_)
  simp only [Root.node, h, ↓reduceIte, wp_pure]
  exact hq

theorem wp_merge_rounds (hy : (ys.map Root.degree).Pairwise (· < ·))
    (hs : Parts s.mem (segPart 0 ys :: segPart 0 zs :: ps)) (hn : ys.length + zs.length < steps) :
    wp (loop mergeRound steps (headAddr 0 ys, headAddr 0 zs)) (fun _ t =>
      t.reg = s.reg ∧ Parts t.mem (segPart 0 (spliceRoots ys zs) :: ps)) s := by
  fun_induction spliceRoots ys zs generalizing s ps steps with
  | case1 ys =>
    obtain ⟨n, rfl⟩ : ∃ n, steps = n + 1 := ⟨steps - 1, by omega⟩
    rw [wp_loop_succ]
    refine wp_mergeRound_end (.inr rfl) ⟨rfl, ?_⟩
    exact parts_seg_nil.mp ((parts_perm (List.Perm.swap ..)).mp hs)
  | case2 z zs =>
    obtain ⟨n, rfl⟩ : ∃ n, steps = n + 1 := ⟨steps - 1, by omega⟩
    rw [wp_loop_succ]
    refine wp_mergeRound_end (.inl rfl) ⟨rfl, ?_⟩
    exact parts_seg_nil.mpr (parts_cons.mp (parts_seg_nil.mp hs)).2.2.2
  | case3 y ys z zs h ih =>
    simp only [List.length_cons] at hn ih
    obtain ⟨n, rfl⟩ : ∃ n, steps = n + 1 := ⟨steps - 1, by omega⟩
    have hp := parts_seg_cons.mp hs
    rw [wp_loop_succ]
    refine wp_mergeRound_gt h hs ?_
    refine wp_mono (ih (List.pairwise_cons.mp hy).2
      (parts_pick [2, 3, 0, 1] hp (l := [_, _, _, _]) rfl (by decide)) (by omega)) ?_
    rintro - t ⟨hreg, ht⟩
    refine ⟨hreg, parts_seg_cons.mpr ?_⟩
    rw [headAddr_spliceRoots]
    exact parts_pick [1, 2, 0] ht (l := [_, _, _]) rfl (by decide)
  | case4 y z zs h h' =>
    simp only [List.length_cons, List.length_nil] at hn
    obtain ⟨n, rfl⟩ : ∃ n, steps = n + 2 := ⟨steps - 2, by omega⟩
    rw [wp_loop_succ]
    refine wp_mergeRound_eq h' hs fun m hm => wp_loop_succ.mpr ?_
    refine wp_mergeRound_end (.inl rfl) ⟨rfl, parts_seg_cons.mpr ?_⟩
    exact (parts_within (l := [_, _]) (r := []) (fun _ => parts_seg_nil)).mp hm
  | case5 y z zs h h' y' ys ih =>
    simp only [List.length_cons] at hn ih
    obtain ⟨n, rfl⟩ : ∃ n, steps = n + 2 := ⟨steps - 2, by omega⟩
    obtain ⟨hlt, hy⟩ := List.pairwise_cons.mp hy
    have hz : z.degree < y'.degree := h' ▸ hlt y'.degree (by simp)
    rw [wp_loop_succ]
    refine wp_mergeRound_eq h' hs fun m hm => wp_loop_succ.mpr ?_
    refine wp_mergeRound_lt hz (parts_pick [2, 3, 0, 1] hm (l := [_, _, _, _]) rfl (by decide))
      fun m hm => ?_
    refine wp_mono (ih hy (parts_pick [0, 3, 1, 2] hm (l := [_, _, _, _]) rfl (by decide))
      (by omega)) ?_
    rintro - t ⟨hreg, ht⟩
    refine ⟨hreg, parts_seg_cons.mpr ?_⟩
    refine (parts_within (l := [_, _]) (r := [_, _, _]) (fun _ => parts_seg_cons)).mpr ?_
    rw [headAddr_spliceRoots]
    exact parts_pick [3, 4, 1, 2, 0] ht (l := [_, _, _, _, _]) rfl (by decide)
  | case6 y ys z zs h h' ih =>
    simp only [List.length_cons] at hn ih
    obtain ⟨n, rfl⟩ : ∃ n, steps = n + 1 := ⟨steps - 1, by omega⟩
    rw [wp_loop_succ]
    refine wp_mergeRound_lt (by omega) hs fun m hm => ?_
    refine wp_mono (ih hy (parts_pick [0, 3, 1, 2] hm (l := [_, _, _, _]) rfl (by decide))
      (by omega)) ?_
    rintro - t ⟨hreg, ht⟩
    refine ⟨hreg, ?_⟩
    have ht' := parts_pick [1, 2, 0] ht (l := [_, _, _]) rfl (by decide)
    exact (parts_cons.mp (parts_cons.mp ht').2.2.2).2.2.2

theorem wp_mergeHead {Q : Nat → Store Node BinomialHeap → Prop}
    (hs : Parts s.mem (segPart 0 (y :: ys) :: segPart 0 (z :: zs) :: ps))
    (hq : Q (if y.degree ≤ z.degree then y.addr else z.addr) s) :
    wp (mergeHead y.addr z.addr) Q s := by
  have hy := ne_zero_of_seg hs
  have hz := ne_zero_of_seg ((parts_perm (List.Perm.swap ..)).mp hs)
  have hp := parts_two_seg.mp hs
  simp only [mergeHead, ne_eq, hy, hz, not_false_eq_true, ↓reduceIte, wp_bind]
  refine wp_load_part (i := 0) hp rfl (wp_load_part (i := 3) hp rfl ?_)
  by_cases hd : y.degree ≤ z.degree
  · simpa only [Root.node, hd, ↓reduceIte, wp_pure] using hq
  · simpa only [Root.node, hd, ↓reduceIte, wp_pure] using hq

theorem wp_merge (hy : (ys.map Root.degree).Pairwise (· < ·))
    (hs : Parts s.mem (segPart 0 ys :: segPart 0 zs :: ps)) (hn : ys.length + zs.length < steps) :
    wp (merge steps (headAddr 0 ys) (headAddr 0 zs)) (fun H t => t.reg = s.reg ∧
      H = headAddr 0 (meldRoots ys zs) ∧ Parts t.mem (segPart 0 (meldRoots ys zs) :: ps)) s := by
  obtain ⟨n, rfl⟩ : ∃ n, steps = n + 1 := ⟨steps - 1, by omega⟩
  cases ys with
  | nil =>
    simp only [merge, mergeHead, headAddr, ne_eq, not_true_eq_false, ↓reduceIte, wp_bind, wp_pure]
    exact wp_loop_succ.mpr (wp_mergeRound_end (.inl rfl) ⟨rfl, by simp [meldRoots],
      by simpa [meldRoots] using parts_seg_nil.mp hs⟩)
  | cons y ys =>
    cases zs with
    | nil =>
      have hy := ne_zero_of_seg hs
      simp only [merge, mergeHead, headAddr, ne_eq, hy, not_false_eq_true, not_true_eq_false, ↓reduceIte,
        wp_bind, wp_pure]
      refine wp_loop_succ.mpr (wp_mergeRound_end (.inr rfl) ⟨rfl, ?_⟩)
      exact ⟨rfl, parts_seg_nil.mp ((parts_perm (List.Perm.swap ..)).mp hs)⟩
    | cons z zs =>
      simp only [merge, headAddr, wp_bind]
      refine wp_mergeHead hs ?_
      rw [meldRoots]
      split_ifs with hd
      · refine wp_mono (wp_merge_rounds hy hs hn) ?_
        rintro - t ⟨hreg, ht⟩
        exact (wp_pure _).mpr ⟨hreg, (headAddr_spliceRoots (y :: ys) (z :: zs)).symm, ht⟩
      · refine wp_loop_succ.mpr (wp_mergeRound_lt (Nat.lt_of_not_le hd) hs fun m hm => ?_)
        refine wp_mono (wp_merge_rounds hy
          (parts_pick [0, 3, 1, 2] hm (l := [_, _, _, _]) rfl (by decide))
          (by simp only [List.length_cons] at hn ⊢; omega)) ?_
        rintro - t ⟨hreg, ht⟩
        refine (wp_pure _).mpr ⟨hreg, rfl, parts_seg_cons.mpr ?_⟩
        rw [headAddr_spliceRoots]
        exact parts_pick [1, 2, 0] ht (l := [_, _, _]) rfl (by decide)

end Merge

section Union

variable {s : Store Node BinomialHeap} {x y z : Root} {l ys zs : List Root} {ps : List (Library.Part Node)}
  {steps : Nat}

theorem wp_passes {Q : Bool → Store Node BinomialHeap → Prop} (hs : Parts s.mem (segPart 0 l :: ps))
    (hq : ∀ b, (b = true ↔ x.degree ≠ y.degree ∨ l.head?.map Root.degree = some x.degree) → Q b s) :
    wp (passes (x.node y.addr) (y.node (headAddr 0 l))) Q s := by
  by_cases hd : x.degree = y.degree
  · cases l with
    | nil =>
      simp only [passes, Root.node, headAddr, hd, ne_eq, not_true_eq_false, ↓reduceIte, wp_pure]
      apply hq
      simp [hd]
    | cons z l =>
      have hz := ne_zero_of_seg hs
      simp only [passes, Root.node, headAddr, ne_eq, hd, not_true_eq_false, hz, not_false_eq_true,
        ↓reduceIte, wp_bind]
      refine wp_load_part (i := 0) (parts_seg_cons.mp hs) rfl ?_
      rw [wp_pure]
      apply hq
      simp only [hd, List.head?_cons, Option.map_some, Option.some.injEq, ne_eq, not_true_eq_false,
        false_or]
      exact decide_eq_true_iff
  · simp only [passes, Root.node, hd, ne_eq, not_false_eq_true, ↓reduceIte, wp_pure]
    apply hq
    simp [hd]

/-- `Binomial_link` makes one tree of two. -/
theorem wp_binomialLink {e e' : Nat} {Q : Unit → Store Node BinomialHeap → Prop}
    (hs : Parts s.mem (cellPart x.addr (x.node e) :: forestPart x.child ::
      cellPart y.addr (y.node e') :: forestPart y.child :: ps))
    (hq : ∀ m, Parts m (cellPart x.addr ((x.link y).node e) :: forestPart (x.link y).child :: ps) →
      Q () ⟨m, s.reg⟩) : wp (binomialLink y.addr x.addr) Q s := by
  simp only [binomialLink, wp_bind]
  refine wp_store_part (i := 2) hs rfl fun m hm => ?_
  refine wp_load_part (i := 0) hm rfl ?_
  refine wp_store_part (i := 2) hm rfl fun m hm => ?_
  refine wp_store_part (i := 0) hm rfl fun m hm => ?_
  refine wp_store_part (i := 0) hm rfl fun m hm => ?_
  apply hq
  refine (parts_within (l := [_]) (r := [_, _, _]) (fun _ => parts_forest_node)).mpr ?_
  exact parts_pick [0, 2, 3, 1] hm (l := [_, _, _, _]) rfl (by decide)

/-- The tree before the place where `Union` works, if there is one. -/
def linkParts (prev : Option (Nat × Node)) (a : Nat) : List (Library.Part Node) :=
  match prev with
  | none => []
  | some (p, v) => [cellPart p { v with sibling := a }]

def prevAddr : Option (Nat × Node) → Nat
  | none => 0
  | some (p, _) => p

theorem wp_relink {prev : Option (Nat × Node)} {H a b c : Nat} {Q : Nat → Store Node BinomialHeap → Prop}
    (hs : Parts s.mem (linkParts prev a ++ ps))
    (hq : ∀ m, Parts m (linkParts prev b ++ ps) → Q (if prev = none then b else H) ⟨m, s.reg⟩) :
    wp (relink ⟨H, prevAddr prev, c, b⟩) Q s := by
  cases prev with
  | none =>
    simp only [relink, prevAddr, ↓reduceIte, wp_pure]
    exact hq s.mem hs
  | some p =>
    have hp : p.1 ≠ 0 := Memory.ne_zero_of_cell (cell_of_parts (i := 0) hs rfl)
    simp only [relink, prevAddr, hp, ↓reduceIte, wp_bind]
    refine wp_store_part (i := 0) hs rfl fun m hm => ?_
    rw [wp_pure]
    exact hq m hm

/-- The loop of `Union` makes trees of pairs of the same degree. -/
theorem wp_union_rounds (prev : Option (Nat × Node)) {H : Nat}
    (hs : Parts s.mem (linkParts prev x.addr ++ segPart 0 (x :: l) :: ps))
    (hH : prev = none → H = x.addr) (hn : l.length < steps) :
    wp (loop unionRound steps ⟨H, prevAddr prev, x.addr, headAddr 0 l⟩) (fun H' t =>
      t.reg = s.reg ∧ H' = (if prev = none then headAddr 0 (consolidate (x :: l)) else H) ∧
      Parts t.mem (linkParts prev (headAddr 0 (consolidate (x :: l))) ++
        segPart 0 (consolidate (x :: l)) :: ps)) s := by
  induction steps generalizing s x l prev H ps with
  | zero => omega
  | succ n ih =>
    rw [wp_loop_succ]
    cases l with
    | nil =>
      simp only [unionRound, headAddr, ne_eq, not_true_eq_false, ↓reduceIte, wp_pure, consolidate]
      refine ⟨trivial, ?_, hs⟩
      split_ifs with hp
      · exact hH hp
      · rfl
    | cons y l =>
      simp only [List.length_cons] at hn
      have hp : Parts s.mem (cellPart x.addr (x.node y.addr) :: forestPart x.child ::
          cellPart y.addr (y.node (headAddr 0 l)) :: forestPart y.child :: segPart 0 l ::
            (linkParts prev x.addr ++ ps)) := by
        have hs' := parts_seg_cons.mp ((parts_perm List.perm_middle).mp hs)
        exact (parts_within (l := [_, _]) (r := [_, _, _]) (fun _ => parts_seg_cons)).mp hs'
      have hy : y.addr ≠ 0 := Memory.ne_zero_of_cell (cell_of_parts (i := 2) hp rfl)
      simp only [unionRound, headAddr, ne_eq, hy, not_false_eq_true, ↓reduceIte, wp_bind]
      refine wp_load_part (i := 0) hp rfl (wp_load_part (i := 2) hp rfl ?_)
      have hl := parts_pick [4, 0, 1, 2, 3] hp (l := [_, _, _, _, _]) rfl (by decide)
      refine wp_passes hl fun b hb => ?_
      cases b with
      | true =>
        have hc : consolidate (x :: y :: l) = x :: consolidate (y :: l) := by
          rw [consolidate, if_pos (hb.mp rfl)]
        have hs' : Parts s.mem (cellPart x.addr (x.node y.addr) :: segPart 0 (y :: l) ::
            forestPart x.child :: (linkParts prev x.addr ++ ps)) := by
          have hs' := parts_seg_cons.mpr
            (parts_pick [2, 3, 4, 0, 1] hp (l := [_, _, _, _, _]) rfl (by decide))
          exact parts_pick [1, 0, 2] hs' (l := [_, _, _]) rfl (by decide)
        simp only [↓reduceIte, wp_pure]
        refine wp_mono (ih (some (x.addr, x.node 0)) hs' (fun he => absurd he (Option.some_ne_none _)) (by omega)) ?_
        rintro H' t ⟨hreg, rfl, ht⟩
        refine ⟨hreg, ?_, ?_⟩
        · rw [hc]
          split_ifs with hnone
          · exact hH hnone
          · rfl
        · rw [hc]
          refine (parts_perm List.perm_middle).mpr (parts_seg_cons.mpr ?_)
          exact parts_pick [0, 2, 1] ht (l := [_, _, _]) rfl (by decide)
      | false =>
        have hd : ¬ (x.degree ≠ y.degree ∨ l.head?.map Root.degree = some x.degree) :=
          fun h => Bool.noConfusion (hb.mpr h)
        by_cases hle : x.n ≤ y.n
        · have hc : consolidate (x :: y :: l) = consolidate (x.link y :: l) := by
            rw [consolidate, if_neg hd, if_pos hle]
          simp only [Bool.false_eq_true, Root.node, hle, ↓reduceIte, wp_bind]
          refine wp_store_part (i := 0) hp rfl fun m hm => ?_
          refine wp_binomialLink (x := x) (y := y) hm fun m hm => ?_
          refine wp_load_part (i := 0) hm rfl ?_
          rw [hc, wp_pure]
          refine ih (x := x.link y) prev ?_ hH (by omega)
          refine (parts_perm List.perm_middle).mpr (parts_seg_cons.mpr ?_)
          exact hm
        · have hc : consolidate (x :: y :: l) = consolidate (y.link x :: l) := by
            rw [consolidate, if_neg hd, if_neg hle]
          simp only [Bool.false_eq_true, Root.node, hle, ↓reduceIte, wp_bind]
          have hr := (parts_perm (List.perm_append_comm_assoc [_, _, _, _, _] _ _)).mp hp
          refine wp_relink hr fun m hm => ?_
          have hm' := (parts_perm (List.perm_append_comm_assoc _ [_, _, _, _, _] _)).mp hm
          refine wp_binomialLink (x := y) (y := x)
            (parts_pick [2, 3, 0, 1] hm' (l := [_, _, _, _]) rfl (by decide)) fun m hm => ?_
          refine wp_load_part (i := 0) hm rfl ?_
          rw [hc, wp_pure]
          have hs' : Parts m (linkParts prev y.addr ++ segPart 0 (y.link x :: l) :: ps) :=
            (parts_perm List.perm_middle).mpr (parts_seg_cons.mpr hm)
          refine wp_mono (ih (x := y.link x) prev hs' (fun hnone => if_pos hnone) (by omega)) ?_
          rintro H' t ⟨hreg, rfl, ht⟩
          refine ⟨hreg, ?_, ht⟩
          split_ifs <;> rfl

theorem length_spliceRoots_le (ys zs : List Root) :
    (spliceRoots ys zs).length ≤ ys.length + zs.length := by
  fun_induction spliceRoots ys zs with
  | case1 ys => simp
  | case2 z zs => simp
  | case3 y ys z zs h ih =>
    simp only [List.length_cons] at ih ⊢
    omega
  | case4 y z zs h h' =>
    simp only [List.length_cons]
    omega
  | case5 y z zs h h' y' ys ih =>
    simp only [List.length_cons] at ih ⊢
    omega
  | case6 y ys z zs h h' ih =>
    simp only [List.length_cons] at ih ⊢
    omega

theorem length_meldRoots_le (ys zs : List Root) :
    (meldRoots ys zs).length ≤ ys.length + zs.length := by
  cases ys with
  | nil => simp [meldRoots]
  | cons y ys =>
    cases zs with
    | nil => simp [meldRoots]
    | cons z zs =>
      have h₁ := length_spliceRoots_le (y :: ys) (z :: zs)
      have h₂ := length_spliceRoots_le (y :: ys) zs
      rw [meldRoots]
      split_ifs
      · exact h₁
      · simp only [List.length_cons] at h₂ ⊢
        omega

theorem wp_union (hy : (ys.map Root.degree).Pairwise (· < ·))
    (hs : Parts s.mem (segPart 0 ys :: segPart 0 zs :: ps)) (hn : ys.length + zs.length < steps) :
    wp (union steps (headAddr 0 ys) (headAddr 0 zs)) (fun H t => t.reg = s.reg ∧
      H = headAddr 0 (consolidate (meldRoots ys zs)) ∧
      Parts t.mem (segPart 0 (consolidate (meldRoots ys zs)) :: ps)) s := by
  rw [union, wp_bind]
  have hlen := length_meldRoots_le ys zs
  refine wp_mono (wp_merge hy hs hn) ?_
  rintro H t ⟨hreg, rfl, ht⟩
  cases hm : meldRoots ys zs with
  | nil =>
    rw [hm] at ht
    simp only [headAddr, ↓reduceIte, wp_pure, consolidate]
    exact ⟨hreg, trivial, ht⟩
  | cons x l =>
    rw [hm] at ht hlen
    have hx := ne_zero_of_seg ht
    simp only [headAddr, hx, ↓reduceIte, wp_bind]
    refine wp_load_part (i := 0) (parts_seg_cons.mp ht) rfl ?_
    simp only [List.length_cons] at hlen
    refine wp_mono (wp_union_rounds none ht (fun _ => rfl) (by omega)) ?_
    rintro H t' ⟨hreg', hH, ht'⟩
    exact ⟨hreg'.trans hreg, hH, ht'⟩

end Union

end C11AndC.Binomial
