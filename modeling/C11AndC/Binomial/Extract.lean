import C11AndC.Binomial.Trees

namespace C11AndC.Binomial

open C11AndC.Library

/-- The first of the trees with the least key, with the trees before and after it, when the
trees `pre`, `x` and `mid` have been looked at. -/
def minSplit (pre : List Root) (x : Root) (mid : List Root) : List Root → List Root × Root × List Root
  | [] => (pre, x, mid)
  | r :: l => if r.n < x.n then minSplit (pre ++ x :: mid) r [] l else minSplit pre x (mid ++ [r]) l

def lastAddr (l : List Root) : Nat := (l.getLast?.map Root.addr).getD 0

section Lists

variable {m : Memory Node} {e : Nat} {r x : Root} {l l' pre post : List Root}
  {ps : List (Library.Part Node)}

theorem headAddr_append (e : Nat) (l l' : List Root) :
    headAddr e (l ++ l') = headAddr (headAddr e l') l := by
  cases l <;> rfl

theorem lastAddr_concat (l : List Root) (r : Root) : lastAddr (l ++ [r]) = r.addr := by
  simp [lastAddr]

theorem seg_append : Seg m e (l ++ l') ↔ Seg m (headAddr e l') l ∧ Seg m e l' := by
  induction l with
  | nil => simp [Seg]
  | cons r l ih => simp only [List.cons_append, Seg, ih, headAddr_append, and_assoc]

theorem parts_seg_append : Parts m (segPart e (l ++ l') :: ps) ↔
    Parts m (segPart (headAddr e l') l :: segPart e l' :: ps) := by
  constructor
  · rintro ⟨hn, hh⟩
    have hs : Seg m e (l ++ l') := hh _ List.mem_cons_self
    obtain ⟨hs, hs'⟩ := seg_append.mp hs
    refine ⟨by simpa [segPart] using hn, fun p hp => ?_⟩
    simp only [List.mem_cons] at hp
    obtain rfl | rfl | hp := hp
    · exact hs
    · exact hs'
    · exact hh p (List.mem_cons_of_mem _ hp)
  · rintro ⟨hn, hh⟩
    refine ⟨by simpa [segPart] using hn, fun p hp => ?_⟩
    obtain rfl | hp := List.mem_cons.mp hp
    · exact seg_append.mpr ⟨hh _ List.mem_cons_self, hh _ (List.mem_cons_of_mem _ List.mem_cons_self)⟩
    · exact hh p (by simp [hp])

theorem cell_of_seg (h : Seg m e (l ++ r :: l')) :
    m.cell r.addr = some (r.node (headAddr e l')) := (seg_append.mp h).2.1

theorem minSplit_eq (pre : List Root) (x : Root) (mid l : List Root) :
    (minSplit pre x mid l).1 ++ (minSplit pre x mid l).2.1 :: (minSplit pre x mid l).2.2 =
      pre ++ x :: mid ++ l := by
  induction l generalizing pre x mid with
  | nil => simp [minSplit]
  | cons r l ih =>
    rw [minSplit]
    split_ifs
    · rw [ih]
      simp
    · rw [ih]
      simp

theorem minSplit_le (pre : List Root) (x : Root) (mid : List Root)
    (h : ∀ r ∈ pre ++ x :: mid, x.n ≤ r.n) :
    ∀ r ∈ pre ++ x :: mid ++ l, (minSplit pre x mid l).2.1.n ≤ r.n := by
  induction l generalizing pre x mid with
  | nil => simpa [minSplit] using h
  | cons y l ih =>
    rw [minSplit]
    split_ifs with hlt
    · have hy : ∀ r ∈ (pre ++ x :: mid) ++ y :: [], y.n ≤ r.n := by
        intro r hr
        obtain hr | hr := List.mem_append.mp hr
        · exact Int.le_trans (Int.le_of_lt hlt) (h r hr)
        · rw [List.mem_singleton.mp hr]
      intro r hr
      exact ih _ y [] hy r (by simpa using hr)
    · have hx : ∀ r ∈ pre ++ x :: (mid ++ [y]), x.n ≤ r.n := by
        intro r hr
        have hr' : r ∈ (pre ++ x :: mid) ++ [y] := by simpa using hr
        obtain hr | hr := List.mem_append.mp hr'
        · exact h r hr
        · rw [List.mem_singleton.mp hr]
          omega
      intro r hr
      exact ih pre x _ hx r (by simpa using hr)

/-- The whole list is split at a tree whose key is least. -/
theorem minSplit_spec (h : minSplit [] r [] l = (pre, x, post)) :
    pre ++ x :: post = r :: l ∧ ∀ r' ∈ r :: l, x.n ≤ r'.n := by
  have heq := minSplit_eq [] r [] l
  have hle := minSplit_le (l := l) [] r [] (by simp)
  rw [h] at heq hle
  exact ⟨by simpa using heq, by simpa using hle⟩

end Lists

section Programs

variable {s : Store Node BinomialHeap} {r x y : Root} {l rest pre post : List Root}
  {ps : List (Library.Part Node)} {steps : Nat}

/-- The loop of `Extract_Min` finds the first tree with the least key. -/
theorem wp_scan (front : List Root) (q : Root) (pre : List Root) (x : Root) (mid : List Root)
    (hs : Seg s.mem 0 (front ++ q :: rest)) (hx : front ++ [q] = pre ++ x :: mid)
    (hn : rest.length < steps) :
    wp (loop scanRound steps ⟨x.n, lastAddr pre, x.addr, q.addr⟩) (fun r t => t = s ∧
      r = (lastAddr (minSplit pre x mid rest).1, (minSplit pre x mid rest).2.1.addr)) s := by
  induction rest generalizing front q pre x mid steps with
  | nil =>
    obtain ⟨n, rfl⟩ : ∃ n, steps = n + 1 := ⟨steps - 1, by omega⟩
    have hq := cell_of_seg hs
    rw [wp_loop_succ]
    simp [scanRound, hq, Root.node, headAddr, minSplit]
  | cons r rest ih =>
    simp only [List.length_cons] at hn
    obtain ⟨n, rfl⟩ : ∃ n, steps = n + 1 := ⟨steps - 1, by omega⟩
    have hq := cell_of_seg hs
    have hs' : Seg s.mem 0 ((front ++ [q]) ++ r :: rest) := by simpa using hs
    have hr := cell_of_seg hs'
    have hr0 := Memory.ne_zero_of_cell hr
    rw [wp_loop_succ]
    simp only [scanRound, wp_bind, wp_load, hq, Option.some.injEq, exists_eq_left', Root.node, headAddr,
      ne_eq, hr0, not_false_eq_true, ↓reduceIte, hr, minSplit]
    split_ifs with hlt
    · rw [wp_pure, ← hx]
      rw [← lastAddr_concat front q]
      exact ih (front ++ [q]) r (front ++ [q]) r [] hs' rfl (by omega)
    · rw [wp_pure]
      refine ih (front ++ [q]) r pre x (mid ++ [r]) hs' ?_ (by omega)
      rw [hx]
      simp

theorem wp_unlink (hs : Parts s.mem (segPart 0 (pre ++ x :: post) :: ps)) :
    wp (unlink (headAddr 0 (pre ++ x :: post)) (lastAddr pre) x.addr) (fun H t =>
      t.reg = s.reg ∧ H = headAddr 0 (pre ++ post) ∧
      Parts t.mem (segPart 0 (pre ++ post) :: cellPart x.addr (x.node (headAddr 0 post)) ::
        forestPart x.child :: ps)) s := by
  obtain rfl | ⟨pre, t, rfl⟩ := List.eq_nil_or_concat pre
  · have hp := parts_seg_cons.mp hs
    rw [unlink, wp_bind]
    refine wp_load_part (i := 0) hp rfl ?_
    have hpost := parts_pick [2, 0, 1] hp (l := [_, _, _]) rfl (by decide)
    by_cases h0 : headAddr 0 post = 0
    · rw [if_pos ⟨rfl, h0⟩, wp_pure]
      exact ⟨rfl, h0.symm, hpost⟩
    · have hlast : lastAddr [] = 0 := rfl
      rw [if_neg (fun h => h0 h.2), if_pos hlast, wp_pure]
      exact ⟨rfl, rfl, hpost⟩
  · rw [List.concat_eq_append, lastAddr_concat]
    rw [List.concat_eq_append, List.append_assoc] at hs
    have hp : Parts s.mem (segPart t.addr pre :: cellPart t.addr (t.node x.addr) ::
        forestPart t.child :: cellPart x.addr (x.node (headAddr 0 post)) :: forestPart x.child ::
          segPart 0 post :: ps) := by
      have hs' := parts_seg_append.mp hs
      have hs'' := (parts_within (l := [_]) (r := [_, _, _]) (fun _ => parts_seg_cons)).mp hs'
      exact (parts_within (l := [_, _, _]) (r := [_, _, _]) (fun _ => parts_seg_cons)).mp hs''
    have ht0 := Memory.ne_zero_of_cell (cell_of_parts (i := 1) hp rfl)
    have hx0 := Memory.ne_zero_of_cell (cell_of_parts (i := 3) hp rfl)
    rw [unlink, wp_bind]
    refine wp_load_part (i := 3) hp rfl ?_
    simp only [ht0, false_and, ↓reduceIte, wp_bind]
    refine wp_load_part (i := 1) hp rfl ?_
    simp only [Root.node, hx0, ↓reduceIte, wp_bind]
    refine wp_store_part (i := 1) hp rfl fun m hm => ?_
    rw [wp_pure]
    refine ⟨rfl, ?_, ?_⟩
    · rw [List.append_assoc, List.append_assoc, headAddr_append, headAddr_append _ pre]
      rfl
    · rw [List.append_assoc]
      refine parts_seg_append.mpr ((parts_within (l := [_]) (r := [_, _, _])
        (fun _ => parts_seg_cons)).mpr ?_)
      exact parts_pick [0, 1, 2, 5, 3, 4] hm (l := [_, _, _, _, _, _]) rfl (by decide)

theorem wp_revertList {rest : List Root}
    (hs : Parts s.mem (cellPart y.addr (y.node (headAddr 0 rest)) :: forestPart y.child ::
      segPart 0 rest :: ps)) (hn : rest.length < steps) :
    wp (revertList steps y.addr) (fun _ t =>
      t.reg = { s.reg with Hr := headAddr y.addr rest.reverse } ∧
      Parts t.mem (cellPart y.addr (y.node (headAddr 0 rest)) :: forestPart y.child ::
        segPart y.addr rest.reverse :: ps)) s := by
  induction rest generalizing y s ps steps with
  | nil =>
    obtain ⟨n, rfl⟩ : ∃ n, steps = n + 1 := ⟨steps - 1, by omega⟩
    rw [revertList, wp_bind]
    refine wp_load_part (i := 0) hs rfl ?_
    simp only [Root.node, headAddr, ne_eq, not_true_eq_false, ↓reduceIte, wp_setReg]
    refine ⟨rfl, ?_⟩
    have hs' := (parts_within (l := [_, _]) (r := []) (fun _ => parts_seg_nil)).mp hs
    exact (parts_within (l := [_, _]) (r := []) (fun _ => parts_seg_nil)).mpr hs'
  | cons c rest ih =>
    simp only [List.length_cons] at hn
    obtain ⟨n, rfl⟩ : ∃ n, steps = n + 1 := ⟨steps - 1, by omega⟩
    have hp := (parts_within (l := [_, _]) (r := [_, _, _]) (fun _ => parts_seg_cons)).mp hs
    have hc0 := Memory.ne_zero_of_cell (cell_of_parts (i := 2) hp rfl)
    rw [revertList, wp_bind]
    refine wp_load_part (i := 0) hs rfl ?_
    have hsib : (y.node (headAddr 0 (c :: rest))).sibling ≠ 0 := hc0
    rw [if_pos hsib, wp_bind]
    refine wp_mono (ih (parts_pick [2, 3, 4, 0, 1] hp (l := [_, _, _, _, _]) rfl (by decide))
      (by omega)) ?_
    rintro - t ⟨hreg, ht⟩
    rw [wp_bind]
    refine wp_load_part (i := 3) ht rfl ?_
    refine wp_store_part (i := 0) ht rfl fun m hm => ⟨?_, ?_⟩
    · rw [hreg, List.reverse_cons, headAddr_append]
      rfl
    · rw [List.reverse_cons]
      refine (parts_within (l := [_, _]) (r := [_, _]) (fun _ => parts_seg_append)).mpr ?_
      refine (parts_within (l := [_, _, _]) (r := [_, _, _]) (fun _ => parts_seg_cons)).mpr ?_
      refine (parts_within (l := [_, _, _, _, _]) (r := []) (fun _ => parts_seg_nil)).mpr ?_
      exact parts_pick [3, 4, 2, 0, 1] hm (l := [_, _, _, _, _]) rfl (by decide)

/-- The children of a root become a list of their own, in the opposite order. -/
theorem wp_revertChildren {f : Forest} {Q : Unit → Store Node BinomialHeap → Prop}
    (hs : Parts s.mem (forestPart f :: ps)) (hHr : s.reg.Hr = 0) (hn : f.roots.length < steps)
    (hq : ∀ m, Parts m (segPart 0 f.roots.reverse :: ps) →
      Q () ⟨m, { s.reg with Hr := headAddr 0 f.roots.reverse }⟩) :
    wp (revertChildren steps f.addr) Q s := by
  have hs' := parts_forest.mp hs
  cases f with
  | nil =>
    have hreg : (⟨s.mem, { s.reg with Hr := 0 }⟩ : Store Node BinomialHeap) = s := by rw [← hHr]
    have hq' := hq s.mem hs'
    simp only [revertChildren, Forest.addr, ne_eq, not_true_eq_false, ↓reduceIte, wp_pure]
    rw [← hreg]
    exact hq'
  | node a n d p c sib =>
    have hp := parts_seg_cons.mp hs'
    have ha : a ≠ 0 := Memory.ne_zero_of_cell (cell_of_parts (i := 0) hp rfl)
    simp only [Forest.roots, List.length_cons] at hn
    simp only [revertChildren, Forest.addr, ne_eq, ha, not_false_eq_true, ↓reduceIte, wp_bind]
    refine wp_mono (wp_revertList (y := ⟨a, n, d, p, c⟩) hp (by omega)) ?_
    rintro - ⟨m', reg⟩ ⟨rfl, ht⟩
    refine wp_store_part (i := 0) ht rfl fun m hm => ?_
    have hrev : headAddr 0 (Forest.node a n d p c sib).roots.reverse = headAddr a sib.roots.reverse := by
      rw [Forest.roots, List.reverse_cons, headAddr_append]
      rfl
    have hq' := hq m ?_
    · rw [hrev] at hq'
      exact hq'
    · rw [Forest.roots, List.reverse_cons]
      refine parts_seg_append.mpr ?_
      refine (parts_within (l := [_]) (r := [_, _, _]) (fun _ => parts_seg_cons)).mpr ?_
      refine (parts_within (l := [_, _, _]) (r := []) (fun _ => parts_seg_nil)).mpr ?_
      exact parts_pick [2, 0, 1] hm (l := [_, _, _]) rfl (by decide)

/-- `Extract_Min` takes out the first root with the least key and unites the other roots with
its children. -/
theorem wp_extractMin (hs : Parts s.mem (segPart 0 (r :: l) :: ps))
    (hsplit : minSplit [] r [] l = (pre, x, post))
    (hd : ((r :: l).map Root.degree).Pairwise (· < ·))
    (hn : (r :: l).length + x.child.roots.length < steps) :
    wp (extractMin steps r.addr) (fun a t => a = x.addr ∧
      t.reg.H = headAddr 0 (consolidate (meldRoots (pre ++ post) x.child.roots.reverse)) ∧
      Parts t.mem (segPart 0 (consolidate (meldRoots (pre ++ post) x.child.roots.reverse)) ::
        cellPart x.addr (x.node (headAddr 0 post)) :: ps)) s := by
  have hr0 := ne_zero_of_seg hs
  obtain ⟨hL, -⟩ := minSplit_spec hsplit
  have hlen : pre.length + (post.length + 1) = l.length + 1 := by
    have h := congrArg List.length hL
    simpa using h
  simp only [List.length_cons] at hn
  simp only [extractMin, wp_bind, wp_setReg, hr0, ↓reduceIte]
  refine wp_load_part (i := 0) (parts_seg_cons.mp hs) rfl ?_
  have hseg : Seg (⟨s.mem, { s.reg with Hr := 0 }⟩ : Store Node BinomialHeap).mem 0 ([] ++ r :: l) :=
    parts_get (i := 0) hs rfl
  refine wp_mono (wp_scan [] r [] r [] hseg rfl (by omega)) ?_
  rintro _ _ ⟨rfl, rfl⟩
  rw [hsplit]
  rw [← hL] at hs
  have hhead : r.addr = headAddr 0 (pre ++ x :: post) := by rw [hL]; rfl
  rw [hhead]
  refine wp_mono (wp_unlink hs) ?_
  rintro _ ⟨m, reg⟩ ⟨rfl, rfl, ht⟩
  refine wp_load_part (i := 1) ht rfl ?_
  have hchild : x.child.roots.length < steps := by omega
  refine wp_revertChildren (f := x.child) (parts_pick [2, 0, 1] ht (l := [_, _, _]) rfl (by decide)) rfl
    hchild fun m hm' => ?_
  rw [wp_getReg]
  have hd' : ((pre ++ post).map Root.degree).Pairwise (· < ·) := by
    rw [← hL] at hd
    exact hd.sublist (((List.sublist_cons_self x post).append_left pre).map _)
  refine wp_mono (wp_union hd' (parts_pick [1, 0] hm' (l := [_, _]) rfl (by decide)) ?_) ?_
  · simp only [List.length_append, List.length_reverse]
    omega
  · rintro _ t ⟨hreg, rfl, ht⟩
    rw [wp_pure]
    exact ⟨rfl, rfl, ht⟩

end Programs

end C11AndC.Binomial
