import C11AndC.Median.Heap
import Mathlib.Data.List.GetD
import Mathlib.Data.List.Sort

namespace C11AndC.Median

open C11AndC.Library

/-- The middle element of the sorted list, or the average of the two middle ones. -/
def median (xs : List Int) : Int :=
  let sorted := xs.insertionSort (· ≤ ·)
  let half := xs.length / 2
  if xs.length % 2 = 1 then sorted.getD half 0
  else (sorted.getD (half - 1) 0 + sorted.getD half 0).tdiv 2

/-- Where the step extracts a top, the heap keeps its order. -/
def KeepsOrder (s : State) (e : Int) : Prop :=
  (s.right.count < s.left.count → e < s.m → Keeps s.left) ∧
    (s.left.count < s.right.count → ¬ e < s.m → Keeps s.right)

instance (s : State) (e : Int) : Decidable (KeepsOrder s e) := inferInstanceAs (Decidable (_ ∧ _))

/-- What holds of the two heaps in any case, after the elements `xs`. -/
structure Halves (s : State) (xs : List Int) : Prop where
  left : s.left.comp = .greater
  right : s.right.comp = .smaller
  perm : (elements s.left ++ elements s.right).Perm xs
  low : s.left.count ≤ s.right.count + 1
  high : s.right.count ≤ s.left.count + 1

/-- What holds as long as the heaps keep their order. -/
structure Split (s : State) : Prop where
  left : Ordered s.left
  right : Ordered s.right
  below : ∀ x ∈ elements s.left, x ≤ s.m
  above : ∀ x ∈ elements s.right, s.m ≤ x
  more : s.right.count < s.left.count → s.m = top s.left
  less : s.left.count < s.right.count → s.m = top s.right
  same : s.left.count = s.right.count → s.left.count ≠ 0 → s.m = average (top s.left) (top s.right)

section Halves

variable {s : State} {xs : List Int} {e x : Int} {l r : Heap}

theorem le_top (hcomp : l.comp = .greater) (hord : Ordered l) (hx : x ∈ elements l) : x ≤ top l := by
  have hle := top_le hord hx
  rw [hcomp] at hle
  simpa [Comp.ord] using hle

theorem top_le_of_smaller (hcomp : r.comp = .smaller) (hord : Ordered r) (hx : x ∈ elements r) :
    top r ≤ x := by
  have hle := top_le hord hx
  rw [hcomp] at hle
  exact hle

theorem length_elements (h : Heap) : (elements h).length = h.count := by
  rw [elements, List.length_map, List.length_range]

theorem halves_length (h : Halves s xs) : s.left.count + s.right.count = xs.length := by
  rw [← h.perm.length_eq, List.length_append, length_elements, length_elements]

theorem average_between {a b : Int} (h : a ≤ b) : a ≤ average a b ∧ average a b ≤ b := by
  have hsign : Int.sign 2 = 1 := rfl
  rw [average, Int.tdiv_eq_ediv, hsign]
  split_ifs <;> omega

/-- The heaps after a step that makes them equal. -/
theorem split_same (hl : l.comp = .greater) (hr : r.comp = .smaller) (hlord : Ordered l) (hrord : Ordered r)
    (hcount : l.count = r.count) (hpos : l.count ≠ 0)
    (hcross : ∀ a ∈ elements l, ∀ b ∈ elements r, a ≤ b) : Split ⟨average (top l) (top r), l, r⟩ := by
  obtain ⟨hlow, hhigh⟩ := average_between (hcross _ (top_mem hpos) _ (top_mem (hcount ▸ hpos)))
  refine ⟨hlord, hrord, fun a ha => ?_, fun b hb => ?_, fun h => ?_, fun h => ?_, fun _ _ => rfl⟩
  · exact (le_top hl hlord ha).trans hlow
  · exact hhigh.trans (top_le_of_smaller hr hrord hb)
  · exact absurd hcount h.ne'
  · exact absurd hcount h.ne

theorem split_more (hl : l.comp = .greater) (hlord : Ordered l) (hrord : Ordered r)
    (hcount : r.count < l.count) (hcross : ∀ a ∈ elements l, ∀ b ∈ elements r, a ≤ b) :
    Split ⟨top l, l, r⟩ := by
  refine ⟨hlord, hrord, fun a ha => le_top hl hlord ha, fun b hb => ?_, fun _ => rfl, fun h => ?_, fun h => ?_⟩
  · exact hcross _ (top_mem (Nat.ne_of_gt (Nat.zero_lt_of_lt hcount))) b hb
  · exact absurd hcount h.asymm
  · exact absurd h hcount.ne'

theorem split_less (hr : r.comp = .smaller) (hlord : Ordered l) (hrord : Ordered r)
    (hcount : l.count < r.count) (hcross : ∀ a ∈ elements l, ∀ b ∈ elements r, a ≤ b) :
    Split ⟨top r, l, r⟩ := by
  refine ⟨hlord, hrord, fun a ha => ?_, fun b hb => top_le_of_smaller hr hrord hb, fun h => ?_, fun _ => rfl,
    fun h => ?_⟩
  · exact hcross a ha _ (top_mem (Nat.ne_of_gt (Nat.zero_lt_of_lt hcount)))
  · exact absurd hcount h.asymm
  · exact absurd h hcount.ne

/-- The element `x` goes from one part to the other, `e` to the first. -/
theorem perm_move {l l₁ l₂ r r₁ : List Int} (hl : l.Perm (e :: l₂)) (hr : r.Perm (x :: r₁))
    (hx : l₁.Perm (x :: l₂)) (h : (l₁ ++ r₁).Perm xs) : (l ++ r).Perm (xs ++ [e]) := by
  rw [List.perm_iff_count]
  intro z
  have hl := hl.count_eq z
  have hr := hr.count_eq z
  have hx := hx.count_eq z
  have h := h.count_eq z
  simp only [List.count_append, List.count_cons, List.count_nil] at *
  omega

theorem perm_left {l l₁ r : List Int} (hl : l.Perm (e :: l₁)) (h : (l₁ ++ r).Perm xs) :
    (l ++ r).Perm (xs ++ [e]) :=
  (hl.append_right r).trans ((h.cons e).trans (List.perm_append_singleton e xs).symm)

theorem perm_right {l r r₁ : List Int} (hr : r.Perm (e :: r₁)) (h : (l ++ r₁).Perm xs) :
    (l ++ r).Perm (xs ++ [e]) :=
  List.perm_append_comm.trans (perm_left hr (List.perm_append_comm.trans h))

/-- What holds of the elements and of a new one holds of the elements after its insertion. -/
theorem forall_insert {P : Int → Prop} {ys zs : List Int} {x : Int} (h : ys.Perm (x :: zs)) (hx : P x)
    (hzs : ∀ a ∈ zs, P a) : ∀ a ∈ ys, P a := by
  intro a ha
  obtain rfl | ha := List.mem_cons.mp (h.mem_iff.mp ha)
  · exact hx
  · exact hzs a ha

/-- What a step leaves. -/
def Steps (s : State) (xs : List Int) (e : Int) : Prop :=
  ∃ t, getMedian s e = some t ∧ Halves t (xs ++ [e]) ∧ (Split s → KeepsOrder s e → Split t)

theorem step_more (h : Halves s xs) (hlen : xs.length < 2 * MAX_HEAP_SIZE)
    (hmore : s.right.count < s.left.count) : Steps s xs e := by
  have hsum := halves_length h
  have hlow := h.low
  have hmax : MAX_HEAP_SIZE = 128 := rfl
  by_cases he : e < s.m
  · obtain ⟨l₁, hdelete, hl₁⟩ := deleteTop_spec (h := s.left) (by omega)
    obtain ⟨r, hr, hright⟩ := insertHelper_spec (h := s.right) (by omega) (top s.left)
    have hl₁count := hl₁.count
    obtain ⟨l, hl, hleft⟩ := insertHelper_spec (h := l₁) (by omega) e
    have hlcount := hleft.count
    have hrcount := hright.count
    have hlcomp : l.comp = .greater := hleft.comp.trans (hl₁.comp.trans h.left)
    have hrcomp : r.comp = .smaller := hright.comp.trans h.right
    refine ⟨⟨average (top l) (top r), l, r⟩, ?_, ⟨hlcomp, hrcomp, ?_, ?_, ?_⟩, fun hs hkeeps => ?_⟩
    · simp [getMedian, hmore, he, hdelete, hr, hl]
    · exact perm_move hleft.elements hright.elements hl₁.elements h.perm
    · dsimp only
      omega
    · dsimp only
      omega
    · refine split_same hlcomp hrcomp (hleft.ordered (hl₁.ordered hs.left (hkeeps.1 hmore he)))
        (hright.ordered hs.right) (by omega) (by omega) fun a ha b hb => ?_
      have ha' : a ≤ s.m := forall_insert hleft.elements he.le
        (fun a ha => hs.below a (hl₁.elements.mem_iff.mpr (List.mem_cons_of_mem _ ha))) a ha
      have hb' : s.m ≤ b := forall_insert hright.elements (hs.more hmore).le hs.above b hb
      exact ha'.trans hb'
  · obtain ⟨r, hr, hright⟩ := insertHelper_spec (h := s.right) (by omega) e
    have hrcount := hright.count
    have hrcomp : r.comp = .smaller := hright.comp.trans h.right
    refine ⟨⟨average (top s.left) (top r), s.left, r⟩, ?_, ⟨h.left, hrcomp, ?_, ?_, ?_⟩, fun hs _ => ?_⟩
    · simp [getMedian, hmore, he, hr]
    · exact perm_right hright.elements h.perm
    · dsimp only
      omega
    · dsimp only
      omega
    · refine split_same h.left hrcomp hs.left (hright.ordered hs.right) (by omega) (by omega)
        fun a ha b hb => (hs.below a ha).trans ?_
      exact forall_insert hright.elements (not_lt.mp he) hs.above b hb

theorem step_less (h : Halves s xs) (hlen : xs.length < 2 * MAX_HEAP_SIZE)
    (hless : s.left.count < s.right.count) : Steps s xs e := by
  have hsum := halves_length h
  have hhigh := h.high
  have hmax : MAX_HEAP_SIZE = 128 := rfl
  by_cases he : e < s.m
  · obtain ⟨l, hl, hleft⟩ := insertHelper_spec (h := s.left) (by omega) e
    have hlcount := hleft.count
    have hlcomp : l.comp = .greater := hleft.comp.trans h.left
    refine ⟨⟨average (top l) (top s.right), l, s.right⟩, ?_, ⟨hlcomp, h.right, ?_, ?_, ?_⟩, fun hs _ => ?_⟩
    · simp [getMedian, hless.asymm, hless.ne, he, hl]
    · exact perm_left hleft.elements h.perm
    · dsimp only
      omega
    · dsimp only
      omega
    · refine split_same hlcomp h.right (hleft.ordered hs.left) hs.right (by omega) (by omega)
        fun a ha b hb => le_trans ?_ (hs.above b hb)
      exact forall_insert hleft.elements he.le hs.below a ha
  · obtain ⟨r₁, hdelete, hr₁⟩ := deleteTop_spec (h := s.right) (by omega)
    obtain ⟨l, hl, hleft⟩ := insertHelper_spec (h := s.left) (by omega) (top s.right)
    have hr₁count := hr₁.count
    obtain ⟨r, hr, hright⟩ := insertHelper_spec (h := r₁) (by omega) e
    have hlcount := hleft.count
    have hrcount := hright.count
    have hlcomp : l.comp = .greater := hleft.comp.trans h.left
    have hrcomp : r.comp = .smaller := hright.comp.trans (hr₁.comp.trans h.right)
    refine ⟨⟨average (top l) (top r), l, r⟩, ?_, ⟨hlcomp, hrcomp, ?_, ?_, ?_⟩, fun hs hkeeps => ?_⟩
    · simp [getMedian, hless.asymm, hless.ne, he, hdelete, hr, hl]
    · exact List.perm_append_comm.trans (perm_move hright.elements hleft.elements hr₁.elements
        (List.perm_append_comm.trans h.perm))
    · dsimp only
      omega
    · dsimp only
      omega
    · refine split_same hlcomp hrcomp (hleft.ordered hs.left)
        (hright.ordered (hr₁.ordered hs.right (hkeeps.2 hless he))) (by omega) (by omega) fun a ha b hb => ?_
      have ha' : a ≤ s.m := forall_insert hleft.elements (hs.less hless).ge hs.below a ha
      have hb' : s.m ≤ b := forall_insert hright.elements (not_lt.mp he)
        (fun b hb => hs.above b (hr₁.elements.mem_iff.mpr (List.mem_cons_of_mem _ hb))) b hb
      exact ha'.trans hb'

theorem step_same (h : Halves s xs) (hlen : xs.length < 2 * MAX_HEAP_SIZE)
    (hsame : s.left.count = s.right.count) : Steps s xs e := by
  have hsum := halves_length h
  have hmax : MAX_HEAP_SIZE = 128 := rfl
  have hmore : ¬ s.right.count < s.left.count := by omega
  by_cases he : e < s.m
  · obtain ⟨l, hl, hleft⟩ := insertHelper_spec (h := s.left) (by omega) e
    have hlcount := hleft.count
    have hlcomp : l.comp = .greater := hleft.comp.trans h.left
    refine ⟨⟨top l, l, s.right⟩, ?_, ⟨hlcomp, h.right, ?_, ?_, ?_⟩, fun hs _ => ?_⟩
    · simp [getMedian, hsame, he, hl]
    · exact perm_left hleft.elements h.perm
    · dsimp only
      omega
    · dsimp only
      omega
    · refine split_more hlcomp (hleft.ordered hs.left) hs.right (by omega)
        fun a ha b hb => le_trans ?_ (hs.above b hb)
      exact forall_insert hleft.elements he.le hs.below a ha
  · obtain ⟨r, hr, hright⟩ := insertHelper_spec (h := s.right) (by omega) e
    have hrcount := hright.count
    have hrcomp : r.comp = .smaller := hright.comp.trans h.right
    refine ⟨⟨top r, s.left, r⟩, ?_, ⟨h.left, hrcomp, ?_, ?_, ?_⟩, fun hs _ => ?_⟩
    · simp [getMedian, hsame, he, hr]
    · exact perm_right hright.elements h.perm
    · dsimp only
      omega
    · dsimp only
      omega
    · refine split_less hrcomp hs.left (hright.ordered hs.right) (by omega)
        fun a ha b hb => (hs.below a ha).trans ?_
      exact forall_insert hright.elements (not_lt.mp he) hs.above b hb

theorem getMedian_spec (h : Halves s xs) (hlen : xs.length < 2 * MAX_HEAP_SIZE) (e : Int) : Steps s xs e := by
  obtain hless | hsame | hmore := Nat.lt_trichotomy s.left.count s.right.count
  · exact step_less h hlen hless
  · exact step_same h hlen hsame
  · exact step_more h hlen hmore

theorem getD_last {l : List Int} {d m : Int} (hsorted : l.Pairwise (· ≤ ·)) (hm : m ∈ l)
    (hmax : ∀ x ∈ l, x ≤ m) : l.getD (l.length - 1) d = m := by
  obtain rfl | ⟨l, x, rfl⟩ := List.eq_nil_or_concat l
  · exact absurd hm List.not_mem_nil
  · rw [List.concat_eq_append] at *
    have hx : x = m := by
      refine le_antisymm (hmax x (by simp)) ?_
      obtain hm | hm := List.mem_append.mp hm
      · exact (List.pairwise_append.mp hsorted).2.2 m hm x (List.mem_singleton_self x)
      · exact (List.mem_singleton.mp hm).le
    simp [hx]

theorem getD_head {l : List Int} {d m : Int} (hsorted : l.Pairwise (· ≤ ·)) (hm : m ∈ l)
    (hmin : ∀ x ∈ l, m ≤ x) : l.getD 0 d = m := by
  cases l with
  | nil => exact absurd hm List.not_mem_nil
  | cons x l =>
    refine le_antisymm ?_ (hmin x (List.mem_cons_self ..))
    obtain rfl | hm := List.mem_cons.mp hm
    · exact le_refl _
    · exact (List.pairwise_cons.mp hsorted).1 m hm

/-- The sorted list is that of the left heap and, behind it, that of the right one. -/
theorem median_eq (h : Halves s xs) (hs : Split s) (hne : xs ≠ []) : median xs = s.m := by
  have hlen := halves_length h
  have hpos := List.length_pos_iff.mpr hne
  have hlow := h.low
  have hhigh := h.high
  have hl := List.perm_insertionSort (· ≤ ·) (elements s.left)
  have hr := List.perm_insertionSort (· ≤ ·) (elements s.right)
  have hlsorted := List.pairwise_insertionSort (· ≤ ·) (elements s.left)
  have hrsorted := List.pairwise_insertionSort (· ≤ ·) (elements s.right)
  have hsorted : xs.insertionSort (· ≤ ·) =
      (elements s.left).insertionSort (· ≤ ·) ++ (elements s.right).insertionSort (· ≤ ·) := by
    refine ((List.perm_insertionSort _ xs).trans (h.perm.symm.trans (hl.append hr).symm)).eq_of_pairwise'
      (List.pairwise_insertionSort _ xs) (List.pairwise_append.mpr ⟨hlsorted, hrsorted, fun a ha b hb => ?_⟩)
    exact (hs.below a (hl.mem_iff.mp ha)).trans (hs.above b (hr.mem_iff.mp hb))
  have hllen : ((elements s.left).insertionSort (· ≤ ·)).length = s.left.count := by
    rw [hl.length_eq, length_elements]
  have hlast : s.left.count ≠ 0 → (xs.insertionSort (· ≤ ·)).getD (s.left.count - 1) 0 = top s.left := by
    intro hcount
    rw [hsorted, List.getD_append _ _ _ _ (by omega), ← hllen]
    exact getD_last hlsorted (hl.mem_iff.mpr (top_mem hcount))
      fun x hx => le_top h.left hs.left (hl.mem_iff.mp hx)
  have hfirst : s.right.count ≠ 0 → (xs.insertionSort (· ≤ ·)).getD s.left.count 0 = top s.right := by
    intro hcount
    rw [hsorted, List.getD_append_right _ _ _ _ (by omega), hllen, Nat.sub_self]
    exact getD_head hrsorted (hr.mem_iff.mpr (top_mem hcount))
      fun x hx => top_le_of_smaller h.right hs.right (hr.mem_iff.mp hx)
  simp only [median]
  obtain hless | hsame | hmore := Nat.lt_trichotomy s.left.count s.right.count
  · have hhalf : xs.length / 2 = s.left.count := by omega
    rw [if_pos (by omega), hhalf, hfirst (by omega), hs.less hless]
  · have hhalf : xs.length / 2 = s.left.count := by omega
    rw [if_neg (by omega), hhalf, hlast (by omega), hfirst (by omega), hs.same hsame (by omega)]
    rfl
  · have hhalf : xs.length / 2 = s.left.count - 1 := by omega
    rw [if_pos (by omega), hhalf, hlast (by omega), hs.more hmore]

theorem start_halves (A B : Nat → Int) : Halves (start A B) [] := by
  refine ⟨rfl, rfl, ?_, ?_, ?_⟩ <;> simp [start, elements]

theorem start_split (A B : Nat → Int) : Split (start A B) := by
  refine ⟨fun p c hpc => absurd hpc.2.2 (Nat.not_lt_zero c), fun p c hpc => absurd hpc.2.2 (Nat.not_lt_zero c),
    ?_, ?_, fun h => absurd h (Nat.not_lt_zero 0), fun h => absurd h (Nat.not_lt_zero 0), fun _ h => absurd rfl h⟩
  · simp [start, elements]
  · simp [start, elements]

theorem printRounds_spec {ys : List Int} (h : Halves s xs) (hs : Split s)
    (hlen : (xs ++ ys).length ≤ 2 * MAX_HEAP_SIZE) (hkeeps : Each getMedian KeepsOrder s ys) :
    ∃ out, printRounds s ys = some out ∧ out.length = ys.length ∧
      ∀ i < ys.length, out[i]? = some (median (xs ++ ys.take (i + 1))) := by
  induction ys generalizing s xs with
  | nil => exact ⟨[], rfl, rfl, fun i hi => absurd hi (Nat.not_lt_zero i)⟩
  | cons e ys ih =>
    rw [List.length_append, List.length_cons] at hlen
    obtain ⟨t, ht, hhalves, hsplit⟩ := getMedian_spec h (by omega) e
    obtain ⟨hkeep, hrest⟩ := hkeeps t ht
    have hs' := hsplit hs hkeep
    obtain ⟨out, hout, hlength, hmedians⟩ := ih hhalves hs'
      (by rw [List.length_append, List.length_append, List.length_singleton]; omega) hrest
    refine ⟨t.m :: out, by simp [printRounds, ht, hout], by rw [List.length_cons, hlength, List.length_cons],
      fun i hi => ?_⟩
    cases i with
    | zero =>
      rw [List.take_succ_cons, List.take_zero, median_eq hhalves hs' (by simp)]
      rfl
    | succ i =>
      have hi' := hmedians i (Nat.lt_of_succ_lt_succ hi)
      rw [List.append_assoc, List.singleton_append] at hi'
      rw [List.take_succ_cons, List.getElem?_cons_succ]
      exact hi'

end Halves

/-- The printed values are the running medians, as long as the heaps keep their order when their
tops are extracted. -/
theorem running_median (A B : Nat → Int) (xs : List Int) (hlen : xs.length ≤ 2 * MAX_HEAP_SIZE)
    (hkeeps : Each getMedian KeepsOrder (start A B) xs) :
    ∃ out, printMedian A B xs = some out ∧ out.length = xs.length ∧
      ∀ i < xs.length, out[i]? = some (median (xs.take (i + 1))) :=
  printRounds_spec (start_halves A B) (start_split A B) hlen hkeeps

theorem running_median_four :
    ∃ out, printMedian (fun _ => 0) (fun _ => 0) [5, 1, 3, 4] = some out ∧ out.length = 4 ∧
      ∀ i < 4, out[i]? = some (median ([5, 1, 3, 4].take (i + 1))) :=
  running_median _ _ [5, 1, 3, 4] (by decide) (by decide)

/-- The elements in increasing order: the third extraction leaves a heap with the wrong top. -/
theorem running_median_wrong :
    printMedian (fun _ => 0) (fun _ => 0) [1, 2, 3, 4, 5, 6] = some [1, 1, 2, 2, 3, 4] ∧
      median [1, 2, 3, 4, 5, 6] = 3 := by
  decide

end C11AndC.Median
