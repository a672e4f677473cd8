import C11AndC.Median.Heap

namespace C11AndC.Median

open C11AndC.Library

inductive Call where
  | insert (e : Int)
  | extractTop

/-- A heap in use, with what was inserted so far and what was extracted. -/
structure Use where
  heap : Heap
  inserted : List Int
  extracted : List Int

def call (s : Use) : Call → Option Use
  | .insert e => do
    let h ← insertHelper s.heap e
    return { s with heap := h, inserted := e :: s.inserted }
  | .extractTop =>
    let (x, h) := deleteTop s.heap
    some { s with heap := h, extracted := if s.heap.count = 0 then s.extracted else x :: s.extracted }

/-- A new heap; its array is not initialised. -/
def fresh (k : Comp) (A : Nat → Int) : Use := ⟨⟨A, k, 0⟩, [], []⟩

/-- `x` is one of the elements, and none comes before it. -/
def Best (h : Heap) (x : Int) : Prop := x ∈ elements h ∧ ∀ y ∈ elements h, h.comp.holds y x = false

structure Sound (s : Use) : Prop where
  ordered : ∀ i, 0 < i → i < s.heap.count → s.heap.comp.holds (s.heap.A i) (s.heap.A ((i - 1) / 2)) = false
  elements : s.inserted.Perm (elements s.heap ++ s.extracted)
  best : s.heap.count ≠ 0 → Best s.heap (deleteTop s.heap).1

/-- The heap keeps its order when its top is extracted. -/
def ExtractKeeps (s : Use) : Call → Prop
  | .insert _ => True
  | .extractTop => Keeps s.heap

/-- What holds after any calls, in whatever order the elements are. -/
structure Counted (s : Use) : Prop where
  room : s.heap.count ≤ MAX_HEAP_SIZE
  elements : s.inserted.Perm (elements s.heap ++ s.extracted)

section Calls

variable {h : Heap} {s t : Use} {c : Call} {x : Int}

theorem ordered_iff : Ordered h ↔
    ∀ i, 0 < i → i < h.count → h.comp.holds (h.A i) (h.A ((i - 1) / 2)) = false := by
  constructor
  · exact fun hord i hpos hi => (not_holds_iff ..).mpr (hord _ i ⟨hpos, rfl, hi⟩)
  · rintro hord p c ⟨hpos, rfl, hc⟩
    exact (not_holds_iff ..).mp (hord c hpos hc)

theorem best_top (hord : Ordered h) (hcount : h.count ≠ 0) : Best h (top h) :=
  ⟨top_mem hcount, fun _ hy => (not_holds_iff ..).mpr (top_le hord hy)⟩

/-- Nothing moves: no child of the root comes before the last element. -/
theorem keeps_of_replaced (hord : Ordered (replaceTop h)) : Keeps h := by
  refine Or.inl fun c hlt hc => (not_holds_iff ..).mpr ?_
  have hle := hord 0 c hc
  rwa [replaceTop_zero, replaceTop_of_ne hc.1.ne' hlt] at hle

/-- The last element moves below the root. -/
theorem keeps_of_exch {p : Nat} (hp : parent (h.count - 1) = some p) (hroot : parent p = some 0)
    (hholds : h.comp.holds (h.A p) (h.A (h.count - 1)) = true) (hord : Ordered (exch (replaceTop h) p 0)) :
    Keeps h := by
  obtain ⟨hlast, hp⟩ := parent_eq_some.mp hp
  obtain ⟨hne, hzero⟩ := parent_eq_some.mp hroot
  have hlt : p < h.count - 1 := by omega
  refine Or.inr ⟨by omega, by rwa [hp], fun c hlt' hc => ?_, fun c hlt' hc => ?_⟩
  · rw [hp, not_holds_iff]
    by_cases hcp : c = p
    · rw [hcp]
    · have hle := hord 0 c hc
      rwa [exch_replaceTop_zero hne hlt, exch_replaceTop_of_ne hc.1.ne' hcp hlt'] at hle
  · rw [hp] at hc
    have hle := hord p c hc
    rw [exch_replaceTop_self hne, exch_replaceTop_of_ne hc.1.ne' (child_lt hc).ne' hlt'] at hle
    exact (not_holds_iff ..).mpr hle

theorem keeps_of_ordered (hcount : h.count ≠ 0) (hord : Ordered h) (hord' : Ordered (deleteTop h).2) :
    Keeps h := by
  rw [deleteTop_eq hcount] at hord'
  cases hp : parent (h.count - 1) with
  | none =>
    rw [hp] at hord'
    exact keeps_of_replaced hord'
  | some p =>
    rw [hp] at hord'
    obtain ⟨hlast, hp'⟩ := parent_eq_some.mp hp
    have hlt : p < h.count - 1 := by omega
    cases hq : parent p with
    | none =>
      have hzero : p = 0 := by
        by_contra hne
        simp [parent, hne] at hq
      subst hzero
      exact keeps_of_replaced hord'
    | some q =>
      obtain ⟨hne, hq'⟩ := parent_eq_some.mp hq
      by_cases hholds : h.comp.holds (h.A p) ((replaceTop h).A q) = true
      · have hzero : q = 0 := by
          by_contra hq0
          rw [replaceTop_of_ne hq0 (by omega), holds_iff] at hholds
          exact absurd (hord q p ⟨by omega, hq', by omega⟩) (not_le.mpr hholds)
        subst hzero
        have hholds' : (replaceTop h).comp.holds ((replaceTop h).A p) ((replaceTop h).A 0) = true := by
          rw [replaceTop_of_ne hne hlt]
          exact hholds
        rw [replaceTop_zero] at hholds
        rw [Option.elim, heapify_below_root hq hholds'] at hord'
        exact keeps_of_exch hp hq hholds hord'
      · have hnot : (replaceTop h).comp.holds ((replaceTop h).A p) ((replaceTop h).A q) = false := by
          rw [replaceTop_of_ne hne hlt]
          exact Bool.eq_false_iff.mpr hholds
        rw [Option.elim, heapify_of_not hq hnot] at hord'
        exact keeps_of_replaced hord'

theorem sound_iff_ordered (hs : Counted s) : Sound s ↔ Ordered s.heap := by
  constructor
  · exact fun h => ordered_iff.mpr h.ordered
  · refine fun hord => ⟨ordered_iff.mp hord, hs.elements, fun hcount => ?_⟩
    rw [deleteTop_eq hcount]
    exact best_top hord hcount

/-- On an empty heap `ExtractTop` does nothing. -/
theorem extractTop_empty (hcount : s.heap.count = 0) : call s .extractTop = some s := by
  simp [call, deleteTop, hcount]

theorem call_insert {e : Int} (hs : Counted s) (ht : call s (.insert e) = some t) :
    s.heap.count < MAX_HEAP_SIZE ∧
      ∃ h, Inserted e s.heap h ∧ t = { s with heap := h, inserted := e :: s.inserted } := by
  obtain ⟨h, hinsert, ht⟩ := Option.bind_eq_some_iff.mp ht
  have hroom : s.heap.count < MAX_HEAP_SIZE := by
    by_contra hfull
    rw [insertHelper, if_pos hs.room, if_neg hfull] at hinsert
    cases hinsert
  obtain ⟨h', hinsert', hspec⟩ := insertHelper_spec hroom e
  obtain rfl := Option.some.inj (hinsert.symm.trans hinsert')
  exact ⟨hroom, h, hspec, (Option.some.inj ht).symm⟩

theorem call_extractTop (hcount : s.heap.count ≠ 0) (ht : call s .extractTop = some t) :
    ∃ h, deleteTop s.heap = (top s.heap, h) ∧ Extracted (top s.heap) s.heap h ∧
      t = { s with heap := h, extracted := top s.heap :: s.extracted } := by
  obtain ⟨h, hdelete, hspec⟩ := deleteTop_spec hcount
  refine ⟨h, hdelete, hspec, ?_⟩
  simp only [call, hdelete, if_neg hcount] at ht
  exact (Option.some.inj ht).symm

theorem call_counted (hs : Counted s) (ht : call s c = some t) : Counted t := by
  cases c with
  | insert e =>
    obtain ⟨hroom, h, hspec, rfl⟩ := call_insert hs ht
    exact ⟨hspec.count.trans_le hroom, (hs.elements.cons e).trans (hspec.elements.symm.append_right _)⟩
  | extractTop =>
    by_cases hcount : s.heap.count = 0
    · obtain rfl := Option.some.inj ((extractTop_empty hcount).symm.trans ht)
      exact hs
    · obtain ⟨h, -, hspec, rfl⟩ := call_extractTop hcount ht
      have hless := hspec.count
      have hroom := hs.room
      refine ⟨by dsimp only; omega, hs.elements.trans ?_⟩
      exact (hspec.elements.append_right _).trans List.perm_middle.symm

theorem call_ordered (hs : Counted s) (hord : Ordered s.heap) (hkeeps : ExtractKeeps s c)
    (ht : call s c = some t) : Ordered t.heap := by
  cases c with
  | insert e =>
    obtain ⟨-, h, hspec, rfl⟩ := call_insert hs ht
    exact hspec.ordered hord
  | extractTop =>
    by_cases hcount : s.heap.count = 0
    · obtain rfl := Option.some.inj ((extractTop_empty hcount).symm.trans ht)
      exact hord
    · obtain ⟨h, -, hspec, rfl⟩ := call_extractTop hcount ht
      exact hspec.ordered hord hkeeps

theorem extractKeeps_of_ordered (hord : Ordered s.heap) (ht : call s c = some t) (hord' : Ordered t.heap) :
    ExtractKeeps s c := by
  cases c with
  | insert e => trivial
  | extractTop =>
    by_cases hcount : s.heap.count = 0
    · exact Or.inl fun c hc => absurd hc (by omega)
    · obtain ⟨h, hdelete, -, rfl⟩ := call_extractTop hcount ht
      refine keeps_of_ordered hcount hord ?_
      rw [hdelete]
      exact hord'

theorem fresh_counted (k : Comp) (A : Nat → Int) : Counted (fresh k A) :=
  ⟨Nat.zero_le _, by simp [fresh, Median.elements]⟩

theorem fresh_ordered (k : Comp) (A : Nat → Int) : Ordered (fresh k A).heap :=
  fun _ _ hpc => absurd hpc.2.2 (Nat.not_lt_zero _)

end Calls

/-- The heap is sound after every call exactly when it keeps its order at each extraction. -/
theorem heap_sound_iff (k : Comp) (A : Nat → Int) (cs : List Call) :
    Always call Sound (fresh k A) cs ↔ Each call ExtractKeeps (fresh k A) cs := by
  refine always_iff_each (fun s => Counted s ∧ Ordered s.heap) ?_ (fun s hs => (sound_iff_ordered hs.1).mpr hs.2) ?_
    ⟨fresh_counted k A, fresh_ordered k A⟩
  · intro s c t hs hkeeps ht
    exact ⟨call_counted hs.1 ht, call_ordered hs.1 hs.2 hkeeps ht⟩
  · intro s c t hs ht hsound
    exact extractKeeps_of_ordered hs.2 ht ((sound_iff_ordered (call_counted hs.1 ht)).mp hsound)

/-- The numbers 1, 2, 3 in increasing order: the first extraction leaves 3 above 2. -/
theorem heap_sound_wrong : ¬ Always call Sound (fresh .smaller fun _ => 0)
    [.insert 1, .insert 2, .insert 3, .extractTop] := by
  intro h
  have hord := (always_run h rfl).ordered 1 (by decide) (by decide)
  revert hord
  decide

end C11AndC.Median
