import C11AndC.Median.Calls

namespace C11AndC.Median.Bounds

open C11AndC.Library

/-- A heap with the fields of the source. -/
structure Heap where
  A : Nat → Int
  comp : Comp
  heapSize : Int

/-- `A[i]`, for the places of the allocation. -/
def read (h : Heap) (i : Int) : Option Int :=
  if 0 ≤ i ∧ i < MAX_HEAP_SIZE then some (h.A i.toNat) else none

/-- `A[i] = x`, for the places of the allocation. -/
def write (h : Heap) (i x : Int) : Option Heap :=
  if 0 ≤ i ∧ i < MAX_HEAP_SIZE then some { h with A := Function.update h.A i.toNat x } else none

def exch (h : Heap) (i j : Int) : Option Heap := do
  let a ← read h i
  let b ← read h j
  let h ← write h i b
  write h j a

def parent (i : Int) : Int := if i ≤ 0 then -1 else (i - 1).tdiv 2

def count (h : Heap) : Int := h.heapSize + 1

theorem parent_lt {i : Int} (h : 0 ≤ parent i) : parent i < i ∧ 0 < i := by
  unfold parent at h ⊢
  split at h
  case isTrue hi => omega
  case isFalse hi =>
    rw [if_neg hi]
    rw [Int.tdiv_eq_ediv_of_nonneg (by omega)] at h ⊢
    omega

def heapify (i : Int) (h : Heap) : Option Heap :=
  if 0 ≤ parent i then do
    let x ← read h i
    let y ← read h (parent i)
    if h.comp.holds x y then
      heapify (parent i) (← exch h i (parent i))
    else
      return h
  else some h
  termination_by i.toNat
  decreasing_by
    have := parent_lt ‹0 ≤ parent i›
    omega

def deleteTop (h : Heap) : Option (Int × Heap) :=
  if h.heapSize > -1 then do
    let del ← read h 0
    let h ← exch h 0 h.heapSize
    let h := { h with heapSize := h.heapSize - 1 }
    let h ← heapify (parent (h.heapSize + 1)) h
    return (del, h)
  else some (-1, h)

def insertHelper (h : Heap) (key : Int) : Option (Bool × Heap) :=
  if h.heapSize < MAX_HEAP_SIZE then do
    let h := { h with heapSize := h.heapSize + 1 }
    let h ← write h h.heapSize key
    let h ← heapify h.heapSize h
    return (true, h)
  else some (false, h)

/-- A heap in use, until an access leaves the allocation. -/
structure State where
  heap : Heap
  outside : Bool

def settle (s : State) : Option Heap → State
  | some h => { s with heap := h }
  | none => { s with outside := true }

def step (s : State) (c : Call) : Option State :=
  if s.outside then none
  else match c with
    | .insert e => some (settle s ((insertHelper s.heap e).map Prod.snd))
    | .extractTop => some (settle s ((deleteTop s.heap).map Prod.snd))

/-- A new heap; its array is not initialised. -/
def start (k : Comp) (A : Nat → Int) : State := ⟨⟨A, k, -1⟩, false⟩

structure Safe (s : State) : Prop where
  inside : s.outside = false
  count : 0 ≤ count s.heap ∧ count s.heap ≤ MAX_HEAP_SIZE
  refused : ∀ e h, insertHelper s.heap e = some (false, h) → h = s.heap

/-- No element is inserted into a full heap. -/
def NotFull (s : State) : Call → Prop
  | .insert _ => count s.heap ≠ MAX_HEAP_SIZE
  | .extractTop => True

/-- The heap of the model with `count` elements. -/
def ofHeap (h : Median.Heap) : Heap := ⟨h.A, h.comp, h.count - 1⟩

section Access

variable {h : Heap} {i j : Nat} {x : Int}

theorem read_nat (h : Heap) (hi : i < MAX_HEAP_SIZE) : read h i = some (h.A i) :=
  if_pos ⟨Int.natCast_nonneg i, Int.ofNat_lt.mpr hi⟩

theorem write_nat (h : Heap) (hi : i < MAX_HEAP_SIZE) (x : Int) :
    write h i x = some { h with A := Function.update h.A i x } :=
  if_pos ⟨Int.natCast_nonneg i, Int.ofNat_lt.mpr hi⟩

theorem write_full (h : Heap) (x : Int) : write h MAX_HEAP_SIZE x = none :=
  if_neg fun hi => Int.lt_irrefl _ hi.2

theorem exch_nat (h : Heap) (hi : i < MAX_HEAP_SIZE) (hj : j < MAX_HEAP_SIZE) : exch h i j =
    some { h with A := Function.update (Function.update h.A i (h.A j)) j (h.A i) } := by
  simp only [exch, read_nat h hi, read_nat h hj, write_nat h hi, write_nat _ hj, Option.bind_eq_bind,
    Option.bind_some]

theorem parent_nat (i : Nat) : parent i = (Median.parent i).elim (-1) fun p => (p : Int) := by
  unfold parent Median.parent
  by_cases hi : i = 0
  · rw [if_pos (by omega), if_pos hi]
    rfl
  · rw [if_neg (by omega), if_neg hi, Int.tdiv_eq_ediv_of_nonneg (by omega)]
    change _ = (((i - 1) / 2 : Nat) : Int)
    omega

/-- Below the root nothing is exchanged. -/
theorem heapify_neg {i : Int} (hi : ¬ 0 ≤ parent i) (h : Heap) : heapify i h = some h := by
  rw [heapify, if_neg hi]

theorem heapify_step {p : Nat} (hi : i < MAX_HEAP_SIZE) (hp : Median.parent i = some p) (h : Heap) :
    heapify i h = if h.comp.holds (h.A i) (h.A p) then
        heapify p { h with A := Function.update (Function.update h.A i (h.A p)) p (h.A i) } else some h := by
  have hparent := parent_nat i
  rw [hp, Option.elim_some] at hparent
  obtain ⟨hne, hpi⟩ := parent_eq_some.mp hp
  have hlt : p < MAX_HEAP_SIZE := by omega
  rw [heapify, hparent, if_pos (Int.natCast_nonneg p)]
  simp only [read_nat _ hi, read_nat _ hlt, exch_nat _ hi hlt, Option.bind_eq_bind, Option.bind_some]
  rfl

/-- From a place inside the allocation on `heapify` stays inside of it. -/
theorem heapify_nat {n : Nat} (hin : i ≤ n) (hi : i < MAX_HEAP_SIZE) (h : Median.Heap) :
    heapify i (ofHeap h) = some (ofHeap (heapifyRounds n i h)) := by
  induction n generalizing i h with
  | zero =>
    obtain rfl := Nat.le_zero.mp hin
    rw [heapify_neg (by decide)]
    rfl
  | succ n ih =>
    rw [heapifyRounds]
    cases hp : Median.parent i with
    | none =>
      refine heapify_neg ?_ _
      rw [parent_nat, hp]
      decide
    | some p =>
      obtain ⟨hne, hpi⟩ := parent_eq_some.mp hp
      rw [heapify_step hi hp]
      dsimp only
      by_cases hholds : h.comp.holds (h.A i) (h.A p) = true
      · have hholds' : (ofHeap h).comp.holds ((ofHeap h).A i) ((ofHeap h).A p) = true := hholds
        rw [if_pos hholds, if_pos hholds']
        exact ih (by omega) (by omega) (Median.exch h i p)
      · have hholds' : ¬ (ofHeap h).comp.holds ((ofHeap h).A i) ((ofHeap h).A p) = true := hholds
        rw [if_neg hholds, if_neg hholds']

end Access

section Operations

variable {h : Median.Heap}

theorem insertHelper_ofHeap (hcount : h.count < MAX_HEAP_SIZE) (key : Int) :
    ∃ h', Median.insertHelper h key = some h' ∧ insertHelper (ofHeap h) key = some (true, ofHeap h') ∧
      h'.count = h.count + 1 := by
  obtain ⟨h', hinsert, hspec⟩ := insertHelper_spec hcount key
  refine ⟨h', hinsert, ?_, hspec.count⟩
  have hsize : (ofHeap h).heapSize + 1 = (h.count : Nat) := by simp [ofHeap]
  have hlt : (ofHeap h).heapSize < MAX_HEAP_SIZE := by
    simp only [ofHeap]
    omega
  rw [Median.insertHelper, if_pos hcount.le, if_pos hcount] at hinsert
  obtain rfl := Option.some.inj hinsert
  rw [insertHelper, if_pos hlt]
  simp only [hsize, write_nat _ hcount, Option.bind_eq_bind, Option.bind_some]
  have hrest := heapify_nat (Nat.le_refl _) hcount
    { h with A := Function.update h.A h.count key, count := h.count + 1 }
  have hfields : ofHeap { h with A := Function.update h.A h.count key, count := h.count + 1 } =
      { ofHeap h with A := Function.update (ofHeap h).A h.count key, heapSize := h.count } := by
    simp [ofHeap]
  rw [hfields] at hrest
  rw [hrest]
  rfl

theorem insertHelper_full (hcount : h.count = MAX_HEAP_SIZE) (key : Int) : insertHelper (ofHeap h) key = none := by
  have hsize : (ofHeap h).heapSize + 1 = MAX_HEAP_SIZE := by
    simp only [ofHeap]
    omega
  rw [insertHelper, if_pos (by omega)]
  simp only [hsize, write_full, Option.bind_eq_bind, Option.bind_none]

theorem deleteTop_ofHeap (hcount : h.count ≤ MAX_HEAP_SIZE) :
    deleteTop (ofHeap h) = some ((Median.deleteTop h).1, ofHeap (Median.deleteTop h).2) := by
  rw [deleteTop, Median.deleteTop]
  by_cases hzero : h.count = 0
  · rw [if_pos hzero, if_neg]
    simp [ofHeap, hzero]
  · have hsize : (ofHeap h).heapSize = ((h.count - 1 : Nat) : Int) := by
      simp only [ofHeap]
      omega
    have hlast : h.count - 1 < MAX_HEAP_SIZE := by omega
    have hfirst : 0 < MAX_HEAP_SIZE := by decide
    rw [if_neg hzero, if_pos (by omega)]
    have hread := read_nat (ofHeap h) hfirst
    have hexch := exch_nat (ofHeap h) hfirst hlast
    rw [Int.natCast_zero] at hread hexch
    simp only [hsize, hread, hexch, Option.bind_eq_bind, Option.bind_some, Int.sub_add_cancel]
    have hfields : ofHeap { Median.exch h 0 (h.count - 1) with count := h.count - 1 } =
        ⟨(Median.exch h 0 (h.count - 1)).A, h.comp, ((h.count - 1 : Nat) : Int) - 1⟩ := rfl
    cases hp : Median.parent (h.count - 1) with
    | none =>
      rw [parent_nat, hp, Option.elim_none, heapify_neg (by decide)]
      rfl
    | some p =>
      obtain ⟨hne, hpi⟩ := parent_eq_some.mp hp
      have hrest := heapify_nat (Nat.le_refl p) (by omega) { Median.exch h 0 (h.count - 1) with count := h.count - 1 }
      rw [parent_nat, hp, Option.elim_some]
      rw [hfields] at hrest
      exact congrArg (Option.bind · _) hrest

end Operations

/-- The heap of the model has at most as many elements as the allocation has places. -/
def InRange (s : State) : Prop := ∃ h : Median.Heap, s.heap = ofHeap h ∧ h.count ≤ MAX_HEAP_SIZE

section Runs

variable {s t : State} {c : Call} {h : Median.Heap}

theorem count_ofHeap (h : Median.Heap) : count (ofHeap h) = h.count := by simp [count, ofHeap]

/-- An insertion is refused only where it leaves the heap as it is. -/
theorem refused_eq {g g' : Heap} {key : Int} (hr : insertHelper g key = some (false, g')) : g' = g := by
  unfold insertHelper at hr
  split at hr
  case isTrue =>
    obtain ⟨_, -, hr⟩ := Option.bind_eq_some_iff.mp hr
    obtain ⟨_, -, hr⟩ := Option.bind_eq_some_iff.mp hr
    cases hr
  case isFalse =>
    cases hr
    rfl

theorem safe_of_inRange (hi : InRange s) (ho : s.outside = false) : Safe s := by
  obtain ⟨h, hh, hcount⟩ := hi
  refine ⟨ho, ?_, fun e g hr => refused_eq hr⟩
  rw [hh, count_ofHeap]
  omega

theorem count_deleteTop (h : Median.Heap) : (Median.deleteTop h).2.count ≤ h.count := by
  by_cases hzero : h.count = 0
  · rw [Median.deleteTop, if_pos hzero]
  · obtain ⟨h', hdelete, hspec⟩ := deleteTop_spec hzero
    rw [hdelete]
    have := hspec.count
    dsimp only
    omega

/-- A call leaves the allocation exactly if it inserts into a full heap. -/
theorem step_inRange (hi : InRange s) (hs : step s c = some t) :
    (NotFull s c → t.outside = false ∧ InRange t) ∧ (¬ NotFull s c → t.outside = true) := by
  obtain ⟨g, outside⟩ := s
  obtain ⟨h, rfl, hcount⟩ := hi
  cases outside with
  | true => cases hs
  | false =>
    cases c with
    | insert e =>
      rcases Nat.lt_or_eq_of_le hcount with hlt | hfull
      · obtain ⟨h', -, hinsert, hcount'⟩ := insertHelper_ofHeap hlt e
        simp only [step, hinsert] at hs
        cases hs
        refine ⟨fun _ => ⟨rfl, h', rfl, by omega⟩, fun hno => absurd ?_ hno⟩
        change count (ofHeap h) ≠ MAX_HEAP_SIZE
        rw [count_ofHeap]
        omega
      · have hinsert := insertHelper_full hfull e
        simp only [step, hinsert] at hs
        cases hs
        refine ⟨fun hno => absurd ?_ hno, fun _ => rfl⟩
        rw [count_ofHeap, hfull]
    | extractTop =>
      have hdelete := deleteTop_ofHeap hcount
      simp only [step, hdelete] at hs
      cases hs
      exact ⟨fun _ => ⟨rfl, _, rfl, (count_deleteTop h).trans hcount⟩, fun hno => absurd trivial hno⟩

/-- Up to the size of the allocation every insertion finds a place. -/
theorem run_inserts (k : Comp) (A : Nat → Int) (e : Int) {n : Nat} (hn : n ≤ MAX_HEAP_SIZE) :
    ∃ h : Median.Heap, h.count = n ∧
      run step (start k A) (List.replicate n (.insert e)) = some ⟨ofHeap h, false⟩ := by
  induction n with
  | zero => exact ⟨⟨A, k, 0⟩, rfl, rfl⟩
  | succ n ih =>
    obtain ⟨h, hcount, hrun⟩ := ih (by omega)
    obtain ⟨h', -, hinsert, hcount'⟩ := insertHelper_ofHeap (h := h) (by omega) e
    refine ⟨h', by omega, ?_⟩
    rw [List.replicate_succ', run_append]
    refine ⟨_, hrun, ?_⟩
    simp only [run, step, hinsert]
    rfl

theorem inRange_start (k : Comp) (A : Nat → Int) : InRange (start k A) := ⟨⟨A, k, 0⟩, rfl, Nat.zero_le _⟩

end Runs

/-- The calls of a run stay inside the allocation exactly if none of them inserts into a full heap. -/
theorem heap_safe_iff (k : Comp) (A : Nat → Int) (cs : List Call) :
    Always step Safe (start k A) cs ↔ Each step NotFull (start k A) cs := by
  refine always_iff_each (fun s => InRange s ∧ s.outside = false) ?_ (fun s hi => safe_of_inRange hi.1 hi.2) ?_
    ⟨inRange_start k A, rfl⟩
  · intro s c t hi hc hs
    exact ((step_inRange hi.1 hs).1 hc).symm
  · intro s c t hi hs ht
    by_contra hfull
    exact Bool.noConfusion (ht.inside.symm.trans ((step_inRange hi.1 hs).2 hfull))

/-- The insertion after `MAX_HEAP_SIZE` others writes behind the allocation. -/
theorem heap_safe_full : ¬ Always step Safe (start .greater fun _ => 0) (List.replicate 129 (.insert 0)) := by
  intro h
  obtain ⟨g, hcount, hrun⟩ := run_inserts .greater (fun _ => 0) 0 (Nat.le_refl MAX_HEAP_SIZE)
  have hlast : run step (start .greater fun _ => 0) (List.replicate 129 (.insert 0)) = some ⟨ofHeap g, true⟩ := by
    rw [show (129 : Nat) = MAX_HEAP_SIZE + 1 from rfl, List.replicate_succ', run_append]
    refine ⟨_, hrun, ?_⟩
    simp only [run, step, insertHelper_full hcount]
    rfl
  exact Bool.noConfusion (always_run h hlast).inside

end C11AndC.Median.Bounds
