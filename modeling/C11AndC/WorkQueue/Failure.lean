import C11AndC.Library.Chain
import C11AndC.WorkQueue.Model

namespace C11AndC.WorkQueue

open C11AndC.Library

/-- What the calls that `workq_add` makes answer, if they are made. -/
structure Answers where
  malloc : Bool
  mutexLock : Int
  condSignal : Int
  create : Int

def einval : Int := 22

def enomem : Int := 12

/-- One whole call of `workq_add`; the answer is its status. -/
def workqAddCall (r : Answers) (element : Nat) : Section Int := do
  let wq ← getReg
  if wq.valid ≠ workqValid then
    return einval
  else if r.malloc = false then
    return enomem
  else
    let item ← new ⟨0, element⟩
    if r.mutexLock ≠ 0 then
      delete item
      return r.mutexLock
    else
      let status ← workqAdd r.condSignal r.create item
      return status.1

/-- The queue is as it was: its variables, the chain of its elements and what is in them. -/
structure SameQueue (s t : Store WorkqEle Workq) : Prop where
  reg : t.reg = s.reg
  chain : ∀ items, Chain s.mem WorkqEle.next s.reg.first items →
    Chain t.mem WorkqEle.next t.reg.first items
  elements : ∀ a v, s.mem.cell a = some v → t.mem.cell a = some v

/-- The call that `workq_add` makes with the element linked succeeds. -/
def CallSucceeds (r : Answers) (wq : Workq) : Prop :=
  if 0 < wq.idle then r.condSignal = 0 else wq.counter < wq.parallelism → r.create = 0

/-- The element behind which a new one is linked exists. -/
def Appendable (s : Store WorkqEle Workq) : Prop :=
  s.reg.first ≠ 0 → (s.mem.cell s.reg.last).isSome

variable {s t : Store WorkqEle Workq} {r : Answers} {element : Nat}

theorem sameQueue_of_elements (hr : t.reg = s.reg)
    (he : ∀ a v, s.mem.cell a = some v → t.mem.cell a = some v) : SameQueue s t := by
  refine ⟨hr, fun items hc => ?_, he⟩
  rw [hr]
  refine chain_congr (fun a ha => ?_) hc
  obtain ⟨v, hv⟩ := cell_of_mem_chain hc ha
  rw [he a v hv, hv]

theorem sameQueue_refl (s : Store WorkqEle Workq) : SameQueue s s :=
  sameQueue_of_elements rfl fun _ _ h => h

theorem sameQueue_alloc_free (v : WorkqEle) :
    SameQueue s ⟨(s.mem.alloc v).free s.mem.next, s.reg⟩ := by
  refine sameQueue_of_elements rfl fun a w hw => ?_
  have hne := Memory.ne_next_of_cell hw
  change ((s.mem.alloc v).free s.mem.next).cell a = some w
  rw [Memory.cell_free_ne _ hne, Memory.cell_alloc_ne _ hne, hw]

theorem wp_append {item : Nat} {Q : Unit → Store WorkqEle Workq → Prop} (ha : Appendable s)
    (h : ∀ m first, (s.reg.first = 0 → first = item) →
      Q () ⟨m, { s.reg with first := first, last := item }⟩) : wp (append item) Q s := by
  by_cases hf : s.reg.first = 0
  · simp only [append, wp_bind, wp_getReg, hf, ↓reduceIte, wp_setReg]
    exact h s.mem item fun _ => rfl
  · simp only [append, wp_bind, wp_getReg, hf, ↓reduceIte, wp_setReg, wp_store, ha hf, true_and]
    exact h _ s.reg.first fun h₀ => absurd h₀ hf

theorem append_faults {item : Nat} (hf : s.reg.first ≠ 0) (hl : s.mem.cell s.reg.last = none) :
    append item s = .error .fault := by
  simp [append, getReg, hf, store, hl, bind, StateT.bind, Except.bind]

theorem appendable_alloc (v : WorkqEle) (ha : Appendable s) :
    Appendable ⟨s.mem.alloc v, s.reg⟩ := by
  intro hf
  obtain ⟨w, hw⟩ := Option.isSome_iff_exists.mp (ha hf)
  exact Option.isSome_iff_exists.mpr ⟨w, by
    rw [Memory.cell_alloc_ne _ (Memory.ne_next_of_cell hw), hw]⟩

/-- If the call with the element linked fails, its status is that of the call. -/
theorem wp_workqAdd_fails {signalled created : Int} {item : Nat}
    {Q : Int × Notify → Store WorkqEle Workq → Prop} (ha : Appendable s)
    (hfail : if 0 < s.reg.idle then signalled ≠ 0 else
      s.reg.counter < s.reg.parallelism ∧ created ≠ 0)
    (h : ∀ m first, (s.reg.first = 0 → first = item) →
      Q (if 0 < s.reg.idle then signalled else created, .none)
        ⟨m, { s.reg with first := first, last := item }⟩) :
    wp (workqAdd signalled created item) Q s := by
  rw [workqAdd, wp_bind]
  refine wp_append ha fun m first hfirst => ?_
  have hq := h m first hfirst
  by_cases hi : 0 < s.reg.idle
  · simp only [hi, ↓reduceIte] at hfail hq
    simpa only [wp_bind, wp_getReg, hi, ↓reduceIte, hfail, ne_eq, not_false_eq_true, wp_pure]
      using hq
  · simp only [hi, ↓reduceIte] at hfail hq
    simpa only [wp_bind, wp_getReg, hi, ↓reduceIte, hfail.1, hfail.2, ne_eq, not_false_eq_true,
      wp_pure] using hq

theorem wp_workqAdd_succeeds {signalled created : Int} {item : Nat} (ha : Appendable s)
    (hok : if 0 < s.reg.idle then signalled = 0 else
      s.reg.counter < s.reg.parallelism → created = 0) :
    wp (workqAdd signalled created item) (fun status _ => status.1 = 0) s := by
  rw [workqAdd, wp_bind]
  refine wp_append ha fun m first _ => ?_
  by_cases hi : 0 < s.reg.idle
  · simp only [hi, ↓reduceIte] at hok
    simp only [wp_bind, wp_getReg, hi, ↓reduceIte, hok, ne_eq, not_true_eq_false, wp_pure]
  · simp only [hi, ↓reduceIte] at hok
    by_cases hc : s.reg.counter < s.reg.parallelism
    · simp only [wp_bind, wp_getReg, hi, hc, ↓reduceIte, hok hc, ne_eq, not_true_eq_false, wp_pure,
        wp_setReg]
    · simp only [wp_bind, wp_getReg, hi, hc, ↓reduceIte, wp_pure]

/-- The call up to the mutex, where everything has gone well so far. -/
theorem workqAddCall_locked {Q : Int → Store WorkqEle Workq → Prop}
    (hv : s.reg.valid = workqValid) (hm : r.malloc = true) (hl : r.mutexLock = 0) :
    wp (workqAddCall r element) Q s ↔
      wp (workqAdd r.condSignal r.create s.mem.next) (fun status t => Q status.1 t)
        ⟨s.mem.alloc ⟨0, element⟩, s.reg⟩ := by
  simp [workqAddCall, hv, hm, hl]

theorem workqAddCall_stopped (h : ¬ (s.reg.valid = workqValid ∧ r.malloc = true ∧ r.mutexLock = 0)) :
    wp (workqAddCall r element) (fun _ t => SameQueue s t) s := by
  by_cases hv : s.reg.valid = workqValid
  · cases hm : r.malloc with
    | false => simpa [workqAddCall, hv, hm] using sameQueue_refl s
    | true =>
      have hl : r.mutexLock ≠ 0 := fun hl => h ⟨hv, hm, hl⟩
      simpa [workqAddCall, hv, hm, hl] using sameQueue_alloc_free _
  · simpa [workqAddCall, hv] using sameQueue_refl s

theorem not_callSucceeds {wq : Workq} (h : ¬ CallSucceeds r wq) :
    if 0 < wq.idle then r.condSignal ≠ 0 else wq.counter < wq.parallelism ∧ r.create ≠ 0 := by
  by_cases hi : 0 < wq.idle
  · simpa [CallSucceeds, hi] using h
  · simpa [CallSucceeds, hi] using h

/-- A linked element shows in `first` or in `last`. -/
theorem linked_changes {m : Memory WorkqEle} {first : Nat} (ha : Appendable s)
    (hfirst : s.reg.first = 0 → first = s.mem.next) :
    ¬ SameQueue s ⟨m, { s.reg with first := first, last := s.mem.next }⟩ := by
  intro h
  have hf : first = s.reg.first := congrArg Workq.first h.reg
  have hl : s.mem.next = s.reg.last := congrArg Workq.last h.reg
  by_cases h₀ : s.reg.first = 0
  · have hpos := s.mem.next_pos
    rw [hf, h₀] at hfirst
    have := hfirst rfl
    omega
  · obtain ⟨v, hv⟩ := Option.isSome_iff_exists.mp (ha h₀)
    exact Memory.ne_next_of_cell hv hl.symm

/-- Without an element behind which to link, the call ends in a fault, or the dangling
`last` leads to the new element already. -/
theorem workqAddCall_unlinked {status : Int} (hv : s.reg.valid = workqValid)
    (hm : r.malloc = true) (hl : r.mutexLock = 0) (ha : ¬ Appendable s)
    (hok : workqAddCall r element s = .ok (status, t)) (hs : status ≠ 0) : SameQueue s t := by
  simp only [Appendable, not_forall, Option.not_isSome_iff_eq_none] at ha
  obtain ⟨hf, hcell⟩ := ha
  have hcall : wp (workqAddCall r element) (fun st u => st = status ∧ u = t) s :=
    (wp_of_ok hok).mpr ⟨rfl, rfl⟩
  have hrun := (workqAddCall_locked hv hm hl).mp hcall
  rw [workqAdd, wp_bind] at hrun
  by_cases hn : s.reg.last = s.mem.next
  · have happ : wp (append s.mem.next) (fun _ u => u.reg = s.reg ∧
        ∀ a w, s.mem.cell a = some w → u.mem.cell a = some w)
        ⟨s.mem.alloc ⟨0, element⟩, s.reg⟩ := by
      simp only [append, wp_bind, wp_getReg, hf, ↓reduceIte, wp_store, hn, Memory.cell_alloc_self,
        Option.isSome_some, true_and, wp_setReg]
      refine ⟨by rw [← hn], fun a w hw => ?_⟩
      have hne := Memory.ne_next_of_cell hw
      rw [Memory.cell_modify_ne _ hne, Memory.cell_alloc_ne _ hne, hw]
    obtain ⟨-, u, hrest, hreg, hel⟩ := wp_and hrun happ
    have hu : u = t := by
      simp only [wp_bind, wp_getReg, wp_ite, wp_pure, wp_setReg] at hrest
      obtain ⟨hidle, hbusy⟩ := hrest
      by_cases hi : 0 < u.reg.idle
      · obtain ⟨hfail, hdone⟩ := hidle hi
        by_cases hsig : r.condSignal = 0
        · exact absurd (hdone (not_not.mpr hsig)).1.symm hs
        · exact (hfail hsig).2
      · obtain ⟨hstart, hfull⟩ := hbusy hi
        by_cases hc : u.reg.counter < u.reg.parallelism
        · by_cases hcr : r.create = 0
          · exact absurd ((hstart hc).2 (not_not.mpr hcr)).1.symm hs
          · exact ((hstart hc).1 hcr).2
        · exact absurd (hfull hc).1.symm hs
    obtain rfl := hu
    exact sameQueue_of_elements hreg hel
  · have hcell' : (s.mem.alloc ⟨0, element⟩).cell s.reg.last = none := by
      rw [Memory.cell_alloc_ne _ hn, hcell]
    exact absurd hrun (wp_of_error (append_faults hf hcell'))

/-- A call whose status is not 0 leaves the queue as it was exactly when it fails before
the element is linked. -/
theorem workqAddCall_failed_iff (s : Store WorkqEle Workq) (r : Answers) (element : Nat) :
    (∀ status t, workqAddCall r element s = .ok (status, t) → status ≠ 0 → SameQueue s t) ↔
      (s.reg.valid = workqValid → r.malloc = true → r.mutexLock = 0 → Appendable s →
        CallSucceeds r s.reg) := by
  constructor
  · intro h hv hm hl ha
    by_contra hfail
    have hrun : wp (workqAddCall r element) (fun status t => status ≠ 0 ∧ ¬ SameQueue s t) s := by
      rw [workqAddCall_locked hv hm hl]
      have hcall := not_callSucceeds hfail
      refine wp_workqAdd_fails (appendable_alloc _ ha) hcall fun m first hfirst =>
        ⟨?_, linked_changes ha hfirst⟩
      by_cases hi : 0 < s.reg.idle
      · simpa [hi] using hcall
      · simp only [hi, ↓reduceIte] at hcall ⊢
        exact hcall.2
    obtain ⟨status, t, hok, hs, ht⟩ := hrun
    exact ht (h status t hok hs)
  · intro h status t hok hs
    by_cases hstop : s.reg.valid = workqValid ∧ r.malloc = true ∧ r.mutexLock = 0
    · obtain ⟨hv, hm, hl⟩ := hstop
      by_cases ha : Appendable s
      · have hrun : wp (workqAddCall r element) (fun status _ => status = 0) s :=
          (workqAddCall_locked hv hm hl).mpr
            (wp_workqAdd_succeeds (appendable_alloc _ ha) (h hv hm hl ha))
        exact absurd ((wp_of_ok hok).mp hrun) hs
      · exact workqAddCall_unlinked hv hm hl ha hok hs
    · exact (wp_of_ok hok).mp (workqAddCall_stopped hstop)

/-- A worker cannot be created for the first element of a new queue, and the next one that is
created hands the element to the engine all the same. -/
theorem workqAddCall_create_fails : ∃ t,
    workqAddCall ⟨true, 0, 0, 11⟩ 7 (workqInit 1) = .ok (11, t) ∧ ¬ SameQueue (workqInit 1) t ∧
    ∃ u, waitForWork t = .ok ((.calling 1 false, false), u) ∧ u.mem.cell 1 = some ⟨0, 7⟩ := by
  refine ⟨_, rfl, fun h => ?_, _, rfl, rfl⟩
  exact absurd (show 1 = 0 from congrArg Workq.first h.reg) (by decide)

end C11AndC.WorkQueue
