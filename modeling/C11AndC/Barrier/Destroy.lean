import C11AndC.Barrier.Model
import C11AndC.Library.Lists

namespace C11AndC.Barrier.Destroy

open C11AndC.Library

def einval : Int := 22

def ebusy : Int := 16

inductive Mutex where
  | free
  | held (thread : Nat)
  | heldByDestroyer
  | destroyed
  deriving DecidableEq

/-- Where a thread is in `barrier_wait`: outside, with what its last call has returned, before it
has the mutex, in front of the decrement, in its wait, out of it without the mutex, in front of
the test of its loop, or in front of the unlock. A call that waits records if the last thread of
its cycle has come. -/
inductive Place where
  | outside (status : Option Int)
  | entering
  | locked
  | asleep (cycle : BitVec 32) (released : Bool)
  | woken (cycle : BitVec 32) (released : Bool)
  | relocked (cycle : BitVec 32) (released : Bool)
  | leaving (status : Int)
  deriving DecidableEq

/-- Where a thread is in `barrier_destroy`: behind `passed` it has passed the busy check. -/
inductive Destroyer where
  | outside (status : Option Int)
  | entering
  | locked
  | passed
  | destroying
  deriving DecidableEq

structure State where
  barrier : BarrierT
  mutex : Mutex
  threads : List Place
  destroyer : Destroyer
  deriving DecidableEq

def init (count : Int) (threads : Nat) : State :=
  ⟨barrierInt count, .free, List.replicate threads (.outside none), .outside none⟩

/-- What a broadcast does to a call. -/
def Place.awaken : Place → Place
  | .asleep cycle _ => .woken cycle true
  | .woken cycle _ => .woken cycle true
  | place => place

/-- The test of the loop, with the mutex. -/
def waitOrLeave (s : State) (i : Nat) (cycle : BitVec 32) (released : Bool) : State :=
  if sameCycle cycle s.barrier then
    { s with threads := s.threads.set i (.asleep cycle released), mutex := .free }
  else
    { s with threads := s.threads.set i (.leaving 0) }

/-- What a thread does with the mutex up to its wait or to the unlock. -/
def arrive (s : State) (i : Nat) : State :=
  let cycle := s.barrier.cycle.truncate 32
  let counter := s.barrier.counter - 1
  if counter = 0 then
    { s with
      barrier := { s.barrier with cycle := s.barrier.cycle + 1, counter := s.barrier.threshold }
      threads := (s.threads.map Place.awaken).set i (.leaving (-1)) }
  else
    waitOrLeave { s with barrier := { s.barrier with counter := counter } } i cycle false

/-- The next part of `barrier_wait`. -/
def barrierWait (s : State) (i : Nat) : Option State :=
  match s.threads[i]? with
  | none => none
  | some (.outside _) =>
      if s.barrier.valid ≠ barrierValid then
        some { s with threads := s.threads.set i (.outside (some einval)) }
      else
        some { s with threads := s.threads.set i .entering }
  | some .entering =>
      if s.mutex = .free then
        some { s with threads := s.threads.set i .locked, mutex := .held i }
      else none
  | some .locked => some (arrive s i)
  | some (.asleep ..) => none
  | some (.woken cycle released) =>
      if s.mutex = .free then
        some { s with threads := s.threads.set i (.relocked cycle released), mutex := .held i }
      else none
  | some (.relocked cycle released) => some (waitOrLeave s i cycle released)
  | some (.leaving status) =>
      some { s with threads := s.threads.set i (.outside (some status)), mutex := .free }

/-- The next part of `barrier_destroy`. What destroying a mutex does that is held is not defined. -/
def barrierDestroy (s : State) : Option State :=
  match s.destroyer with
  | .outside _ =>
      if s.barrier.valid ≠ barrierValid then some { s with destroyer := .outside (some einval) }
      else some { s with destroyer := .entering }
  | .entering =>
      if s.mutex = .free then some { s with destroyer := .locked, mutex := .heldByDestroyer }
      else none
  | .locked =>
      if s.barrier.counter ≠ s.barrier.threshold then
        some { s with destroyer := .outside (some ebusy), mutex := .free }
      else
        some { s with barrier := { s.barrier with valid := 0 }, destroyer := .passed }
  | .passed => some { s with destroyer := .destroying, mutex := .free }
  | .destroying =>
      if s.mutex = .free then some { s with destroyer := .outside (some 0), mutex := .destroyed }
      else none

/-- What can happen next; a wait may end without a signal. -/
inductive Action where
  | wait (i : Nat)
  | wake (i : Nat)
  | destroy
  deriving DecidableEq

def step (s : State) : Action → Option State
  | .wait i => barrierWait s i
  | .wake i =>
      match s.threads[i]? with
      | some (.asleep cycle released) =>
          some { s with threads := s.threads.set i (.woken cycle released) }
      | _ => none
  | .destroy => barrierDestroy s

/-- The thread is between its lock of the mutex and its last unlock. -/
def Place.inside : Place → Bool
  | .outside _ | .entering => false
  | _ => true

/-- The thread has been broadcast, and is still inside. -/
def Place.released : Place → Bool
  | .asleep _ released | .woken _ released | .relocked _ released => released
  | _ => false

def Destroyer.pastCheck : Destroyer → Bool
  | .passed | .destroying => true
  | _ => false

/-- The barrier is only destroyed when it is not in use. -/
def DestroyedIdle (s : State) : Prop :=
  s.destroyer.pastCheck = true → ∀ p ∈ s.threads, p.inside = false

/-- The busy check succeeds only when all threads that were broadcast have left, and no thread
that has found the barrier valid takes the mutex afterwards. -/
def LeftInTime (s : State) : Action → Prop
  | .destroy => s.destroyer = .locked → s.barrier.counter = s.barrier.threshold →
      ∀ p ∈ s.threads, p.released = false
  | .wait i => s.threads[i]? = some .entering → s.destroyer.pastCheck = false
  | .wake _ => True

/-- The call waits for the last thread of its cycle. -/
def Place.waits : Place → Bool
  | .asleep _ released | .woken _ released | .relocked _ released => !released
  | _ => false

def Place.holds : Place → Bool
  | .locked | .relocked .. | .leaving _ => true
  | _ => false

def Destroyer.holds : Destroyer → Bool
  | .locked | .passed => true
  | _ => false

/-- The counter has gone down by at least the number of calls that wait for the end of their
cycle, and whoever is in a section of the mutex holds it. -/
structure Inv (s : State) : Prop where
  waiting : (s.threads.countP Place.waits : Int) ≤ s.barrier.threshold - s.barrier.counter
  holder : ∀ i p, s.threads[i]? = some p → p.holds = true → s.mutex = .held i
  destroyer : s.destroyer.holds = true → s.mutex = .heldByDestroyer

variable {s t : State} {i : Nat} {p place : Place} {a : Action}

/-- A thread goes on that has the mutex, takes it or does without it. -/
theorem inv_goto {barrier : BarrierT} {mutex : Mutex} (h : Inv s) (hp : s.threads[i]? = some p)
    (hthreshold : barrier.threshold = s.barrier.threshold)
    (hwaits : barrier.counter + (if place.waits then 1 else 0) ≤
      s.barrier.counter + (if p.waits then 1 else 0))
    (hholds : place.holds = true → mutex = .held i)
    (hmutex : mutex = s.mutex ∨ s.mutex = .free ∨ s.mutex = .held i) :
    Inv { s with barrier := barrier, threads := s.threads.set i place, mutex := mutex } := by
  refine ⟨?_, ?_, ?_⟩
  · have hcount := countP_set Place.waits hp place
    have hle := h.waiting
    change ((s.threads.set i place).countP Place.waits : Int) ≤ barrier.threshold - barrier.counter
    omega
  · intro j q hq hqh
    by_cases hij : i = j
    · subst hij
      rw [List.getElem?_set_self (List.getElem?_eq_some_iff.mp hp).1] at hq
      cases hq
      exact hholds hqh
    · rw [List.getElem?_set_ne hij] at hq
      have hj := h.holder j q hq hqh
      obtain hm | hm | hm := hmutex
      · exact hm.trans hj
      · rw [hm] at hj
        cases hj
      · rw [hm] at hj
        cases hj
        exact absurd rfl hij
  · intro hd
    have hj := h.destroyer hd
    obtain hm | hm | hm := hmutex
    · exact hm.trans hj
    · rw [hm] at hj
      cases hj
    · rw [hm] at hj
      cases hj

theorem inv_waitOrLeave {barrier : BarrierT} {cycle : BitVec 32} {released : Bool} (h : Inv s)
    (hp : s.threads[i]? = some p) (hm : s.mutex = .held i)
    (hthreshold : barrier.threshold = s.barrier.threshold)
    (hwaits : barrier.counter + (if released then 0 else 1) ≤
      s.barrier.counter + (if p.waits then 1 else 0)) :
    Inv (waitOrLeave { s with barrier := barrier } i cycle released) := by
  rw [waitOrLeave]
  split_ifs
  · refine inv_goto (s := s) h hp hthreshold ?_ (fun hh => nomatch hh) (.inr (.inr hm))
    cases released <;> exact hwaits
  · refine inv_goto (s := s) h hp hthreshold ?_ (fun _ => hm) (.inl rfl)
    change barrier.counter + 0 ≤ s.barrier.counter + _
    split_ifs at hwaits ⊢ <;> omega

theorem holds_awaken (p : Place) : p.awaken.holds = p.holds := by
  cases p <;> rfl

/-- Nobody waits any more once the last thread has broadcast. -/
theorem waits_awaken (h : p.holds = false) : p.awaken.waits = false := by
  cases p with
  | relocked cycle released => cases h
  | outside | entering | locked | asleep | woken | leaving => rfl

theorem inv_broadcast {barrier : BarrierT} (h : Inv s) (hp : s.threads[i]? = some .locked)
    (hcounter : barrier.counter = barrier.threshold) :
    Inv { s with barrier := barrier, threads := (s.threads.map Place.awaken).set i (.leaving (-1)) } := by
  have hm := h.holder i _ hp rfl
  have hlt : i < (s.threads.map Place.awaken).length := by
    rw [List.length_map]
    exact (List.getElem?_eq_some_iff.mp hp).1
  have hother : ∀ j q, s.threads[j]? = some q → q.holds = true → i = j := by
    intro j q hq hh
    have hj := h.holder j q hq hh
    rw [hm] at hj
    cases hj
    rfl
  have hget : ∀ j q, ((s.threads.map Place.awaken).set i (.leaving (-1)))[j]? = some q →
      i = j ∧ q = .leaving (-1) ∨ i ≠ j ∧ ∃ r, s.threads[j]? = some r ∧ q = r.awaken := by
    intro j q hq
    by_cases hij : i = j
    · subst hij
      rw [List.getElem?_set_self hlt] at hq
      exact .inl ⟨rfl, (Option.some.inj hq).symm⟩
    · rw [List.getElem?_set_ne hij, List.getElem?_map] at hq
      obtain ⟨r, hr, rfl⟩ := Option.map_eq_some_iff.mp hq
      exact .inr ⟨hij, r, hr, rfl⟩
  refine ⟨?_, ?_, h.destroyer⟩
  · have hzero : ((s.threads.map Place.awaken).set i (.leaving (-1))).countP Place.waits = 0 := by
      rw [List.countP_eq_zero]
      intro q hq
      obtain ⟨j, hj⟩ := List.getElem?_of_mem hq
      obtain ⟨-, rfl⟩ | ⟨hij, r, hr, rfl⟩ := hget j q hj
      · exact Bool.false_ne_true
      · rw [waits_awaken]
        · exact Bool.false_ne_true
        · by_contra hh
          exact hij (hother j r hr (by simpa using hh))
    change (((s.threads.map Place.awaken).set i (.leaving (-1))).countP Place.waits : Int) ≤
      barrier.threshold - barrier.counter
    omega
  · intro j q hq hh
    obtain ⟨rfl, -⟩ | ⟨-, r, hr, rfl⟩ := hget j q hq
    · exact hm
    · rw [holds_awaken] at hh
      exact h.holder j r hr hh

theorem inv_arrive (h : Inv s) (hp : s.threads[i]? = some .locked) : Inv (arrive s i) := by
  simp only [arrive]
  split_ifs
  · exact inv_broadcast h hp rfl
  · refine inv_waitOrLeave h hp (h.holder i _ hp rfl) rfl ?_
    change s.barrier.counter - 1 + 1 ≤ s.barrier.counter + 0
    omega

theorem inv_barrierWait (h : Inv s) (hs : barrierWait s i = some t) : Inv t := by
  cases hp : s.threads[i]? with
  | none =>
    simp only [barrierWait, hp] at hs
    cases hs
  | some p =>
    cases p with
    | outside status =>
      simp only [barrierWait, hp] at hs
      split_ifs at hs <;> cases hs
      · exact inv_goto h hp rfl (Int.le_refl _) (fun hh => nomatch hh) (.inl rfl)
      · exact inv_goto h hp rfl (Int.le_refl _) (fun hh => nomatch hh) (.inl rfl)
    | entering =>
      simp only [barrierWait, hp] at hs
      obtain ⟨hm, hs⟩ := Option.ite_none_right_eq_some.mp hs
      cases hs
      exact inv_goto h hp rfl (Int.le_refl _) (fun _ => rfl) (.inr (.inl hm))
    | locked =>
      simp only [barrierWait, hp] at hs
      cases hs
      exact inv_arrive h hp
    | asleep =>
      simp only [barrierWait, hp] at hs
      cases hs
    | woken cycle released =>
      simp only [barrierWait, hp] at hs
      obtain ⟨hm, hs⟩ := Option.ite_none_right_eq_some.mp hs
      cases hs
      exact inv_goto h hp rfl (Int.le_refl _) (fun _ => rfl) (.inr (.inl hm))
    | relocked cycle released =>
      simp only [barrierWait, hp] at hs
      cases hs
      refine inv_waitOrLeave h hp (h.holder i _ hp rfl) rfl ?_
      cases released <;> exact Int.le_refl _
    | leaving status =>
      simp only [barrierWait, hp] at hs
      cases hs
      exact inv_goto h hp rfl (Int.le_refl _) (fun hh => nomatch hh) (.inr (.inr (h.holder i _ hp rfl)))

/-- What `barrier_destroy` does next. -/
theorem barrierDestroy_cases (hs : barrierDestroy s = some t) :
    (∃ status, t = { s with destroyer := .outside status }) ∨
    t = { s with destroyer := .entering } ∨
    (s.mutex = .free ∧ t = { s with destroyer := .locked, mutex := .heldByDestroyer }) ∨
    (s.destroyer = .locked ∧ s.barrier.counter ≠ s.barrier.threshold ∧
      t = { s with destroyer := .outside (some ebusy), mutex := .free }) ∨
    (s.destroyer = .locked ∧ s.barrier.counter = s.barrier.threshold ∧
      t = { s with barrier := { s.barrier with valid := 0 }, destroyer := .passed }) ∨
    (s.destroyer = .passed ∧ t = { s with destroyer := .destroying, mutex := .free }) ∨
    (s.mutex = .free ∧ t = { s with destroyer := .outside (some 0), mutex := .destroyed }) := by
  cases hd : s.destroyer with
  | outside status =>
    simp only [barrierDestroy, hd] at hs
    split_ifs at hs <;> cases hs
    · exact .inl ⟨_, rfl⟩
    · exact .inr (.inl rfl)
  | entering =>
    simp only [barrierDestroy, hd] at hs
    obtain ⟨hm, hs⟩ := Option.ite_none_right_eq_some.mp hs
    cases hs
    exact .inr (.inr (.inl ⟨hm, rfl⟩))
  | locked =>
    simp only [barrierDestroy, hd] at hs
    split_ifs at hs with hc <;> cases hs
    · exact .inr (.inr (.inr (.inl ⟨rfl, hc, rfl⟩)))
    · exact .inr (.inr (.inr (.inr (.inl ⟨rfl, not_not.mp hc, rfl⟩))))
  | passed =>
    simp only [barrierDestroy, hd] at hs
    cases hs
    exact .inr (.inr (.inr (.inr (.inr (.inl ⟨rfl, rfl⟩)))))
  | destroying =>
    simp only [barrierDestroy, hd] at hs
    obtain ⟨hm, hs⟩ := Option.ite_none_right_eq_some.mp hs
    cases hs
    exact .inr (.inr (.inr (.inr (.inr (.inr ⟨hm, rfl⟩)))))

theorem holds_eq_false (h : Inv s) (hm : s.mutex = .free ∨ s.mutex = .heldByDestroyer)
    (hp : s.threads[i]? = some p) : p.holds = false := by
  by_contra hh
  have hi := h.holder i p hp (by simpa using hh)
  obtain hm | hm := hm <;> rw [hm] at hi <;> cases hi

theorem inv_step (h : Inv s) (hs : step s a = some t) : Inv t := by
  cases a with
  | wait i => exact inv_barrierWait h hs
  | wake i =>
    simp only [step] at hs
    split at hs
    · rename_i cycle released hp
      cases hs
      exact inv_goto h hp rfl (Int.le_refl _) (fun hh => nomatch hh) (.inl rfl)
    · cases hs
  | destroy =>
    have hnobody : s.mutex = .free ∨ s.mutex = .heldByDestroyer → ∀ (mutex : Mutex) (j : Nat) (q : Place),
        s.threads[j]? = some q → q.holds = true → mutex = .held j := by
      intro hm mutex j q hq hh
      rw [holds_eq_false h hm hq] at hh
      cases hh
    obtain ⟨status, rfl⟩ | rfl | ⟨hm, rfl⟩ | ⟨hd, -, rfl⟩ | ⟨hd, -, rfl⟩ | ⟨hd, rfl⟩ | ⟨hm, rfl⟩ :=
      barrierDestroy_cases hs
    · exact ⟨h.waiting, h.holder, fun hh => nomatch hh⟩
    · exact ⟨h.waiting, h.holder, fun hh => nomatch hh⟩
    · exact ⟨h.waiting, hnobody (.inl hm) _, fun _ => rfl⟩
    · exact ⟨h.waiting, hnobody (.inr (h.destroyer (by rw [hd]; rfl))) _, fun hh => nomatch hh⟩
    · exact ⟨h.waiting, h.holder, fun _ => h.destroyer (by rw [hd]; rfl)⟩
    · exact ⟨h.waiting, hnobody (.inr (h.destroyer (by rw [hd]; rfl))) _, fun hh => nomatch hh⟩
    · exact ⟨h.waiting, hnobody (.inl hm) _, fun hh => nomatch hh⟩

theorem inv_init (count : Int) (threads : Nat) : Inv (init count threads) := by
  refine ⟨?_, fun i p hp hh => ?_, fun hh => nomatch hh⟩
  · simp [init, barrierInt, Place.waits]
  · rw [List.eq_of_mem_replicate (List.mem_of_getElem? hp)] at hh
    cases hh

/-- When the counter is at the threshold, only released threads are inside, and those that have
the mutex. -/
theorem idle_of_check (h : Inv s) (hd : s.destroyer = .locked)
    (hc : s.barrier.counter = s.barrier.threshold) (hr : ∀ p ∈ s.threads, p.released = false) :
    ∀ p ∈ s.threads, p.inside = false := by
  intro p hp
  obtain ⟨i, hi⟩ := List.getElem?_of_mem hp
  have hholds := holds_eq_false h (.inr (h.destroyer (by rw [hd]; rfl))) hi
  have hwaits : p.waits = false := by
    have hle := h.waiting
    have hzero : s.threads.countP Place.waits = 0 := by omega
    simpa using List.countP_eq_zero.mp hzero p hp
  have hreleased := hr p hp
  cases p with
  | outside | entering => rfl
  | locked | relocked | leaving => cases hholds
  | asleep cycle released | woken cycle released =>
    have hr : released = false := hreleased
    rw [hr] at hwaits
    cases hwaits

theorem barrierWait_destroyer (hs : barrierWait s i = some t) : t.destroyer = s.destroyer := by
  have hwait : ∀ (s : State) cycle released, (waitOrLeave s i cycle released).destroyer = s.destroyer := by
    intro s cycle released
    rw [waitOrLeave]
    split_ifs <;> rfl
  rw [barrierWait] at hs
  split at hs
  · cases hs
  · split_ifs at hs <;> cases hs <;> rfl
  · split_ifs at hs
    cases hs
    rfl
  · cases hs
    simp only [arrive]
    split_ifs
    · rfl
    · exact hwait ..
  · cases hs
  · split_ifs at hs
    cases hs
    rfl
  · cases hs
    exact hwait ..
  · cases hs
    rfl

/-- While nobody is inside, a thread gets in only by its first lock. -/
theorem barrierWait_idle (hi : ∀ p ∈ s.threads, p.inside = false)
    (he : s.threads[i]? ≠ some .entering) (hs : barrierWait s i = some t) :
    ∀ p ∈ t.threads, p.inside = false := by
  have hset : ∀ place : Place, place.inside = false → ∀ p ∈ s.threads.set i place, p.inside = false := by
    intro place hplace p hp
    obtain hp | rfl := List.mem_or_eq_of_mem_set hp
    · exact hi p hp
    · exact hplace
  cases hp : s.threads[i]? with
  | none =>
    simp only [barrierWait, hp] at hs
    cases hs
  | some p =>
    have hin := hi p (List.mem_of_getElem? hp)
    cases p with
    | outside status =>
      simp only [barrierWait, hp] at hs
      split_ifs at hs <;> cases hs <;> exact hset _ rfl
    | entering => exact absurd hp he
    | locked | asleep | woken | relocked | leaving => cases hin

theorem destroyedIdle_step (h : Inv s) (hi : DestroyedIdle s) (hc : LeftInTime s a)
    (hs : step s a = some t) : DestroyedIdle t := by
  intro hp
  cases a with
  | wait i =>
    rw [barrierWait_destroyer hs] at hp
    refine barrierWait_idle (hi hp) (fun he => ?_) hs
    rw [hc he] at hp
    cases hp
  | wake i =>
    simp only [step] at hs
    split at hs
    · rename_i cycle released hq
      cases hs
      have hin := hi hp _ (List.mem_of_getElem? hq)
      cases hin
    · cases hs
  | destroy =>
    obtain ⟨status, rfl⟩ | rfl | ⟨-, rfl⟩ | ⟨-, -, rfl⟩ | ⟨hd, hcheck, rfl⟩ | ⟨hd, rfl⟩ | ⟨-, rfl⟩ :=
      barrierDestroy_cases hs
    · cases hp
    · cases hp
    · cases hp
    · cases hp
    · exact idle_of_check (s := s) h hd hcheck (hc hd hcheck)
    · exact hi (by rw [hd]; rfl)
    · cases hp

/-- Who is too late is inside when the barrier is destroyed. -/
theorem leftInTime_of_destroyedIdle (hs : step s a = some t) (ht : DestroyedIdle t) :
    LeftInTime s a := by
  cases a with
  | wait i =>
    intro he
    by_contra hp
    have hlt : i < s.threads.length := (List.getElem?_eq_some_iff.mp he).1
    simp only [step, barrierWait, he] at hs
    obtain ⟨-, hs⟩ := Option.ite_none_right_eq_some.mp hs
    cases hs
    have hin := ht (by simpa using hp) .locked (List.mem_set hlt _)
    cases hin
  | wake i => trivial
  | destroy =>
    intro hd hcheck p hp
    simp only [step, barrierDestroy, hd, hcheck, ne_eq, not_true_eq_false, ↓reduceIte] at hs
    cases hs
    have hin := ht rfl p hp
    cases p with
    | outside | entering | locked | leaving => rfl
    | asleep | woken | relocked => cases hin

/-- A barrier is destroyed only when no thread is inside, in all states of a run, exactly when
the threads that were broadcast leave in time and no other one gets in. -/
theorem destroyedIdle_iff (count : Int) (threads : Nat) (as : List Action) :
    Always step DestroyedIdle (init count threads) as ↔ Each step LeftInTime (init count threads) as := by
  refine always_iff_each (fun s => Inv s ∧ DestroyedIdle s) ?_ (fun _ h => h.2) ?_
    ⟨inv_init count threads, fun hp => nomatch hp⟩
  · rintro s a t ⟨h, hi⟩ hc hs
    exact ⟨inv_step h hs, destroyedIdle_step h hi hc hs⟩
  · exact fun _ _ _ _ hs ht => leftInTime_of_destroyedIdle hs ht

/-- The first of two threads has been broadcast, but is not out of its wait when the barrier is
destroyed. -/
def destroyAtOnce : List Action :=
  [.wait 0, .wait 0, .wait 0, .wait 1, .wait 1, .wait 1, .wait 1, .destroy, .destroy, .destroy, .destroy]

theorem destroyedIdle_fails : ∃ s, run step (init 2 2) destroyAtOnce = some s ∧
    s.destroyer = .destroying ∧ s.threads = [.woken 0 true, .outside (some (-1))] ∧
    ¬ DestroyedIdle s := by
  refine ⟨_, rfl, rfl, rfl, fun h => ?_⟩
  exact Bool.noConfusion (h rfl _ (List.mem_cons_self ..))

end C11AndC.Barrier.Destroy
