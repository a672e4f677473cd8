import C11AndC.Crew.Model
import C11AndC.Library.Lists
import Mathlib.Tactic.SplitIfs

namespace C11AndC.Crew

open C11AndC.Library

/-- The item that a worker has taken and not finished. -/
def Worker.item : Worker → Option Work
  | .lstat work => some work
  | .opening work => some work
  | .reading work _ => some work
  | .adding work _ _ => some work
  | .searching work => some work
  | .finishing work => some work
  | _ => none

def Worker.busy (w : Worker) : Bool := w.item.isSome

def Caller.blocked (c : Caller) : Bool := c.stage.wake.isSome

/-- The count is that of the items in the queue and in the hands of the workers, and with
none of either nobody waits in `crew_start`. -/
structure Accounted (s : State) : Prop where
  count : s.workCount = s.queue.length + s.workers.countP Worker.busy
  idle : s.queue = [] → s.workers.countP Worker.busy = 0 →
    s.workCount = 0 ∧ s.callers.any Caller.blocked = false

/-- What the count has too much. -/
def surplus (s : State) : Int := s.workCount - s.queue.length - s.workers.countP Worker.busy

/-- Nobody sleeps on `done` when the count is down. -/
def Released (s : State) : Prop := s.workCount ≤ 0 → s.callers.any Caller.blocked = false

/-- A directory cannot be opened. -/
def Event.fails : Event → Bool
  | .outside _ (.opendir false) => true
  | _ => false

section Workers

variable {s t : State} {i : Nat} {w w' : Worker}

theorem wake_busy (h : w.wake = some w') : w.busy = false ∧ w'.busy = false := by
  cases w with
  | blockedStart =>
    cases h
    exact ⟨rfl, rfl⟩
  | blockedWork =>
    cases h
    exact ⟨rfl, rfl⟩
  | _ => cases h

theorem signal_spec {workers workers' : List Worker} {woken : Option Nat}
    (h : signal workers woken = some workers') : workers' = workers ∨
      ∃ i w w', workers[i]? = some w ∧ w.wake = some w' ∧ workers' = workers.set i w' := by
  cases woken with
  | none =>
    simp only [signal] at h
    split_ifs at h
    exact .inl (Option.some.inj h).symm
  | some i =>
    obtain ⟨w, hw, h⟩ := Option.bind_eq_some_iff.mp h
    obtain ⟨w', hw', h⟩ := Option.bind_eq_some_iff.mp h
    exact .inr ⟨i, w, w', hw, hw', (Option.some.inj h).symm⟩

theorem countP_signal {workers workers' : List Worker} {woken : Option Nat}
    (h : signal workers woken = some workers') :
    workers'.countP Worker.busy = workers.countP Worker.busy := by
  obtain rfl | ⟨i, w, w', hw, hwake, rfl⟩ := signal_spec h
  · rfl
  · have hset := countP_set Worker.busy hw w'
    rw [(wake_busy hwake).1, (wake_busy hwake).2] at hset
    simp only [Bool.false_eq_true, ↓reduceIte] at hset
    omega

theorem surplus_setWorker (hw : s.workers[i]? = some w) :
    surplus (s.setWorker i w') =
      surplus s + (if w.busy then 1 else 0) - (if w'.busy then 1 else 0) := by
  have hset := countP_set Worker.busy hw w'
  simp only [surplus, State.setWorker]
  omega

theorem busy_count (hs : surplus s = 0) (hw : s.workers[i]? = some w) (hb : w.busy = true) :
    0 < s.workCount := by
  have hpos : 0 < s.workers.countP Worker.busy :=
    List.countP_pos_iff.mpr ⟨w, List.mem_of_getElem? hw, hb⟩
  simp only [surplus] at hs
  omega

theorem surplus_add {work : Work} {woken : Option Nat} (h : s.add work woken = some t) :
    surplus t = surplus s := by
  obtain ⟨workers, hw, h⟩ := Option.bind_eq_some_iff.mp h
  cases h
  have hcount := countP_signal hw
  simp only [surplus, List.length_append, List.length_singleton]
  omega

theorem surplus_take (hw : s.workers[i]? = some w) (hb : w.busy = false) :
    surplus (s.take i) = surplus s := by
  unfold State.take
  split
  · rw [surplus_setWorker hw, hb]
    simp [Worker.busy, Worker.item]
  · rename_i work queue hq
    have hset := countP_set Worker.busy hw (.lstat work)
    rw [hb] at hset
    simp only [surplus, State.setWorker, hq, List.length_cons, Worker.busy, Worker.item,
      Option.isSome_some, Bool.false_eq_true, ↓reduceIte] at hset ⊢
    omega

theorem surplus_finish {work : Work} (hw : s.workers[i]? = some (.finishing work)) :
    surplus (s.finish i work) = surplus s := by
  have hset : ∀ w', w'.busy = false → ((s.workers.set i w').countP Worker.busy : Int) =
      s.workers.countP Worker.busy - 1 := by
    intro w' hb
    rw [countP_set Worker.busy hw w', hb]
    simp [Worker.busy, Worker.item]
  simp only [State.finish]
  split_ifs
  · simp only [surplus, State.setWorker, hset .exited rfl]
    omega
  · simp only [surplus, State.setWorker, hset .top rfl]
    omega

/-- What a worker can do between two sections. -/
theorem outside_cases {outcome : Outcome} (h : w.outside outcome = some w') :
    (∃ work kind, w = .lstat work ∧ outcome = .lstat kind ∧
      (kind = .directory ∧ w' = .opening work ∨ kind = .regular ∧ w' = .searching work ∨
        (kind = .link ∨ kind = .other) ∧ w' = .finishing work)) ∨
    (∃ work, w = .opening work ∧ outcome = .opendir true ∧ w' = .reading work 0) ∨
    (∃ work, w = .opening work ∧ outcome = .opendir false ∧ w' = .top) ∨
    (∃ work read, w = .reading work read ∧
      (outcome = .readdir .failure ∨ outcome = .readdir .endOfDirectory) ∧ w' = .finishing work) ∨
    (∃ work read name, w = .reading work read ∧ outcome = .readdir (.name name) ∧
      ((name = dot ∨ name = dotdot) ∧ w' = .reading work (read + 1) ∨
        (name ≠ dot ∧ name ≠ dotdot) ∧
          w' = .adding work (read + 1) { work with path := join work.path name })) ∨
    (∃ work, w = .searching work ∧ outcome = .searched ∧ w' = .finishing work) := by
  match w, outcome, h with
  | .lstat work, .lstat kind, h =>
    refine .inl ⟨work, kind, rfl, rfl, ?_⟩
    cases kind with
    | link => exact .inr (.inr ⟨.inl rfl, (Option.some.inj h).symm⟩)
    | directory => exact .inl ⟨rfl, (Option.some.inj h).symm⟩
    | regular => exact .inr (.inl ⟨rfl, (Option.some.inj h).symm⟩)
    | other => exact .inr (.inr ⟨.inr rfl, (Option.some.inj h).symm⟩)
  | .opening work, .opendir true, h =>
    exact .inr (.inl ⟨work, rfl, rfl, (Option.some.inj h).symm⟩)
  | .opening work, .opendir false, h =>
    exact .inr (.inr (.inl ⟨work, rfl, rfl, (Option.some.inj h).symm⟩))
  | .reading work read, .readdir .failure, h =>
    exact .inr (.inr (.inr (.inl ⟨work, read, rfl, .inl rfl, (Option.some.inj h).symm⟩)))
  | .reading work read, .readdir .endOfDirectory, h =>
    exact .inr (.inr (.inr (.inl ⟨work, read, rfl, .inr rfl, (Option.some.inj h).symm⟩)))
  | .reading work read, .readdir (.name name), h =>
    refine .inr (.inr (.inr (.inr (.inl ⟨work, read, name, rfl, rfl, ?_⟩))))
    simp only [Worker.outside] at h
    split_ifs at h with h₁ h₂
    · exact .inl ⟨.inl h₁, (Option.some.inj h).symm⟩
    · exact .inl ⟨.inr h₂, (Option.some.inj h).symm⟩
    · exact .inr ⟨⟨h₁, h₂⟩, (Option.some.inj h).symm⟩
  | .searching work, .searched, h =>
    exact .inr (.inr (.inr (.inr (.inr ⟨work, rfl, rfl, (Option.some.inj h).symm⟩))))

/-- There is one outcome by which a worker loses its item. -/
theorem outside_busy {outcome : Outcome} (h : w.outside outcome = some w') :
    w.busy = true ∧ (w'.busy = false ↔ outcome = .opendir false) := by
  obtain ⟨work, kind, rfl, rfl, hk⟩ | ⟨work, rfl, rfl, rfl⟩ | ⟨work, rfl, rfl, rfl⟩ |
    ⟨work, read, rfl, ho, rfl⟩ | ⟨work, read, name, rfl, rfl, hn⟩ | ⟨work, rfl, rfl, rfl⟩ :=
    outside_cases h
  · obtain ⟨-, rfl⟩ | ⟨-, rfl⟩ | ⟨-, rfl⟩ := hk <;> simp [Worker.busy, Worker.item]
  · simp [Worker.busy, Worker.item]
  · simp [Worker.busy, Worker.item]
  · obtain rfl | rfl := ho <;> simp [Worker.busy, Worker.item]
  · obtain ⟨-, rfl⟩ | ⟨-, rfl⟩ := hn <;> simp [Worker.busy, Worker.item]
  · simp [Worker.busy, Worker.item]

/-- A section of a worker keeps the books. -/
theorem surplus_worker {woken : Option Nat} (h : workerRoutine s i woken = some t) :
    surplus t = surplus s := by
  obtain ⟨w, hw, h⟩ := Option.bind_eq_some_iff.mp h
  have hstart : w.busy = false → surplus (s.setWorker i (if s.workCount = 0 then .blockedStart
      else .top)) = surplus s := by
    intro hb
    have hb' : (if s.workCount = 0 then Worker.blockedStart else Worker.top).busy = false := by
      split_ifs <;> rfl
    rw [surplus_setWorker hw, hb, hb']
    simp
  cases w with
  | starting =>
    cases h
    exact hstart rfl
  | wokenStart =>
    cases h
    exact hstart rfl
  | top =>
    cases h
    exact surplus_take hw rfl
  | wokenWork =>
    cases h
    exact surplus_take hw rfl
  | adding work read newWork =>
    rw [surplus_add h, surplus_setWorker hw]
    simp [Worker.busy, Worker.item]
  | finishing work =>
    cases h
    exact surplus_finish hw
  | blockedStart | blockedWork | lstat | opening | reading | searching | exited => cases h

theorem surplus_setCaller (s : State) (j : Nat) (c : Caller) :
    surplus (s.setCaller j c) = surplus s := rfl

theorem surplus_request {j : Nat} {c : Caller} {woken : Option Nat}
    (h : s.request j c woken = some t) : surplus t = surplus s := by
  simp only [State.request] at h
  split_ifs at h
  · cases h
    exact surplus_setCaller ..
  · obtain ⟨u, hu, h⟩ := Option.bind_eq_some_iff.mp h
    cases h
    exact (surplus_add hu : surplus u = surplus s)

theorem surplus_caller {j : Nat} {woken : Option Nat} (h : crewStart s j woken = some t) :
    surplus t = surplus s := by
  obtain ⟨c, -, h⟩ := Option.bind_eq_some_iff.mp h
  cases hs : c.stage with
  | entering =>
    rw [hs] at h
    exact surplus_request h
  | wokenBusy =>
    rw [hs] at h
    exact surplus_request h
  | wokenDone =>
    rw [hs] at h
    cases h
    exact surplus_setCaller ..
  | blockedBusy | blockedDone | returned =>
    rw [hs] at h
    cases h

theorem surplus_step {e : Event} (h : step s e = some t) :
    surplus t = surplus s + if e.fails then 1 else 0 := by
  cases e with
  | call work =>
    cases h
    simp [surplus, Event.fails]
  | caller j woken =>
    rw [surplus_caller h]
    simp [Event.fails]
  | worker i woken =>
    rw [surplus_worker h]
    simp [Event.fails]
  | outside i outcome =>
    obtain ⟨w, hw, h⟩ := Option.bind_eq_some_iff.mp h
    obtain ⟨w', hw', h⟩ := Option.bind_eq_some_iff.mp h
    cases h
    obtain ⟨hb, hb'⟩ := outside_busy hw'
    rw [surplus_setWorker hw, hb]
    by_cases ho : outcome = .opendir false
    · rw [hb'.mpr ho, ho]
      simp [Event.fails]
    · have ht : w'.busy = true := by simpa using mt hb'.mp ho
      have hf : Event.fails (.outside i outcome) = false := by
        unfold Event.fails
        split
        · rename_i heq
          cases heq
          exact absurd rfl ho
        · rfl
      simp [ht, hf]
  | wakeWorker i =>
    obtain ⟨w, hw, h⟩ := Option.bind_eq_some_iff.mp h
    obtain ⟨w', hw', h⟩ := Option.bind_eq_some_iff.mp h
    cases h
    rw [surplus_setWorker hw, (wake_busy hw').1, (wake_busy hw').2]
    simp [Event.fails]
  | wakeCaller j =>
    obtain ⟨c, -, h⟩ := Option.bind_eq_some_iff.mp h
    obtain ⟨stage, -, h⟩ := Option.bind_eq_some_iff.mp h
    cases h
    rw [surplus_setCaller]
    simp [Event.fails]

end Workers

section Callers

variable {s t : State} {i j : Nat}

theorem blocked_set {callers : List Caller} {c : Caller} (h : callers.any Caller.blocked = false)
    (hc : c.blocked = false) : (callers.set j c).any Caller.blocked = false := by
  rw [List.any_eq_false] at h ⊢
  intro x hx
  obtain hx | rfl := List.mem_or_eq_of_mem_set hx
  · exact h x hx
  · simp [hc]

theorem blocked_broadcast (callers : List Caller) :
    (broadcast callers).any Caller.blocked = false := by
  rw [List.any_eq_false]
  intro x hx
  obtain ⟨⟨work, stage⟩, -, rfl⟩ := List.mem_map.mp hx
  cases stage <;> simp [Caller.blocked, Stage.wake]

theorem released_worker {woken : Option Nat} (hr : Released s)
    (h : workerRoutine s i woken = some t) : Released t := by
  obtain ⟨w, -, h⟩ := Option.bind_eq_some_iff.mp h
  have htake : Released (s.take i) := by
    unfold State.take
    split
    · exact hr
    · exact hr
  cases w with
  | starting =>
    cases h
    exact hr
  | wokenStart =>
    cases h
    exact hr
  | top =>
    cases h
    exact htake
  | wokenWork =>
    cases h
    exact htake
  | adding work read newWork =>
    obtain ⟨workers, -, h⟩ := Option.bind_eq_some_iff.mp h
    cases h
    intro hc
    simp only [State.setWorker] at hc
    exact hr (by omega)
  | finishing work =>
    cases h
    simp only [State.finish]
    split_ifs with hc
    · exact fun _ => blocked_broadcast s.callers
    · exact fun hc' => absurd hc' hc
  | blockedStart | blockedWork | lstat | opening | reading | searching | exited => cases h

theorem released_request {c : Caller} {woken : Option Nat} (hr : Released s)
    (h : s.request j c woken = some t) : Released t := by
  simp only [State.request] at h
  split_ifs at h with hpos
  · cases h
    exact fun hc => absurd hc (Int.not_le.mpr hpos)
  · obtain ⟨u, hu, h⟩ := Option.bind_eq_some_iff.mp h
    cases h
    obtain ⟨workers, -, hu⟩ := Option.bind_eq_some_iff.mp hu
    cases hu
    intro hc
    have hn : ¬ s.workCount + 1 > 0 := Int.not_lt.mpr hc
    simp only [if_neg hn]
    exact blocked_set (hr (by omega)) rfl

theorem released_caller {woken : Option Nat} (hr : Released s)
    (h : crewStart s j woken = some t) : Released t := by
  obtain ⟨c, -, h⟩ := Option.bind_eq_some_iff.mp h
  cases hs : c.stage with
  | entering =>
    rw [hs] at h
    exact released_request hr h
  | wokenBusy =>
    rw [hs] at h
    exact released_request hr h
  | wokenDone =>
    rw [hs] at h
    cases h
    intro hc
    have hn : ¬ s.workCount > 0 := Int.not_lt.mpr hc
    simp only [if_neg hn]
    exact blocked_set (hr hc) rfl
  | blockedBusy | blockedDone | returned =>
    rw [hs] at h
    cases h

theorem released_step {e : Event} (hr : Released s) (h : step s e = some t) : Released t := by
  cases e with
  | call work =>
    cases h
    intro hc
    rw [List.any_append, hr hc]
    rfl
  | caller j woken => exact released_caller hr h
  | worker i woken => exact released_worker hr h
  | outside i outcome =>
    obtain ⟨w, -, h⟩ := Option.bind_eq_some_iff.mp h
    obtain ⟨w', -, h⟩ := Option.bind_eq_some_iff.mp h
    cases h
    exact hr
  | wakeWorker i =>
    obtain ⟨w, -, h⟩ := Option.bind_eq_some_iff.mp h
    obtain ⟨w', -, h⟩ := Option.bind_eq_some_iff.mp h
    cases h
    exact hr
  | wakeCaller j =>
    obtain ⟨c, -, h⟩ := Option.bind_eq_some_iff.mp h
    obtain ⟨stage, hs, h⟩ := Option.bind_eq_some_iff.mp h
    cases h
    refine fun hc => blocked_set (hr hc) ?_
    cases hst : c.stage <;> rw [hst] at hs <;> cases hs <;> rfl

end Callers

theorem accounted_iff {s : State} (hr : Released s) : Accounted s ↔ surplus s = 0 := by
  refine ⟨fun h => ?_, fun h => ⟨?_, fun hq hb => ?_⟩⟩
  · have := h.count
    simp only [surplus]
    omega
  · simp only [surplus] at h
    omega
  · simp only [surplus, hq, hb, List.length_nil] at h
    exact ⟨by omega, hr (by omega)⟩

theorem surplus_fresh (size : Nat) : surplus (fresh size) = 0 := by
  have hb : (List.replicate size Worker.starting).countP Worker.busy = 0 := by
    rw [List.countP_replicate]
    rfl
  simp [surplus, fresh, hb]

/-- The books of the crew are right all along a run exactly if no directory of the run
fails to open. -/
theorem always_accounted_iff (size : Nat) (es : List Event) :
    Always step Accounted (fresh size) es ↔
      Each step (fun _ e => e.fails = false) (fresh size) es := by
  refine always_iff_each (fun s => Released s ∧ surplus s = 0) ?_ (fun s hs => (accounted_iff hs.1).mpr hs.2) ?_
    ⟨fun _ => rfl, surplus_fresh size⟩
  · intro s e t hs hf ht
    refine ⟨released_step hs.1 ht, ?_⟩
    rw [surplus_step ht, hs.2, hf]
    rfl
  · intro s e t hs ht hacc
    have hstep := surplus_step ht
    rw [(accounted_iff (released_step hs.1 ht)).mp hacc, hs.2] at hstep
    by_contra hf
    rw [if_pos (by simpa using hf)] at hstep
    omega

end C11AndC.Crew
