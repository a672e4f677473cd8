import C11AndC.Crew.Visit
import C11AndC.Library.Progress

namespace C11AndC.Crew

open C11AndC.Library

/-- The steps that threads take by themselves; the others are wake-ups without a signal. -/
def isWork : Event → Bool
  | .wakeWorker _ => false
  | .wakeCaller _ => false
  | _ => true

/-- What one step of the crew can do. -/
inductive Turn (fs : FileSystem) (s : State) : Event → State → Prop
  | rest {i woken w} (hw : s.workers[i]? = some w) (h : w = .starting ∨ w = .wokenStart) (hz : s.workCount = 0) :
      Turn fs s (.worker i woken) (s.setWorker i .blockedStart)
  | go {i woken w} (hw : s.workers[i]? = some w) (h : w = .starting ∨ w = .wokenStart) (hz : s.workCount ≠ 0) :
      Turn fs s (.worker i woken) (s.setWorker i .top)
  | sleep {i woken w} (hw : s.workers[i]? = some w) (h : w = .top ∨ w = .wokenWork) (hq : s.queue = []) :
      Turn fs s (.worker i woken) (s.setWorker i .blockedWork)
  | take {i woken w work queue} (hw : s.workers[i]? = some w) (h : w = .top ∨ w = .wokenWork)
      (hq : s.queue = work :: queue) :
      Turn fs s (.worker i woken)
        { s.setWorker i (.lstat work) with queue := queue, taken := s.taken ++ [work.path] }
  | add {i woken work read newWork workers} (hw : s.workers[i]? = some (.adding work read newWork))
      (hs : signal (s.workers.set i (.reading work read)) woken = some workers) :
      Turn fs s (.worker i woken)
        { s with queue := s.queue ++ [newWork], workCount := s.workCount + 1, workers := workers }
  | finish {i woken work} (hw : s.workers[i]? = some (.finishing work)) :
      Turn fs s (.worker i woken) (s.finish i work)
  | outside {i outcome w w'} (hw : s.workers[i]? = some w) (ha : fs.agrees w outcome = true)
      (ho : w.outside outcome = some w') : Turn fs s (.outside i outcome) (s.setWorker i w')
  | request {j woken c workers stage} (hc : s.callers[j]? = some c)
      (h : c.stage = .entering ∨ c.stage = .wokenBusy) (hle : s.workCount ≤ 0)
      (hs : signal s.workers woken = some workers) (hstage : stage = .blockedDone ∨ stage = .returned) :
      Turn fs s (.caller j woken)
        { s with
          queue := s.queue ++ [c.work]
          workCount := s.workCount + 1
          workers := workers
          callers := s.callers.set j { c with stage := stage }
          requested := s.requested ++ [c.work.path] }
  | busy {j woken c} (hc : s.callers[j]? = some c) (h : c.stage = .entering ∨ c.stage = .wokenBusy) :
      Turn fs s (.caller j woken) (s.setCaller j { c with stage := .blockedBusy })
  | done {j woken c stage} (hc : s.callers[j]? = some c) (h : c.stage = .wokenDone)
      (hstage : stage = .blockedDone ∨ stage = .returned) :
      Turn fs s (.caller j woken) (s.setCaller j { c with stage := stage })
  | wakeWorker {i w w'} (hw : s.workers[i]? = some w) (h : w.wake = some w') :
      Turn fs s (.wakeWorker i) (s.setWorker i w')
  | wakeCaller {j c stage} (hc : s.callers[j]? = some c) (h : c.stage.wake = some stage) :
      Turn fs s (.wakeCaller j) (s.setCaller j { c with stage := stage })

section Inversion

variable {fs : FileSystem} {s t : State} {e : Event}

theorem turn_worker {i : Nat} {woken : Option Nat} (h : workerRoutine s i woken = some t) :
    Turn fs s (.worker i woken) t := by
  obtain ⟨w, hw, h⟩ := Option.bind_eq_some_iff.mp h
  have hstart : w = .starting ∨ w = .wokenStart →
      Turn fs s (.worker i woken) (s.setWorker i (if s.workCount = 0 then .blockedStart else .top)) := by
    intro hst
    split_ifs with hz
    · exact .rest hw hst hz
    · exact .go hw hst hz
  have htake : w = .top ∨ w = .wokenWork → Turn fs s (.worker i woken) (s.take i) := by
    intro hst
    cases hq : s.queue with
    | nil =>
      simp only [State.take, hq]
      exact .sleep hw hst hq
    | cons work queue =>
      simp only [State.take, hq]
      exact .take hw hst hq
  cases w with
  | starting =>
    cases h
    exact hstart (.inl rfl)
  | wokenStart =>
    cases h
    exact hstart (.inr rfl)
  | top =>
    cases h
    exact htake (.inl rfl)
  | wokenWork =>
    cases h
    exact htake (.inr rfl)
  | adding work read newWork =>
    obtain ⟨workers, hs, h⟩ := Option.bind_eq_some_iff.mp h
    cases h
    exact .add hw hs
  | finishing work =>
    cases h
    exact .finish hw
  | blockedStart | blockedWork | lstat | opening | reading | searching | exited => cases h

theorem turn_caller {j : Nat} {woken : Option Nat} (h : crewStart s j woken = some t) :
    Turn fs s (.caller j woken) t := by
  obtain ⟨c, hc, h⟩ := Option.bind_eq_some_iff.mp h
  have hask : c.stage = .entering ∨ c.stage = .wokenBusy → s.request j c woken = some t →
      Turn fs s (.caller j woken) t := by
    intro hst hreq
    simp only [State.request] at hreq
    split_ifs at hreq with hpos
    · cases hreq
      exact .busy hc hst
    · obtain ⟨u, hu, hreq⟩ := Option.bind_eq_some_iff.mp hreq
      obtain ⟨workers, hs, hu⟩ := Option.bind_eq_some_iff.mp hu
      cases hu
      cases hreq
      apply Turn.request hc hst (Int.not_lt.mp hpos) hs
      split_ifs
      · exact .inl rfl
      · exact .inr rfl
  cases hstage : c.stage with
  | entering =>
    rw [hstage] at h
    exact hask (.inl hstage) h
  | wokenBusy =>
    rw [hstage] at h
    exact hask (.inr hstage) h
  | wokenDone =>
    rw [hstage] at h
    cases h
    apply Turn.done hc hstage
    split_ifs
    · exact .inl rfl
    · exact .inr rfl
  | blockedBusy | blockedDone | returned =>
    rw [hstage] at h
    cases h

theorem turn_of_visit (h : visit fs s e = some t) : Turn fs s e t := by
  cases e with
  | call work => cases h
  | caller j woken => exact turn_caller h
  | worker i woken => exact turn_worker h
  | outside i outcome =>
    obtain ⟨w, hw, h⟩ := Option.bind_eq_some_iff.mp h
    split_ifs at h with ha
    obtain ⟨v, hv, h⟩ := Option.bind_eq_some_iff.mp h
    cases hw.symm.trans hv
    obtain ⟨w', hw', h⟩ := Option.bind_eq_some_iff.mp h
    cases h
    exact .outside hw ha hw'
  | wakeWorker i =>
    obtain ⟨w, hw, h⟩ := Option.bind_eq_some_iff.mp h
    obtain ⟨w', hw', h⟩ := Option.bind_eq_some_iff.mp h
    cases h
    exact .wakeWorker hw hw'
  | wakeCaller j =>
    obtain ⟨c, hc, h⟩ := Option.bind_eq_some_iff.mp h
    obtain ⟨stage, hstage, h⟩ := Option.bind_eq_some_iff.mp h
    cases h
    exact .wakeCaller hc hstage

theorem step_of_visit (h : visit fs s e = some t) : step s e = some t := by
  cases e with
  | call work => cases h
  | outside i outcome =>
    obtain ⟨w, hw, h⟩ := Option.bind_eq_some_iff.mp h
    split_ifs at h with ha
    exact h
  | caller j woken | worker i woken | wakeWorker i | wakeCaller j => exact h

end Inversion

section Rest

/-- The steps that an item calls for once a worker has it: a directory is read entry by entry. -/
def visitCost (fs : FileSystem) (path : Path) : Nat := 4 * (fs.names path).length + 5

/-- The steps that a worker still takes for its item at most, with the one that it wakes. -/
def Worker.rank (fs : FileSystem) : Worker → Nat
  | .starting => 2
  | .blockedStart => 0
  | .wokenStart => 2
  | .top => 1
  | .blockedWork => 0
  | .wokenWork => 1
  | .lstat work => visitCost fs work.path
  | .opening work => 4 * (fs.names work.path).length + 4
  | .reading work read => 4 * ((fs.names work.path).length - read) + 3
  | .adding work read _ => 4 * ((fs.names work.path).length - read) + 6
  | .searching _ => 3
  | .finishing _ => 2
  | .exited => 0

def Stage.rank : Stage → Nat
  | .entering => 4
  | .blockedBusy => 3
  | .wokenBusy => 4
  | .blockedDone => 0
  | .wokenDone => 1
  | .returned => 0

/-- What the paths call for that no worker has taken yet. -/
def untaken (fs : FileSystem) (paths taken : List Path) : Nat :=
  ((paths.filter (fun path => !taken.contains path)).map (visitCost fs)).sum

/-- The steps that are left at most, where only the given paths can be reached. -/
def State.rest (fs : FileSystem) (paths : List Path) (s : State) : Nat :=
  untaken fs paths s.taken + (s.workers.map (Worker.rank fs)).sum +
    (s.callers.map (fun c => c.stage.rank)).sum

variable {fs : FileSystem} {paths : List Path} {s t : State} {e : Event} {start : Work}

variable (fs) in
theorem untaken_take {taken : List Path} {path : Path} (hp : path ∈ paths) (hn : path ∉ taken) :
    untaken fs paths (taken ++ [path]) + visitCost fs path ≤ untaken fs paths taken := by
  apply sum_filter_lt _ hp (by simpa using hn) (by simp)
  intro p h
  have hboth : p ∉ taken ∧ p ≠ path := by simpa using h
  simpa using hboth.1

variable (fs) in
theorem rank_wake {w w' : Worker} (h : w.wake = some w') : w'.rank fs ≤ w.rank fs + 2 := by
  cases w with
  | blockedStart =>
    cases h
    exact Nat.le_refl 2
  | blockedWork =>
    cases h
    exact Nat.le_succ 1
  | _ => cases h

variable (fs) in
theorem rank_signal {workers workers' : List Worker} {woken : Option Nat}
    (h : signal workers woken = some workers') :
    (workers'.map (Worker.rank fs)).sum ≤ (workers.map (Worker.rank fs)).sum + 2 := by
  obtain rfl | ⟨i, w, w', hw, hwake, rfl⟩ := signal_spec h
  · exact Nat.le_add_right _ _
  · have hset := sum_map_set (Worker.rank fs) hw w'
    have hrank := rank_wake fs hwake
    omega

theorem rank_stage {stage stage' : Stage} (h : stage.wake = some stage') : stage'.rank = stage.rank + 1 := by
  cases stage with
  | blockedBusy =>
    cases h
    rfl
  | blockedDone =>
    cases h
    rfl
  | _ => cases h

/-- A worker that has work to do outside of the mutex gets on with it. -/
theorem rank_outside {w w' : Worker} {outcome : Outcome} (ha : fs.agrees w outcome = true)
    (ho : w.outside outcome = some w') : w'.rank fs < w.rank fs := by
  obtain ⟨work, kind, rfl, rfl, hk⟩ | ⟨work, rfl, rfl, rfl⟩ | ⟨work, rfl, rfl, rfl⟩ |
    ⟨work, read, rfl, hend, rfl⟩ | ⟨work, read, name, rfl, rfl, hn⟩ | ⟨work, rfl, rfl, rfl⟩ :=
    outside_cases ho
  · obtain ⟨-, rfl⟩ | ⟨-, rfl⟩ | ⟨-, rfl⟩ := hk
    · exact Nat.lt_succ_self _
    · simp only [Worker.rank, visitCost]
      omega
    · simp only [Worker.rank, visitCost]
      omega
  · exact Nat.lt_succ_self _
  · cases ha
  · simp only [Worker.rank]
    omega
  · have hread : read < (fs.names work.path).length := by
      exact (List.getElem?_eq_some_iff.mp (entry_name (of_decide_eq_true ha))).1
    obtain ⟨-, rfl⟩ | ⟨-, rfl⟩ := hn
    · simp only [Worker.rank]
      omega
    · simp only [Worker.rank]
      omega
  · exact Nat.lt_succ_self _

variable (fs paths) in
theorem rest_setWorker {i : Nat} {w : Worker} (hw : s.workers[i]? = some w) (w' : Worker) :
    (s.setWorker i w').rest fs paths + w.rank fs = s.rest fs paths + w'.rank fs := by
  have hset := sum_map_set (Worker.rank fs) hw w'
  simp only [State.rest, State.setWorker]
  omega

variable (fs paths) in
theorem rest_setCaller {j : Nat} {c : Caller} (hc : s.callers[j]? = some c) (stage : Stage) :
    (s.setCaller j { c with stage := stage }).rest fs paths + c.stage.rank =
      s.rest fs paths + stage.rank := by
  have hset := sum_map_set (fun c : Caller => c.stage.rank) hc { c with stage := stage }
  dsimp only at hset
  simp only [State.rest, State.setCaller]
  omega

/-- Only one call of `crew_start` can be woken. -/
theorem rank_broadcast {callers : List Caller} {c : Caller} (h : callers = [c]) :
    ((broadcast callers).map (fun c => c.stage.rank)).sum ≤ (callers.map (fun c => c.stage.rank)).sum + 1 := by
  subst h
  cases hw : c.stage.wake with
  | none => simp [broadcast, hw]
  | some stage => simp [broadcast, hw, rank_stage hw]

/-- A step that is work leaves less to do. -/
theorem rest_turn (h : Visited fs start s) (hall : ∀ path, Reachable fs start.path path → path ∈ paths)
    (ht : Turn fs s e t) (he : isWork e = true) : t.rest fs paths < s.rest fs paths := by
  cases ht with
  | rest hw hst hz =>
    have hset := rest_setWorker fs paths hw .blockedStart
    obtain rfl | rfl := hst
    · simp only [Worker.rank] at hset
      omega
    · simp only [Worker.rank] at hset
      omega
  | go hw hst hz =>
    have hset := rest_setWorker fs paths hw .top
    obtain rfl | rfl := hst
    · simp only [Worker.rank] at hset
      omega
    · simp only [Worker.rank] at hset
      omega
  | sleep hw hst hq =>
    have hset := rest_setWorker fs paths hw .blockedWork
    obtain rfl | rfl := hst
    · simp only [Worker.rank] at hset
      omega
    · simp only [Worker.rank] at hset
      omega
  | @take i woken w work queue hw hst hq =>
    have hmem : work.path ∈ known s := by simp [known, hq]
    have hnew : work.path ∉ s.taken := by
      have hn := h.nodup
      simp only [known, hq, List.map_cons] at hn
      intro hold
      exact (List.nodup_append.mp hn).2.2 _ hold _ List.mem_cons_self rfl
    have hpaths := untaken_take fs (hall _ (h.reachable _ hmem)) hnew
    have hset := sum_map_set (Worker.rank fs) hw (.lstat work)
    have hrank : w.rank fs = 1 := by
      obtain rfl | rfl := hst
      · rfl
      · rfl
    simp only [State.rest, State.setWorker]
    rw [hrank, Worker.rank] at hset
    omega
  | @add i woken work read newWork workers hw hs =>
    have hset := sum_map_set (Worker.rank fs) hw (.reading work read)
    have hsignal := rank_signal fs hs
    simp only [Worker.rank] at hset
    simp only [State.rest]
    omega
  | @finish i woken work hw =>
    obtain ⟨stage, hcallers, -⟩ := h.callers
    have hbroadcast := rank_broadcast hcallers
    have hexit := sum_map_set (Worker.rank fs) hw .exited
    have htop := sum_map_set (Worker.rank fs) hw .top
    simp only [Worker.rank] at hexit htop
    simp only [State.finish]
    split_ifs
    · simp only [State.rest, State.setWorker]
      omega
    · simp only [State.rest, State.setWorker]
      omega
  | @outside i outcome w w' hw ha ho =>
    have hset := rest_setWorker fs paths hw w'
    have hlt := rank_outside ha ho
    omega
  | @request j woken c workers stage hc hst hle hs hstage =>
    have hset := sum_map_set (fun c : Caller => c.stage.rank) hc { c with stage := stage }
    dsimp only at hset
    have hsignal := rank_signal fs hs
    have hold : c.stage.rank = 4 := by
      obtain hst | hst := hst
      · rw [hst, Stage.rank]
      · rw [hst, Stage.rank]
    have hnew : stage.rank = 0 := by
      obtain rfl | rfl := hstage
      · rfl
      · rfl
    simp only [State.rest]
    omega
  | busy hc hst =>
    have hset := rest_setCaller fs paths hc .blockedBusy
    obtain hst | hst := hst
    · rw [hst] at hset
      simp only [Stage.rank] at hset
      omega
    · rw [hst] at hset
      simp only [Stage.rank] at hset
      omega
  | @done j woken c stage hc hst hstage =>
    have hset := rest_setCaller fs paths hc stage
    rw [hst] at hset
    obtain rfl | rfl := hstage
    · simp only [Stage.rank] at hset
      omega
    · simp only [Stage.rank] at hset
      omega
  | wakeWorker => cases he
  | wakeCaller => cases he

theorem rest_wake (ht : Turn fs s e t) (he : isWork e = false) : t.rest fs paths ≤ s.rest fs paths + 2 := by
  cases ht with
  | @wakeWorker i w w' hw h =>
    have hset := rest_setWorker fs paths hw w'
    have hrank := rank_wake fs h
    omega
  | @wakeCaller j c stage hc h =>
    have hset := rest_setCaller fs paths hc stage
    have hrank := rank_stage h
    omega
  | rest | go | sleep | take | add | finish | outside | request | busy | done => cases he

end Rest

/-- A worker that has never come to its loop. -/
def Worker.unused : Worker → Bool
  | .starting => true
  | .blockedStart => true
  | .wokenStart => true
  | _ => false

/-- A worker that has a step to take or will be given one. -/
def Worker.active : Worker → Bool
  | .blockedStart => false
  | .blockedWork => false
  | .exited => false
  | _ => true

/-- Where there is work in the queue, somebody is up who will take it. -/
structure Alert (s : State) : Prop where
  staffed : s.workers ≠ []
  fresh : s.requested = [] → s.queue = [] ∧ ∀ w ∈ s.workers, w.unused = true
  active : s.queue ≠ [] → ∃ w ∈ s.workers, w.active = true

section Alert

variable {fs : FileSystem} {s t : State} {e : Event} {start : Work} {i : Nat} {w w' : Worker}

theorem wake_active (h : w.wake = some w') : w'.active = true ∧ (w'.unused = w.unused) := by
  cases w with
  | blockedStart =>
    cases h
    exact ⟨rfl, rfl⟩
  | blockedWork =>
    cases h
    exact ⟨rfl, rfl⟩
  | _ => cases h

theorem active_or_wake (w : Worker) : w.active = true ∨ w.wake.isSome ∨ w = .exited := by
  cases w with
  | blockedStart => exact .inr (.inl rfl)
  | blockedWork => exact .inr (.inl rfl)
  | exited => exact .inr (.inr rfl)
  | _ => exact .inl rfl

theorem set_ne_nil {workers : List Worker} (h : workers ≠ []) (i : Nat) (w : Worker) : workers.set i w ≠ [] := by
  intro hnil
  apply h
  rw [← List.length_eq_zero_iff, ← List.length_set (i := i) (a := w), hnil, List.length_nil]

/-- A worker goes on to a place where it is up, or nobody has to be. -/
theorem alert_set (h : Alert s) (hw : s.workers[i]? = some w) (hu : s.requested = [] → w'.unused = true)
    (ha : w'.active = true ∨ s.queue = []) : Alert (s.setWorker i w') := by
  constructor
  case staffed => exact set_ne_nil h.staffed i w'
  case fresh =>
    intro hreq
    obtain ⟨hq, hall⟩ := h.fresh hreq
    refine ⟨hq, fun v hv => ?_⟩
    obtain hv | rfl := List.mem_or_eq_of_mem_set hv
    · exact hall v hv
    · exact hu hreq
  case active =>
    intro hq
    obtain hact | hnil := ha
    · obtain ⟨hlt, -⟩ := List.getElem?_eq_some_iff.mp hw
      exact ⟨w', List.mem_set hlt w', hact⟩
    · exact absurd hnil hq

/-- After a signal somebody is up, unless all workers have left. -/
theorem active_signal {workers workers' : List Worker} {woken : Option Nat}
    (h : signal workers woken = some workers') (hne : ∃ v ∈ workers, v ≠ .exited) :
    ∃ v ∈ workers', v.active = true := by
  cases woken with
  | none =>
    simp only [signal] at h
    split_ifs at h with hany
    cases h
    obtain ⟨v, hv, hne⟩ := hne
    obtain hact | hwake | rfl := active_or_wake v
    · exact ⟨v, hv, hact⟩
    · exact absurd (List.any_eq_true.mpr ⟨v, hv, hwake⟩) hany
    · exact absurd rfl hne
  | some i =>
    obtain ⟨v, hv, h⟩ := Option.bind_eq_some_iff.mp h
    obtain ⟨v', hwake, h⟩ := Option.bind_eq_some_iff.mp h
    cases h
    obtain ⟨hlt, -⟩ := List.getElem?_eq_some_iff.mp hv
    exact ⟨v', List.mem_set hlt v', (wake_active hwake).1⟩

/-- Before the request nothing is counted. -/
theorem count_of_fresh (h : Alert s) (hs : surplus s = 0) (hreq : s.requested = []) : s.workCount = 0 := by
  obtain ⟨hq, hall⟩ := h.fresh hreq
  have hbusy : s.workers.countP Worker.busy = 0 := by
    rw [List.countP_eq_zero]
    intro v hv hb
    have hu := hall v hv
    cases v with
    | starting | blockedStart | wokenStart => cases hb
    | _ => cases hu
  simp only [surplus, hq, hbusy, List.length_nil] at hs
  omega

/-- A worker that has come to its loop has been called there by the request. -/
theorem requested_of_used (h : Alert s) (hw : s.workers[i]? = some w) (hu : w.unused = false) :
    s.requested ≠ [] := by
  intro hreq
  have hall := (h.fresh hreq).2 w (List.mem_of_getElem? hw)
  rw [hu] at hall
  cases hall

theorem outside_active {outcome : Outcome} (h : w.outside outcome = some w') :
    w.unused = false ∧ w'.active = true := by
  obtain ⟨work, kind, rfl, rfl, hk⟩ | ⟨work, rfl, rfl, rfl⟩ | ⟨work, rfl, rfl, rfl⟩ |
    ⟨work, read, rfl, ho, rfl⟩ | ⟨work, read, name, rfl, rfl, hn⟩ | ⟨work, rfl, rfl, rfl⟩ :=
    outside_cases h
  · obtain ⟨-, rfl⟩ | ⟨-, rfl⟩ | ⟨-, rfl⟩ := hk
    · exact ⟨rfl, rfl⟩
    · exact ⟨rfl, rfl⟩
    · exact ⟨rfl, rfl⟩
  · exact ⟨rfl, rfl⟩
  · exact ⟨rfl, rfl⟩
  · exact ⟨rfl, rfl⟩
  · obtain ⟨-, rfl⟩ | ⟨-, rfl⟩ := hn
    · exact ⟨rfl, rfl⟩
    · exact ⟨rfl, rfl⟩
  · exact ⟨rfl, rfl⟩

theorem alert_turn (h : Alert s) (hv : Visited fs start s) (ht : Turn fs s e t) : Alert t := by
  have hsurplus := hv.surplus
  cases ht with
  | rest hw hst hz =>
    have hq : s.queue = [] := by
      apply List.eq_nil_of_length_eq_zero
      simp only [surplus] at hsurplus
      omega
    exact alert_set h hw (fun _ => rfl) (.inr hq)
  | go hw hst hz => exact alert_set h hw (fun hreq => absurd (count_of_fresh h hsurplus hreq) hz) (.inl rfl)
  | @sleep i woken w hw hst hq =>
    have hu : w.unused = false := by
      obtain rfl | rfl := hst
      · rfl
      · rfl
    exact alert_set h hw (fun hreq => absurd hreq (requested_of_used h hw hu)) (.inr hq)
  | @take i woken w work queue hw hst hq =>
    have hnot : s.requested ≠ [] := by
      intro hreq
      rw [(h.fresh hreq).1] at hq
      cases hq
    obtain ⟨hlt, -⟩ := List.getElem?_eq_some_iff.mp hw
    exact ⟨set_ne_nil h.staffed i _, fun hreq => absurd hreq hnot,
      fun _ => ⟨.lstat work, List.mem_set hlt _, rfl⟩⟩
  | @add i woken work read newWork workers hw hs =>
    obtain ⟨hlt, -⟩ := List.getElem?_eq_some_iff.mp hw
    obtain ⟨v, hv, hact⟩ := active_signal hs ⟨.reading work read, List.mem_set hlt _, Worker.noConfusion⟩
    have hnot := requested_of_used h hw rfl
    exact ⟨List.ne_nil_of_mem hv, fun hreq => absurd hreq hnot, fun _ => ⟨v, hv, hact⟩⟩
  | @finish i woken work hw =>
    have hnot := requested_of_used h hw rfl
    have hpos : 0 < s.workers.countP Worker.busy :=
      List.countP_pos_iff.mpr ⟨_, List.mem_of_getElem? hw, rfl⟩
    obtain ⟨hlt, -⟩ := List.getElem?_eq_some_iff.mp hw
    simp only [State.finish]
    split_ifs with hle
    · have hq : s.queue = [] := by
        apply List.eq_nil_of_length_eq_zero
        simp only [surplus] at hsurplus
        omega
      exact ⟨set_ne_nil h.staffed i _, fun hreq => absurd hreq hnot, fun hne => absurd hq hne⟩
    · exact ⟨set_ne_nil h.staffed i _, fun hreq => absurd hreq hnot, fun _ => ⟨.top, List.mem_set hlt _, rfl⟩⟩
  | @outside i outcome w w' hw ha ho =>
    obtain ⟨hu, hact⟩ := outside_active ho
    exact alert_set h hw (fun hreq => absurd hreq (requested_of_used h hw hu)) (.inl hact)
  | @request j woken c workers stage hc hst hle hs hstage =>
    have hreq : s.requested = [] := by
      obtain ⟨stage', hcallers, hrequested, -⟩ := hv.callers
      obtain ⟨rfl, -⟩ := callers_eq hcallers hc
      rw [hrequested, if_pos]
      obtain rfl | rfl := hst
      · exact .inl rfl
      · exact .inr (.inr rfl)
    obtain ⟨v, hmem⟩ := List.exists_mem_of_ne_nil _ h.staffed
    have hne : v ≠ .exited := by
      rintro rfl
      cases (h.fresh hreq).2 _ hmem
    obtain ⟨u, hu, hact⟩ := active_signal hs ⟨v, hmem, hne⟩
    exact ⟨List.ne_nil_of_mem hu, fun hnil => by simp at hnil, fun _ => ⟨u, hu, hact⟩⟩
  | busy | done => exact ⟨h.staffed, h.fresh, h.active⟩
  | wakeCaller => exact ⟨h.staffed, h.fresh, h.active⟩
  | @wakeWorker i w w' hw hwake =>
    obtain ⟨hact, hu⟩ := wake_active hwake
    exact alert_set h hw (fun hreq => hu.trans ((h.fresh hreq).2 w (List.mem_of_getElem? hw))) (.inl hact)

theorem alert_start {size : Nat} (hsize : 1 ≤ size) (work : Work) : Alert (requestOn size work) := by
  constructor
  case staffed =>
    intro hnil
    have hlen : size = 0 := by simpa [requestOn, fresh] using hnil
    omega
  case fresh =>
    intro _
    refine ⟨rfl, fun w hw => ?_⟩
    rw [List.eq_of_mem_replicate hw]
    rfl
  case active => exact fun hne => absurd rfl hne

end Alert

/-- The call of `crew_start` has returned, and no worker has anything to do. -/
structure Served (work : Work) (s : State) : Prop where
  returned : s.callers = [⟨work, .returned⟩]
  empty : s.queue = []
  quiet : ∀ w ∈ s.workers, w.active = false

section Stuck

variable {fs : FileSystem} {s : State} {start : Work} {i : Nat} {w : Worker}

theorem exists_signal (workers : List Worker) : ∃ woken workers', signal workers woken = some workers' := by
  by_cases hany : workers.any (fun w => w.wake.isSome) = true
  · obtain ⟨w, hw, hwake⟩ := List.any_eq_true.mp hany
    obtain ⟨i, hi⟩ := List.mem_iff_getElem?.mp hw
    obtain ⟨w', hw'⟩ := Option.isSome_iff_exists.mp hwake
    exact ⟨some i, workers.set i w', by simp [signal, hi, hw']⟩
  · exact ⟨none, workers, by simp only [signal, hany, Bool.false_eq_true, ↓reduceIte]⟩

theorem visit_outside {outcome : Outcome} {w' : Worker} (hw : s.workers[i]? = some w)
    (ha : fs.agrees w outcome = true) (ho : w.outside outcome = some w') :
    visit fs s (.outside i outcome) = some (s.setWorker i w') := by
  simp only [visit, hw, Option.bind_eq_bind, Option.bind_some, ha, ↓reduceIte, step, ho]
  rfl

/-- A worker that is up has a step to take. -/
theorem quiet_of_stuck (hstuck : Stuck (visit fs) isWork s)
    (hw : s.workers[i]? = some w) : w.active = false := by
  have hworker := hstuck (.worker i none) rfl
  simp only [visit, step, workerRoutine, hw, Option.bind_eq_bind, Option.bind_some] at hworker
  have houtside : ∀ outcome w', fs.agrees w outcome = true → w.outside outcome = some w' → False := by
    intro outcome w' ha ho
    have hno := hstuck (.outside i outcome) rfl
    rw [visit_outside hw ha ho] at hno
    cases hno
  cases w with
  | starting | wokenStart | top | wokenWork | finishing => cases hworker
  | blockedStart | blockedWork | exited => rfl
  | lstat work =>
    have ha : fs.agrees (.lstat work) (.lstat (fs.kind work.path)) = true := decide_eq_true rfl
    cases hk : fs.kind work.path with
    | link | directory | regular | other =>
      rw [hk] at ha
      exact (houtside _ _ ha rfl).elim
  | opening work => exact (houtside (.opendir true) _ rfl rfl).elim
  | reading work read =>
    have ha : fs.agrees (.reading work read) (.readdir (fs.entry work.path read)) = true := decide_eq_true rfl
    cases he : (Worker.reading work read).outside (.readdir (fs.entry work.path read)) with
    | some w' => exact (houtside _ w' ha he).elim
    | none =>
      cases hentry : fs.entry work.path read with
      | failure | endOfDirectory =>
        rw [hentry] at he
        cases he
      | name name =>
        rw [hentry] at he
        simp only [Worker.outside] at he
        split_ifs at he
  | adding work read newWork =>
    obtain ⟨woken, workers, hs⟩ := exists_signal (s.workers.set i (.reading work read))
    have hno := hstuck (.worker i woken) rfl
    simp only [visit, step, workerRoutine, hw, Option.bind_eq_bind, Option.bind_some, State.add,
      State.setWorker, hs] at hno
    cases hno
  | searching work => exact (houtside .searched _ rfl rfl).elim

theorem served_of_stuck (h : Visited fs start s) (ha : Alert s) (hr : Released s)
    (hstuck : Stuck (visit fs) isWork s) : Served start s := by
  have hquiet : ∀ w ∈ s.workers, w.active = false := by
    intro w hw
    obtain ⟨i, hi⟩ := List.mem_iff_getElem?.mp hw
    exact quiet_of_stuck hstuck hi
  have hq : s.queue = [] := by
    by_contra hne
    obtain ⟨w, hw, hact⟩ := ha.active hne
    rw [hquiet w hw] at hact
    cases hact
  have hbusy : s.workers.countP Worker.busy = 0 := by
    rw [List.countP_eq_zero]
    intro w hw hb
    have hno := hquiet w hw
    cases w with
    | blockedStart | blockedWork | exited => cases hb
    | _ => cases hno
  have hcount : s.workCount = 0 := by
    have hs := h.surplus
    simp only [surplus, hq, hbusy, List.length_nil] at hs
    omega
  refine ⟨?_, hq, hquiet⟩
  obtain ⟨stage, hcallers, -⟩ := h.callers
  have hblocked := hr (Int.le_of_eq hcount)
  have hget : s.callers[0]? = some ⟨start, stage⟩ := by rw [hcallers]; rfl
  have hno := fun woken => hstuck (.caller 0 woken) rfl
  simp only [visit, step, crewStart, hget, Option.bind_eq_bind, Option.bind_some] at hno
  cases stage with
  | returned => exact hcallers
  | blockedBusy | blockedDone =>
    rw [hcallers] at hblocked
    cases hblocked
  | wokenDone => cases hno none
  | entering | wokenBusy =>
    obtain ⟨woken, workers, hs⟩ := exists_signal s.workers
    have hnone := hno woken
    simp only [State.request, hcount, State.add, hs] at hnone
    cases hnone

end Stuck

/-- On every finite tree and however the threads take turns, `crew_start` comes to an end: the steps are
bounded by the numbers of the files and of their entries, with two more for each spurious wake-up, and no
item waits in the queue with all workers asleep. -/
theorem crew_serves (fs : FileSystem) (size : Nat) (hsize : 1 ≤ size) (work : Work) (paths : List Path)
    (hall : ∀ path, Reachable fs work.path path → path ∈ paths) :
    Completes (visit fs) isWork (Served work) (requestOn size work)
      ((paths.map (visitCost fs)).sum + 2 * size + 4) 2 := by
  have hdescends : Descends (visit fs) isWork (fun s => Visited fs work s ∧ Alert s ∧ Released s) 2
      (State.rest fs paths) := by
    constructor
    case keep =>
      rintro s e t ⟨hv, ha, hr⟩ ht
      exact ⟨visited_step hv ht, alert_turn ha hv (turn_of_visit ht), released_step hr (step_of_visit ht)⟩
    case down => exact fun s e t h ht he => rest_turn h.1 hall (turn_of_visit ht) he
    case up => exact fun s e t _ ht he => rest_wake (turn_of_visit ht) he
  apply completes_of_descends hdescends (fun s h hstuck => served_of_stuck h.1 h.2.1 h.2.2 hstuck)
  · exact ⟨visited_start fs size work, alert_start hsize work, fun _ => rfl⟩
  · simp [State.rest, untaken, requestOn, fresh, Worker.rank, Stage.rank, Nat.mul_comm]

theorem reachable_smallTree {path : Path} (h : Reachable smallTree ['d'] path) : path ∈ [['d'], ['d', '/', 'a']] := by
  induction h with
  | start => decide
  | @entry path name h hd hn h₁ h₂ ih =>
    obtain rfl | rfl : path = ['d'] ∨ path = ['d', '/', 'a'] := by simpa using ih
    · obtain rfl | rfl : name = dot ∨ name = ['a'] := by simpa [smallTree] using hn
      · exact absurd rfl h₁
      · decide
    · simp [smallTree] at hd

theorem crew_serves_smallTree :
    Completes (visit smallTree) isWork (Served ⟨['d'], []⟩) (requestOn 1 ⟨['d'], []⟩)
      (([['d'], ['d', '/', 'a']].map (visitCost smallTree)).sum + 2 * 1 + 4) 2 :=
  crew_serves smallTree 1 (by decide) ⟨['d'], []⟩ [['d'], ['d', '/', 'a']] (fun _ h => reachable_smallTree h)

end C11AndC.Crew
