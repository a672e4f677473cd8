import C11AndC.Crew.Count

namespace C11AndC.Crew

open C11AndC.Library

/-- Outstanding work has a worker left that may come to do it. -/
def Staffed (s : State) : Prop := s.workCount > 0 → ∃ w ∈ s.workers, w ≠ .exited

def Worker.gone (w : Worker) : Bool := w = .exited

/-- Every request but the one that is going on has cost the crew a worker. -/
structure Tally (size : Nat) (s : State) : Prop where
  surplus : surplus s = 0
  size : s.workers.length = size
  gone : s.workers.countP Worker.gone + (if s.workCount > 0 then 1 else 0) = s.requested.length

section Steps

variable {size : Nat} {s t : State} {i j : Nat} {w w' : Worker}

theorem count_nonneg (h : Tally size s) : 0 ≤ s.workCount := by
  have := h.surplus
  simp only [Crew.surplus] at this
  omega

theorem gone_set {workers : List Worker} (w' : Worker) (hw : workers[i]? = some w) (h : w.gone = false)
    (h' : w'.gone = false) :
    (workers.set i w').countP Worker.gone = workers.countP Worker.gone := by
  have hset := countP_set Worker.gone hw w'
  rw [h, h'] at hset
  simp only [Bool.false_eq_true, ↓reduceIte] at hset
  omega

theorem gone_wake (h : w.wake = some w') : w.gone = false ∧ w'.gone = false := by
  cases w with
  | blockedStart =>
    cases h
    exact ⟨rfl, rfl⟩
  | blockedWork =>
    cases h
    exact ⟨rfl, rfl⟩
  | _ => cases h

theorem signal_gone {workers workers' : List Worker} {woken : Option Nat}
    (h : signal workers woken = some workers') :
    workers'.countP Worker.gone = workers.countP Worker.gone ∧
      workers'.length = workers.length := by
  obtain rfl | ⟨i, w, w', hw, hwake, rfl⟩ := signal_spec h
  · exact ⟨rfl, rfl⟩
  · exact ⟨gone_set w' hw (gone_wake hwake).1 (gone_wake hwake).2, List.length_set⟩

theorem busy_gone (h : w.busy = true) : w.gone = false := by
  cases w with
  | exited => cases h
  | _ => rfl

theorem outside_gone {outcome : Outcome} (h : w.outside outcome = some w') :
    w'.gone = false := by
  obtain ⟨work, kind, -, -, hk⟩ | ⟨work, -, -, rfl⟩ | ⟨work, -, -, rfl⟩ |
    ⟨work, read, -, -, rfl⟩ | ⟨work, read, name, -, -, hn⟩ | ⟨work, -, -, rfl⟩ := outside_cases h
  · obtain ⟨-, rfl⟩ | ⟨-, rfl⟩ | ⟨-, rfl⟩ := hk <;> rfl
  · rfl
  · rfl
  · rfl
  · obtain ⟨-, rfl⟩ | ⟨-, rfl⟩ := hn <;> rfl
  · rfl

theorem requested_worker {woken : Option Nat} (h : workerRoutine s i woken = some t) :
    t.requested = s.requested := by
  obtain ⟨w, -, h⟩ := Option.bind_eq_some_iff.mp h
  have htake : (s.take i).requested = s.requested := by
    unfold State.take
    split <;> rfl
  cases w with
  | starting =>
    cases h
    rfl
  | wokenStart =>
    cases h
    rfl
  | top =>
    cases h
    exact htake
  | wokenWork =>
    cases h
    exact htake
  | adding work read newWork =>
    obtain ⟨workers, -, h⟩ := Option.bind_eq_some_iff.mp h
    cases h
    rfl
  | finishing work =>
    cases h
    simp only [State.finish]
    split_ifs <;> rfl
  | blockedStart | blockedWork | lstat | opening | reading | searching | exited => cases h

/-- A worker moves, but does not leave. -/
theorem tally_setWorker (h : Tally size s) (hw : s.workers[i]? = some w) (hg : w.gone = false)
    (hg' : w'.gone = false) (hs : Crew.surplus (s.setWorker i w') = 0) :
    Tally size (s.setWorker i w') := by
  refine ⟨hs, ?_, ?_⟩
  · exact List.length_set.trans h.size
  · simp only [State.setWorker, gone_set w' hw hg hg']
    exact h.gone

theorem tally_take (h : Tally size s) (hw : s.workers[i]? = some w) (hg : w.gone = false)
    (hs : Crew.surplus (s.take i) = 0) : Tally size (s.take i) := by
  unfold State.take at hs ⊢
  split at hs
  · exact tally_setWorker h hw hg rfl hs
  · refine ⟨hs, ?_, ?_⟩
    · exact List.length_set.trans h.size
    · rename_i work queue hq
      simp only [State.setWorker, gone_set (.lstat work) hw hg rfl]
      exact h.gone

/-- The worker that brings the count down to zero leaves. -/
theorem tally_finish {work : Work} (h : Tally size s)
    (hw : s.workers[i]? = some (.finishing work)) (hs : Crew.surplus (s.finish i work) = 0) :
    Tally size (s.finish i work) := by
  have hpos := busy_count h.surplus hw rfl
  have hgone := h.gone
  rw [if_pos hpos] at hgone
  simp only [State.finish] at hs ⊢
  split_ifs at hs ⊢ with hc
  · refine ⟨hs, List.length_set.trans h.size, ?_⟩
    have hset := countP_set Worker.gone hw .exited
    have hn : ¬ s.workCount - 1 > 0 := Int.not_lt.mpr hc
    have hexit : (s.workers.set i .exited).countP Worker.gone =
        s.workers.countP Worker.gone + 1 := by
      simp only [Worker.gone, reduceCtorEq, decide_false, decide_true, Bool.false_eq_true,
        ↓reduceIte] at hset ⊢
      omega
    change (s.workers.set i .exited).countP Worker.gone + (if s.workCount - 1 > 0 then 1 else 0) =
      s.requested.length
    rw [if_neg hn, hexit, hgone]
  · refine ⟨hs, List.length_set.trans h.size, ?_⟩
    have hp : s.workCount - 1 > 0 := Int.not_le.mp hc
    change (s.workers.set i .top).countP Worker.gone + (if s.workCount - 1 > 0 then 1 else 0) =
      s.requested.length
    rw [if_pos hp, gone_set .top hw rfl rfl, hgone]

theorem tally_add {work : Work} {woken : Option Nat} (h : s.add work woken = some t) :
    t.workers.length = s.workers.length ∧
      t.workers.countP Worker.gone = s.workers.countP Worker.gone ∧
      t.workCount = s.workCount + 1 ∧ t.requested = s.requested := by
  obtain ⟨workers, hw, h⟩ := Option.bind_eq_some_iff.mp h
  cases h
  exact ⟨(signal_gone hw).2, (signal_gone hw).1, rfl, rfl⟩

theorem tally_worker {woken : Option Nat} (h : Tally size s)
    (hs : workerRoutine s i woken = some t) : Tally size t := by
  have hsur : Crew.surplus t = 0 := (surplus_worker hs).trans h.surplus
  obtain ⟨w, hw, hs⟩ := Option.bind_eq_some_iff.mp hs
  have hstart : (if s.workCount = 0 then Worker.blockedStart else Worker.top).gone = false := by
    split_ifs <;> rfl
  cases w with
  | starting =>
    cases hs
    exact tally_setWorker h hw rfl hstart hsur
  | wokenStart =>
    cases hs
    exact tally_setWorker h hw rfl hstart hsur
  | top =>
    cases hs
    exact tally_take h hw rfl hsur
  | wokenWork =>
    cases hs
    exact tally_take h hw rfl hsur
  | adding work read newWork =>
    have hpos := busy_count h.surplus hw rfl
    have hgone := h.gone
    obtain ⟨hlen, hg, hc, hr⟩ := tally_add hs
    simp only [State.setWorker, List.length_set,
      gone_set (.reading work read) hw rfl rfl] at hlen hg hc hr
    refine ⟨hsur, hlen.trans h.size, ?_⟩
    rw [if_pos hpos] at hgone
    rw [if_pos (by omega), hg, hr, hgone]
  | finishing work =>
    cases hs
    exact tally_finish h hw hsur
  | blockedStart | blockedWork | lstat | opening | reading | searching | exited => cases hs

theorem tally_request {c : Caller} {woken : Option Nat} (h : Tally size s)
    (hs : s.request j c woken = some t) : Tally size t ∧ (t.requested = s.requested ∨
      t.requested.length = s.requested.length + 1 ∧ t.workCount > 0) := by
  have hsur : Crew.surplus t = 0 := (surplus_request hs).trans h.surplus
  have hnonneg := count_nonneg h
  have hgone := h.gone
  simp only [State.request] at hs
  split_ifs at hs with hpos
  · cases hs
    exact ⟨⟨hsur, h.size, hgone⟩, .inl rfl⟩
  · obtain ⟨u, hu, hs⟩ := Option.bind_eq_some_iff.mp hs
    cases hs
    obtain ⟨hlen, hg, hc, hr⟩ := tally_add hu
    rw [if_neg hpos] at hgone
    have hone : u.workCount > 0 := by omega
    have hreq : (u.requested ++ [c.work.path]).length = s.requested.length + 1 := by
      rw [hr, List.length_append, List.length_singleton]
    refine ⟨⟨hsur, hlen.trans h.size, ?_⟩, .inr ⟨hreq, hone⟩⟩
    change u.workers.countP Worker.gone + (if u.workCount > 0 then 1 else 0) =
      (u.requested ++ [c.work.path]).length
    rw [if_pos hone, hg, hreq]
    omega

/-- A step keeps the tally, and it may put one more request to the crew. -/
theorem tally_step {e : Event} (h : Tally size s) (hf : e.fails = false)
    (hs : step s e = some t) : Tally size t ∧ (t.requested = s.requested ∨
      t.requested.length = s.requested.length + 1 ∧ t.workCount > 0) := by
  have hsur : Crew.surplus t = 0 := by
    rw [surplus_step hs, h.surplus, hf]
    rfl
  cases e with
  | call work =>
    cases hs
    exact ⟨⟨hsur, h.size, h.gone⟩, .inl rfl⟩
  | caller j woken =>
    obtain ⟨c, -, hs⟩ := Option.bind_eq_some_iff.mp hs
    cases hst : c.stage with
    | entering =>
      rw [hst] at hs
      exact tally_request h hs
    | wokenBusy =>
      rw [hst] at hs
      exact tally_request h hs
    | wokenDone =>
      rw [hst] at hs
      cases hs
      exact ⟨⟨hsur, h.size, h.gone⟩, .inl rfl⟩
    | blockedBusy | blockedDone | returned =>
      rw [hst] at hs
      cases hs
  | worker i woken =>
    refine ⟨tally_worker h hs, .inl ?_⟩
    exact requested_worker hs
  | outside i outcome =>
    obtain ⟨w, hw, hs⟩ := Option.bind_eq_some_iff.mp hs
    obtain ⟨w', hw', hs⟩ := Option.bind_eq_some_iff.mp hs
    cases hs
    exact ⟨tally_setWorker h hw (busy_gone (outside_busy hw').1) (outside_gone hw') hsur, .inl rfl⟩
  | wakeWorker i =>
    obtain ⟨w, hw, hs⟩ := Option.bind_eq_some_iff.mp hs
    obtain ⟨w', hw', hs⟩ := Option.bind_eq_some_iff.mp hs
    cases hs
    exact ⟨tally_setWorker h hw (gone_wake hw').1 (gone_wake hw').2 hsur, .inl rfl⟩
  | wakeCaller j =>
    obtain ⟨c, -, hs⟩ := Option.bind_eq_some_iff.mp hs
    obtain ⟨stage, -, hs⟩ := Option.bind_eq_some_iff.mp hs
    cases hs
    exact ⟨⟨hsur, h.size, h.gone⟩, .inl rfl⟩

end Steps

theorem tally_fresh (size : Nat) : Tally size (fresh size) := by
  refine ⟨surplus_fresh size, List.length_replicate, ?_⟩
  have hg : (List.replicate size Worker.starting).countP Worker.gone = 0 := by
    rw [List.countP_replicate]
    rfl
  simp [fresh, hg]

/-- With work outstanding the crew has a worker left exactly if the requests are no more
than the workers. -/
theorem staffed_iff {size : Nat} {s : State} (h : Tally size s) :
    Staffed s ↔ (s.workCount > 0 → s.requested.length ≤ size) := by
  have hsplit : (∃ w ∈ s.workers, w ≠ .exited) ↔ s.workers.countP Worker.gone < size := by
    have hall := List.countP_eq_length (p := Worker.gone) (l := s.workers)
    have hle := List.countP_le_length (p := Worker.gone) (l := s.workers)
    rw [← h.size, Nat.lt_iff_le_and_ne, ne_eq, hall]
    simp [Worker.gone, hle]
  have hgone := h.gone
  refine forall_congr' (fun hpos => ?_)
  rw [if_pos hpos] at hgone
  rw [hsplit, ← hgone]
  exact Iff.rfl

theorem requested_le {size : Nat} {s t : State} {es : List Event} (h : Tally size s)
    (hf : Each step (fun _ e => e.fails = false) s es) (hr : run step s es = some t) :
    s.requested.length ≤ t.requested.length := by
  induction es generalizing s with
  | nil =>
    cases hr
    exact Nat.le_refl _
  | cons e es ih =>
    obtain ⟨u, hu, hr⟩ := run_cons.mp hr
    obtain ⟨hfe, hfu⟩ := hf u hu
    obtain ⟨htally, hreq⟩ := tally_step h hfe hu
    have hle := ih htally hfu hr
    obtain heq | ⟨heq, -⟩ := hreq
    · rw [heq] at hle
      exact hle
    · omega

theorem staffed_run {size : Nat} {s t : State} {es : List Event} (h : Tally size s)
    (hle : s.requested.length ≤ size) (hf : Each step (fun _ e => e.fails = false) s es)
    (hr : run step s es = some t) : Always step Staffed s es ↔ t.requested.length ≤ size := by
  induction es generalizing s with
  | nil =>
    cases hr
    exact ⟨fun _ => hle, fun _ => (staffed_iff h).mpr (fun _ => hle)⟩
  | cons e es ih =>
    obtain ⟨u, hu, hr⟩ := run_cons.mp hr
    obtain ⟨hfe, hfu⟩ := hf u hu
    obtain ⟨htally, hreq⟩ := tally_step h hfe hu
    have hhead : Staffed s := (staffed_iff h).mpr (fun _ => hle)
    have hmono := requested_le htally hfu hr
    refine ⟨fun ha => ?_, fun ht => ⟨hhead, fun v hv => ?_⟩⟩
    · have hau := ha.2 u hu
      have hu' : u.requested.length ≤ size := by
        obtain heq | ⟨-, hpos⟩ := hreq
        · rw [heq]
          exact hle
        · exact (staffed_iff htally).mp (always_head hau) hpos
      exact (ih htally hu' hfu hr).mp hau
    · cases hu.symm.trans hv
      exact (ih htally (Nat.le_trans hmono ht) hfu hr).mpr ht

/-- A crew of `crew_create` always has a worker for its outstanding work exactly if no
more requests are put to it than it has workers. -/
theorem always_staffed_iff {size : Int} {s₀ s : State} (hc : crewCreate size = .ok s₀)
    {es : List Event} (hr : run step s₀ es = some s)
    (hf : Each step (fun _ e => e.fails = false) s₀ es) :
    Always step Staffed s₀ es ↔ s.requested.length ≤ crewSize := by
  unfold crewCreate at hc
  split_ifs at hc
  cases hc
  exact staffed_run (tally_fresh crewSize) (Nat.zero_le _) hf hr

end C11AndC.Crew
