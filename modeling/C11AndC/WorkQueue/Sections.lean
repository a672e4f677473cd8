import C11AndC.WorkQueue.Model

namespace C11AndC.WorkQueue

open C11AndC.Library

variable {st : Store WorkqEle Workq}

/-- The shared variables as a server finds them once it is out of its wait. -/
def outOfWait (pc : Server) (wq : Workq) : Workq :=
  match pc with
  | .woken _ => { wq with idle := wq.idle - 1 }
  | _ => wq

/-- Everything a server can do in one section: block, take the first element,
exit, or go back to the head of its loop. -/
inductive Effect (pc : Server) (st : Store WorkqEle Workq) :
    Server × Bool → Store WorkqEle Workq → Prop
  | block (h : st.reg.first = 0) (hq : st.reg.quit = false) :
      Effect pc st (.blocked, false)
        ⟨st.mem, { outOfWait pc st.reg with idle := (outOfWait pc st.reg).idle + 1 }⟩
  | take (e : WorkqEle) (b : Bool) (h : st.reg.first ≠ 0)
      (he : st.mem.cell st.reg.first = some e) (hpc : ∀ b, pc ≠ .relocking b) :
      Effect pc st (.calling st.reg.first b, false)
        ⟨st.mem, { outOfWait pc st.reg with first := e.next, last := 0 }⟩
  | quit (h : st.reg.first = 0) (hq : st.reg.quit = true) :
      Effect pc st (.exited, decide (st.reg.counter - 1 = 0))
        ⟨st.mem, { outOfWait pc st.reg with counter := st.reg.counter - 1 }⟩
  | expire (h : st.reg.first = 0) (hq : st.reg.quit = false) :
      Effect pc st (.exited, false)
        ⟨st.mem, { outOfWait pc st.reg with counter := st.reg.counter - 1 }⟩
  | again (b : Bool) (hpc : pc = .relocking b) : Effect pc st (.top, false) st

theorem wp_finishRound (b : Bool) {Q : Server × Bool → Store WorkqEle Workq → Prop}
    (hquit : st.reg.first = 0 → st.reg.quit = true →
      Q (.exited, decide (st.reg.counter - 1 = 0))
        ⟨st.mem, { st.reg with counter := st.reg.counter - 1 }⟩)
    (hexp : st.reg.first = 0 → st.reg.quit = false → b = true →
      Q (.exited, false) ⟨st.mem, { st.reg with counter := st.reg.counter - 1 }⟩)
    (hagain : ¬ (st.reg.first = 0 ∧ (st.reg.quit = true ∨ b = true)) → Q (.top, false) st) :
    wp (finishRound b) Q st := by
  by_cases h : st.reg.first = 0 <;> cases hq : st.reg.quit <;> cases b <;>
    simp_all [finishRound]

theorem wp_dequeue {we : Nat} {e : WorkqEle} {Q : Unit → Store WorkqEle Workq → Prop}
    (he : st.mem.cell we = some e)
    (h : Q () ⟨st.mem, { st.reg with first := e.next, last := 0 }⟩) :
    wp (dequeue we) Q st := by
  have hw : we ≠ 0 := Memory.ne_zero_of_cell he
  simpa [dequeue, he, hw] using h

theorem wp_serve (b : Bool) {Q : Server × Bool → Store WorkqEle Workq → Prop}
    (hquit : st.reg.first = 0 → st.reg.quit = true →
      Q (.exited, decide (st.reg.counter - 1 = 0))
        ⟨st.mem, { st.reg with counter := st.reg.counter - 1 }⟩)
    (hexp : st.reg.first = 0 → st.reg.quit = false → b = true →
      Q (.exited, false) ⟨st.mem, { st.reg with counter := st.reg.counter - 1 }⟩)
    (hagain : st.reg.first = 0 → st.reg.quit = false → b = false → Q (.top, false) st)
    (htake : st.reg.first ≠ 0 → ∃ e, st.mem.cell st.reg.first = some e ∧
      Q (.calling st.reg.first b, false) ⟨st.mem, { st.reg with first := e.next, last := 0 }⟩) :
    wp (serve b) Q st := by
  simp only [serve, wp_bind, wp_getReg, wp_ite, wp_pure]
  refine ⟨fun h => wp_finishRound b hquit hexp fun hn => hagain h ?_ ?_, fun h => ?_⟩
  · simpa using fun hq => hn ⟨h, .inl hq⟩
  · simpa using fun hb => hn ⟨h, .inr hb⟩
  · obtain ⟨e, he, hq⟩ := htake h
    exact wp_dequeue he hq

theorem wp_waitForWork {Q : Server × Bool → Store WorkqEle Workq → Prop}
    (hblock : st.reg.first = 0 → st.reg.quit = false →
      Q (.blocked, false) ⟨st.mem, { st.reg with idle := st.reg.idle + 1 }⟩)
    (hquit : st.reg.first = 0 → st.reg.quit = true →
      Q (.exited, decide (st.reg.counter - 1 = 0))
        ⟨st.mem, { st.reg with counter := st.reg.counter - 1 }⟩)
    (htake : st.reg.first ≠ 0 → ∃ e, st.mem.cell st.reg.first = some e ∧
      Q (.calling st.reg.first false, false)
        ⟨st.mem, { st.reg with first := e.next, last := 0 }⟩) :
    wp waitForWork Q st := by
  simp only [waitForWork, wp_bind, wp_getReg, wp_ite, wp_setReg, wp_pure]
  refine ⟨fun h => hblock h.1 h.2, fun h => wp_serve false hquit ?_ ?_ htake⟩
  · exact fun _ _ hb => absurd hb (by simp)
  · exact fun h₀ hq _ => absurd ⟨h₀, hq⟩ h

/-- One section of a server has one of the listed effects, provided the head of
the queue is allocated. -/
theorem workqServer_effect {pc : Server} {p : Section (Server × Bool)} (hp : workqServer pc = some p)
    (hfirst : st.reg.first ≠ 0 → ∃ e, st.mem.cell st.reg.first = some e) :
    wp p (Effect pc st) st := by
  cases pc with
  | starting | top =>
    cases hp
    refine wp_waitForWork .block .quit fun h => ?_
    obtain ⟨e, he⟩ := hfirst h
    exact ⟨e, he, .take e false h he (by simp)⟩
  | woken b =>
    cases hp
    cases b with
    | false =>
      simp only [Bool.false_eq_true, ↓reduceIte, leaveWait, wp_bind, wp_setReg]
      refine wp_waitForWork (fun h hq => .block h hq) (fun h hq => .quit h hq) fun h => ?_
      obtain ⟨e, he⟩ := hfirst h
      exact ⟨e, he, .take e false h he (by simp)⟩
    | true =>
      simp only [↓reduceIte, leaveWait, wp_bind, wp_setReg]
      refine wp_serve true (fun h hq => .quit h hq) (fun h hq _ => .expire h hq) (by simp) fun h => ?_
      obtain ⟨e, he⟩ := hfirst h
      exact ⟨e, he, .take e true h he (by simp)⟩
  | relocking b =>
    cases hp
    exact wp_finishRound b .quit (fun h hq _ => .expire h hq) fun _ => .again b rfl
  | blocked | calling | inEngine | exited => cases hp

/-- `workq_add` under the mutex once the element is in the chain. -/
theorem workqAdd_ok {item : Nat} {st' : Store WorkqEle Workq}
    (h : append item st = .ok ((), st')) :
    workqAdd 0 0 item st =
      if 0 < st'.reg.idle then
        .ok ((0, .signal), st')
      else if st'.reg.counter < st'.reg.parallelism then
        .ok ((0, .create), ⟨st'.mem, { st'.reg with counter := st'.reg.counter + 1 }⟩)
      else
        .ok ((0, .none), st') := by
  split_ifs with hi hc
  all_goals
    apply ok_of_wp_eq
    rw [workqAdd, wp_bind, wp_of_ok h]
    simp
  all_goals omega

theorem within_cases {β : Type} {s t : Sys} {p : Section β} {k : β → Sys → Option Sys}
    {Q : β → Store WorkqEle Workq → Prop} (hp : wp p Q s.store) (h : within s p k = some t) :
    ∃ r st, Q r st ∧ k r { s with store := st } = some t := by
  obtain ⟨r, st, he, hq⟩ := hp
  refine ⟨r, st, hq, ?_⟩
  simpa only [within, he] using h

end C11AndC.WorkQueue
