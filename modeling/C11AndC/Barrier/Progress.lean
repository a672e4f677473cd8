import C11AndC.Barrier.Arrays
import C11AndC.Library.Progress

namespace C11AndC.Barrier

open C11AndC.Library

/-- The steps that a call still takes at most. One that has been woken without a reason sleeps again. -/
def Call.rest (barrier : BarrierT) (c : Call) : Nat :=
  match c.phase with
  | .returned _ => 0
  | .asleep => 2
  | .woken => if sameCycle c.cycle barrier then 3 else 1

def State.rest (s : State) : Nat := (s.calls.map (Call.rest s.barrier)).sum

section Calls

variable {n : Nat} {s : State}

theorem sum_map_mono {α : Type} {f g : α → Nat} {l : List α} (h : ∀ x ∈ l, f x ≤ g x) :
    (l.map f).sum ≤ (l.map g).sum := by
  induction l with
  | nil => exact Nat.le_refl _
  | cons x l ih =>
    have hx := h x (List.mem_cons_self ..)
    have hl := ih fun y hy => h y (List.mem_cons_of_mem _ hy)
    simp only [List.map_cons, List.sum_cons]
    omega

theorem rest_waitOrReturn (barrier : BarrierT) (thread : Nat) (cycle : BitVec 32) :
    Call.rest barrier ⟨thread, cycle, waitOrReturn cycle barrier⟩ ≤ 2 ∧
      (sameCycle cycle barrier = false → Call.rest barrier ⟨thread, cycle, waitOrReturn cycle barrier⟩ = 0) := by
  unfold waitOrReturn
  cases sameCycle cycle barrier <;> simp [Call.rest]

/-- With the end of a cycle its calls have only to find out about it. -/
theorem rest_awaken (hb : s.calls.length / n + 1 < 2 ^ 31) (h : Inv n s) {barrier : BarrierT}
    (hc : barrier.cycle = s.barrier.cycle + 1) : ∀ c ∈ s.calls, c.awaken.rest barrier ≤ c.rest s.barrier := by
  intro c hm
  obtain ⟨i, hi⟩ := List.mem_iff_getElem?.mp hm
  have hcycle := (h.calls i c hi).1
  have hle : i / n ≤ s.calls.length / n := Nat.div_le_div_right (Nat.le_of_lt (lt_of_call hi))
  have hother : sameCycle c.cycle barrier = false := by
    have hsucc : barrier.cycle = BitVec.ofNat 64 (s.calls.length / n + 1) := by
      rw [hc, h.cycle]
      exact (BitVec.ofNat_add _ 1).symm
    rw [← Bool.not_eq_true, sameCycle, hcycle, hsucc, signExtend_ofNat (by omega) (by omega)]
    omega
  unfold Call.awaken
  split_ifs with hp
  · simp [Call.rest, hp, hother]
  · cases hp' : c.phase with
    | asleep => exact absurd hp' hp
    | returned status => simp [Call.rest, hp']
    | woken =>
      simp only [Call.rest, hp', hother, Bool.false_eq_true, if_false]
      split_ifs <;> simp

theorem rest_append (barrier : BarrierT) (calls : List Call) (c : Call) :
    State.rest ⟨barrier, calls ++ [c]⟩ = (calls.map (Call.rest barrier)).sum + c.rest barrier := by
  simp [State.rest]

theorem rest_arrive (hb : s.calls.length / n + 1 < 2 ^ 31) (h : Inv n s) (thread : Nat) :
    (arrive thread s).rest ≤ s.rest + 2 := by
  unfold arrive
  dsimp only
  split_ifs with hz
  · rw [rest_append, List.map_map]
    apply Nat.add_le_add
    · exact sum_map_mono (rest_awaken hb h rfl)
    · exact Nat.zero_le 2
  · rw [rest_append]
    apply Nat.add_le_add
    · exact Nat.le_refl _
    · exact (rest_waitOrReturn s.barrier thread (s.barrier.cycle.truncate 32)).1

theorem rest_setPhase {i : Nat} {c : Call} (phase : Phase) (hc : s.calls[i]? = some c) :
    State.rest { s with calls := s.calls.set i { c with phase := phase } } + c.rest s.barrier =
      s.rest + Call.rest s.barrier { c with phase := phase } :=
  sum_map_set (Call.rest s.barrier) hc _

theorem rest_recheck {i : Nat} {c : Call} (hc : s.calls[i]? = some c) (hp : c.phase = .woken) :
    State.rest { s with calls := s.calls.set i { c with phase := waitOrReturn c.cycle s.barrier } } < s.rest := by
  have hset := rest_setPhase (waitOrReturn c.cycle s.barrier) hc
  obtain ⟨hle, hzero⟩ := rest_waitOrReturn s.barrier c.thread c.cycle
  have hold : c.rest s.barrier = if sameCycle c.cycle s.barrier then 3 else 1 := by
    rw [Call.rest, hp]
  rw [hold] at hset
  cases hsame : sameCycle c.cycle s.barrier with
  | true =>
    simp only [hsame, if_true] at hset
    omega
  | false =>
    have hz := hzero hsame
    simp only [hsame, Bool.false_eq_true, if_false] at hset
    omega

theorem rest_wake {i : Nat} {c : Call} (hc : s.calls[i]? = some c) (hp : c.phase = .asleep) :
    State.rest { s with calls := s.calls.set i { c with phase := .woken } } ≤ s.rest + 1 := by
  have hset := rest_setPhase .woken hc
  have hold : c.rest s.barrier = 2 := by rw [Call.rest, hp]
  have hnew : Call.rest s.barrier { c with phase := .woken } ≤ 3 := by
    simp only [Call.rest]
    split_ifs <;> simp
  omega

end Calls

/-- The steps of one round at most. -/
def lap (cfg : Config) : Nat := cfg.inLoops * (cfg.array + 1) + cfg.array + cfg.threads + 10

/-- The steps that a thread still takes at most, those inside of its calls included. -/
def Place.rest (cfg : Config) : Place → Nat
  | .unborn => (cfg.outLoops + 1) * lap cfg + 2
  | .round outLoop => (cfg.outLoops + 1 - outLoop) * lap cfg + 1
  | .first outLoop _ =>
      (cfg.outLoops - outLoop) * lap cfg + 1 + (cfg.inLoops * (cfg.array + 1) + cfg.array + cfg.threads + 7)
  | .inner outLoop inLoop count =>
      (cfg.outLoops - outLoop) * lap cfg + 1 +
        ((cfg.inLoops - inLoop) * (cfg.array + 1) + (cfg.array - count) + cfg.threads + 6)
  | .second outLoop => (cfg.outLoops - outLoop) * lap cfg + 1 + (cfg.threads + 5)
  | .after outLoop _ => (cfg.outLoops - outLoop) * lap cfg + 1 + (cfg.threads + 2)
  | .update outLoop threadNum => (cfg.outLoops - outLoop) * lap cfg + 1 + (cfg.threads - threadNum + 1)
  | .finished => 0

def Program.rest (cfg : Config) (s : Program) : Nat :=
  (s.threads.map fun x => x.place.rest cfg).sum + s.barrier.rest

section Rest

variable {cfg : Config} {s s' : Program} {t : Nat} {thread : Thread}

/-- A thread goes on; its call may have set the others in the barrier on their way. -/
theorem rest_move {thread' : Thread} {barrier : State} {c : Nat} (ht : s.threads[t]? = some thread)
    (hbar : barrier.rest ≤ s.barrier.rest + c) (hlt : thread'.place.rest cfg + c < thread.place.rest cfg)
    (hs : s'.threads = s.threads.set t thread') (hb : s'.barrier = barrier) : s'.rest cfg < s.rest cfg := by
  have hset := sum_map_set (fun x : Thread => x.place.rest cfg) ht thread'
  simp only [Program.rest, hs, hb]
  omega

theorem rest_goto (place : Place) (ht : s.threads[t]? = some thread)
    (hlt : place.rest cfg < thread.place.rest cfg) (arrays : List Int) :
    (s.goto t { thread with arrays := arrays } place).rest cfg < s.rest cfg :=
  rest_move (c := 0) ht (Nat.le_refl _) hlt rfl rfl

theorem rest_call {place : Nat → Place} (hL : 2 * (cfg.outLoops + 1) < 2 ^ 31)
    (h : ProgramInv cfg s) (ht : s.threads[t]? = some thread)
    (hhigh : begun cfg thread.place + 1 ≤ 2 * (cfg.outLoops + 1))
    (hlt : ∀ i, (place i).rest cfg + 2 < thread.place.rest cfg) (hs : s.call t thread place = some s') :
    s'.rest cfg < s.rest cfg := by
  obtain ⟨barrier, hbar, hs⟩ := Option.bind_eq_some_iff.mp hs
  cases hs
  have hlow := (h.threads t thread ht).low
  have hrest : barrier.rest ≤ s.barrier.rest + 2 := by
    obtain ⟨u, -, hu⟩ | ⟨i, c, he, -⟩ | ⟨i, c, he, -⟩ := step_cases hbar
    · obtain rfl | rfl := hu
      · exact Nat.le_add_right ..
      · exact rest_arrive (by omega) h.barrier u
    · cases he
    · cases he
  exact rest_move ht hrest (hlt _) rfl rfl

/-- The rounds behind the present one. -/
theorem lap_split {outLoop : Nat} (h : outLoop ≤ cfg.outLoops) :
    (cfg.outLoops + 1 - outLoop) * lap cfg = (cfg.outLoops - outLoop) * lap cfg + lap cfg := by
  have hsub : cfg.outLoops + 1 - outLoop = cfg.outLoops - outLoop + 1 := by omega
  rw [hsub, Nat.succ_mul]

theorem round_succ (outLoop : Nat) :
    (Place.round (outLoop + 1)).rest cfg = (cfg.outLoops - outLoop) * lap cfg + 1 := by
  simp only [Place.rest, Nat.add_sub_add_right]

theorem threadRoutine_rest (hL : 2 * (cfg.outLoops + 1) < 2 ^ 31)
    (h : ProgramInv cfg s) (hs : threadRoutine cfg s t = some s') : s'.rest cfg < s.rest cfg := by
  obtain ⟨thread, ht, hs⟩ := Option.bind_eq_some_iff.mp hs
  cases hp : thread.place with
  | unborn | finished =>
    rw [hp] at hs
    cases hs
  | round outLoop =>
    simp only [hp] at hs
    split_ifs at hs with hle
    · apply rest_call hL h ht _ _ hs
      · rw [hp, begun]
        omega
      · intro i
        rw [hp, Place.rest, Place.rest, lap_split hle, lap]
        omega
    · cases hs
      apply rest_goto _ ht _ thread.arrays
      rw [hp, Place.rest, Place.rest]
      exact Nat.succ_pos _
  | first outLoop i =>
    rw [hp] at hs
    obtain ⟨status, -, hs⟩ := Option.bind_eq_some_iff.mp hs
    cases hs
    apply rest_goto _ ht _ thread.arrays
    rw [hp, Place.rest, Place.rest, Nat.sub_zero, Nat.sub_zero]
    omega
  | inner outLoop inLoop count =>
    simp only [hp] at hs
    split_ifs at hs with hin hcount
    · cases hs
      apply rest_goto _ ht
      rw [hp, Place.rest, Place.rest]
      omega
    · cases hs
      apply rest_goto _ ht _ thread.arrays
      have hsub : cfg.inLoops - inLoop = cfg.inLoops - (inLoop + 1) + 1 := by omega
      rw [hp, Place.rest, Place.rest, hsub, Nat.succ_mul, Nat.sub_zero]
      omega
    · cases hs
      apply rest_goto _ ht _ thread.arrays
      rw [hp, Place.rest, Place.rest]
      omega
  | second outLoop =>
    rw [hp] at hs
    have hhigh := (h.threads t thread ht).high
    apply rest_call hL h ht _ _ hs
    · rw [hp, begun] at hhigh ⊢
      omega
    · intro i
      rw [hp, Place.rest, Place.rest]
      omega
  | after outLoop i =>
    rw [hp] at hs
    obtain ⟨status, -, hs⟩ := Option.bind_eq_some_iff.mp hs
    split_ifs at hs
    · cases hs
      apply rest_goto _ ht _ thread.arrays
      rw [hp, Place.rest, Place.rest]
      omega
    · cases hs
      apply rest_goto _ ht _ thread.arrays
      rw [hp, round_succ, Place.rest]
      omega
  | update outLoop threadNum =>
    simp only [hp] at hs
    split_ifs at hs with hlt
    · cases hs
      have hmod := map_modify (f := fun x : Thread => x.place.rest cfg) (g := bump) (fun _ => rfl)
        (s.threads.set t { thread with place := .update outLoop (threadNum + 1) }) threadNum
      have hlt : (Place.update outLoop (threadNum + 1)).rest cfg < thread.place.rest cfg := by
        rw [hp, Place.rest, Place.rest]
        omega
      have hgoto := rest_goto _ ht hlt thread.arrays
      simp only [Program.rest, Program.goto] at hgoto ⊢
      rw [hmod]
      exact hgoto
    · cases hs
      apply rest_goto _ ht _ thread.arrays
      rw [hp, round_succ, Place.rest]
      omega

end Rest

/-- The thread waits for call `i` to return. -/
def Place.awaits (i : Nat) : Place → Prop
  | .first _ j | .after _ j => j = i
  | _ => False

def Phase.done : Phase → Prop
  | .returned _ => True
  | _ => False

/-- A call that has not returned is the one that its thread is in. -/
def Inside (s : Program) : Prop :=
  ∀ (i : Nat) (c : Call), s.barrier.calls[i]? = some c → c.phase.done ∨
    ∃ thread, s.threads[c.thread]? = some thread ∧ thread.place.awaits i

section Inside

variable {cfg : Config} {s s' : Program} {t : Nat} {thread : Thread}

/-- A thread goes on that is in no call, or whose call has returned. -/
theorem inside_move (h : Inside s) (ht : s.threads[t]? = some thread)
    (hthreads : ∀ (u : Nat) x, u ≠ t → s.threads[u]? = some x → ∃ x', s'.threads[u]? = some x' ∧ x'.place = x.place)
    (hcalls : s'.barrier.calls = s.barrier.calls)
    (hdone : ∀ (i : Nat) c, s.barrier.calls[i]? = some c → thread.place.awaits i → c.phase.done) : Inside s' := by
  intro i c hc
  rw [hcalls] at hc
  obtain hd | ⟨x, hx, hi⟩ := h i c hc
  · exact .inl hd
  · by_cases hu : c.thread = t
    · rw [hu, ht] at hx
      cases hx
      exact .inl (hdone i c hc hi)
    · obtain ⟨x', hx', hplace⟩ := hthreads _ x hu hx
      exact .inr ⟨x', hx', hplace ▸ hi⟩

theorem inside_goto (h : Inside s) (ht : s.threads[t]? = some thread) (thread' : Thread) (place : Place)
    (hdone : ∀ (i : Nat) c, s.barrier.calls[i]? = some c → thread.place.awaits i → c.phase.done) :
    Inside (s.goto t thread' place) := by
  apply inside_move h ht
  · intro u x hu hx
    exact ⟨x, (List.getElem?_set_ne (Ne.symm hu)).trans hx, rfl⟩
  · rfl
  · exact hdone

theorem done_awaken {c : Call} (h : c.phase.done) : c.awaken.phase.done := by
  unfold Call.awaken
  split_ifs with hp
  · rw [hp] at h
    exact h.elim
  · exact h

theorem calls_arrive {barrier : State} {i : Nat} {c : Call} (thread : Nat)
    (hc : (arrive thread barrier).calls[i]? = some c) :
    (∃ d, barrier.calls[i]? = some d ∧ c.thread = d.thread ∧ (d.phase.done → c.phase.done)) ∨
      i = barrier.calls.length ∧ c.thread = thread := by
  have hthread : ∀ d : Call, d.awaken.thread = d.thread := by
    intro d
    unfold Call.awaken
    split_ifs <;> rfl
  unfold arrive at hc
  dsimp only at hc
  split_ifs at hc
  · obtain hc | ⟨hi, rfl⟩ := getElem?_snoc_cases hc
    · rw [List.getElem?_map, Option.map_eq_some_iff] at hc
      obtain ⟨d, hd, rfl⟩ := hc
      exact .inl ⟨d, hd, hthread d, done_awaken⟩
    · rw [List.length_map] at hi
      exact .inr ⟨hi, rfl⟩
  · obtain hc | ⟨hi, rfl⟩ := getElem?_snoc_cases hc
    · exact .inl ⟨c, hc, rfl, fun hd => hd⟩
    · exact .inr ⟨hi, rfl⟩

theorem inside_call {place : Nat → Place} (h : Inside s) (hb : Inv cfg.threads s.barrier)
    (ht : s.threads[t]? = some thread) (hs : s.call t thread place = some s')
    (hout : ∀ i, ¬ thread.place.awaits i) (hin : ∀ i, (place i).awaits i) : Inside s' := by
  obtain ⟨barrier, hbar, hs⟩ := Option.bind_eq_some_iff.mp hs
  cases hs
  have hbar' : barrier = arrive t s.barrier := by
    simp only [step, hb.valid, ne_eq, not_true_eq_false, ↓reduceIte] at hbar
    split_ifs at hbar
    exact (Option.some.inj hbar).symm
  intro i c hc
  change barrier.calls[i]? = some c at hc
  rw [hbar'] at hc
  have hlt := (List.getElem?_eq_some_iff.mp ht).1
  obtain ⟨d, hd, hthread, hdone⟩ | ⟨rfl, rfl⟩ := calls_arrive t hc
  · obtain hd' | ⟨x, hx, hi⟩ := h i d hd
    · exact .inl (hdone hd')
    · have hne : t ≠ c.thread := by
        rintro rfl
        rw [hthread] at ht
        rw [ht] at hx
        cases hx
        exact hout i hi
      refine .inr ⟨x, ?_, hi⟩
      rw [← hthread] at hx
      exact (List.getElem?_set_ne hne).trans hx
  · exact .inr ⟨_, List.getElem?_set_self hlt, hin _⟩

theorem not_done_of_none {i : Nat} {c : Call} (hc : s.barrier.calls[i]? = some c) :
    s.status i = none ↔ ¬ c.phase.done := by
  simp only [Program.status, hc, Option.bind_eq_bind, Option.bind_some]
  cases c.phase <;> simp [Phase.done]

theorem inside_threadRoutine (h : Inside s) (hb : Inv cfg.threads s.barrier)
    (hs : threadRoutine cfg s t = some s') : Inside s' := by
  obtain ⟨thread, ht, hs⟩ := Option.bind_eq_some_iff.mp hs
  have hout : (∀ i, ¬ thread.place.awaits i) → ∀ (i : Nat) c, s.barrier.calls[i]? = some c → thread.place.awaits i →
      c.phase.done := fun hno i _ _ hi => absurd hi (hno i)
  have hreturned : ∀ j status, s.status j = some status → (∀ i, thread.place.awaits i → j = i) →
      ∀ (i : Nat) c, s.barrier.calls[i]? = some c → thread.place.awaits i → c.phase.done := by
    intro j status hj hplace i c hc hi
    obtain rfl := hplace i hi
    by_contra hno
    rw [(not_done_of_none hc).mpr hno] at hj
    cases hj
  cases hp : thread.place with
  | unborn | finished =>
    rw [hp] at hs
    cases hs
  | round outLoop =>
    simp only [hp] at hs
    split_ifs at hs
    · exact inside_call h hb ht hs (by simp [hp, Place.awaits]) fun _ => rfl
    · cases hs
      exact inside_goto h ht _ _ (hout (by simp [hp, Place.awaits]))
  | first outLoop j =>
    simp only [hp] at hs
    obtain ⟨status, hst, hs⟩ := Option.bind_eq_some_iff.mp hs
    cases hs
    exact inside_goto h ht _ _ (hreturned j status hst (by simp [hp, Place.awaits]))
  | inner outLoop inLoop count =>
    simp only [hp] at hs
    split_ifs at hs <;> cases hs <;> exact inside_goto h ht _ _ (hout (by simp [hp, Place.awaits]))
  | second outLoop =>
    simp only [hp] at hs
    exact inside_call h hb ht hs (by simp [hp, Place.awaits]) fun _ => rfl
  | after outLoop j =>
    simp only [hp] at hs
    obtain ⟨status, hst, hs⟩ := Option.bind_eq_some_iff.mp hs
    split_ifs at hs <;> cases hs <;>
      exact inside_goto h ht _ _ (hreturned j status hst (by simp [hp, Place.awaits]))
  | update outLoop threadNum =>
    simp only [hp] at hs
    split_ifs at hs
    · cases hs
      apply inside_move h ht
      · intro u x hu hx
        have hget : (s.threads.set t { thread with place := .update outLoop (threadNum + 1) })[u]? = some x :=
          (List.getElem?_set_ne (Ne.symm hu)).trans hx
        simp only [Program.goto, List.getElem?_modify, hget]
        split_ifs
        · exact ⟨_, rfl, rfl⟩
        · exact ⟨_, rfl, rfl⟩
      · rfl
      · exact hout (by simp [hp, Place.awaits])
    · cases hs
      exact inside_goto h ht _ _ (hout (by simp [hp, Place.awaits]))

theorem inside_setPhase {barrier : State} {i : Nat} {c : Call} {phase : Phase} (h : Inside s)
    (hc : s.barrier.calls[i]? = some c) (hp : ¬ c.phase.done)
    (hb : barrier.calls = s.barrier.calls.set i { c with phase := phase }) :
    Inside { s with barrier := barrier } := by
  intro j d hd
  change barrier.calls[j]? = some d at hd
  rw [hb] at hd
  obtain ⟨rfl, rfl⟩ | ⟨-, hd⟩ := getElem?_set_cases hd
  · obtain hdone | hx := h _ c hc
    · exact absurd hdone hp
    · exact .inr hx
  · exact h j d hd

theorem inside_turn {a : Turn} (h : Inside s) (hi : ProgramInv cfg s)
    (hs : turn cfg s a = some s') : Inside s' := by
  cases a with
  | main =>
    obtain ⟨hlt, hs⟩ := Option.ite_none_right_eq_some.mp hs
    cases hs
    have hlen : s.threadCount < s.threads.length := by rwa [hi.size]
    have ht := List.getElem?_eq_getElem hlen
    have hunborn := (hi.unborn _ _ ht).mpr (Nat.le_refl _)
    apply inside_move h ht
    · intro u x hu hx
      exact ⟨x, (List.getElem?_set_ne (Ne.symm hu)).trans hx, rfl⟩
    · rfl
    · intro i c _ haw
      rw [hunborn] at haw
      exact haw.elim
  | thread t => exact inside_threadRoutine h hi.barrier hs
  | wake i =>
    obtain ⟨barrier, hbar, hs⟩ := Option.bind_eq_some_iff.mp hs
    cases hs
    obtain ⟨u, he, -⟩ | ⟨j, c, -, hc, hp, rfl⟩ | ⟨j, c, he, -⟩ := step_cases hbar
    · cases he
    · exact inside_setPhase h hc (by simp [hp, Phase.done]) rfl
    · cases he
  | recheck i =>
    obtain ⟨barrier, hbar, hs⟩ := Option.bind_eq_some_iff.mp hs
    cases hs
    obtain ⟨u, he, -⟩ | ⟨j, c, he, -⟩ | ⟨j, c, -, hc, hp, rfl⟩ := step_cases hbar
    · cases he
    · cases he
    · exact inside_setPhase h hc (by simp [hp, Phase.done]) rfl

end Inside

/-- What a thread or `main` does by itself. -/
def isWork : Turn → Bool
  | .wake _ => false
  | _ => true

section Stuck

variable {cfg : Config} {s : Program} {t : Nat} {thread : Thread}

/-- A thread that is in no call can make one. -/
theorem call_some (place : Nat → Place) (h : Inside s) (hb : Inv cfg.threads s.barrier)
    (ht : s.threads[t]? = some thread) (hout : ∀ i, ¬ thread.place.awaits i) :
    (s.call t thread place).isSome := by
  have hany : s.barrier.calls.any (Call.inside t) = false := by
    rw [List.any_eq_false]
    intro c hm hin
    obtain ⟨i, hc⟩ := List.mem_iff_getElem?.mp hm
    simp only [Call.inside, Bool.and_eq_true, decide_eq_true_eq] at hin
    obtain ⟨hthread, hphase⟩ := hin
    obtain hd | ⟨x, hx, hi⟩ := h i c hc
    · cases hp : c.phase <;> simp [hp, Phase.done] at hphase hd
    · rw [hthread, ht] at hx
      cases hx
      exact hout i hi
  simp [Program.call, step, hany, hb.valid]

/-- A thread that cannot go on has returned, or sleeps in the present cycle. -/
theorem waits_of_stuck (h : ProgramInv cfg s) (hi : Inside s) (hstuck : Stuck (turn cfg) isWork s)
    (ht : s.threads[t]? = some thread) : thread.place = .finished ∨
      begun cfg thread.place = s.barrier.calls.length / cfg.threads + 1 := by
  have hnone : threadRoutine cfg s t = none := hstuck (.thread t) rfl
  have hplace := (h.threads t thread ht).place
  simp only [threadRoutine, ht, Option.bind_eq_bind, Option.bind_some] at hnone
  have hcall : ∀ place : Nat → Place, (∀ i, ¬ thread.place.awaits i) → s.call t thread place ≠ none := by
    intro place hout hno
    have hsome := call_some place hi h.barrier ht hout
    rw [hno] at hsome
    cases hsome
  have hasleep : ∀ i, s.status i = none → i < s.barrier.calls.length →
      i / cfg.threads = s.barrier.calls.length / cfg.threads := by
    intro i hst hlt
    have hc := List.getElem?_eq_getElem hlt
    have hphase := (h.barrier.calls i _ hc).2
    have hno := (not_done_of_none hc).mp hst
    have hrecheck : step s.barrier (.recheck i) = none := by
      by_contra hsome
      obtain ⟨barrier, hbar⟩ := Option.ne_none_iff_exists'.mp hsome
      have hno' := hstuck (.recheck i) rfl
      simp [turn, hbar] at hno'
    cases hp : (s.barrier.calls[i]).phase with
    | asleep =>
      rw [hp] at hphase
      exact hphase
    | woken => simp [step, hc, hp] at hrecheck
    | returned status =>
      rw [hp] at hno
      exact absurd trivial hno
  cases hp : thread.place with
  | finished => exact .inl rfl
  | unborn =>
    have hcount : ¬ s.threadCount < cfg.threads := by
      have hmain : create cfg s = none := hstuck .main rfl
      unfold create at hmain
      split_ifs at hmain with hlt
      exact hlt
    have hlt := (List.getElem?_eq_some_iff.mp ht).1
    have hle := (h.unborn t thread ht).mp hp
    rw [h.size] at hlt
    omega
  | round outLoop =>
    simp only [hp] at hnone
    split_ifs at hnone
    exact absurd hnone (hcall _ (by simp [hp, Place.awaits]))
  | first outLoop i =>
    rw [hp] at hplace
    simp only [hp, Option.bind_eq_none_iff] at hnone
    have hst : s.status i = none := by
      cases hst : s.status i with
      | none => rfl
      | some status => exact absurd (hnone status hst) (by simp)
    exact .inr (hplace.2.symm.trans (by rw [hasleep i hst hplace.1]))
  | inner outLoop inLoop count =>
    simp only [hp] at hnone
    split_ifs at hnone
  | second outLoop =>
    simp only [hp] at hnone
    exact absurd hnone (hcall _ (by simp [hp, Place.awaits]))
  | after outLoop i =>
    rw [hp] at hplace
    simp only [hp, Option.bind_eq_none_iff] at hnone
    have hst : s.status i = none := by
      cases hst : s.status i with
      | none => rfl
      | some status =>
        have hle : ¬ status > 0 := by
          rw [(returned_cycle h hst).2]
          split_ifs <;> decide
        have hno := hnone status hst
        rw [if_neg hle] at hno
        split_ifs at hno
    exact .inr (hplace.2.symm.trans (by rw [hasleep i hst hplace.1]))
  | update outLoop threadNum =>
    simp only [hp] at hnone
    split_ifs at hnone

theorem finished_of_stuck (hT : 0 < cfg.threads) (h : ProgramInv cfg s) (hi : Inside s)
    (hstuck : Stuck (turn cfg) isWork s) : ∀ x ∈ s.threads, x.place = .finished := by
  have hwaits : ∀ x ∈ s.threads, x.place = .finished ∨
      begun cfg x.place = s.barrier.calls.length / cfg.threads + 1 := by
    intro x hx
    obtain ⟨t, ht⟩ := List.mem_iff_getElem?.mp hx
    exact waits_of_stuck h hi hstuck ht
  by_contra hno
  obtain ⟨x, hx, hne⟩ : ∃ x ∈ s.threads, x.place ≠ .finished := by simpa using hno
  have hxw := (hwaits x hx).resolve_left hne
  obtain ⟨t, ht⟩ := List.mem_iff_getElem?.mp hx
  have hhigh := (h.threads t x ht).high
  -- a finished thread would be a whole cycle further on
  have hall : ∀ y ∈ s.threads, begun cfg y.place = s.barrier.calls.length / cfg.threads + 1 := by
    intro y hy
    obtain hfin | hw := hwaits y hy
    · obtain ⟨u, hu⟩ := List.mem_iff_getElem?.mp hy
      have hplace := (h.threads u y hu).place
      rw [hfin] at hplace
      simp only [PlaceOk, begun] at hplace
      omega
    · exact hw
  have hsum := h.sum
  rw [List.map_congr_left hall, List.map_const', List.sum_replicate_nat, h.size, Nat.mul_add] at hsum
  have hmod := Nat.div_add_mod s.barrier.calls.length cfg.threads
  have hlt := Nat.mod_lt s.barrier.calls.length hT
  omega

end Stuck

/-- Every step but a needless wake-up brings the threads nearer to their end. -/
theorem descends_turn (cfg : Config) (hT : 0 < cfg.threads) (hL : 2 * (cfg.outLoops + 1) < 2 ^ 31) :
    Descends (turn cfg) isWork (fun s => ProgramInv cfg s ∧ Inside s) 1 (Program.rest cfg) := by
  constructor
  case keep => exact fun s a t h ht => ⟨inv_turn hT hL h.1 ht, inside_turn h.2 h.1 ht⟩
  case down =>
    intro s a t h ht ha
    cases a with
    | main =>
      obtain ⟨hlt, ht⟩ := Option.ite_none_right_eq_some.mp ht
      cases ht
      have hlen : s.threadCount < s.threads.length := by rwa [h.1.size]
      have hget := List.getElem?_eq_getElem hlen
      refine rest_move (c := 0) hget (Nat.le_refl s.barrier.rest) ?_ rfl rfl
      rw [(h.1.unborn _ _ hget).mpr (Nat.le_refl _), Place.rest, Place.rest, Nat.sub_zero]
      omega
    | thread u => exact threadRoutine_rest hL h.1 ht
    | wake i => cases ha
    | recheck i =>
      obtain ⟨barrier, hbar, ht⟩ := Option.bind_eq_some_iff.mp ht
      cases ht
      obtain ⟨u, he, -⟩ | ⟨j, c, he, -⟩ | ⟨j, c, -, hc, hp, rfl⟩ := step_cases hbar
      · cases he
      · cases he
      · exact Nat.add_lt_add_left (rest_recheck hc hp) _
  case up =>
    intro s a t h ht ha
    cases a with
    | main | thread | recheck => cases ha
    | wake i =>
      obtain ⟨barrier, hbar, ht⟩ := Option.bind_eq_some_iff.mp ht
      cases ht
      obtain ⟨u, he, -⟩ | ⟨j, c, -, hc, hp, rfl⟩ | ⟨j, c, he, -⟩ := step_cases hbar
      · cases he
      · exact Nat.add_le_add_left (rest_wake hc hp) _
      · cases he

theorem inside_start (cfg : Config) : Inside (start cfg) := by
  intro i c hc
  simp [start, init] at hc

theorem rest_start (cfg : Config) :
    (start cfg).rest cfg = cfg.threads * ((cfg.outLoops + 1) * lap cfg + 2) := by
  simp [Program.rest, start, init, State.rest, Place.rest]

end C11AndC.Barrier
