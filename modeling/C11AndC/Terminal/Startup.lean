import C11AndC.Library.Lists
import C11AndC.Library.Runs

namespace C11AndC.Terminal.Startup

open C11AndC.Library

/-- Where `main` is: at the test of its loop with the given count, at the creation of a client,
behind the loop before it has the mutex, in its wait, out of it again, or behind it. -/
inductive Main where
  | testing (count : Nat)
  | creating (count : Nat)
  | locking
  | waiting
  | woken
  | done
  deriving DecidableEq

inductive Client where
  | running
  | finished
  deriving DecidableEq

structure State where
  clientThreads : Int
  main : Main
  clients : List Client
  deriving DecidableEq

def init (threads : Int) : State := ⟨threads, .testing 0, []⟩

/-- The test of the wait loop, with the mutex. -/
def awaitClients (s : State) : State :=
  if s.clientThreads > 0 then { s with main := .waiting } else { s with main := .done }

def mainStep (s : State) : Option State :=
  match s.main with
  | .testing count =>
      if count < s.clientThreads then some { s with main := .creating count }
      else some { s with main := .locking }
  | .creating count =>
      some { s with main := .testing (count + 1), clients := s.clients ++ [.running] }
  | .locking | .woken => some (awaitClients s)
  | .waiting | .done => none

/-- A signal on `clients_done`. -/
def Main.signal : Main → Main
  | .waiting => .woken
  | main => main

/-- The end of `client_routine`, under the mutex. -/
def clientDone (s : State) (i : Nat) : State :=
  let clientThreads := s.clientThreads - 1
  { clientThreads := clientThreads
    main := if clientThreads ≤ 0 then s.main.signal else s.main
    clients := s.clients.set i .finished }

/-- What can happen next; the wait may end without a signal. -/
inductive Action where
  | main
  | clientDone (i : Nat)
  | wakeMain
  deriving DecidableEq

def step (s : State) : Action → Option State
  | .main => mainStep s
  | .clientDone i => if s.clients[i]? = some .running then some (clientDone s i) else none
  | .wakeMain => some { s with main := s.main.signal }

def finished (s : State) : Nat := s.clients.countP (· = .finished)

/-- The creation loop has ended. -/
def Main.pastLoop : Main → Bool
  | .testing _ | .creating _ => false
  | _ => true

/-- Behind the loop the counter is right, and when all clients have finished it is 0, and `main`
does not wait. -/
structure Accounts (s : State) : Prop where
  count : s.main.pastLoop = true → s.clientThreads = s.clients.length - finished s
  ends : s.main.pastLoop = true → finished s = s.clients.length →
    s.clientThreads = 0 ∧ s.main ≠ .waiting

/-- At the test of the loop either all clients have been created, or they are fewer than that
together with those that have finished. -/
def OutrunsNone (threads : Int) (s : State) : Action → Prop
  | .main => ∀ count : Nat, s.main = .testing count → count = threads ∨ count + finished s < threads
  | _ => True

structure Inv (threads : Int) (s : State) : Prop where
  count : s.clientThreads = threads - finished s
  testing : ∀ count, s.main = .testing count → count = s.clients.length
  creating : ∀ count, s.main = .creating count → count = s.clients.length
  waiting : s.main = .waiting → 0 < s.clientThreads

variable {threads : Int} {s t : State} {i : Nat} {a : Action}

theorem signal_pastLoop (main : Main) : main.signal.pastLoop = main.pastLoop := by
  cases main <;> rfl

theorem signal_ne_waiting (main : Main) : main.signal ≠ .waiting := by
  cases main <;> simp [Main.signal]

theorem signal_eq {main main' : Main} (hw : main' ≠ .woken) (h : main.signal = main') :
    main = main' := by
  cases main with
  | waiting => exact absurd h.symm hw
  | testing | creating | locking | woken | done => exact h

theorem finished_clientDone (hi : s.clients[i]? = some .running) :
    finished (clientDone s i) = finished s + 1 := by
  have hset := countP_set (· = Client.finished) hi .finished
  simp only [finished, clientDone, reduceCtorEq, decide_false, decide_true, Bool.false_eq_true,
    ↓reduceIte] at hset ⊢
  omega

theorem inv_signal (h : Inv threads s) : Inv threads { s with main := s.main.signal } := by
  refine ⟨h.count, fun count hm => ?_, fun count hm => ?_, fun hm => ?_⟩
  · exact h.testing count (signal_eq Main.noConfusion hm)
  · exact h.creating count (signal_eq Main.noConfusion hm)
  · exact absurd hm (signal_ne_waiting _)

theorem inv_clientDone (h : Inv threads s) (hi : s.clients[i]? = some .running) :
    Inv threads (clientDone s i) := by
  have hf := finished_clientDone hi
  have hc := h.count
  have hmain : ∀ main, main ≠ .woken → (clientDone s i).main = main → s.main = main := by
    intro main hw hm
    simp only [clientDone] at hm
    split_ifs at hm
    · exact signal_eq hw hm
    · exact hm
  refine ⟨?_, fun count hm => ?_, fun count hm => ?_, fun hm => ?_⟩
  · rw [hf]
    simp only [clientDone]
    omega
  · rw [h.testing count (hmain _ Main.noConfusion hm)]
    simp [clientDone]
  · rw [h.creating count (hmain _ Main.noConfusion hm)]
    simp [clientDone]
  · simp only [clientDone] at hm ⊢
    split_ifs at hm with hle
    · exact absurd hm (signal_ne_waiting _)
    · omega

theorem inv_awaitClients (h : Inv threads s) : Inv threads (awaitClients s) := by
  unfold awaitClients
  split_ifs with hpos
  · exact ⟨h.count, fun _ hm => Main.noConfusion hm, fun _ hm => Main.noConfusion hm, fun _ => hpos⟩
  · exact ⟨h.count, fun _ hm => Main.noConfusion hm, fun _ hm => Main.noConfusion hm,
      fun hm => Main.noConfusion hm⟩

/-- What `main` does next. -/
theorem mainStep_cases (hs : mainStep s = some t) :
    (∃ count : Nat, s.main = .testing count ∧ count < s.clientThreads ∧
      t = { s with main := .creating count }) ∨
    (∃ count : Nat, s.main = .testing count ∧ ¬ count < s.clientThreads ∧
      t = { s with main := .locking }) ∨
    (∃ count : Nat, s.main = .creating count ∧
      t = { s with main := .testing (count + 1), clients := s.clients ++ [.running] }) ∨
    (s.main.pastLoop = true ∧ t = awaitClients s) := by
  cases hm : s.main with
  | testing count =>
    simp only [mainStep, hm] at hs
    split_ifs at hs with hlt
    · exact .inl ⟨count, rfl, hlt, (Option.some.inj hs).symm⟩
    · exact .inr (.inl ⟨count, rfl, hlt, (Option.some.inj hs).symm⟩)
  | creating count =>
    simp only [mainStep, hm] at hs
    exact .inr (.inr (.inl ⟨count, rfl, (Option.some.inj hs).symm⟩))
  | locking | woken =>
    simp only [mainStep, hm] at hs
    exact .inr (.inr (.inr ⟨rfl, (Option.some.inj hs).symm⟩))
  | waiting | done =>
    simp only [mainStep, hm] at hs
    cases hs

theorem inv_mainStep (h : Inv threads s) (hs : mainStep s = some t) : Inv threads t := by
  obtain ⟨count, hm, -, rfl⟩ | ⟨count, hm, -, rfl⟩ | ⟨count, hm, rfl⟩ | ⟨-, rfl⟩ := mainStep_cases hs
  · refine ⟨h.count, fun _ hm => Main.noConfusion hm, fun c hc => ?_, fun hm => Main.noConfusion hm⟩
    cases hc
    exact h.testing count hm
  · exact ⟨h.count, fun _ hm => Main.noConfusion hm, fun _ hm => Main.noConfusion hm,
      fun hm => Main.noConfusion hm⟩
  · refine ⟨?_, fun c hc => ?_, fun _ hm => Main.noConfusion hm, fun hm => Main.noConfusion hm⟩
    · rw [h.count]
      simp [finished]
    · cases hc
      rw [h.creating count hm, List.length_append, List.length_singleton]
  · exact inv_awaitClients h

theorem inv_step (h : Inv threads s) (hs : step s a = some t) : Inv threads t := by
  cases a with
  | main => exact inv_mainStep h hs
  | clientDone i =>
    obtain ⟨hi, hs⟩ := Option.ite_none_right_eq_some.mp hs
    cases hs
    exact inv_clientDone h hi
  | wakeMain =>
    cases hs
    exact inv_signal h

theorem inv_init (threads : Int) : Inv threads (init threads) :=
  ⟨by simp [init, finished], fun _ hm => by cases hm; rfl, fun _ hm => Main.noConfusion hm,
    fun hm => Main.noConfusion hm⟩

/-- The number of clients behind the loop. -/
def AllCreated (threads : Int) (s : State) : Prop :=
  s.main.pastLoop = true → (s.clients.length : Int) = threads

theorem accounts_of (h : Inv threads s) (ha : AllCreated threads s) : Accounts s := by
  refine ⟨fun hp => ?_, fun hp hf => ?_⟩
  · rw [h.count, ha hp]
  · have hzero : s.clientThreads = 0 := by
      rw [h.count, ← ha hp, hf]
      omega
    refine ⟨hzero, fun hm => ?_⟩
    have := h.waiting hm
    omega

theorem pastLoop_awaitClients (s : State) :
    (awaitClients s).main.pastLoop = true ∧ (awaitClients s).clients = s.clients := by
  unfold awaitClients
  split_ifs <;> exact ⟨rfl, rfl⟩

theorem clientDone_pastLoop (s : State) (i : Nat) :
    (clientDone s i).main.pastLoop = s.main.pastLoop := by
  simp only [clientDone]
  split_ifs
  · exact signal_pastLoop s.main
  · rfl

theorem allCreated_step (h : Inv threads s) (ha : AllCreated threads s)
    (hc : OutrunsNone threads s a) (hs : step s a = some t) : AllCreated threads t := by
  cases a with
  | main =>
    obtain ⟨count, hm, -, rfl⟩ | ⟨count, hm, hlt, rfl⟩ | ⟨count, hm, rfl⟩ | ⟨hp, rfl⟩ :=
      mainStep_cases hs
    · exact fun hp => Bool.noConfusion hp
    · intro _
      have hlen := h.testing count hm
      have hct := h.count
      obtain he | hlt' := hc count hm
      · rw [← he, hlen]
      · omega
    · exact fun hp => Bool.noConfusion hp
    · intro _
      rw [(pastLoop_awaitClients s).2]
      exact ha hp
  | clientDone i =>
    obtain ⟨-, hs⟩ := Option.ite_none_right_eq_some.mp hs
    cases hs
    intro hp
    rw [clientDone_pastLoop] at hp
    rw [← ha hp]
    simp [clientDone]
  | wakeMain =>
    cases hs
    intro hp
    exact ha ((signal_pastLoop s.main).symm.trans hp)

/-- A test that ends the loop too early leaves the counter wrong. -/
theorem outrunsNone_of_accounts (h : Inv threads s) (hs : step s a = some t) (ht : Accounts t) :
    OutrunsNone threads s a := by
  cases a with
  | main =>
    intro count hm
    by_contra hne
    obtain ⟨hne, hge⟩ := not_or.mp hne
    have hlen := h.testing count hm
    have hct := h.count
    have hlt : ¬ (count : Int) < s.clientThreads := by omega
    simp only [step, mainStep, hm, hlt, ↓reduceIte, Option.some.injEq] at hs
    subst hs
    have hcount : s.clientThreads = s.clients.length - finished s := ht.count rfl
    omega
  | clientDone i => trivial
  | wakeMain => trivial

/-- The counter is right in all states of a run exactly when no client finishes too early. -/
theorem startup_accounts_iff (threads : Int) (as : List Action) :
    Always step Accounts (init threads) as ↔ Each step (OutrunsNone threads) (init threads) as := by
  refine always_iff_each (fun s => Inv threads s ∧ AllCreated threads s) ?_ ?_ ?_
    ⟨inv_init threads, fun hp => Bool.noConfusion hp⟩
  · rintro s a t ⟨h, ha⟩ hc hs
    exact ⟨inv_step h hs, allCreated_step h ha hc hs⟩
  · rintro s ⟨h, ha⟩
    exact accounts_of h ha
  · rintro s a t ⟨h, -⟩ hs ht
    exact outrunsNone_of_accounts h hs ht

/-- The first client finishes before the last one is created: `main` waits for ever. -/
def earlyFinish : List Action :=
  List.replicate 22 .main ++ [.clientDone 0, .main, .main] ++
    (List.range 10).map (fun i => .clientDone (i + 1))

theorem startup_waits : ∃ s, run step (init 12) earlyFinish = some s ∧ s.main = .waiting ∧
    s.clients = List.replicate 11 .finished ∧ s.clientThreads = 1 ∧ ¬ Accounts s := by
  refine ⟨⟨1, .waiting, List.replicate 11 .finished⟩, by decide, rfl, rfl, rfl, fun h => ?_⟩
  exact absurd (h.ends rfl (by decide)).1 (by decide)

end C11AndC.Terminal.Startup
