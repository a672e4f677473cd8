import C11AndC.Barrier.Progress

namespace C11AndC.Barrier

open C11AndC.Library

/-- What `main` prints of a thread that it has joined. -/
structure Line where
  increment : Int
  arrays : List Int
  deriving DecidableEq

/-- The program with the lines that `main` has printed. -/
structure Output where
  program : Program
  lines : List Line
  deriving DecidableEq

inductive Act where
  | turn (a : Turn)
  | join
  deriving DecidableEq

/-- The second loop of `main`: a thread is joined and printed as soon as it has returned, whatever those
behind it are still doing. -/
def join (cfg : Config) (s : Output) : Option Output := do
  let thread ← s.program.threads[s.lines.length]?
  if s.program.threadCount < cfg.threads then none
  else if thread.place = .finished then
    return { s with lines := s.lines ++ [⟨thread.increment, thread.arrays⟩] }
  else none

def act (cfg : Config) (s : Output) : Act → Option Output
  | .turn a => do return { s with program := ← turn cfg s.program a }
  | .join => join cfg s

def Act.isWork : Act → Bool
  | .turn a => Barrier.isWork a
  | .join => true

/-- A turn makes one call at most, and takes nothing from an increment. -/
structure Grows (s s' : Program) : Prop where
  calls : s'.barrier.calls.length ≤ s.barrier.calls.length + 1
  increments : ∀ (u : Nat) x', s'.threads[u]? = some x' → x'.place ≠ .unborn →
    ∃ x, s.threads[u]? = some x ∧ x.place ≠ .unborn ∧ x.increment ≤ x'.increment

section Grows

variable {cfg : Config} {s s' : Program} {t : Nat} {thread : Thread}

theorem grows_set (thread' : Thread) (ht : s.threads[t]? = some thread) (hb : thread.place ≠ .unborn)
    (hs : s'.threads = s.threads.set t thread') (hi : thread'.increment = thread.increment)
    (hcalls : s'.barrier.calls.length ≤ s.barrier.calls.length + 1) : Grows s s' := by
  apply Grows.mk hcalls
  intro u x' hx' hb'
  rw [hs] at hx'
  obtain ⟨rfl, rfl⟩ | ⟨-, hx⟩ := getElem?_set_cases hx'
  · exact ⟨thread, ht, hb, Int.le_of_eq hi.symm⟩
  · exact ⟨x', hx, hb', Int.le_refl _⟩

theorem grows_goto (place : Place) (arrays : List Int) (ht : s.threads[t]? = some thread)
    (hb : thread.place ≠ .unborn) : Grows s (s.goto t { thread with arrays := arrays } place) :=
  grows_set _ ht hb rfl rfl (Nat.le_succ _)

theorem grows_call {place : Nat → Place} (ht : s.threads[t]? = some thread) (hb : thread.place ≠ .unborn)
    (hs : s.call t thread place = some s') : Grows s s' := by
  obtain ⟨barrier, hbar, hs⟩ := Option.bind_eq_some_iff.mp hs
  cases hs
  apply grows_set { thread with place := place s.barrier.calls.length } ht hb rfl rfl
  obtain ⟨u, -, hu⟩ | ⟨i, c, he, -⟩ | ⟨i, c, he, -⟩ := step_cases hbar
  · obtain rfl | rfl := hu
    · exact Nat.le_succ _
    · exact Nat.le_of_eq (length_arrive u)
  · cases he
  · cases he

theorem grows_update {outLoop threadNum : Nat} (ht : s.threads[t]? = some thread)
    (hb : thread.place ≠ .unborn) (hs : s'.threads = (s.threads.set t { thread with
      place := .update outLoop (threadNum + 1) }).modify threadNum bump) (hbar : s'.barrier = s.barrier) :
    Grows s s' := by
  constructor
  case calls =>
    rw [hbar]
    exact Nat.le_succ _
  case increments =>
    intro u x' hx' hb'
    rw [hs] at hx'
    obtain ⟨y, hy, -, hplace, hinc⟩ := getElem?_modify_bump hx'
    have hle : y.increment ≤ x'.increment := by
      rw [hinc]
      split_ifs <;> omega
    obtain ⟨rfl, rfl⟩ | ⟨-, hy⟩ := getElem?_set_cases hy
    · exact ⟨thread, ht, hb, hle⟩
    · exact ⟨y, hy, hplace ▸ hb', hle⟩

theorem grows_threadRoutine (hs : threadRoutine cfg s t = some s') : Grows s s' := by
  obtain ⟨thread, ht, hs⟩ := Option.bind_eq_some_iff.mp hs
  cases hp : thread.place with
  | unborn | finished =>
    rw [hp] at hs
    cases hs
  | round outLoop =>
    simp only [hp] at hs
    split_ifs at hs
    · exact grows_call ht (by simp [hp]) hs
    · cases hs
      exact grows_goto _ thread.arrays ht (by simp [hp])
  | first outLoop i =>
    simp only [hp] at hs
    obtain ⟨status, -, hs⟩ := Option.bind_eq_some_iff.mp hs
    cases hs
    exact grows_goto _ thread.arrays ht (by simp [hp])
  | inner outLoop inLoop count =>
    simp only [hp] at hs
    split_ifs at hs <;> cases hs
    · exact grows_goto _ _ ht (by simp [hp])
    · exact grows_goto _ thread.arrays ht (by simp [hp])
    · exact grows_goto _ thread.arrays ht (by simp [hp])
  | second outLoop =>
    simp only [hp] at hs
    exact grows_call ht (by simp [hp]) hs
  | after outLoop i =>
    simp only [hp] at hs
    obtain ⟨status, -, hs⟩ := Option.bind_eq_some_iff.mp hs
    split_ifs at hs <;> cases hs <;> exact grows_goto _ thread.arrays ht (by simp [hp])
  | update outLoop threadNum =>
    simp only [hp] at hs
    split_ifs at hs <;> cases hs
    · exact grows_update ht (by simp [hp]) rfl rfl
    · exact grows_goto _ thread.arrays ht (by simp [hp])

end Grows

/-- No increment is more than one behind the cycles that are complete. -/
def Close (cfg : Config) (s : Program) : Prop :=
  ∀ (t : Nat) x, s.threads[t]? = some x → x.place ≠ .unborn →
    (t : Int) + (s.barrier.calls.length / cfg.threads / 2 : Nat) ≤ x.increment + 1

section Close

variable {cfg : Config} {s s' : Program} {t : Nat}

theorem close_of_zero (h : ProgramInv cfg s) (hzero : ∀ u, debt cfg s.threads u = 0) : Close cfg s := by
  intro t x hx hb
  have hinc := h.increment t x hx hb
  rw [hzero t] at hinc
  omega

/-- Where a turn completes a cycle that makes a thread owe increments, nothing was owed before. -/
theorem close_grows (hT : 0 < cfg.threads) (h : ProgramInv cfg s) (h' : ProgramInv cfg s')
    (hg : Grows s s') (hc : Close cfg s) : Close cfg s' := by
  have hup : s'.barrier.calls.length / cfg.threads ≤ s.barrier.calls.length / cfg.threads + 1 :=
    calc s'.barrier.calls.length / cfg.threads
        ≤ (s.barrier.calls.length + cfg.threads) / cfg.threads :=
          Nat.div_le_div_right (Nat.le_trans hg.calls (Nat.add_le_add_left hT _))
      _ = s.barrier.calls.length / cfg.threads + 1 := Nat.add_div_right _ hT
  by_cases hodd : s'.barrier.calls.length / cfg.threads % 2 = 1 ∨ s'.barrier.calls.length / cfg.threads = 0
  · exact close_of_zero h' (debt_zero hT h' hodd)
  · intro u x' hx' hb'
    obtain ⟨x, hx, hb, hle⟩ := hg.increments u x' hx' hb'
    have hclose := hc u x hx hb
    by_cases hsucc : s'.barrier.calls.length / cfg.threads = s.barrier.calls.length / cfg.threads + 1
    · have hinc := h.increment u x hx hb
      rw [debt_zero hT h (.inl (by omega))] at hinc
      omega
    · omega

theorem close_turn {a : Turn} (hT : 0 < cfg.threads) (h : ProgramInv cfg s) (h' : ProgramInv cfg s')
    (hc : Close cfg s) (hs : turn cfg s a = some s') : Close cfg s' := by
  cases a with
  | main =>
    obtain ⟨hlt, hs⟩ := Option.ite_none_right_eq_some.mp hs
    cases hs
    -- a thread that is still to be created has made no call
    have hlen : s.threadCount < s.threads.length := by rwa [h.size]
    have ht := List.getElem?_eq_getElem hlen
    have hlow := (h.threads _ _ ht).low
    rw [(h.unborn _ _ ht).mpr (Nat.le_refl _)] at hlow
    exact close_of_zero h' (debt_zero hT h' (.inr (Nat.le_zero.mp hlow)))
  | thread t => exact close_grows hT h h' (grows_threadRoutine hs) hc
  | wake i =>
    obtain ⟨barrier, hbar, hs⟩ := Option.bind_eq_some_iff.mp hs
    cases hs
    obtain ⟨c, hi, hbar⟩ := Option.bind_eq_some_iff.mp hbar
    split_ifs at hbar
    cases hbar
    intro u x hx hb
    have hclose := hc u x hx hb
    simpa using hclose
  | recheck i =>
    obtain ⟨barrier, hbar, hs⟩ := Option.bind_eq_some_iff.mp hs
    cases hs
    obtain ⟨c, hi, hbar⟩ := Option.bind_eq_some_iff.mp hbar
    split_ifs at hbar
    cases hbar
    intro u x hx hb
    have hclose := hc u x hx hb
    simpa using hclose

theorem close_start (cfg : Config) : Close cfg (start cfg) := by
  intro t x hx hb
  rw [List.eq_of_mem_replicate (List.mem_of_getElem? hx)] at hb
  exact absurd rfl hb

/-- A thread that has returned has the values of all rounds, but for the increment of the last one. -/
theorem values_of_finished {x : Thread} (h : ProgramInv cfg s) (hx : s.threads[t]? = some x)
    (hp : x.place = .finished) :
    x.increment + debt cfg s.threads t = (t : Int) + (cfg.outLoops + 1) ∧
      s.barrier.calls.length / cfg.threads = 2 * (cfg.outLoops + 1) ∧
      x.arrays = (List.range cfg.array).map fun j => level cfg t j (cfg.outLoops + 1) := by
  have hok := h.threads t x hx
  have hb : x.place ≠ .unborn := by simp [hp]
  have hplace := hok.place
  rw [hp] at hplace
  have hcycles : s.barrier.calls.length / cfg.threads = 2 * (cfg.outLoops + 1) :=
    Nat.le_antisymm (cycles_le h hx) hplace
  refine ⟨?_, hcycles, ?_⟩
  · have hinc := h.increment t x hx hb
    rw [hcycles] at hinc
    omega
  · apply List.ext_getElem?
    intro j
    by_cases hj : j < cfg.array
    · rw [hok.arrays hb j hj, hp]
      simp [hj, element]
    · rw [List.getElem?_eq_none (by rw [hok.length]; omega), List.getElem?_eq_none]
      simpa using hj

end Close

/-- Line `k`. The thread that has the update of the last cycle may not have come to thread `k` yet. -/
structure LineOk (cfg : Config) (k : Nat) (line : Line) : Prop where
  increment : line.increment = (k : Int) + (cfg.outLoops + 1) ∨ line.increment = (k : Int) + cfg.outLoops
  arrays : line.arrays = (List.range cfg.array).map fun j => level cfg k j (cfg.outLoops + 1)

structure OutputInv (cfg : Config) (s : Output) : Prop where
  program : ProgramInv cfg s.program ∧ Inside s.program
  close : Close cfg s.program
  count : s.lines.length ≤ cfg.threads
  lines : ∀ (k : Nat) line, s.lines[k]? = some line → LineOk cfg k line

def Output.rest (cfg : Config) (s : Output) : Nat := s.program.rest cfg + (cfg.threads - s.lines.length)

/-- The cycles, increments and array elements of the program are values of an `int`. -/
structure Ints (cfg : Config) : Prop where
  cycles : 2 * (cfg.outLoops + 1) < 2 ^ 31
  increments : cfg.threads + cfg.outLoops < 2 ^ 31
  arrays : Fits cfg

/-- All threads have returned and have been joined. -/
structure Printed (cfg : Config) (s : Output) : Prop where
  finished : ∀ x ∈ s.program.threads, x.place = .finished
  increments : ∀ (t : Nat) x, s.program.threads[t]? = some x → x.increment = (t : Int) + (cfg.outLoops + 1)
  length : s.lines.length = cfg.threads
  lines : ∀ (k : Nat) line, s.lines[k]? = some line → LineOk cfg k line

section Lines

variable {cfg : Config} {s s' : Output}

theorem join_cases (hs : join cfg s = some s') : ∃ thread, s.program.threads[s.lines.length]? = some thread ∧
    thread.place = .finished ∧ s' = { s with lines := s.lines ++ [⟨thread.increment, thread.arrays⟩] } := by
  obtain ⟨thread, ht, hs⟩ := Option.bind_eq_some_iff.mp hs
  split_ifs at hs with hcount hp
  cases hs
  exact ⟨thread, ht, hp, rfl⟩

theorem lineOk_of_finished {k : Nat} {x : Thread} (h : OutputInv cfg s)
    (hx : s.program.threads[k]? = some x) (hp : x.place = .finished) :
    LineOk cfg k ⟨x.increment, x.arrays⟩ := by
  obtain ⟨hinc, hcycles, harrays⟩ := values_of_finished h.program.1 hx hp
  have hclose := h.close k x hx (by simp [hp])
  rw [hcycles] at hclose
  refine ⟨?_, harrays⟩
  dsimp only
  omega

theorem outputInv_act {a : Act} (hT : 0 < cfg.threads) (hL : 2 * (cfg.outLoops + 1) < 2 ^ 31)
    (h : OutputInv cfg s) (hs : act cfg s a = some s') : OutputInv cfg s' := by
  cases a with
  | turn a =>
    obtain ⟨p, hp, hs⟩ := Option.bind_eq_some_iff.mp hs
    cases hs
    have hkeep := (descends_turn cfg hT hL).keep s.program a p h.program hp
    exact ⟨hkeep, close_turn hT h.program.1 hkeep.1 h.close hp, h.count, h.lines⟩
  | join =>
    obtain ⟨x, hx, hp, rfl⟩ := join_cases hs
    have hlt := (List.getElem?_eq_some_iff.mp hx).1
    rw [h.program.1.size] at hlt
    refine ⟨h.program, h.close, ?_, fun k line hk => ?_⟩
    · rw [List.length_append]
      exact hlt
    · obtain hk | ⟨rfl, rfl⟩ := getElem?_snoc_cases hk
      · exact h.lines k line hk
      · exact lineOk_of_finished h hx hp

theorem descends_act (cfg : Config) (hT : 0 < cfg.threads) (hL : 2 * (cfg.outLoops + 1) < 2 ^ 31) :
    Descends (act cfg) Act.isWork (OutputInv cfg) 1 (Output.rest cfg) := by
  have hturn := descends_turn cfg hT hL
  constructor
  case keep => exact fun s a t h ht => outputInv_act hT hL h ht
  case down =>
    intro s a t h ht ha
    cases a with
    | turn a =>
      obtain ⟨p, hp, ht⟩ := Option.bind_eq_some_iff.mp ht
      cases ht
      exact Nat.add_lt_add_right (hturn.down s.program a p h.program hp ha) _
    | join =>
      obtain ⟨x, hx, -, rfl⟩ := join_cases ht
      have hlt := (List.getElem?_eq_some_iff.mp hx).1
      rw [h.program.1.size] at hlt
      simp only [Output.rest, List.length_append, List.length_singleton]
      omega
  case up =>
    intro s a t h ht ha
    cases a with
    | turn a =>
      obtain ⟨p, hp, ht⟩ := Option.bind_eq_some_iff.mp ht
      cases ht
      have hup := hturn.up s.program a p h.program hp ha
      simp only [Output.rest]
      omega
    | join => cases ha

theorem printed_of_stuck (hT : 0 < cfg.threads) (h : OutputInv cfg s)
    (hstuck : Stuck (act cfg) Act.isWork s) : Printed cfg s := by
  have hturn : Stuck (turn cfg) isWork s.program := by
    intro a ha
    have hnone : act cfg s (.turn a) = none := hstuck (.turn a) ha
    cases hp : turn cfg s.program a with
    | none => rfl
    | some p => simp [act, hp] at hnone
  have hfin := finished_of_stuck hT h.program.1 h.program.2 hturn
  have hsize := h.program.1.size
  have hzero : ∀ u, debt cfg s.program.threads u = 0 :=
    fun u => sum_map_zero fun y hy => by rw [hfin y hy]; rfl
  have hcreated : ¬ s.program.threadCount < cfg.threads := by
    have hmain : create cfg s.program = none := hturn .main rfl
    unfold create at hmain
    split_ifs at hmain with hlt
    exact hlt
  refine ⟨hfin, fun t x hx => ?_, ?_, h.lines⟩
  · have hinc := (values_of_finished h.program.1 hx (hfin x (List.mem_of_getElem? hx))).1
    rw [hzero t] at hinc
    omega
  · by_contra hne
    have hlt : s.lines.length < s.program.threads.length := by
      have hle := h.count
      omega
    have hx := List.getElem?_eq_getElem hlt
    have hnone : join cfg s = none := hstuck .join rfl
    simp [join, hx, hcreated, hfin _ (List.getElem_mem hlt)] at hnone

end Lines

/-- Under every schedule the program ends: the threads meet at each barrier, and `main` prints a line for
each of them. The arrays of a line do not depend on the schedule. Its increment does: `main` joins a thread
and does not wait for the update of the last cycle, which may come after it. -/
theorem barrier_program_ends (cfg : Config) (hT : 1 ≤ cfg.threads) (hints : Ints cfg) :
    Completes (act cfg) Act.isWork (Printed cfg) ⟨start cfg, []⟩
      (cfg.threads * ((cfg.outLoops + 1) * lap cfg + 3)) 1 := by
  apply completes_of_descends (descends_act cfg hT hints.cycles)
  · exact fun s h hstuck => printed_of_stuck hT h hstuck
  · exact ⟨⟨inv_start cfg, inside_start cfg⟩, close_start cfg, Nat.zero_le _, by simp⟩
  · rw [Output.rest, rest_start, List.length_nil, Nat.sub_zero, ← Nat.mul_succ]

theorem barrier_program_ends_main :
    Completes (act ⟨2, 6, 1, 1⟩) Act.isWork (Printed ⟨2, 6, 1, 1⟩) ⟨start ⟨2, 6, 1, 1⟩, []⟩
      (2 * (2 * 25 + 3)) 1 := by
  apply barrier_program_ends ⟨2, 6, 1, 1⟩ (by decide)
  refine ⟨by decide, by decide, fun t j ht hj => ?_⟩
  simp only at ht hj
  simp [level, Finset.sum_range_succ]
  omega

/-- The first thread is joined before the second one has come to the update. -/
def early : List Act :=
  (twoThreads.take 18).map Act.turn ++ [Act.join] ++ (twoThreads.drop 18).map Act.turn ++ [Act.join]

example : (run (act ⟨2, 1, 1, 0⟩) ⟨start ⟨2, 1, 1, 0⟩, []⟩ early).map Output.lines =
    some [⟨0, [1]⟩, ⟨2, [2]⟩] := by decide +kernel

end C11AndC.Barrier
