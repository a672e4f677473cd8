import C11AndC.Trylock.Model
import C11AndC.Library.Progress

namespace C11AndC.Trylock

open C11AndC.Library

/-- The steps that the threads take by themselves. -/
def isWork : Action → Bool
  | .tick _ => false
  | _ => true

/-- What a line says when so many rounds have been made. -/
def Line.fits (c : Config) (rounds : Nat) : Line → Prop
  | .monitored count => count = rounds
  | .counted counter => counter = c.spin * rounds
  | .missed _ => True

def Line.isMonitored : Line → Bool
  | .monitored _ => true
  | _ => false

def Line.isCounted : Line → Bool
  | .counted _ => true
  | _ => false

def Line.isMissed : Line → Bool
  | .missed _ => true
  | _ => false

/-- How often the monitor has printed the counter. -/
def monitored (output : List (Line × Nat)) : Nat := output.countP (fun p => p.1.isMonitored)

/-- A thread has returned, or sleeps on. -/
structure Settled (s : State) : Prop where
  counting : s.counting = .returned ∨ ∃ wake, s.counting = .asleep wake ∧ s.clock < wake
  monitoring : s.monitoring = .returned ∨ ∃ wake, s.monitoring = .asleep wake ∧ s.clock < wake

def Counter.ended : Counter → Bool
  | .returned => true
  | _ => false

def Monitor.ended : Monitor → Bool
  | .returned => true
  | _ => false

/-- What has been printed after so many rounds and misses: the monitor sees whole rounds only, and each thread
prints a line at its end. -/
structure Prints (c : Config) (rounds misses : Nat) (counting monitoring : Bool) (output : List (Line × Nat)) :
    Prop where
  fits : ∀ p ∈ output, p.1.fits c p.2
  grows : (output.map Prod.snd).Pairwise (· ≤ ·)
  within : ∀ p ∈ output, p.2 ≤ rounds
  counted : (output.map Prod.fst).filter Line.isCounted = if counting then [.counted (c.spin * rounds)] else []
  missed : (output.map Prod.fst).filter Line.isMissed = if monitoring then [.missed misses] else []

/-- The report of a run. There are no more rounds than seconds, and the monitor tries no more often than it can
sleep. -/
structure Reports (c : Config) (s : State) : Prop where
  prints : Prints c s.rounds s.misses s.counting.ended s.monitoring.ended s.output
  rounds : s.rounds ≤ c.seconds
  counter : s.counter ≤ c.spin * c.seconds
  tries : monitored s.output + s.misses ≤ (c.seconds + 2) / 3

/-- The seconds that are left at a time. -/
def left (endTime time : Int) : Nat := (endTime - time).toNat

/-- The increments of the round that the counter thread is in. -/
def Counter.progress : Counter → Nat
  | .spinning spin => spin
  | _ => 0

def Counter.holds : Counter → Bool
  | .spinning _ => true
  | _ => false

/-- The round that the counter thread is in. -/
def Counter.current : Counter → Nat
  | .lock | .spinning _ => 1
  | _ => 0

/-- The rounds that it can still begin. -/
def Counter.future (endTime clock : Int) : Counter → Nat
  | .test => left endTime clock
  | .lock | .spinning _ => left endTime (clock + 1)
  | .asleep wake => left endTime (max wake clock)
  | .returned => 0

/-- The steps to the end of the round, and back to the test of the loop and out of it. -/
def Counter.stage (c : Config) : Counter → Nat
  | .test => 1
  | .lock => c.spin + 4
  | .spinning spin => c.spin - spin + 3
  | .asleep _ => 2
  | .returned => 0

def Monitor.holds : Monitor → Bool
  | .locked => true
  | _ => false

def Monitor.current : Monitor → Nat
  | .asleep _ | .locked => 1
  | _ => 0

/-- The times that the monitor can still begin to sleep. -/
def Monitor.future (endTime clock : Int) : Monitor → Nat
  | .test | .locked => (left endTime clock + 2) / 3
  | .asleep wake => (left endTime (max wake clock) + 2) / 3
  | .returned => 0

def Monitor.stage : Monitor → Nat
  | .test => 1
  | .asleep _ => 3
  | .locked => 2
  | .returned => 0

/-- The steps that are left at most. -/
def State.rest (c : Config) (s : State) : Nat :=
  s.counting.future s.endTime s.clock * (c.spin + 4) + s.counting.stage c +
    (s.monitoring.future s.endTime s.clock * 3 + s.monitoring.stage)

/-- The mutex keeps the two threads apart, and between the rounds the counter is a multiple of `SPIN`. -/
structure Counts (c : Config) (s : State) : Prop where
  mutex : s.mutex = (s.counting.holds || s.monitoring.holds)
  apart : (s.counting.holds && s.monitoring.holds) = false
  counter : s.counter = c.spin * s.rounds + s.counting.progress
  progress : s.counting.progress ≤ c.spin

/-- A round takes a second, and a sleep of the monitor three. -/
structure InTime (c : Config) (s : State) : Prop where
  rounds : s.rounds + s.counting.current + s.counting.future s.endTime s.clock ≤ c.seconds
  tries : monitored s.output + s.misses + s.monitoring.current +
    s.monitoring.future s.endTime s.clock ≤ (c.seconds + 2) / 3

structure Inv (c : Config) (s : State) : Prop where
  counts : Counts c s
  inTime : InTime c s
  prints : Prints c s.rounds s.misses s.counting.ended s.monitoring.ended s.output

section Printing

variable {c : Config} {rounds misses : Nat} {counting monitoring : Bool} {output : List (Line × Nat)}

theorem monitored_snoc (output : List (Line × Nat)) (line : Line) (rounds : Nat) :
    monitored (output ++ [(line, rounds)]) = monitored output + line.isMonitored.toNat := by
  cases line with
  | monitored | counted | missed => exact List.countP_append

theorem prints_snoc {line : Line} {counting' monitoring' : Bool}
    (h : Prints c rounds misses counting monitoring output) (hfits : line.fits c rounds)
    (hcounted : ((output.map Prod.fst) ++ [line]).filter Line.isCounted =
      if counting' then [.counted (c.spin * rounds)] else [])
    (hmissed : ((output.map Prod.fst) ++ [line]).filter Line.isMissed =
      if monitoring' then [.missed misses] else []) :
    Prints c rounds misses counting' monitoring' (output ++ [(line, rounds)]) := by
  constructor
  case fits =>
    intro p hp
    obtain hp | hp := List.mem_append.mp hp
    · exact h.fits p hp
    · rw [List.mem_singleton.mp hp]
      exact hfits
  case grows =>
    rw [List.map_append, List.pairwise_append]
    refine ⟨h.grows, List.pairwise_singleton _ _, ?_⟩
    intro earlier hearlier later hlater
    obtain ⟨p, hp, rfl⟩ := List.mem_map.mp hearlier
    rw [List.mem_singleton.mp hlater]
    exact h.within p hp
  case within =>
    intro p hp
    obtain hp | hp := List.mem_append.mp hp
    · exact h.within p hp
    · rw [List.mem_singleton.mp hp]
  case counted =>
    rw [List.map_append]
    exact hcounted
  case missed =>
    rw [List.map_append]
    exact hmissed

theorem prints_monitored (h : Prints c rounds misses counting monitoring output) :
    Prints c rounds misses counting monitoring (output ++ [(.monitored rounds, rounds)]) := by
  have hfits : (Line.monitored rounds).fits c rounds := rfl
  apply prints_snoc h hfits
  · rw [List.filter_append, h.counted]
    exact List.append_nil _
  · rw [List.filter_append, h.missed]
    exact List.append_nil _

theorem prints_counted (h : Prints c rounds misses false monitoring output) :
    Prints c rounds misses true monitoring (output ++ [(.counted (c.spin * rounds), rounds)]) := by
  have hfits : (Line.counted (c.spin * rounds)).fits c rounds := rfl
  apply prints_snoc h hfits
  · rw [List.filter_append, h.counted]
    rfl
  · rw [List.filter_append, h.missed]
    exact List.append_nil _

theorem prints_missed (h : Prints c rounds misses counting false output) :
    Prints c rounds misses counting true (output ++ [(.missed misses, rounds)]) := by
  have hfits : (Line.missed misses).fits c rounds := True.intro
  apply prints_snoc h hfits
  · rw [List.filter_append, h.counted]
    exact List.append_nil _
  · rw [List.filter_append, h.missed]
    rfl

theorem prints_round (h : Prints c rounds misses false monitoring output) :
    Prints c (rounds + 1) misses false monitoring output := by
  constructor
  case within => exact fun p hp => Nat.le_succ_of_le (h.within p hp)
  case fits => exact h.fits
  case grows => exact h.grows
  case counted => exact h.counted
  case missed => exact h.missed

theorem prints_miss (h : Prints c rounds misses counting false output) :
    Prints c rounds (misses + 1) counting false output := by
  constructor
  case missed => exact h.missed
  case within => exact h.within
  case fits => exact h.fits
  case grows => exact h.grows
  case counted => exact h.counted

end Printing

section Steps

variable {c : Config} {s t : State} {a : Action}

theorem inv_init (c : Config) (clock : Int) : Inv c (init c clock) := by
  have hleft : left (clock + c.seconds) clock = c.seconds := by
    unfold left
    omega
  constructor
  case counts => exact ⟨rfl, rfl, (Nat.mul_zero c.spin).symm, Nat.zero_le _⟩
  case inTime =>
    constructor
    · simp [init, Counter.current, Counter.future, hleft]
    · simp [init, monitored, Monitor.current, Monitor.future, hleft]
  case prints =>
    constructor
    · exact fun p hp => absurd hp List.not_mem_nil
    · exact List.Pairwise.nil
    · exact fun p hp => absurd hp List.not_mem_nil
    · rfl
    · rfl

theorem future_tick {clock clock' : Int} (h : clock ≤ clock') (endTime : Int) (counting : Counter) :
    counting.future endTime clock' ≤ counting.future endTime clock := by
  cases counting with
  | test | lock | spinning | asleep | returned =>
    simp only [Counter.future, left]
    omega

theorem Monitor.future_tick {clock clock' : Int} (h : clock ≤ clock') (endTime : Int) (monitoring : Monitor) :
    monitoring.future endTime clock' ≤ monitoring.future endTime clock := by
  cases monitoring with
  | test | locked | asleep | returned =>
    simp only [Monitor.future, left]
    omega

theorem inv_tick {clock : Int} (h : Inv c s) (hle : s.clock ≤ clock) : Inv c { s with clock := clock } := by
  constructor
  case counts => exact ⟨h.counts.mutex, h.counts.apart, h.counts.counter, h.counts.progress⟩
  case inTime =>
    constructor
    · exact (Nat.add_le_add_left (future_tick hle _ _) _).trans h.inTime.rounds
    · exact (Nat.add_le_add_left (Monitor.future_tick hle _ _) _).trans h.inTime.tries
  case prints => exact h.prints

theorem counts_counter (h : Counts c s) (hs : counterThread c s = some t) : Counts c t := by
  obtain ⟨hmutex, hapart, hcounter, hprogress⟩ := h
  cases hp : s.counting with
  | test =>
    simp only [counterThread, hp] at hs
    simp only [hp] at hmutex hcounter
    split_ifs at hs with hlt
    · cases hs
      exact ⟨hmutex, rfl, hcounter, Nat.zero_le _⟩
    · cases hs
      exact ⟨hmutex, rfl, hcounter, Nat.zero_le _⟩
  | lock =>
    simp only [counterThread, hp] at hs
    simp only [hp] at hmutex hcounter
    split_ifs at hs with hheld
    cases hs
    have hfree : s.monitoring.holds = false := by
      rw [Bool.not_eq_true, hmutex] at hheld
      exact hheld
    exact ⟨rfl, hfree, hcounter, Nat.zero_le _⟩
  | spinning spin =>
    simp only [counterThread, hp] at hs
    simp only [hp] at hmutex hapart hcounter hprogress
    split_ifs at hs with hlt
    · cases hs
      exact ⟨hmutex, hapart, congrArg (· + 1) hcounter, hlt⟩
    · cases hs
      have hend : spin = c.spin := Nat.le_antisymm hprogress (Nat.le_of_not_lt hlt)
      refine ⟨?_, rfl, ?_, Nat.zero_le _⟩
      · exact hapart.symm
      · rw [hcounter, Counter.progress, hend]
        rfl
  | asleep wake =>
    simp only [counterThread, hp] at hs
    simp only [hp] at hmutex hcounter
    split_ifs at hs with hle
    cases hs
    exact ⟨hmutex, rfl, hcounter, Nat.zero_le _⟩
  | returned =>
    simp only [counterThread, hp] at hs
    cases hs

theorem counts_monitor (h : Counts c s) (hs : monitorThread c s = some t) : Counts c t := by
  obtain ⟨hmutex, hapart, hcounter, hprogress⟩ := h
  cases hp : s.monitoring with
  | test =>
    simp only [monitorThread, hp] at hs
    simp only [hp] at hmutex hapart
    split_ifs at hs with hlt
    · cases hs
      exact ⟨hmutex, hapart, hcounter, hprogress⟩
    · cases hs
      exact ⟨hmutex, hapart, hcounter, hprogress⟩
  | asleep wake =>
    simp only [monitorThread, hp] at hs
    simp only [hp, Monitor.holds, Bool.or_false, Bool.and_false] at hmutex hapart
    split_ifs at hs with hle hheld
    · cases hs
      constructor
      · rw [hmutex]
        exact (Bool.or_false _).symm
      · exact Bool.and_false _
      · exact hcounter
      · exact hprogress
    · cases hs
      rw [Bool.not_eq_true, hmutex] at hheld
      constructor
      · exact (Bool.or_true _).symm
      · rw [hheld]
        rfl
      · exact hcounter
      · exact hprogress
  | locked =>
    simp only [monitorThread, hp] at hs
    simp only [hp, Monitor.holds, Bool.and_true] at hapart
    cases hs
    constructor
    · rw [hapart]
      rfl
    · exact Bool.and_false _
    · exact hcounter
    · exact hprogress
  | returned =>
    simp only [monitorThread, hp] at hs
    cases hs

/-- A round begins a second before the next one can at the earliest. -/
theorem inTime_counter (h : InTime c s) (hs : counterThread c s = some t) : InTime c t := by
  obtain ⟨hrounds, htries⟩ := h
  cases hp : s.counting with
  | test =>
    simp only [counterThread, hp] at hs
    simp only [hp, Counter.current, Counter.future, left] at hrounds
    split_ifs at hs with hlt
    · cases hs
      constructor
      · simp only [Counter.current, Counter.future, left]
        omega
      · exact htries
    · cases hs
      constructor
      · simp only [Counter.current, Counter.future]
        omega
      · rw [monitored_snoc]
        exact htries
  | lock =>
    simp only [counterThread, hp] at hs
    simp only [hp] at hrounds
    split_ifs at hs with hheld
    cases hs
    exact ⟨hrounds, htries⟩
  | spinning spin =>
    simp only [counterThread, hp] at hs
    simp only [hp, Counter.current, Counter.future, left] at hrounds
    split_ifs at hs with hlt
    · cases hs
      exact ⟨hrounds, htries⟩
    · cases hs
      constructor
      · simp only [Counter.current, Counter.future, left]
        omega
      · exact htries
  | asleep wake =>
    simp only [counterThread, hp] at hs
    simp only [hp, Counter.current, Counter.future] at hrounds
    split_ifs at hs with hle
    cases hs
    rw [max_eq_right hle] at hrounds
    exact ⟨hrounds, htries⟩
  | returned =>
    simp only [counterThread, hp] at hs
    cases hs

theorem inTime_monitor (h : InTime c s) (hs : monitorThread c s = some t) : InTime c t := by
  obtain ⟨hrounds, htries⟩ := h
  cases hp : s.monitoring with
  | test =>
    simp only [monitorThread, hp] at hs
    simp only [hp, Monitor.current, Monitor.future, left] at htries
    split_ifs at hs with hlt
    · cases hs
      constructor
      · exact hrounds
      · simp only [Monitor.current, Monitor.future, left]
        omega
    · cases hs
      constructor
      · exact hrounds
      · simp only [monitored_snoc, Line.isMonitored, Bool.toNat_false, Monitor.current, Monitor.future]
        omega
  | asleep wake =>
    simp only [monitorThread, hp] at hs
    simp only [hp, Monitor.current, Monitor.future] at htries
    split_ifs at hs with hle hheld
    · cases hs
      rw [max_eq_right hle] at htries
      constructor
      · exact hrounds
      · simp only [Monitor.current, Monitor.future]
        omega
    · cases hs
      rw [max_eq_right hle] at htries
      exact ⟨hrounds, htries⟩
  | locked =>
    simp only [monitorThread, hp] at hs
    simp only [hp, Monitor.current, Monitor.future] at htries
    cases hs
    constructor
    · exact hrounds
    · simp only [monitored_snoc, Line.isMonitored, Bool.toNat_true, Monitor.current, Monitor.future]
      omega
  | returned =>
    simp only [monitorThread, hp] at hs
    cases hs

theorem prints_counter (h : Inv c s) (hs : counterThread c s = some t) :
    Prints c t.rounds t.misses t.counting.ended t.monitoring.ended t.output := by
  have hprints := h.prints
  cases hp : s.counting with
  | test =>
    simp only [counterThread, hp] at hs
    rw [hp] at hprints
    split_ifs at hs with hlt
    · cases hs
      exact hprints
    · cases hs
      -- Between the rounds the counter is that of the rounds.
      have hcounter : s.counter = c.spin * s.rounds := by
        have hc := h.counts.counter
        rwa [hp] at hc
      rw [hcounter]
      exact prints_counted hprints
  | lock =>
    simp only [counterThread, hp] at hs
    rw [hp] at hprints
    split_ifs at hs with hheld
    cases hs
    exact hprints
  | spinning spin =>
    simp only [counterThread, hp] at hs
    rw [hp] at hprints
    split_ifs at hs with hlt
    · cases hs
      exact hprints
    · cases hs
      exact prints_round hprints
  | asleep wake =>
    simp only [counterThread, hp] at hs
    rw [hp] at hprints
    split_ifs at hs with hle
    cases hs
    exact hprints
  | returned =>
    simp only [counterThread, hp] at hs
    cases hs

theorem prints_monitor (h : Inv c s) (hs : monitorThread c s = some t) :
    Prints c t.rounds t.misses t.counting.ended t.monitoring.ended t.output := by
  have hprints := h.prints
  cases hp : s.monitoring with
  | test =>
    simp only [monitorThread, hp] at hs
    rw [hp] at hprints
    split_ifs at hs with hlt
    · cases hs
      exact hprints
    · cases hs
      exact prints_missed hprints
  | asleep wake =>
    simp only [monitorThread, hp] at hs
    rw [hp] at hprints
    split_ifs at hs with hle hheld
    · cases hs
      exact prints_miss hprints
    · cases hs
      exact hprints
  | locked =>
    simp only [monitorThread, hp] at hs
    rw [hp] at hprints
    cases hs
    -- The monitor has the mutex, so that the counter thread is between two rounds.
    have hcounter : s.counter = c.spin * s.rounds := by
      have hapart := h.counts.apart
      have hc := h.counts.counter
      cases hcounting : s.counting with
      | spinning spin =>
        rw [hcounting, hp] at hapart
        cases hapart
      | test | lock | asleep | returned => rwa [hcounting] at hc
    rw [hcounter, Nat.mul_div_cancel_left _ c.spin_pos]
    exact prints_monitored hprints
  | returned =>
    simp only [monitorThread, hp] at hs
    cases hs

theorem inv_step (h : Inv c s) (hs : step c s a = some t) : Inv c t := by
  cases a with
  | tick clock =>
    obtain ⟨hle, hs⟩ := Option.ite_none_right_eq_some.mp hs
    cases hs
    exact inv_tick h hle
  | counter => exact ⟨counts_counter h.counts hs, inTime_counter h.inTime hs, prints_counter h hs⟩
  | monitor => exact ⟨counts_monitor h.counts hs, inTime_monitor h.inTime hs, prints_monitor h hs⟩

theorem rest_counter (hs : counterThread c s = some t) : t.rest c < s.rest c := by
  cases hp : s.counting with
  | test =>
    simp only [counterThread, hp] at hs
    split_ifs at hs with hlt
    · cases hs
      have hleft : left s.endTime s.clock = left s.endTime (s.clock + 1) + 1 := by
        unfold left
        omega
      simp only [State.rest, hp, Counter.future, Counter.stage, hleft, Nat.add_mul]
      omega
    · cases hs
      simp only [State.rest, hp, Counter.future, Counter.stage]
      omega
  | lock =>
    simp only [counterThread, hp] at hs
    split_ifs at hs with hheld
    cases hs
    simp only [State.rest, hp, Counter.future, Counter.stage]
    omega
  | spinning spin =>
    simp only [counterThread, hp] at hs
    split_ifs at hs with hlt
    · cases hs
      simp only [State.rest, hp, Counter.future, Counter.stage]
      omega
    · cases hs
      have hmax : max (s.clock + 1) s.clock = s.clock + 1 := max_eq_left (Int.le_add_one (Int.le_refl _))
      simp only [State.rest, hp, Counter.future, Counter.stage, hmax]
      omega
  | asleep wake =>
    simp only [counterThread, hp] at hs
    split_ifs at hs with hle
    cases hs
    simp only [State.rest, hp, Counter.future, Counter.stage, max_eq_right hle]
    omega
  | returned =>
    simp only [counterThread, hp] at hs
    cases hs

theorem rest_monitor (hs : monitorThread c s = some t) : t.rest c < s.rest c := by
  cases hp : s.monitoring with
  | test =>
    simp only [monitorThread, hp] at hs
    split_ifs at hs with hlt
    · cases hs
      simp only [State.rest, hp, Monitor.future, Monitor.stage, left]
      omega
    · cases hs
      simp only [State.rest, hp, Monitor.future, Monitor.stage]
      omega
  | asleep wake =>
    simp only [monitorThread, hp] at hs
    split_ifs at hs with hle hheld
    · cases hs
      simp only [State.rest, hp, Monitor.future, Monitor.stage, max_eq_right hle]
      omega
    · cases hs
      simp only [State.rest, hp, Monitor.future, Monitor.stage, max_eq_right hle]
      omega
  | locked =>
    simp only [monitorThread, hp] at hs
    cases hs
    simp only [State.rest, hp, Monitor.future, Monitor.stage]
    omega
  | returned =>
    simp only [monitorThread, hp] at hs
    cases hs

theorem rest_step (ha : isWork a = true) (hs : step c s a = some t) : t.rest c < s.rest c := by
  cases a with
  | tick => cases ha
  | counter => exact rest_counter hs
  | monitor => exact rest_monitor hs

theorem rest_tick (ha : isWork a = false) (hs : step c s a = some t) : t.rest c ≤ s.rest c := by
  cases a with
  | tick clock =>
    obtain ⟨hle, hs⟩ := Option.ite_none_right_eq_some.mp hs
    cases hs
    have hcounting := Nat.mul_le_mul_right (c.spin + 4) (future_tick hle s.endTime s.counting)
    have hmonitoring := Monitor.future_tick hle s.endTime s.monitoring
    simp only [State.rest]
    omega
  | counter | monitor => cases ha

/-- A thread that can take no step sleeps on or has returned: the monitor never waits for the mutex, and the
counter thread waits for it only as long as the monitor can go on. -/
theorem settled_of_stuck (h : Inv c s) (hstuck : Stuck (step c) isWork s) : Settled s := by
  have hcounter : counterThread c s = none := hstuck .counter rfl
  have hmonitor : monitorThread c s = none := hstuck .monitor rfl
  have hmonitoring : s.monitoring = .returned ∨ ∃ wake, s.monitoring = .asleep wake ∧ s.clock < wake := by
    cases hp : s.monitoring with
    | test =>
      simp only [monitorThread, hp] at hmonitor
      split_ifs at hmonitor
    | asleep wake =>
      simp only [monitorThread, hp] at hmonitor
      split_ifs at hmonitor with hle
      exact .inr ⟨wake, rfl, Int.lt_of_not_ge hle⟩
    | locked =>
      simp only [monitorThread, hp] at hmonitor
      cases hmonitor
    | returned => exact .inl rfl
  constructor
  case monitoring => exact hmonitoring
  case counting =>
    cases hp : s.counting with
    | test =>
      simp only [counterThread, hp] at hcounter
      split_ifs at hcounter
    | lock =>
      simp only [counterThread, hp] at hcounter
      split_ifs at hcounter with hheld
      have hmutex := h.counts.mutex
      rw [hp, hheld] at hmutex
      obtain hreturned | ⟨wake, hasleep, -⟩ := hmonitoring
      · rw [hreturned] at hmutex
        cases hmutex
      · rw [hasleep] at hmutex
        cases hmutex
    | spinning spin =>
      simp only [counterThread, hp] at hcounter
      split_ifs at hcounter
    | asleep wake =>
      simp only [counterThread, hp] at hcounter
      split_ifs at hcounter with hle
      exact .inr ⟨wake, rfl, Int.lt_of_not_ge hle⟩
    | returned => exact .inl rfl

theorem reports_of_inv (h : Inv c s) : Reports c s := by
  have hrounds := h.inTime.rounds
  have htries := h.inTime.tries
  constructor
  case prints => exact h.prints
  case rounds => omega
  case tries => omega
  case counter =>
    rw [h.counts.counter]
    cases hp : s.counting with
    | spinning spin =>
      -- The round that is going on is one of those that there is time for.
      have hspin : spin ≤ c.spin := by
        have hprogress := h.counts.progress
        rwa [hp] at hprogress
      simp only [hp, Counter.current] at hrounds
      calc c.spin * s.rounds + spin ≤ c.spin * s.rounds + c.spin := Nat.add_le_add_left hspin _
        _ = c.spin * (s.rounds + 1) := rfl
        _ ≤ c.spin * c.seconds := Nat.mul_le_mul_left _ (by omega)
    | test | lock | asleep | returned => exact Nat.mul_le_mul_left c.spin (by omega)

end Steps

/-- Whenever the clock goes on, the two threads take a bounded number of steps in all and come to their ends;
what the monitor prints is the number of whole rounds at that time, however it is timed, and the last line of
the counter thread is the number of all increments. -/
theorem monitor_sees_rounds (c : Config) (clock : Int) :
    Completes (step c) isWork Settled (init c clock) (c.seconds * (c.spin + 5) + 4) 0 ∧
      ∀ as s, run (step c) (init c clock) as = some s → Reports c s := by
  have hdescends : Descends (step c) isWork (Inv c) 0 (State.rest c) := by
    constructor
    case keep => exact fun s a t h hs => inv_step h hs
    case down => exact fun s a t _ hs ha => rest_step ha hs
    case up => exact fun s a t _ hs ha => rest_tick ha hs
  have hbound : (init c clock).rest c ≤ c.seconds * (c.spin + 5) + 4 := by
    have hleft : left (clock + c.seconds) clock = c.seconds := by
      unfold left
      omega
    have hmul : c.seconds * (c.spin + 5) = c.seconds * (c.spin + 4) + c.seconds := rfl
    simp only [State.rest, init, Counter.future, Counter.stage, Monitor.future, Monitor.stage, hleft, hmul]
    omega
  constructor
  · apply completes_of_descends hdescends _ (inv_init c clock) hbound
    exact fun s h hstuck => settled_of_stuck h hstuck
  · intro as s hr
    exact reports_of_inv (hdescends.run_keep (inv_init c clock) hr)

end C11AndC.Trylock
