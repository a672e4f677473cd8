import C11AndC.Library.Runs

namespace C11AndC.Trylock

/-- The increments of a round (`SPIN`), and the seconds that the program runs for. -/
structure Config where
  spin : Nat
  seconds : Nat
  spin_pos : 0 < spin

/-- The program as it is. -/
def trylock : Config := ⟨210000000, 60, by decide⟩

/-- Where `counter_thread` is. -/
inductive Counter where
  | test
  | lock
  | spinning (spin : Nat)
  | asleep (wake : Int)
  | returned
  deriving DecidableEq

/-- Where `monitor_thread` is. -/
inductive Monitor where
  | test
  | asleep (wake : Int)
  | locked
  | returned
  deriving DecidableEq

inductive Line where
  | monitored (count : Nat)
  | counted (counter : Nat)
  | missed (misses : Nat)
  deriving DecidableEq

/-- The clock, the mutex, the variables and the two threads. The rounds are those that the counter thread has
been through, and each line is recorded with their number at the time when it was printed. -/
structure State where
  clock : Int
  endTime : Int
  mutex : Bool
  counter : Nat
  counting : Counter
  monitoring : Monitor
  misses : Nat
  rounds : Nat
  output : List (Line × Nat)
  deriving DecidableEq

def init (c : Config) (clock : Int) : State :=
  ⟨clock, clock + c.seconds, false, 0, .test, .test, 0, 0, []⟩

/-- The next part of `counter_thread`. -/
def counterThread (c : Config) (s : State) : Option State :=
  match s.counting with
  | .test =>
      if s.clock < s.endTime then some { s with counting := .lock }
      else some { s with counting := .returned, output := s.output ++ [(.counted s.counter, s.rounds)] }
  | .lock => if s.mutex then none else some { s with mutex := true, counting := .spinning 0 }
  | .spinning spin =>
      if spin < c.spin then some { s with counter := s.counter + 1, counting := .spinning (spin + 1) }
      else some { s with mutex := false, counting := .asleep (s.clock + 1), rounds := s.rounds + 1 }
  | .asleep wake => if wake ≤ s.clock then some { s with counting := .test } else none
  | .returned => none

/-- The next part of `monitor_thread`. -/
def monitorThread (c : Config) (s : State) : Option State :=
  match s.monitoring with
  | .test =>
      if s.clock < s.endTime then some { s with monitoring := .asleep (s.clock + 3) }
      else some { s with monitoring := .returned, output := s.output ++ [(.missed s.misses, s.rounds)] }
  | .asleep wake =>
      if wake ≤ s.clock then
        if s.mutex then some { s with monitoring := .test, misses := s.misses + 1 }
        else some { s with mutex := true, monitoring := .locked }
      else none
  | .locked =>
      some { s with
        mutex := false
        monitoring := .test
        output := s.output ++ [(.monitored (s.counter / c.spin), s.rounds)] }
  | .returned => none

inductive Action where
  | tick (clock : Int)
  | counter
  | monitor
  deriving DecidableEq

def step (c : Config) (s : State) : Action → Option State
  | .tick clock => if s.clock ≤ clock then some { s with clock := clock } else none
  | .counter => counterThread c s
  | .monitor => monitorThread c s

end C11AndC.Trylock
