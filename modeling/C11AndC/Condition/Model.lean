import C11AndC.Library.Runs

namespace C11AndC.Condition

/-- How many threads run `inc_count`, how often each of them increments, and what `watch_count` waits
for. -/
structure Config where
  incThreads : Nat
  tcount : Nat
  countLimit : Nat
  deriving DecidableEq

/-- The program as it is. -/
def condvar : Config := ⟨2, 10, 12⟩

/-- Where the thread is that runs `watch_count`. It has the mutex only inside of a step. -/
inductive Watcher where
  | starting
  | waiting
  | woken
  | exited
  deriving DecidableEq

/-- What is printed inside of the critical sections; the two lines of an increment that reaches the limit
are one. -/
inductive Line where
  | thresholdReached (count : Nat)
  | unlocking (count : Nat)
  | goingIntoWait (count : Nat)
  | received (count : Nat)
  | updated (count : Nat)
  | unlockingMutex
  | final (count : Nat)
  deriving DecidableEq

/-- The counter, the rounds that each thread of `inc_count` has made, the other threads and what has been
printed. -/
structure State where
  count : Nat
  rounds : List Nat
  watcher : Watcher
  joined : Nat
  printed : List Line
  deriving DecidableEq

def init (c : Config) : State := ⟨0, List.replicate c.incThreads 0, .starting, 0, []⟩

/-- `pthread_cond_signal` wakes the watcher if it waits. -/
def Watcher.signal : Watcher → Watcher
  | .waiting => .woken
  | watcher => watcher

/-- One round of `inc_count`, from the lock to the unlock. -/
def incCount (c : Config) (s : State) (i round : Nat) : State :=
  let count := s.count + 1
  let s := { s with count := count, rounds := s.rounds.set i (round + 1) }
  let s :=
    if count = c.countLimit then
      { s with watcher := s.watcher.signal, printed := s.printed ++ [.thresholdReached count] }
    else s
  { s with printed := s.printed ++ [.unlocking count] }

/-- The test of the loop in `watch_count`, up to the next wait or the end. -/
def testCount (c : Config) (s : State) : State :=
  if s.count < c.countLimit then
    { s with watcher := .waiting, printed := s.printed ++ [.goingIntoWait s.count] }
  else { s with watcher := .exited, printed := s.printed ++ [.unlockingMutex] }

/-- The next part of `watch_count`. -/
def watchCount (c : Config) (s : State) : Option State :=
  match s.watcher with
  | .starting => some (testCount c s)
  | .woken =>
      let count := s.count + 125
      some (testCount c { s with count := count, printed := s.printed ++ [.received s.count, .updated count] })
  | .waiting | .exited => none

/-- The thread that `main` joins next has ended. -/
def ended (c : Config) (s : State) : Bool :=
  match s.joined with
  | 0 => s.watcher = .exited
  | i + 1 => s.rounds[i]? = some c.tcount

/-- What can happen next; a wait may end without a signal. `main` joins the threads in the order in which it
has created them. -/
inductive Action where
  | inc (i : Nat)
  | watch
  | join
  | wake
  deriving DecidableEq

def step (c : Config) (s : State) : Action → Option State
  | .inc i =>
      match s.rounds[i]? with
      | some round => if round < c.tcount then some (incCount c s i round) else none
      | none => none
  | .watch => watchCount c s
  | .join =>
      if s.joined ≤ c.incThreads ∧ ended c s then
        some { s with joined := s.joined + 1 }
      else if s.joined = c.incThreads + 1 then
        some { s with joined := s.joined + 1, printed := s.printed ++ [.final s.count] }
      else none
  | .wake =>
      match s.watcher with
      | .waiting => some { s with watcher := .woken }
      | _ => none

end C11AndC.Condition
