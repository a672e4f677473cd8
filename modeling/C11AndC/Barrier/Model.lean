import C11AndC.Library.Runs

namespace C11AndC.Barrier

def barrierValid : Nat := 0xdbcafe

/-- The data of a barrier. Its cycle is an `unsigned long`, the copy of it that a caller
keeps is an `int`. -/
structure BarrierT where
  valid : Nat
  threshold : Int
  counter : Int
  cycle : BitVec 64
  deriving DecidableEq

def barrierInt (count : Int) : BarrierT := ⟨barrierValid, count, count, 0⟩

inductive Phase where
  | asleep
  | woken
  | returned (status : Int)
  deriving DecidableEq

/-- A call of `barrier_wait` that has found its way into the barrier. -/
structure Call where
  thread : Nat
  cycle : BitVec 32
  phase : Phase
  deriving DecidableEq

/-- The test of the loop: the `int` is extended with its sign before it is compared. -/
def sameCycle (cycle : BitVec 32) (barrier : BarrierT) : Bool :=
  cycle.signExtend 64 == barrier.cycle

/-- Where the loop of `barrier_wait` goes from its test. -/
def waitOrReturn (cycle : BitVec 32) (barrier : BarrierT) : Phase :=
  if sameCycle cycle barrier then .asleep else .returned 0

/-- What a broadcast does to a call. -/
def Call.awaken (c : Call) : Call :=
  if c.phase = .asleep then { c with phase := .woken } else c

/-- The barrier with the calls made so far, in the order in which they decremented the
counter. -/
structure State where
  barrier : BarrierT
  calls : List Call
  deriving DecidableEq

def init (count : Int) : State := ⟨barrierInt count, []⟩

/-- The call is one of the thread and has not returned. -/
def Call.inside (thread : Nat) (c : Call) : Bool :=
  c.thread = thread && match c.phase with
    | .returned _ => false
    | _ => true

/-- A call of `barrier_wait` up to the point where it sleeps or returns. -/
def arrive (thread : Nat) (s : State) : State :=
  let cycle := s.barrier.cycle.truncate 32
  let counter := s.barrier.counter - 1
  if counter = 0 then
    { barrier := { s.barrier with cycle := s.barrier.cycle + 1, counter := s.barrier.threshold }
      calls := s.calls.map Call.awaken ++ [⟨thread, cycle, .returned (-1)⟩] }
  else
    { barrier := { s.barrier with counter := counter }
      calls := s.calls ++ [⟨thread, cycle, waitOrReturn cycle s.barrier⟩] }

/-- A thread that is not inside calls the barrier, a sleeping call is woken without a reason, or a call that
has been woken gets the mutex again and goes through the test of its loop. -/
inductive Action where
  | arrive (thread : Nat)
  | wake (i : Nat)
  | recheck (i : Nat)
  deriving DecidableEq

def step (s : State) : Action → Option State
  | .arrive thread =>
      if s.calls.any (Call.inside thread) then none
      -- the call returns `EINVAL` and is not counted
      else if s.barrier.valid ≠ barrierValid then some s
      else some (arrive thread s)
  | .wake i => do
      let c ← s.calls[i]?
      if c.phase = .asleep then
        return { s with calls := s.calls.set i { c with phase := .woken } }
      else none
  | .recheck i => do
      let c ← s.calls[i]?
      if c.phase = .woken then
        return { s with calls := s.calls.set i { c with phase := waitOrReturn c.cycle s.barrier } }
      else none

end C11AndC.Barrier
