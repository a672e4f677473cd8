import C11AndC.Barrier.Model

namespace C11AndC.Barrier

open C11AndC.Library

/-- The sizes of the program: `THREADS`, `ARRAY`, `INLOOPS` and `OUTLOOPS`. -/
structure Config where
  threads : Nat
  array : Nat
  inLoops : Nat
  outLoops : Nat
  deriving DecidableEq

/-- Where a thread is in `thread_routine`, with the loop variables that it still needs;
`i` is its call of the barrier. -/
inductive Place where
  | unborn
  | round (outLoop : Nat)
  | first (outLoop i : Nat)
  | inner (outLoop inLoop count : Nat)
  | second (outLoop : Nat)
  | after (outLoop i : Nat)
  | update (outLoop threadNum : Nat)
  | finished
  deriving DecidableEq

structure Thread where
  increment : Int
  arrays : List Int
  place : Place
  deriving DecidableEq

/-- `threadCount` is the number of threads that `main` has created. -/
structure Program where
  barrier : State
  threads : List Thread
  threadCount : Nat
  deriving DecidableEq

def start (cfg : Config) : Program :=
  { barrier := init cfg.threads
    threads := List.replicate cfg.threads ⟨0, List.replicate cfg.array 0, .unborn⟩
    threadCount := 0 }

def Program.goto (s : Program) (t : Nat) (thread : Thread) (place : Place) : Program :=
  { s with threads := s.threads.set t { thread with place := place } }

/-- The thread calls `barrier_wait`; the barrier is valid until the threads are joined. -/
def Program.call (s : Program) (t : Nat) (thread : Thread) (place : Nat → Place) :
    Option Program := do
  let barrier ← step s.barrier (.arrive t)
  return { (s.goto t thread (place s.barrier.calls.length)) with barrier := barrier }

/-- What the call has returned, if it has. -/
def Program.status (s : Program) (i : Nat) : Option Int := do
  match (← s.barrier.calls[i]?).phase with
  | .returned status => return status
  | _ => none

def bump (thread : Thread) : Thread := { thread with increment := thread.increment + 1 }

/-- The next step of a thread outside of `barrier_wait`. -/
def threadRoutine (cfg : Config) (s : Program) (t : Nat) : Option Program := do
  let thread ← s.threads[t]?
  match thread.place with
  | .unborn => none
  | .round outLoop =>
      if outLoop ≤ cfg.outLoops then s.call t thread (.first outLoop)
      else return s.goto t thread .finished
  | .first outLoop i =>
      let _ ← s.status i
      return s.goto t thread (.inner outLoop 0 0)
  | .inner outLoop inLoop count =>
      if inLoop < cfg.inLoops then
        if count < cfg.array then
          let arrays := thread.arrays.modify count (· + thread.increment)
          return s.goto t { thread with arrays := arrays } (.inner outLoop inLoop (count + 1))
        else return s.goto t thread (.inner outLoop (inLoop + 1) 0)
      else return s.goto t thread (.second outLoop)
  | .second outLoop => s.call t thread (.after outLoop)
  | .after outLoop i =>
      let status ← s.status i
      if status > 0 then none
      else if status = -1 then return s.goto t thread (.update outLoop 0)
      else return s.goto t thread (.round (outLoop + 1))
  | .update outLoop threadNum =>
      if threadNum < cfg.threads then
        let s' := s.goto t thread (.update outLoop (threadNum + 1))
        return { s' with threads := s'.threads.modify threadNum bump }
      else return s.goto t thread (.round (outLoop + 1))
  | .finished => none

/-- The loop of `main` that sets up the threads and creates them. -/
def create (cfg : Config) (s : Program) : Option Program :=
  if s.threadCount < cfg.threads then
    some { s with
      threads := s.threads.set s.threadCount
        ⟨s.threadCount, (List.range cfg.array).map (fun j : Nat => (j : Int) + 1), .round 0⟩
      threadCount := s.threadCount + 1 }
  else none

/-- Whose turn it is. Inside of `barrier_wait` a call is woken or tries its test again. -/
inductive Turn where
  | main
  | thread (t : Nat)
  | wake (i : Nat)
  | recheck (i : Nat)
  deriving DecidableEq

def turn (cfg : Config) (s : Program) : Turn → Option Program
  | .main => create cfg s
  | .thread t => threadRoutine cfg s t
  | .wake i => do return { s with barrier := ← step s.barrier (.wake i) }
  | .recheck i => do return { s with barrier := ← step s.barrier (.recheck i) }

end C11AndC.Barrier
