import C11AndC.Library.Runs
import Mathlib.Algebra.Group.Defs

namespace C11AndC.Accumulate

open C11AndC.Library

section Accumulate

variable {T : Type} [Add T]

/-- `std::accumulate`. -/
def accumulate (xs : List T) (init : T) : T := xs.foldl (· + ·) init

/-- A thread that runs `accumulate_block`: it has not read `result` yet, it is inside of
`std::accumulate`, or it has assigned `result`. -/
inductive Block (T : Type) where
  | created (xs : List T)
  | adding (acc : T) (xs : List T)
  | finished

def Block.isFinished {T : Type} : Block T → Bool
  | .finished => true
  | _ => false

/-- The threads, of which the last one is the calling thread, and the vector `results`. -/
structure State (T : Type) where
  threads : List (Block T)
  results : List T

def accumulateBlock (s : State T) (i : Nat) : Block T → Option (State T)
  | .created xs => do
    let result ← s.results[i]?
    return { s with threads := s.threads.set i (.adding result xs) }
  | .adding acc (x :: xs) => some { s with threads := s.threads.set i (.adding (acc + x) xs) }
  | .adding acc [] => some ⟨s.threads.set i .finished, s.results.set i acc⟩
  | .finished => none

/-- The next action of thread `i`. -/
def turn (s : State T) (i : Nat) : Option (State T) := s.threads[i]?.bind (accumulateBlock s i)

end Accumulate

def minPerThread : Nat := 50

def maxThreads (length : Nat) : Nat := (length + minPerThread - 1) / minPerThread

def numThreads (length hardware : Nat) : Nat :=
  min (if hardware ≠ 0 then hardware else 2) (maxThreads length)

/-- An iterator is a position; it must not go behind the last one. -/
def advance (length p k : Nat) : Option Nat := if p + k ≤ length then some (p + k) else none

/-- The blocks of the threads that are still to be launched and the one of the calling thread. -/
def launch (length size : Nat) : Nat → Nat → Option (List (Nat × Nat))
  | 0, start => some [(start, length)]
  | threads + 1, start => do
    let stop ← advance length start size
    let blocks ← launch length size threads stop
    return (start, stop) :: blocks

def slice {T : Type} (xs : List T) (b : Nat × Nat) : List T := (xs.drop b.1).take (b.2 - b.1)

def blocks (length hardware : Nat) : Option (List (Nat × Nat)) :=
  let n := numThreads length hardware
  launch length (length / n) (n - 1) 0

section Parallel

variable {T : Type} [Add T] [Zero T]

/-- The threads and the results after the turns `schedule`. -/
def work (xs : List T) (hardware : Nat) (schedule : List Nat) : Option (State T) := do
  let parts ← blocks xs.length hardware
  let results := List.replicate (numThreads xs.length hardware) 0
  run turn ⟨parts.map fun b => .created (slice xs b), results⟩ schedule

/-- The threads are joined before the results are added up; there is no answer while one of them
still runs. -/
def parallelAccumulate (xs : List T) (init : T) (hardware : Nat) (schedule : List Nat) : Option T :=
  if xs.length = 0 then some init
  else do
    let s ← work xs hardware schedule
    if s.threads.all Block.isFinished then some (accumulate s.results init) else none

end Parallel

end C11AndC.Accumulate
