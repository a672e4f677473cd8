import C11AndC.Library.Runs
import Mathlib.Data.Finset.Card

namespace C11AndC.Suspend

inductive Signal where
  | usr1
  | usr2
  deriving DecidableEq

/-- The data of the package. A thread is a number, with `0` for the null thread. The
block at `array` has its own length, which should be that of `bottom`; `sent` records
the signals. -/
structure Package where
  array : List Nat
  bottom : Nat
  inited : Bool
  sent : List (Signal × Nat)
  deriving DecidableEq

def init : Package := ⟨[], 0, false, []⟩

def suspendInitRoutine (s : Package) : Package :=
  if s.inited then s
  else { s with array := List.replicate 10 0, bottom := 10, inited := true }

/-- Go on from an entry while the entries satisfy `p`, over `n` entries at most. An
access outside the block has no meaning. -/
def advance (p : Nat → Bool) (array : List Nat) : Nat → Nat → Option Nat
  | 0, i => some i
  | n + 1, i => do
    if p (← array[i]?) then advance p array n (i + 1) else some i

def write (array : List Nat) (i thread : Nat) : Option (List Nat) :=
  if i < array.length then some (array.set i thread) else none

/-- Make room for one more entry, which is to be cleared; `fresh` is what `realloc` leaves
in it. The entry that is cleared is the one behind it. -/
def grow (s : Package) (fresh : Nat) : Option Package := do
  let bottom := s.bottom + 1
  let array ← write (s.array ++ [fresh]) bottom 0
  return { s with array := array, bottom := bottom }

/-- `realloc` gives a block whose last entry is `fresh`, or fails with a status. -/
inductive Realloc where
  | block (fresh : Nat)
  | fails (status : Int)
  deriving DecidableEq

/-- The part of `thd_suspend` after an entry for the thread has been chosen. -/
def record (s : Package) (kill : Int) (i thread : Nat) : Option (Int × Package) := do
  if kill ≠ 0 then
    return (kill, s)
  else
    let array ← write s.array i thread
    return (0, { s with array := array, sent := s.sent ++ [(.usr1, thread)] })

/-- Given what `realloc` and `pthread_kill` answer if called; `none` stands for an access
outside the array. -/
def thdSuspend (realloc : Realloc) (kill : Int) (s : Package) (thread : Nat) :
    Option (Int × Package) := do
  let s := suspendInitRoutine s
  let i ← advance (· ≠ thread) s.array s.bottom 0
  if i < s.bottom then
    return (0, s)
  else
    let i ← advance (· ≠ 0) s.array s.bottom 0
    if i = s.bottom then
      match realloc with
      | .fails status => return (status, { s with array := [], bottom := s.bottom + 1 })
      | .block fresh => record (← grow s fresh) kill i thread
    else
      record s kill i thread

/-- The loop runs on while the entries are those of the thread. -/
def thdContinue (kill : Int) (s : Package) (thread : Nat) : Option (Int × Package) := do
  let s := suspendInitRoutine s
  let i ← advance (· = thread) s.array s.bottom 0
  if i = s.bottom then
    return (0, s)
  else if kill ≠ 0 then
    return (kill, s)
  else
    let array ← write s.array i 0
    return (0, { s with array := array, sent := s.sent ++ [(.usr2, thread)] })

inductive Call where
  | suspend (thread : Nat) (realloc : Realloc)
  | resume (thread : Nat)
  deriving DecidableEq

def Call.thread : Call → Nat
  | suspend thread _ => thread
  | resume thread => thread

/-- A call in which `pthread_kill` succeeds. -/
def call (s : Package) : Call → Option (Int × Package)
  | .suspend thread realloc => thdSuspend realloc 0 s thread
  | .resume thread => thdContinue 0 s thread

end C11AndC.Suspend
