import C11AndC.Library.Runs

namespace C11AndC.Putchar

/-- What `main` makes of its argument, and the strings that it gives to the threads. -/
structure Config where
  flockFlag : Bool
  strings : List (List Char)
  deriving DecidableEq

/-- Where a thread is; `created` to `locked` are places of `lock_routine`, and `unlocked` is the loop of
`unlock_routine`. The loops come with what is left of the string. -/
inductive Place where
  | absent
  | created
  | announced
  | locked (pointer : List Char)
  | unlocked (pointer : List Char)
  | returned
  deriving DecidableEq

structure Thread where
  string : List Char
  place : Place
  deriving DecidableEq

/-- The owner of the lock of `stdout`, the threads and what has been written. -/
structure State where
  owner : Option Nat
  threads : List Thread
  output : List Char
  deriving DecidableEq

def init (c : Config) : State := ⟨none, c.strings.map (fun string => ⟨string, .absent⟩), []⟩

/-- The first line of `lock_routine`, with `%s` filled in. -/
def announcement (string : List Char) : List Char := "in lock routine ".toList ++ string ++ ['\n']

/-- The next call of `lock_routine`. `printf` and `flockfile` wait for the lock of the stream, and
`putchar_unlocked` does not look at it. -/
def lockRoutine (s : State) (i : Nat) (t : Thread) : Option State :=
  match t.place with
  | .created =>
      if s.owner = none then
        some { s with
          threads := s.threads.set i { t with place := .announced }
          output := s.output ++ announcement t.string }
      else none
  | .announced =>
      if s.owner = none then
        some { s with
          owner := some i
          threads := s.threads.set i { t with place := .locked t.string } }
      else none
  | .locked (c :: pointer) =>
      some { s with
        threads := s.threads.set i { t with place := .locked pointer }
        output := s.output ++ [c] }
  | .locked [] =>
      some { s with
        owner := none
        threads := s.threads.set i { t with place := .returned } }
  | .absent | .unlocked _ | .returned => none

/-- The next call of `unlock_routine`. `putchar` waits for the lock of the stream. -/
def unlockRoutine (s : State) (i : Nat) (t : Thread) : Option State :=
  match t.place with
  | .unlocked (c :: pointer) =>
      if s.owner = none then
        some { s with
          threads := s.threads.set i { t with place := .unlocked pointer }
          output := s.output ++ [c] }
      else none
  | .unlocked [] => some { s with threads := s.threads.set i { t with place := .returned } }
  | .absent | .created | .announced | .locked _ | .returned => none

/-- The place at which `thread_func` begins. -/
def threadFunc (c : Config) (string : List Char) : Place :=
  if c.flockFlag then .created else .unlocked string

/-- `pthread_create` in `main`, one thread after the other. -/
def create (c : Config) (s : State) (i : Nat) (t : Thread) : Option State :=
  if t.place = .absent ∧ (s.threads.take i).all (fun u => u.place ≠ .absent) then
    some { s with threads := s.threads.set i { t with place := threadFunc c t.string } }
  else none

/-- What can happen next: `main` creates a thread, or a thread takes a step. -/
inductive Action where
  | create (i : Nat)
  | thread (i : Nat)
  deriving DecidableEq

def step (c : Config) (s : State) : Action → Option State
  | .create i => s.threads[i]?.bind (create c s i)
  | .thread i => s.threads[i]?.bind (fun t => if c.flockFlag then lockRoutine s i t else unlockRoutine s i t)

end C11AndC.Putchar
