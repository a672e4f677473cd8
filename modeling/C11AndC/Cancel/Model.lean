import C11AndC.Library.Runs

namespace C11AndC.Cancel

/-- Where a thread is in `thread_routine`, or in its cleanup handler. A thread in `waiting` has given the mutex
back, and needs it again to leave the wait, be it to test the loop or to run the handler. -/
inductive Place where
  | absent
  | starting
  | locking
  | testing
  | waiting
  | woken
  | canceled
  | handler (canceled : Bool)
  | ended (canceled : Bool)
  deriving DecidableEq

/-- A thread, and whether its cancellation has been asked for. -/
structure Thread where
  place : Place
  pending : Bool
  deriving DecidableEq

/-- Where `main` is; in the first loop the counter starts with whatever is in the variable. -/
inductive Main where
  | creating (count : Int)
  | canceling (count : Nat)
  | joining (count : Nat)
  | finished
  | undefined
  deriving DecidableEq

inductive Line where
  | starting
  | handler (counter : Int)
  | canceled (count : Nat)
  | notCanceled (count : Nat)
  deriving DecidableEq

/-- `control`, the threads, `main` and what has been printed. -/
structure State where
  counter : Int
  busy : Bool
  owner : Option Nat
  threads : List Thread
  main : Main
  printed : List Line
  deriving DecidableEq

/-- The start, with what is in `count`. -/
def init (threads : Nat) (count : Int) : State :=
  ⟨0, true, none, List.replicate threads ⟨.absent, false⟩, .creating count, []⟩

/-- The next part of a thread. `printf` and `pthread_cond_wait` look for a cancellation, and the mutex is had
again before the handler runs. -/
def threadRoutine (s : State) (i : Nat) (t : Thread) : Option State :=
  match t.place with
  | .starting =>
      some { s with
        threads := s.threads.set i { t with place := .locking }
        printed := s.printed ++ [.starting] }
  | .locking =>
      if s.owner = none then
        some { s with
          counter := s.counter + 1
          owner := some i
          threads := s.threads.set i { t with place := .testing } }
      else none
  | .testing =>
      if s.busy then
        if t.pending then some { s with threads := s.threads.set i { t with place := .handler true } }
        else some { s with owner := none, threads := s.threads.set i { t with place := .waiting } }
      else some { s with threads := s.threads.set i { t with place := .handler false } }
  | .waiting => if t.pending then some { s with threads := s.threads.set i { t with place := .canceled } } else none
  | .woken =>
      if s.owner = none then
        some { s with owner := some i, threads := s.threads.set i { t with place := .testing } }
      else none
  | .canceled =>
      if s.owner = none then
        some { s with owner := some i, threads := s.threads.set i { t with place := .handler true } }
      else none
  | .handler canceled =>
      some { s with
        counter := s.counter - 1
        owner := none
        threads := s.threads.set i { t with place := .ended canceled }
        printed := s.printed ++ [.handler (s.counter - 1)] }
  | .absent | .ended _ => none

/-- A thread that is cancelled in its first `printf` has no handler yet. -/
def cancelEarly (s : State) (i : Nat) (t : Thread) : Option State :=
  if t.place = .starting ∧ t.pending then
    some { s with threads := s.threads.set i { t with place := .ended true } }
  else none

/-- A wait can end without a signal. -/
def spurious (s : State) (i : Nat) (t : Thread) : Option State :=
  if t.place = .waiting then some { s with threads := s.threads.set i { t with place := .woken } } else none

/-- The next part of `main`. Outside of `thread_id`, and with an element of it that has not been set, the
behaviour is undefined. -/
def mainStep (s : State) : Option State :=
  match s.main with
  | .creating count =>
      if count < s.threads.length then
        if 0 ≤ count then
          some { s with
            threads := s.threads.modify count.toNat (fun t => { t with place := .starting })
            main := .creating (count + 1) }
        else some { s with main := .undefined }
      else some { s with main := .canceling 0 }
  | .canceling count =>
      match s.threads[count]? with
      | none => some { s with main := .finished }
      | some t =>
          if t.place = .absent then some { s with main := .undefined }
          else some { s with threads := s.threads.set count { t with pending := true }, main := .joining count }
  | .joining count =>
      match s.threads[count]? with
      | some ⟨.ended canceled, _⟩ =>
          some { s with
            main := .canceling (count + 1)
            printed := s.printed ++ [if canceled then .canceled count else .notCanceled count] }
      | _ => none
  | .finished | .undefined => none

inductive Action where
  | main
  | thread (i : Nat)
  | cancelEarly (i : Nat)
  | spurious (i : Nat)
  deriving DecidableEq

def step (s : State) : Action → Option State
  | .main => mainStep s
  | .thread i => s.threads[i]?.bind (threadRoutine s i)
  | .cancelEarly i => s.threads[i]?.bind (cancelEarly s i)
  | .spurious i => s.threads[i]?.bind (spurious s i)

end C11AndC.Cancel
