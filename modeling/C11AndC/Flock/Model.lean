import C11AndC.Crew.Search
import C11AndC.Library.Runs

namespace C11AndC.Flock

open C11AndC.Library C11AndC.Crew

/-- The prompts of the threads, the order in which `main` joins them, and what the strings hold that `malloc`
returns. -/
structure Config where
  prompts : List (List Char)
  joins : List Nat
  fresh : Nat → List Char
  joins_perm : joins.Perm (List.range prompts.length)
  fresh_length : ∀ i, (fresh i).length = 128

/-- The program as it is. -/
def flock (fresh : Nat → List Char) (h : ∀ i, (fresh i).length = 128) : Config :=
  ⟨["Thread 1>".toList, "Thread 2>".toList, "Thread 3>".toList], [2, 0, 1], fresh, by decide, h⟩

/-- Where a thread is in `prompt_routine`; from the response on it has its string. -/
inductive Place where
  | absent
  | begun
  | input
  | locked
  | prompted
  | answered (string : List Char)
  | released (string : List Char)
  | leaving (string : List Char)
  | returned (string : List Char)
  deriving DecidableEq

structure Thread where
  prompt : List Char
  place : Place
  deriving DecidableEq

/-- Where `main` is, with the threads that it has still to join. -/
inductive Main where
  | creating (count : Nat)
  | waiting (joins : List Nat)
  | joining (i : Nat) (joins : List Nat)
  | printing (i : Nat) (string : List Char) (joins : List Nat)
  deriving DecidableEq

/-- What happens at the terminal. The author of a text is a thread, or else `main`. -/
inductive Event where
  | write (author : Option Nat) (text : List Char)
  | read (i : Nat) (line : List Char)
  deriving DecidableEq

/-- What is left of the input, the owners of the locks of `stdin` and `stdout`, the threads and what has
happened. -/
structure State where
  stdin : List Char
  inputOwner : Option Nat
  outputOwner : Option Nat
  threads : List Thread
  main : Main
  log : List Event
  deriving DecidableEq

def init (c : Config) (stdin : List Char) : State :=
  ⟨stdin, none, none, c.prompts.map (fun prompt => ⟨prompt, .absent⟩), .creating 0, []⟩

/-- What `fgets` leaves in the string, without the newline. -/
def response (c : Config) (i : Nat) (line : List Char) : List Char :=
  if line = [] then (c.fresh i).set 0 nul else chomp (fill (c.fresh i) line)

def returningText (prompt : List Char) : List Char := "returning from ".toList ++ prompt ++ " \n".toList

def waitingText (i : Nat) : List Char := "waiting ".toList ++ decimal (i + 1) ++ ['\n']

def threadText (i : Nat) (string : List Char) : List Char :=
  "Thread ".toList ++ decimal (i + 1) ++ ":  \"".toList ++ string ++ "\"\n".toList

/-- The next call of `prompt_routine`. The last `printf` waits for the lock of `stdout` like any other one. -/
def promptRoutine (c : Config) (s : State) (i : Nat) (t : Thread) : Option State :=
  match t.place with
  | .begun =>
      if s.inputOwner = none then
        some { s with
          inputOwner := some i
          threads := s.threads.set i { t with place := .input } }
      else none
  | .input =>
      if s.outputOwner = none then
        some { s with
          outputOwner := some i
          threads := s.threads.set i { t with place := .locked } }
      else none
  | .locked =>
      some { s with
        threads := s.threads.set i { t with place := .prompted }
        log := s.log ++ [.write (some i) t.prompt] }
  | .prompted =>
      let line := upto 127 s.stdin
      some { s with
        stdin := s.stdin.drop line.length
        threads := s.threads.set i { t with place := .answered (response c i line) }
        log := s.log ++ [.read i line] }
  | .answered string =>
      some { s with
        outputOwner := none
        threads := s.threads.set i { t with place := .released string } }
  | .released string =>
      some { s with
        inputOwner := none
        threads := s.threads.set i { t with place := .leaving string } }
  | .leaving string =>
      if s.outputOwner = none then
        some { s with
          threads := s.threads.set i { t with place := .returned string }
          log := s.log ++ [.write (some i) (returningText t.prompt)] }
      else none
  | .absent | .returned _ => none

/-- The string with which a thread has returned. -/
def joined (threads : List Thread) (i : Nat) : Option (List Char) :=
  match threads[i]? with
  | some ⟨_, .returned string⟩ => some string
  | _ => none

/-- The next call of `main`. -/
def mainStep (c : Config) (s : State) : Option State :=
  match s.main with
  | .creating count =>
      match s.threads[count]? with
      | some t => some { s with
          threads := s.threads.set count { t with place := .begun }
          main := .creating (count + 1) }
      | none => some { s with main := .waiting c.joins }
  | .waiting [] => none
  | .waiting (i :: joins) =>
      if s.outputOwner = none then
        some { s with
          main := .joining i joins
          log := s.log ++ [.write none (waitingText i)] }
      else none
  | .joining i joins => (joined s.threads i).map (fun string => { s with main := .printing i string joins })
  | .printing i string joins =>
      if s.outputOwner = none then
        some { s with
          main := .waiting joins
          log := s.log ++ [.write none (threadText i (str string))] }
      else none

inductive Action where
  | main
  | thread (i : Nat)
  deriving DecidableEq

def step (c : Config) (s : State) : Action → Option State
  | .main => mainStep c s
  | .thread i => s.threads[i]?.bind (promptRoutine c s i)

end C11AndC.Flock
