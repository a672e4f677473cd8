import C11AndC.Library.Runs
import Mathlib.Logic.Function.Basic

namespace C11AndC.BoundedBuffer

/-- The sizes of the master, and the bytes that the producer writes. -/
structure Config where
  dataSize : Int
  bufferSize : Nat
  byte : Nat → Char

def master : Config := ⟨100, 30, fun _ => 'a'⟩

inductive Party where
  | producer | consumer
  deriving DecidableEq

def Party.other : Party → Party
  | .producer => .consumer
  | .consumer => .producer

/-- Where a thread is in its round; the consumer looks at its slot twice, to show the value and to
print it. -/
inductive Location where
  | lock | test | waiting | woken | unlock | slot | print | relock | count | wake | leave | finished
  deriving DecidableEq

structure Thread where
  location : Location
  index : Nat

/-- `produced` are the bytes written so far, `values` and `printed` what the consumer has got. -/
structure State where
  threads : Party → Thread
  mutex : Option Party
  numUsedBytes : Int
  buffer : Vector Char 8192
  produced : List Char
  values : List Char
  printed : List Char

/-- The head of the loop over `i`. -/
def loop (cfg : Config) (i : Nat) : Thread := ⟨if i < cfg.dataSize then .lock else .finished, i⟩

def start (cfg : Config) (buffer : Vector Char 8192) : State :=
  ⟨fun _ => loop cfg 0, none, 0, buffer, [], [], []⟩

def State.put (s : State) (p : Party) (t : Thread) : State :=
  { s with threads := Function.update s.threads p t }

def State.goto (s : State) (p : Party) (l : Location) : State := s.put p ⟨l, (s.threads p).index⟩

def State.acquire (s : State) (p : Party) (l : Location) : Option State :=
  if s.mutex = none then some { s.goto p l with mutex := some p } else none

/-- Only one thread waits for each of the conditions. -/
def State.wakeAll (s : State) (p : Party) : State :=
  if (s.threads p).location = .waiting then s.goto p .woken else s

/-- The loop body, which both `run` functions have: `blocked` is the value of `numUsedBytes` for
which the thread waits, `change` what it adds to it. -/
def round (cfg : Config) (p : Party) (blocked change : Int) (slot print : State → Nat → Option State)
    (s : State) : Option State :=
  let i := (s.threads p).index
  match (s.threads p).location with
  | .lock => s.acquire p .test
  | .test =>
    if s.numUsedBytes = blocked then some { s.goto p .waiting with mutex := none }
    else some (s.goto p .unlock)
  | .woken => s.acquire p .unlock
  | .unlock => some { s.goto p .slot with mutex := none }
  | .slot => slot s i
  | .print => print s i
  | .relock => s.acquire p .count
  | .count => some { s.goto p .wake with numUsedBytes := s.numUsedBytes + change }
  | .wake => some ((s.wakeAll p.other).goto p .leave)
  | .leave => some { s.put p (loop cfg (i + 1)) with mutex := none }
  | .waiting | .finished => none

def write (cfg : Config) (s : State) (i : Nat) : Option State :=
  if h : i % cfg.bufferSize < 8192 then
    some { s.goto .producer .relock with
      buffer := s.buffer.set (i % cfg.bufferSize) (cfg.byte i) h
      produced := s.produced ++ [cfg.byte i] }
  else none

def Producer.run (cfg : Config) : State → Option State :=
  round cfg .producer cfg.bufferSize 1 (write cfg) fun _ _ => none

def readValue (cfg : Config) (s : State) (i : Nat) : Option State := do
  let f ← s.buffer[i % cfg.bufferSize]?
  return { s.goto .consumer .print with values := s.values ++ [f] }

def readPrint (cfg : Config) (s : State) (i : Nat) : Option State := do
  let c ← s.buffer[i % cfg.bufferSize]?
  return { s.goto .consumer .relock with printed := s.printed ++ [c] }

def Consumer.run (cfg : Config) : State → Option State :=
  round cfg .consumer 0 (-1) (readValue cfg) (readPrint cfg)

def step (cfg : Config) (s : State) : Party → Option State
  | .producer => Producer.run cfg s
  | .consumer => Consumer.run cfg s

end C11AndC.BoundedBuffer
