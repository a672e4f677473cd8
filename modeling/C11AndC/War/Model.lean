import Mathlib.Logic.Function.Basic

namespace C11AndC.War

def QUEUESIZE : Nat := 1000

def MAXSTEPS : Nat := 1000

def NSUITS : Nat := 4

def values : List Char := ['2', '3', '4', '5', '6', '7', '8', '9', 'T', 'J', 'Q', 'K', 'A']

structure Queue where
  q : Nat → Nat
  first : Nat
  last : Nat
  count : Nat

/-- What is printed. -/
inductive Line where
  | overflow (x : Nat)
  | emptyDequeue
  | aWins (steps : Nat)
  | bWins (steps : Nat)
  | tied (steps a b : Nat)
  | bothTie (steps : Nat)
  deriving DecidableEq

/-- The body of the queue is left as it is. -/
def initQueue (q : Nat → Nat) : Queue := ⟨q, 0, QUEUESIZE - 1, 0⟩

def enqueue (s : Queue) (x : Nat) : Queue × List Line :=
  if s.count ≥ QUEUESIZE then (s, [.overflow x])
  else
    let last := (s.last + 1) % QUEUESIZE
    ({ s with last := last, q := Function.update s.q last x, count := s.count + 1 }, [])

/-- On an empty queue the result is the uninitialised variable `x`. -/
def dequeue (s : Queue) (x : Nat) : Nat × Queue × List Line :=
  if s.count ≤ 0 then (x, s, [.emptyDequeue])
  else (s.q s.first, { s with first := (s.first + 1) % QUEUESIZE, count := s.count - 1 }, [])

def empty (s : Queue) : Bool := s.count ≤ 0

/-- The decks `a` and `b` and the cards on the table. -/
inductive Deck where
  | a | b | c
  deriving DecidableEq

inductive Call where
  | enqueue (d : Deck) (x : Nat)
  | dequeue (d : Deck)

/-- `calls` are the calls of `enqueue` and `dequeue` so far. -/
structure State where
  queues : Deck → Queue
  calls : List Call
  printed : List Line
  inwar : Bool
  steps : Nat

def State.enqueue (s : State) (d : Deck) (x : Nat) : State :=
  let (queue, lines) := War.enqueue (s.queues d) x
  { s with
    queues := Function.update s.queues d queue
    calls := s.calls ++ [.enqueue d x]
    printed := s.printed ++ lines }

def State.dequeue (s : State) (d : Deck) : Nat × State :=
  let (x, queue, lines) := War.dequeue (s.queues d) 0
  (x, { s with
    queues := Function.update s.queues d queue
    calls := s.calls ++ [.dequeue d]
    printed := s.printed ++ lines })

def value (card : Nat) : Char := values.getD (card / NSUITS) '\x00'

/-- The rounds of the loop of `clear_queue`, each of which takes a card out of the first queue. -/
def clearRounds (d e : Deck) : Nat → State → State
  | 0, s => s
  | n + 1, s =>
    if empty (s.queues d) then s
    else
      let (x, s) := s.dequeue d
      clearRounds d e n (s.enqueue e x)

def clearQueue (d e : Deck) (s : State) : State := clearRounds d e (s.queues d).count s

/-- The condition of the loop of `war`. -/
def goesOn (s : State) : Bool :=
  !empty (s.queues .a) && (!empty (s.queues .b) && s.steps < MAXSTEPS)

/-- The second half of the loop body, where the cards `x` and `y` have been laid. -/
def settle (x y : Nat) (s : State) : State :=
  if s.inwar then { s with inwar := false }
  else if (value x).toNat > (value y).toNat then clearQueue .c .a s
  else if (value x).toNat < (value y).toNat then clearQueue .c .b s
  else if value y = value x then { s with inwar := true }
  else s

def turn (s : State) : State :=
  let (x, s) := { s with steps := s.steps + 1 }.dequeue .a
  let (y, s) := s.dequeue .b
  settle x y ((s.enqueue .c x).enqueue .c y)

/-- The state at the head of the loop after `n` rounds, or after fewer if the loop ends before. -/
def heads (s : State) : Nat → State
  | 0 => s
  | n + 1 => let s := heads s n; if goesOn s then turn s else s

def result (s : State) : Line :=
  if !empty (s.queues .a) && empty (s.queues .b) then .aWins s.steps
  else if empty (s.queues .a) && !empty (s.queues .b) then .bWins s.steps
  else if !empty (s.queues .a) && !empty (s.queues .b) then
    .tied s.steps (s.queues .a).count (s.queues .b).count
  else .bothTie s.steps

/-- `war` on two decks that are in `s`; the body of its queue `c` is not initialised. -/
def warStart (s : State) (q : Nat → Nat) : State :=
  { s with queues := Function.update s.queues .c (initQueue q), inwar := false, steps := 0 }

def war (s : State) (q : Nat → Nat) : State :=
  let s := heads (warStart s q) MAXSTEPS
  { s with printed := s.printed ++ [result s] }

/-- The decks are filled card by card. -/
def deal (s : State) (d : Deck) (cards : List Nat) : State := cards.foldl (fun s x => s.enqueue d x) s

/-- Two decks filled through `enqueue`, whatever the arrays have held before. -/
def decks (q : Deck → Nat → Nat) (a b : List Nat) : State :=
  deal (deal ⟨fun d => initQueue (q d), [], [], false, 0⟩ .a a) .b b

end C11AndC.War
