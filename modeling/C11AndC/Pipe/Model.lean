import C11AndC.Library.Runs

namespace C11AndC.Pipe

/-- Where the thread of a stage is in `pipe_stage`. It has the mutex of its stage from
`sending` to `sent`; the last stage has no thread. -/
inductive Thread where
  | absent
  | starting
  | waiting
  | woken
  | sending
  | blocked
  | wokenSending
  | sent
  deriving DecidableEq

structure Stage where
  dataReady : Bool
  data : Int
  thread : Thread
  deriving DecidableEq

/-- Where the thread that calls `pipe_start` is. -/
inductive Sender where
  | idle
  | sending (value : Int)
  | blocked (value : Int)
  | woken (value : Int)
  deriving DecidableEq

/-- Where the thread that calls `pipe_result` is. -/
inductive Collector where
  | idle
  | taking
  | blocked
  | woken
  deriving DecidableEq

/-- The pipe with its threads. The values started, the number of results claimed and the
values returned are recorded. -/
structure State where
  stages : List Stage
  active : Int
  sender : Sender
  collector : Collector
  started : List Int
  claimed : Nat
  results : List Int
  deriving DecidableEq

def pipeCreate (stages : Nat) : State :=
  ⟨List.replicate stages ⟨false, 0, .starting⟩ ++ [⟨false, 0, .absent⟩], 0, .idle, .idle, [], 0, []⟩

def Thread.holds : Thread → Bool
  | .sending | .blocked | .wokenSending | .sent => true
  | _ => false

/-- A signal on `avail` of the stage of the thread. -/
def Thread.signalAvail : Thread → Thread
  | .waiting => .woken
  | thread => thread

/-- A signal on `ready` of the next stage. -/
def Thread.signalReady : Thread → Thread
  | .blocked => .wokenSending
  | thread => thread

def Sender.signalReady : Sender → Sender
  | .blocked value => .woken value
  | sender => sender

def Collector.signalAvail : Collector → Collector
  | .blocked => .woken
  | collector => collector

def State.setThread (s : State) (i : Nat) (thread : Thread) : State :=
  { s with stages := s.stages.modify i (fun stage => { stage with thread := thread }) }

/-- Wake the thread that waits to send to the stage. -/
def State.signalReady (s : State) (i : Nat) : State :=
  match i with
  | 0 => { s with sender := s.sender.signalReady }
  | i + 1 => { s with stages := s.stages.modify i (fun stage =>
      { stage with thread := stage.thread.signalReady }) }

/-- Wake the thread that waits for data in the stage, which is the collector for the last
stage. -/
def State.signalAvail (s : State) (i : Nat) (stage : Stage) : State :=
  if stage.thread = .absent then { s with collector := s.collector.signalAvail }
  else s.setThread i stage.thread.signalAvail

/-- The section of `pipe_send` under the mutex of the stage, which its thread must not
have. The answer is whether the data could be sent; the stores to `queue` are left out. -/
def pipeSend (s : State) (i : Nat) (data : Int) : Option (Bool × State) := do
  let stage ← s.stages[i]?
  if stage.thread.holds then none
  else if stage.dataReady then some (false, s)
  else
    let s := { s with stages := s.stages.set i { stage with data := data, dataReady := true } }
    some (true, s.signalAvail i stage)

/-- The next part of `pipe_stage`. -/
def pipeStage (s : State) (i : Nat) : Option State := do
  let stage ← s.stages[i]?
  match stage.thread with
  | .starting | .woken => return s.setThread i (if stage.dataReady then .sending else .waiting)
  | .sending | .wokenSending =>
      let (sent, s) ← pipeSend s (i + 1) (stage.data + 1)
      return s.setThread i (if sent then .sent else .blocked)
  | .sent =>
      let s := { s with stages := s.stages.set i { stage with dataReady := false, thread := .waiting } }
      return s.signalReady i
  | .absent | .waiting | .blocked => none

/-- The next part of `pipe_start` after the value has been counted. -/
def pipeStart (s : State) : Option State := do
  let value ← match s.sender with
    | .sending value => some value
    | .woken value => some value
    | _ => none
  let (sent, s) ← pipeSend s 0 value
  return { s with sender := if sent then .idle else .blocked value }

/-- `pipe_result`, up to the lock of the last stage if there is something to claim. -/
def claim (s : State) : State :=
  if s.active ≤ 0 then s
  else { s with active := s.active - 1, claimed := s.claimed + 1, collector := .taking }

/-- The rest of `pipe_result`. -/
def pipeResult (s : State) : Option State := do
  let i := s.stages.length - 1
  let stage ← s.stages[i]?
  if stage.dataReady then
    let s := { s with
      stages := s.stages.set i { stage with dataReady := false }
      results := s.results ++ [stage.data]
      collector := .idle }
    return s.signalReady i
  else return { s with collector := .blocked }

/-- What can happen next; a wait may end without a signal. -/
inductive Action where
  | start (value : Int)
  | send
  | stage (i : Nat)
  | claim
  | collect
  | wakeStage (i : Nat)
  | wakeSender
  | wakeCollector
  deriving DecidableEq

def step (s : State) : Action → Option State
  | .start value =>
      if s.sender = .idle then
        some { s with active := s.active + 1, started := s.started ++ [value], sender := .sending value }
      else none
  | .send => pipeStart s
  | .stage i => pipeStage s i
  | .claim => if s.collector = .idle then some (claim s) else none
  | .collect => if s.collector = .taking ∨ s.collector = .woken then pipeResult s else none
  | .wakeStage i => do
      let stage ← s.stages[i]?
      return s.setThread i stage.thread.signalAvail.signalReady
  | .wakeSender => some { s with sender := s.sender.signalReady }
  | .wakeCollector => some { s with collector := s.collector.signalAvail }

end C11AndC.Pipe
