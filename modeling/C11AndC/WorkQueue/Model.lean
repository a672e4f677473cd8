import C11AndC.Library.Program
import C11AndC.Library.Runs

namespace C11AndC.WorkQueue

open C11AndC.Library

def workqValid : Nat := 0xdec1992

structure WorkqEle where
  next : Nat
  data : Nat

structure Workq where
  first : Nat
  last : Nat
  valid : Nat
  quit : Bool
  parallelism : Int
  counter : Int
  idle : Int

/-- Where a server thread stands. It owns the mutex only at `top`, the head of
its endless loop; everything else it does under the mutex is part of one step. -/
inductive Server where
  | starting
  | top
  | blocked
  | woken (timedOut : Bool)
  | calling (we : Nat) (timedOut : Bool)
  | inEngine (we : Nat) (timedOut : Bool)
  | relocking (timedOut : Bool)
  | exited
  deriving DecidableEq

inductive Destroyer where
  | absent
  | entering
  | waiting
  | woken
  | leaving
  | returned
  deriving DecidableEq

inductive WaitStatus where
  | success
  | etimedout
  | failure
  deriving DecidableEq

inductive Notify where
  | none
  | signal
  | create
  deriving DecidableEq

abbrev Section (β : Type) := Program WorkqEle Workq β

def append (item : Nat) : Section Unit := do
  let wq ← getReg
  if wq.first = 0 then
    setReg (fun wq => { wq with first := item })
  else
    store wq.last (fun e => { e with next := item })
  setReg (fun wq => { wq with last := item })

/-- The mutex section of `workq_add`, given what `pthread_cond_signal` and
`pthread_create` answer if called. The result is the status with the call made. -/
def workqAdd (signalled created : Int) (item : Nat) : Section (Int × Notify) := do
  append item
  let wq ← getReg
  if 0 < wq.idle then
    if signalled ≠ 0 then pure (signalled, .none) else pure (0, .signal)
  else if wq.counter < wq.parallelism then
    if created ≠ 0 then
      pure (created, .none)
    else
      setReg (fun wq => { wq with counter := wq.counter + 1 })
      pure (0, .create)
  else
    pure (0, .none)

/-- Unlink the first element. The test of `last` is the assignment the source
makes there, so `last` is cleared whatever it was. -/
def dequeue (we : Nat) : Section Unit := do
  let e ← load we
  setReg (fun wq => { wq with first := e.next })
  setReg (fun wq => { wq with last := we })
  let wq ← getReg
  if wq.last ≠ 0 then
    setReg (fun wq => { wq with last := 0 })

/-- What a server does with the mutex once it has an element behind it. The
flag in the answer asks for a broadcast. -/
def finishRound (timedOut : Bool) : Section (Server × Bool) := do
  let wq ← getReg
  if wq.first = 0 ∧ wq.quit = true then
    setReg (fun wq => { wq with counter := wq.counter - 1 })
    pure (.exited, decide (wq.counter - 1 = 0))
  else if wq.first = 0 ∧ timedOut = true then
    setReg (fun wq => { wq with counter := wq.counter - 1 })
    pure (.exited, false)
  else
    pure (.top, false)

def serve (timedOut : Bool) : Section (Server × Bool) := do
  let wq ← getReg
  if wq.first = 0 then
    finishRound timedOut
  else
    dequeue wq.first
    pure (.calling wq.first timedOut, false)

def waitForWork : Section (Server × Bool) := do
  let wq ← getReg
  if wq.first = 0 ∧ wq.quit = false then
    setReg (fun wq => { wq with idle := wq.idle + 1 })
    pure (.blocked, false)
  else
    serve false

/-- Back from `pthread_cond_timedwait`, with the mutex and the given status. -/
def leaveWait (status : WaitStatus) : Section (Server × Bool) := do
  setReg (fun wq => { wq with idle := wq.idle - 1 })
  match status with
  | .success => waitForWork
  | .etimedout => serve true
  | .failure =>
    setReg (fun wq => { wq with counter := wq.counter - 1 })
    pure (.exited, false)

/-- The part of `workq_server` that a server at this point runs under the mutex. -/
def workqServer : Server → Option (Section (Server × Bool))
  | .starting | .top => some waitForWork
  | .woken timedOut => some (leaveWait (if timedOut then .etimedout else .success))
  | .relocking timedOut => some (finishRound timedOut)
  | _ => none

/-- The mutex section of `workq_destroy` up to its first wait. -/
def workqDestroy : Section (Destroyer × Bool) := do
  setReg (fun wq => { wq with valid := 0 })
  let wq ← getReg
  if 0 < wq.counter then
    setReg (fun wq => { wq with quit := true })
    pure (.waiting, decide (0 < wq.idle))
  else
    pure (.leaving, false)

def destroyWait : Section Destroyer := do
  let wq ← getReg
  if 0 < wq.counter then pure .waiting else pure .leaving

def workqInit (threads : Int) : Store WorkqEle Workq :=
  ⟨Memory.empty, ⟨0, 0, workqValid, false, threads, 0, 0⟩⟩

/-- The queue with everyone who uses it: the servers by number of creation, the
`workq_add` calls that have an element but not yet the mutex, and the thread in
`workq_destroy`. The last four lists only record the course of the run. -/
structure Sys where
  store : Store WorkqEle Workq
  holder : Option Nat
  servers : List Server
  pending : List Nat
  destroyer : Destroyer
  crashed : Bool
  added : List Nat
  taken : List Nat
  handed : List Nat
  finished : List Nat

def init (threads : Int) : Sys :=
  ⟨workqInit threads, none, [], [], .absent, false, [], [], [], []⟩

inductive Waiter where
  | server (i : Nat)
  | destroyer
  deriving DecidableEq

inductive Act where
  | addBegin (data : Nat)
  | addLocked (item : Nat) (woken : Option Waiter)
  | server (i : Nat)
  | engineCall (i : Nat)
  | engineReturn (i : Nat)
  | spurious (w : Waiter)
  | expire (i : Nat)
  | destroyBegin
  | destroyLock
  | destroyWake
  | destroyEnd
  deriving DecidableEq

def wakeServer : Server → Server
  | .blocked => .woken false
  | s => s

def wakeDestroyer : Destroyer → Destroyer
  | .waiting => .woken
  | d => d

def isBlocked (s : Sys) : Waiter → Bool
  | .server i => s.servers[i]? == some .blocked
  | .destroyer => s.destroyer == .waiting

def wake (s : Sys) : Waiter → Sys
  | .server i => { s with servers := s.servers.modify i wakeServer }
  | .destroyer => { s with destroyer := wakeDestroyer s.destroyer }

def broadcast (s : Sys) : Sys :=
  { s with servers := s.servers.map wakeServer, destroyer := wakeDestroyer s.destroyer }

def anyBlocked (s : Sys) : Bool :=
  s.servers.contains .blocked || s.destroyer == .waiting

/-- `pthread_cond_signal` wakes one of the threads that block on the condition
variable, and nobody if there is none. -/
def signal (s : Sys) : Option Waiter → Option Sys
  | none => if anyBlocked s then none else some s
  | some w => if isBlocked s w then some (wake s w) else none

/-- Run a section on the shared store; a fault ends the program. -/
def within {β : Type} (s : Sys) (p : Section β) (k : β → Sys → Option Sys) : Option Sys :=
  match p s.store with
  | .ok (r, t) => k r { s with store := t }
  | .error _ => some { s with crashed := true }

def setServer (s : Sys) (i : Nat) (pc : Server) : Sys := { s with servers := s.servers.set i pc }

def addBegin (s : Sys) (data : Nat) : Option Sys :=
  if s.store.reg.valid = workqValid then
    within s (new ⟨0, data⟩) fun item s => some { s with pending := item :: s.pending }
  else
    some s

def addLocked (s : Sys) (item : Nat) (woken : Option Waiter) : Option Sys :=
  if s.holder = none ∧ item ∈ s.pending then
    within s (workqAdd 0 0 item) fun r s =>
      let s := { s with pending := s.pending.erase item, added := s.added ++ [item] }
      match r.2 with
      | .none => if woken = none then some s else none
      | .signal => signal s woken
      | .create => if woken = none then some { s with servers := s.servers ++ [.starting] } else none
  else
    none

/-- Record the element a server leaves the queue with. -/
def recordTaken (pc : Server) (s : Sys) : Sys :=
  match pc with
  | .calling we _ => { s with taken := s.taken ++ [we] }
  | _ => s

/-- Who owns the mutex while server `i` stands at the given point. -/
def mutexAt (i : Nat) : Server → Option Nat
  | .top => some i
  | _ => none

def serverStep (s : Sys) (i : Nat) : Option Sys :=
  match s.servers[i]? with
  | none => none
  | some pc =>
    if s.holder = mutexAt i pc then
      match workqServer pc with
      | none => none
      | some p => within s p fun r s =>
          let s := recordTaken r.1 (setServer { s with holder := mutexAt i r.1 } i r.1)
          some (if r.2 then broadcast s else s)
    else
      none

def engineCall (s : Sys) (i : Nat) : Option Sys :=
  match s.servers[i]? with
  | some (.calling we timedOut) => within s (load we) fun _ s =>
      some { setServer s i (.inEngine we timedOut) with handed := s.handed ++ [we] }
  | _ => none

def engineReturn (s : Sys) (i : Nat) : Option Sys :=
  match s.servers[i]? with
  | some (.inEngine we timedOut) => within s (delete we) fun _ s =>
      some { setServer s i (.relocking timedOut) with finished := s.finished ++ [we] }
  | _ => none

/-- The deadline passes for a server in its wait, even if a signal has reached it. -/
def expire (s : Sys) (i : Nat) : Option Sys :=
  match s.servers[i]? with
  | some .blocked | some (.woken _) => some (setServer s i (.woken true))
  | _ => none

def destroyLock (s : Sys) : Option Sys :=
  if s.holder = none ∧ s.destroyer = .entering then
    within s workqDestroy fun r s =>
      let s := if r.2 then broadcast s else s
      some { s with destroyer := r.1 }
  else
    none

def destroyWake (s : Sys) : Option Sys :=
  if s.holder = none ∧ s.destroyer = .woken then
    within s destroyWait fun r s => some { s with destroyer := r }
  else
    none

def enabledStep (s : Sys) : Act → Option Sys
  | .addBegin data => addBegin s data
  | .addLocked item woken => addLocked s item woken
  | .server i => serverStep s i
  | .engineCall i => engineCall s i
  | .engineReturn i => engineReturn s i
  | .spurious w => if isBlocked s w then some (wake s w) else none
  | .expire i => expire s i
  | .destroyBegin =>
      if s.destroyer = .absent ∧ s.store.reg.valid = workqValid then
        some { s with destroyer := .entering }
      else none
  | .destroyLock => destroyLock s
  | .destroyWake => destroyWake s
  | .destroyEnd =>
      if s.destroyer = .leaving then some { s with destroyer := .returned } else none

def step (s : Sys) (a : Act) : Option Sys := if s.crashed then none else enabledStep s a

end C11AndC.WorkQueue
