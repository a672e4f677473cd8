import C11AndC.Library.CString
import C11AndC.Library.Program
import C11AndC.Library.Runs

namespace C11AndC.Terminal

open C11AndC.Library

inductive Operation where
  | read
  | write
  | quit
  | other
  deriving DecidableEq

structure Request where
  next : Nat
  operation : Operation
  synchronous : Bool
  doneFlag : Bool
  prompt : List Char
  text : List Char
  deriving DecidableEq

structure TtyServer where
  first : Nat
  last : Nat
  running : Bool
  deriving DecidableEq

/-- Where the server thread is in `tty_server_routine`. It has the mutex only inside of a
step. -/
inductive Server where
  | absent
  | starting
  | waiting
  | woken
  | taken (request : Nat)
  | reading (request : Nat)
  | processed (request : Nat) (operation : Operation)
  | finishing (request : Nat) (operation : Operation)
  | returned
  deriving DecidableEq

/-- Where a client is in `tty_server_request`. -/
inductive Client where
  | idle
  | waiting (request : Nat) (operation : Operation)
  | woken (request : Nat) (operation : Operation)
  deriving DecidableEq

abbrev Section (β : Type) := Program Request TtyServer β

/-- The record that a client fills in; what it leaves alone is as `malloc` gave it. -/
def newRequest (garbage : Request) (operation : Operation) (sync : Bool)
    (prompt string : Option (List Char)) : Request where
  next := 0
  operation := operation
  synchronous := sync
  doneFlag := if sync then false else garbage.doneFlag
  prompt := match prompt with
    | some prompt => strncpy garbage.prompt prompt 32
    | none => garbage.prompt.set 0 nul
  text := match operation, string with
    | .write, some string => strncpy garbage.text string 128
    | _, _ => garbage.text.set 0 nul

def append (request : Nat) : Section Unit := do
  let tty ← getReg
  if tty.first = 0 then
    setReg (fun tty => { tty with first := request, last := request })
  else
    store tty.last (fun v => { v with next := request })
    setReg (fun tty => { tty with last := request })

/-- `tty_server_request` up to its wait. The answer is the request, and whether the
server thread was created. -/
def ttyServerRequest (v : Request) : Section (Nat × Bool) := do
  let tty ← getReg
  setReg (fun tty => { tty with running := true })
  let request ← new v
  append request
  pure (request, !tty.running)

/-- The rest of a synchronous `tty_server_request`, with the string that it returns; without
an answer, the client waits once more. -/
def reply (request : Nat) (operation : Operation) : Section (Option (Option (List Char))) := do
  let v ← load request
  if v.doneFlag then
    delete request
    pure (some (if operation = .read then some (if 0 < strlen v.text then str v.text else []) else none))
  else
    pure none

def takeRequest : Section Server := do
  let tty ← getReg
  if tty.first = 0 then
    pure .waiting
  else
    let v ← load tty.first
    setReg (fun tty => { tty with first := v.next })
    if v.next = 0 then
      setReg (fun tty => { tty with last := 0 })
    pure (.taken tty.first)

/-- The switch on the operation, up to the input of a line, with what is printed. -/
def process (request : Nat) : Section (Server × List (List Char)) := do
  let v ← load request
  match v.operation with
  | .read => pure (.reading request, if 0 < strlen v.prompt then [str v.prompt] else [])
  | .write => pure (.processed request .write, [str v.text])
  | operation => pure (.processed request operation, [])

/-- The input of a line, given what `fgets` finds. -/
def readText (request : Nat) (line : Option (List Char)) : Section Server := do
  match line with
  | some line => store request (fun v => { v with text := fill v.text line })
  | none => store request (fun v => { v with text := v.text.set 0 nul })
  store request (fun v => { v with text := chomp v.text })
  pure (.processed request .read)

def nextRound (operation : Operation) : Server :=
  if operation = .quit then .returned else .starting

/-- What the server does with a request it has processed, with whether it has released it. -/
def complete (request : Nat) (operation : Operation) : Section (Server × Bool) := do
  let v ← load request
  if v.synchronous then
    pure (.finishing request operation, false)
  else
    delete request
    pure (nextRound operation, true)

def finish (request : Nat) (operation : Operation) : Section Server := do
  store request (fun v => { v with doneFlag := true })
  pure (nextRound operation)

structure Call where
  request : Nat
  operation : Operation
  synchronous : Bool
  deriving DecidableEq

structure Return where
  request : Nat
  operation : Operation
  string : Option (List Char)
  deriving DecidableEq

/-- The server with its clients. The last six lists record the course of the run: the requests
in the order in which they were appended and served, the lines that were read for them, who
released them (the client or not), what the synchronous calls returned and what was printed. -/
structure State where
  store : Store Request TtyServer
  server : Server
  clients : List Client
  crashed : Bool
  appended : List Call
  served : List Nat
  lines : List (Nat × Option (List Char))
  released : List (Nat × Bool)
  returned : List Return
  printed : List (List Char)

def init (clients : Nat) : State :=
  ⟨⟨Memory.empty, ⟨0, 0, false⟩⟩, .absent, List.replicate clients .idle, false, [], [], [], [], [], []⟩

/-- A signal on the condition `request` of the server. -/
def Server.signalRequest : Server → Server
  | .waiting => .woken
  | server => server

/-- A signal on the condition `done` of a request. -/
def Client.signalDone (done : Nat) : Client → Client
  | .waiting request operation =>
      if request = done then .woken request operation else .waiting request operation
  | client => client

def Client.wake : Client → Client
  | .waiting request operation => .woken request operation
  | client => client

/-- Run a section on the shared store; a fault ends the program. -/
def within {β : Type} (s : State) (p : Section β) (k : β → State → State) : State :=
  match p s.store with
  | .ok (r, t) => k r { s with store := t }
  | .error _ => { s with crashed := true }

def request (s : State) (i : Nat) (v : Request) : State :=
  within s (ttyServerRequest v) fun r s => { s with
    server := if r.2 then .starting else s.server.signalRequest
    clients := s.clients.set i (if v.synchronous then .waiting r.1 v.operation else .idle)
    appended := s.appended ++ [⟨r.1, v.operation, v.synchronous⟩] }

def resume (s : State) (i request : Nat) (operation : Operation) : State :=
  within s (reply request operation) fun r s =>
    match r with
    | none => { s with clients := s.clients.set i (.waiting request operation) }
    | some string => { s with
        clients := s.clients.set i .idle
        released := s.released ++ [(request, true)]
        returned := s.returned ++ [⟨request, operation, string⟩] }

/-- The requests that the server has served when it gets there. -/
def Server.serves : Server → List Nat
  | .processed request _ => [request]
  | _ => []

/-- The next part of `tty_server_routine`, given what `fgets` finds if it is called. -/
def ttyServerRoutine (s : State) (line : Option (List Char)) : Option State :=
  match s.server with
  | .absent | .waiting | .returned => none
  | .starting | .woken => some (within s takeRequest fun server s => { s with server := server })
  | .taken request => some (within s (process request) fun r s => { s with
      server := r.1
      served := s.served ++ r.1.serves
      printed := s.printed ++ r.2 })
  | .reading request =>
      if (line.getD []).length < 128 then
        some (within s (readText request line) fun server s => { s with
          server := server
          served := s.served ++ server.serves
          lines := s.lines ++ [(request, line)] })
      else none
  | .processed request operation => some (within s (complete request operation) fun r s => { s with
      server := r.1
      released := s.released ++ if r.2 then [(request, false)] else [] })
  | .finishing request operation => some (within s (finish request operation) fun server s => { s with
      server := server
      clients := s.clients.map (Client.signalDone request) })

/-- What can happen next; a wait may end without a signal. -/
inductive Action where
  | request (i : Nat) (operation : Operation) (sync : Bool) (prompt string : Option (List Char))
      (garbage : Request)
  | resume (i : Nat)
  | server (line : Option (List Char))
  | wakeServer
  | wakeClient (i : Nat)
  deriving DecidableEq

def step (s : State) (a : Action) : Option State :=
  if s.crashed then none
  else match a with
  | .request i operation sync prompt string garbage =>
      if s.clients[i]? = some .idle ∧ garbage.prompt.length = 32 ∧ garbage.text.length = 128 then
        some (request s i (newRequest garbage operation sync prompt string))
      else none
  | .resume i =>
      match s.clients[i]? with
      | some (.woken request operation) => some (resume s i request operation)
      | _ => none
  | .server line => ttyServerRoutine s line
  | .wakeServer => some { s with server := s.server.signalRequest }
  | .wakeClient i => some { s with clients := s.clients.modify i Client.wake }

end C11AndC.Terminal
