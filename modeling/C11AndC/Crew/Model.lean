import C11AndC.Library.Runs

namespace C11AndC.Crew

abbrev Path := List Char

/-- An item of work: the path of a file and the string to look for. -/
structure Work where
  path : Path
  string : List Char
  deriving DecidableEq

/-- The type of a file as `lstat` reports it. -/
inductive Kind where
  | link
  | directory
  | regular
  | other
  deriving DecidableEq

/-- Where a worker thread is. It has an item of work from `lstat` to `finishing`; `read` is
the number of entries that it has read from its directory. -/
inductive Worker where
  | starting
  | blockedStart
  | wokenStart
  | top
  | blockedWork
  | wokenWork
  | lstat (work : Work)
  | opening (work : Work)
  | reading (work : Work) (read : Nat)
  | adding (work : Work) (read : Nat) (newWork : Work)
  | searching (work : Work)
  | finishing (work : Work)
  | exited
  deriving DecidableEq

/-- Where a call of `crew_start` is. -/
inductive Stage where
  | entering
  | blockedBusy
  | wokenBusy
  | blockedDone
  | wokenDone
  | returned
  deriving DecidableEq

structure Caller where
  work : Work
  stage : Stage
  deriving DecidableEq

/-- The crew with its threads. The lists at the end record the paths that have been
requested, taken from the queue and finished. -/
structure State where
  workCount : Int
  queue : List Work
  workers : List Worker
  callers : List Caller
  requested : List Path
  taken : List Path
  finished : List Path
  deriving DecidableEq

def crewSize : Nat := 5

def einval : Int := 22

/-- A crew with the given number of threads, none of which has run. -/
def fresh (size : Nat) : State :=
  ⟨0, [], List.replicate size .starting, [], [], [], []⟩

/-- Whatever size is asked for, all the threads are created. -/
def crewCreate (size : Int) : Except Int State :=
  if size > crewSize then .error einval else .ok (fresh crewSize)

def Worker.wake : Worker → Option Worker
  | .blockedStart => some .wokenStart
  | .blockedWork => some .wokenWork
  | _ => none

def Stage.wake : Stage → Option Stage
  | .blockedBusy => some .wokenBusy
  | .blockedDone => some .wokenDone
  | _ => none

/-- `pthread_cond_signal` on `go` wakes one of the threads that wait, if there is any. -/
def signal (workers : List Worker) : Option Nat → Option (List Worker)
  | none => if workers.any (fun w => w.wake.isSome) then none else some workers
  | some i => do return workers.set i (← (← workers[i]?).wake)

/-- `pthread_cond_broadcast` on `done`. -/
def broadcast (callers : List Caller) : List Caller :=
  callers.map (fun c => { c with stage := c.stage.wake.getD c.stage })

def dot : List Char := ['.']

def dotdot : List Char := ['.', '.']

/-- The path of an entry, however long. Whether it has room in its block is not told here. -/
def join (path name : List Char) : Path := path ++ '/' :: name

/-- What `readdir_r` answers. -/
inductive Entry where
  | failure
  | endOfDirectory
  | name (name : List Char)
  deriving DecidableEq

/-- The outcome of a system call that a worker makes without the mutex. -/
inductive Outcome where
  | lstat (kind : Kind)
  | opendir (opened : Bool)
  | readdir (entry : Entry)
  | searched
  deriving DecidableEq

/-- The work of a worker outside of the mutex, one system call at a time. A directory that
cannot be opened sends the worker back to the top of its loop. -/
def Worker.outside : Worker → Outcome → Option Worker
  | .lstat work, .lstat kind =>
      match kind with
      | .link => some (.finishing work)
      | .directory => some (.opening work)
      | .regular => some (.searching work)
      | .other => some (.finishing work)
  | .opening work, .opendir opened => some (if opened then .reading work 0 else .top)
  | .reading work read, .readdir entry =>
      match entry with
      | .failure => some (.finishing work)
      | .endOfDirectory => some (.finishing work)
      | .name name =>
          if name = dot then some (.reading work (read + 1))
          else if name = dotdot then some (.reading work (read + 1))
          else some (.adding work (read + 1) { work with path := join work.path name })
  | .searching work, .searched => some (.finishing work)
  | _, _ => none

def State.setWorker (s : State) (i : Nat) (w : Worker) : State :=
  { s with workers := s.workers.set i w }

def State.setCaller (s : State) (j : Nat) (c : Caller) : State :=
  { s with callers := s.callers.set j c }

/-- The first item of the queue goes to the worker. -/
def State.take (s : State) (i : Nat) : State :=
  match s.queue with
  | [] => s.setWorker i .blockedWork
  | work :: queue =>
      { s.setWorker i (.lstat work) with queue := queue, taken := s.taken ++ [work.path] }

/-- Append an item and count it. -/
def State.add (s : State) (work : Work) (woken : Option Nat) : Option State := do
  return { s with
    queue := s.queue ++ [work]
    workCount := s.workCount + 1
    workers := ← signal s.workers woken }

/-- The end of a worker's round. The worker that finds no more work to be outstanding
leaves its loop. -/
def State.finish (s : State) (i : Nat) (work : Work) : State :=
  let s := { s with workCount := s.workCount - 1, finished := s.finished ++ [work.path] }
  if s.workCount ≤ 0 then
    { s.setWorker i .exited with callers := broadcast s.callers }
  else s.setWorker i .top

/-- The next part of `worker_routine` that runs with the mutex. -/
def workerRoutine (s : State) (i : Nat) (woken : Option Nat) : Option State := do
  match ← s.workers[i]? with
  | .starting => return s.setWorker i (if s.workCount = 0 then .blockedStart else .top)
  | .wokenStart => return s.setWorker i (if s.workCount = 0 then .blockedStart else .top)
  | .top => return s.take i
  | .wokenWork => return s.take i
  | .adding work read newWork => (s.setWorker i (.reading work read)).add newWork woken
  | .finishing work => return s.finish i work
  | _ => none

/-- The part of `crew_start` from the test of its first loop on. -/
def State.request (s : State) (j : Nat) (c : Caller) (woken : Option Nat) : Option State := do
  if s.workCount > 0 then
    return s.setCaller j { c with stage := .blockedBusy }
  else
    let s ← s.add c.work woken
    return { s.setCaller j { c with stage := if s.workCount > 0 then .blockedDone else .returned } with
      requested := s.requested ++ [c.work.path] }

def crewStart (s : State) (j : Nat) (woken : Option Nat) : Option State := do
  let c ← s.callers[j]?
  match c.stage with
  | .entering => s.request j c woken
  | .wokenBusy => s.request j c woken
  | .wokenDone =>
      return s.setCaller j { c with stage := if s.workCount > 0 then .blockedDone else .returned }
  | _ => none

/-- What can happen next. A signal names the worker that it wakes. -/
inductive Event where
  | call (work : Work)
  | caller (j : Nat) (woken : Option Nat)
  | worker (i : Nat) (woken : Option Nat)
  | outside (i : Nat) (outcome : Outcome)
  | wakeWorker (i : Nat)
  | wakeCaller (j : Nat)
  deriving DecidableEq

def step (s : State) : Event → Option State
  | .call work => some { s with callers := s.callers ++ [⟨work, .entering⟩] }
  | .caller j woken => crewStart s j woken
  | .worker i woken => workerRoutine s i woken
  | .outside i outcome => do return s.setWorker i (← (← s.workers[i]?).outside outcome)
  | .wakeWorker i => do return s.setWorker i (← (← s.workers[i]?).wake)
  | .wakeCaller j => do
      let c ← s.callers[j]?
      return s.setCaller j { c with stage := ← c.stage.wake }

end C11AndC.Crew
