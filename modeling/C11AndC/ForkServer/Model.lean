import C11AndC.Library.Runs

namespace C11AndC.ForkServer

/-- Where the process for a connection is; the connection is closed on its side from `exiting` on. -/
inductive Child where
  | closingListener
  | sending
  | closing
  | exiting
  | zombie
  | reaped
  deriving DecidableEq

/-- A connection that has been accepted: what its client has received, whether the server itself has it open, and
the process that `fork` has made for it. -/
structure Conn where
  received : List String
  opened : Bool
  child : Option Child
  deriving DecidableEq

/-- Where `main` is, with the connection it is about. -/
inductive Main where
  | accepting
  | failed
  | forking (newFd : Nat)
  | closing (newFd : Nat)
  deriving DecidableEq

/-- Where `sigchld_handler` is, with the `errno` it has saved. -/
inductive Handler where
  | waiting (savedErrno : Nat)
  | restoring (savedErrno : Nat)
  deriving DecidableEq

/-- What is printed; `accept` and `send` are the calls whose errors are printed by `perror`. -/
inductive Line where
  | connection (newFd : Nat)
  | accept (errno : Nat)
  | send (newFd errno : Nat)
  deriving DecidableEq

/-- The clients that wait to be accepted, the connections, `main` with its handler and the signal that has not
been delivered yet. -/
structure State where
  backlog : Nat
  conns : List Conn
  main : Main
  handler : Option Handler
  pending : Bool
  errno : Nat
  log : List Line
  deriving DecidableEq

/-- Before the first connection, with whatever is in `errno`. -/
def init (errno : Nat) : State := ⟨0, [], .accepting, none, false, errno, []⟩

def ECHILD : Nat := 10

def greeting : String := "Hello, world!"

/-- The next step of `main`; `failure` is the error of `fork`, if it is called and fails. The result of `fork` is
only compared with 0, so that after a failure the connection is closed. -/
def mainStep (failure : Option Nat) (s : State) : Option State :=
  match s.main with
  | .accepting =>
      if s.backlog = 0 then none
      else some { s with
        backlog := s.backlog - 1
        conns := s.conns ++ [⟨[], true, none⟩]
        main := .forking s.conns.length
        log := s.log ++ [.connection s.conns.length] }
  | .failed => some { s with main := .accepting, log := s.log ++ [.accept s.errno] }
  | .forking newFd =>
      match failure with
      | some e => some { s with errno := e, main := .closing newFd }
      | none =>
          (s.conns[newFd]?).map fun c => { s with
            conns := s.conns.set newFd { c with child := some .closingListener }
            main := .closing newFd }
  | .closing newFd =>
      (s.conns[newFd]?).map fun c => { s with
        conns := s.conns.set newFd { c with opened := false }
        main := .accepting }

/-- The next step of the process for a connection; `failure` is the error of `send`, if it is called and fails. -/
def childStep (newFd : Nat) (failure : Option Nat) (s : State) (c : Conn) : Option State :=
  match c.child with
  | some .closingListener => some { s with conns := s.conns.set newFd { c with child := some .sending } }
  | some .sending =>
      match failure with
      | some e => some { s with
          conns := s.conns.set newFd { c with child := some .closing }
          log := s.log ++ [.send newFd e] }
      | none => some { s with
          conns := s.conns.set newFd { c with received := c.received ++ [greeting], child := some .closing } }
  | some .closing => some { s with conns := s.conns.set newFd { c with child := some .exiting } }
  | some .exiting => some { s with conns := s.conns.set newFd { c with child := some .zombie }, pending := true }
  | _ => none

def Conn.isZombie (c : Conn) : Bool := c.child = some .zombie

/-- The process has been made and not been waited for. -/
def Conn.isChild (c : Conn) : Bool := c.child ≠ none ∧ c.child ≠ some .reaped

/-- `SIGCHLD` is blocked while its handler runs. -/
def deliver (s : State) : Option State :=
  if s.pending ∧ s.handler = none then
    some { s with pending := false, handler := some (.waiting s.errno) }
  else none

/-- A step of the handler: `waitpid` may answer with any process that has ended, here that of the connection
`newFd`, and if there is none the loop ends. It fails if there are no processes at all. -/
def sigchldHandler (newFd : Nat) (s : State) : Option State :=
  match s.handler with
  | none => none
  | some (.waiting savedErrno) =>
      if s.conns.any Conn.isZombie then
        match s.conns[newFd]? with
        | some c =>
            if c.isZombie then some { s with conns := s.conns.set newFd { c with child := some .reaped } }
            else none
        | none => none
      else
        some { s with
          errno := if s.conns.any Conn.isChild then s.errno else ECHILD
          handler := some (.restoring savedErrno) }
  | some (.restoring savedErrno) => some { s with errno := savedErrno, handler := none }

/-- Clients connect and `accept` fails from outside; the other actions are those of the server. -/
inductive Action where
  | connect
  | acceptFails (errno : Nat)
  | main (failure : Option Nat)
  | child (newFd : Nat) (failure : Option Nat)
  | deliver
  | handler (newFd : Nat)
  deriving DecidableEq

def step (s : State) : Action → Option State
  | .connect => some { s with backlog := s.backlog + 1 }
  | .acceptFails e =>
      if s.main = .accepting ∧ s.handler = none then some { s with errno := e, main := .failed } else none
  | .main failure => if s.handler = none then mainStep failure s else none
  | .child newFd failure => (s.conns[newFd]?).bind (childStep newFd failure s)
  | .deliver => ForkServer.deliver s
  | .handler newFd => sigchldHandler newFd s

/-- What a step can do: `main` and its handler take turns, the processes go their way beside them. -/
inductive Turn (s : State) : Action → State → Prop
  | connect : Turn s .connect { s with backlog := s.backlog + 1 }
  | acceptFails {e : Nat} (hm : s.main = .accepting) (hh : s.handler = none) :
      Turn s (.acceptFails e) { s with errno := e, main := .failed }
  | accept {f : Option Nat} {n : Nat} (hm : s.main = .accepting) (hh : s.handler = none) (hb : s.backlog = n + 1) :
      Turn s (.main f) { s with
        backlog := n, conns := s.conns ++ [⟨[], true, none⟩], main := .forking s.conns.length,
        log := s.log ++ [.connection s.conns.length] }
  | perror {f : Option Nat} (hm : s.main = .failed) (hh : s.handler = none) :
      Turn s (.main f) { s with main := .accepting, log := s.log ++ [.accept s.errno] }
  | forkFails {i e : Nat} (hm : s.main = .forking i) (hh : s.handler = none) :
      Turn s (.main (some e)) { s with errno := e, main := .closing i }
  | fork {i : Nat} {c : Conn} (hm : s.main = .forking i) (hh : s.handler = none) (hi : s.conns[i]? = some c) :
      Turn s (.main none) { s with
        conns := s.conns.set i { c with child := some .closingListener }, main := .closing i }
  | close {f : Option Nat} {i : Nat} {c : Conn} (hm : s.main = .closing i) (hh : s.handler = none)
      (hi : s.conns[i]? = some c) :
      Turn s (.main f) { s with conns := s.conns.set i { c with opened := false }, main := .accepting }
  | closeListener {f : Option Nat} {i : Nat} {c : Conn} (hi : s.conns[i]? = some c)
      (hc : c.child = some .closingListener) :
      Turn s (.child i f) { s with conns := s.conns.set i { c with child := some .sending } }
  | sendFails {i e : Nat} {c : Conn} (hi : s.conns[i]? = some c) (hc : c.child = some .sending) :
      Turn s (.child i (some e)) { s with
        conns := s.conns.set i { c with child := some .closing }, log := s.log ++ [.send i e] }
  | send {i : Nat} {c : Conn} (hi : s.conns[i]? = some c) (hc : c.child = some .sending) :
      Turn s (.child i none) { s with
        conns := s.conns.set i { c with received := c.received ++ [greeting], child := some .closing } }
  | closeFd {f : Option Nat} {i : Nat} {c : Conn} (hi : s.conns[i]? = some c) (hc : c.child = some .closing) :
      Turn s (.child i f) { s with conns := s.conns.set i { c with child := some .exiting } }
  | exit {f : Option Nat} {i : Nat} {c : Conn} (hi : s.conns[i]? = some c) (hc : c.child = some .exiting) :
      Turn s (.child i f) { s with conns := s.conns.set i { c with child := some .zombie }, pending := true }
  | deliver (hp : s.pending = true) (hh : s.handler = none) :
      Turn s .deliver { s with pending := false, handler := some (.waiting s.errno) }
  | reap {i saved : Nat} {c : Conn} (hh : s.handler = some (.waiting saved)) (hi : s.conns[i]? = some c)
      (hz : c.child = some .zombie) :
      Turn s (.handler i) { s with conns := s.conns.set i { c with child := some .reaped } }
  | leave {i saved e : Nat} (hh : s.handler = some (.waiting saved)) (hz : ∀ c ∈ s.conns, c.child ≠ some .zombie) :
      Turn s (.handler i) { s with errno := e, handler := some (.restoring saved) }
  | restore {i saved : Nat} (hh : s.handler = some (.restoring saved)) :
      Turn s (.handler i) { s with errno := saved, handler := none }

variable {s t : State} {a : Action}

theorem turn_of_main {f : Option Nat} (h : step s (.main f) = some t) : Turn s (.main f) t := by
  rw [step] at h
  split_ifs at h with hh
  rw [mainStep] at h
  cases hm : s.main with
  | accepting =>
    simp only [hm] at h
    split_ifs at h with hb
    cases h
    exact .accept hm hh (Nat.succ_pred hb).symm
  | failed =>
    simp only [hm] at h
    cases h
    exact .perror hm hh
  | forking i =>
    simp only [hm] at h
    cases f with
    | some e =>
      cases h
      exact .forkFails hm hh
    | none =>
      obtain ⟨c, hi, rfl⟩ := Option.map_eq_some_iff.mp h
      exact .fork hm hh hi
  | closing i =>
    simp only [hm] at h
    obtain ⟨c, hi, rfl⟩ := Option.map_eq_some_iff.mp h
    exact .close hm hh hi

theorem turn_of_child {i : Nat} {f : Option Nat} (h : step s (.child i f) = some t) : Turn s (.child i f) t := by
  obtain ⟨c, hi, ht⟩ := Option.bind_eq_some_iff.mp h
  cases hc : c.child with
  | none =>
    simp only [childStep, hc] at ht
    cases ht
  | some place =>
    cases place with
    | closingListener =>
      simp only [childStep, hc] at ht
      cases ht
      exact .closeListener hi hc
    | sending =>
      simp only [childStep, hc] at ht
      cases f with
      | some e =>
        cases ht
        exact .sendFails hi hc
      | none =>
        cases ht
        exact .send hi hc
    | closing =>
      simp only [childStep, hc] at ht
      cases ht
      exact .closeFd hi hc
    | exiting =>
      simp only [childStep, hc] at ht
      cases ht
      exact .exit hi hc
    | zombie | reaped =>
      simp only [childStep, hc] at ht
      cases ht

theorem turn_of_handler {i : Nat} (h : step s (.handler i) = some t) : Turn s (.handler i) t := by
  rw [step, sigchldHandler] at h
  cases hh : s.handler with
  | none =>
    simp only [hh] at h
    cases h
  | some place =>
    cases place with
    | restoring saved =>
      simp only [hh] at h
      cases h
      exact .restore hh
    | waiting saved =>
      simp only [hh] at h
      split_ifs at h with hany
      · cases hi : s.conns[i]? with
        | none =>
          rw [hi] at h
          cases h
        | some c =>
          simp only [hi] at h
          split_ifs at h with hz
          cases h
          simpa only [hh] using Turn.reap hh hi (of_decide_eq_true hz)
      all_goals
        cases h
        exact .leave hh fun c hc hz => hany (List.any_eq_true.mpr ⟨c, hc, decide_eq_true hz⟩)

theorem turn_of_step (h : step s a = some t) : Turn s a t := by
  cases a with
  | connect =>
    cases h
    exact .connect
  | acceptFails e =>
    rw [step] at h
    split_ifs at h with hm
    cases h
    exact .acceptFails hm.1 hm.2
  | main f => exact turn_of_main h
  | child i f => exact turn_of_child h
  | deliver =>
    rw [step, ForkServer.deliver] at h
    split_ifs at h with hp
    cases h
    exact .deliver hp.1 hp.2
  | handler i => exact turn_of_handler h

end C11AndC.ForkServer
