import C11AndC.ForkServer.Model
import C11AndC.Library.Lists

namespace C11AndC.ForkServer

open C11AndC.Library

def Line.accept? : Line → Option Nat
  | .accept e => some e
  | _ => none

/-- The errors of `accept` that have been printed. -/
def accepts (s : State) : List Nat := s.log.filterMap Line.accept?

def Action.failure? : Action → Option Nat
  | .acceptFails e => some e
  | _ => none

/-- The errors that `accept` has returned in a run. -/
def failures (as : List Action) : List Nat := as.filterMap Action.failure?

/-- The `errno` of `main`: while the handler runs, the one it has saved. -/
def State.error (s : State) : Nat :=
  match s.handler with
  | none => s.errno
  | some (.waiting saved) => saved
  | some (.restoring saved) => saved

/-- The error that `main` is about to print. -/
def State.inHand (s : State) : List Nat := if s.main = .failed then [s.error] else []

/-- An error of `send` has been printed for the connection. -/
def Failed (s : State) (i : Nat) : Prop := ∃ e, .send i e ∈ s.log

/-- The process for the connection has come behind `send`. -/
def Conn.past (c : Conn) : Bool :=
  match c.child with
  | none | some .closingListener | some .sending => false
  | _ => true

/-- The client has been sent the greeting once, unless `send` has failed. -/
def Conn.Answered (c : Conn) (failed : Prop) : Prop :=
  (c.past = true ∧ ¬ failed ∧ c.received = [greeting]) ∨ (c.past = true ∧ failed ∧ c.received = []) ∨
    (c.past = false ∧ ¬ failed ∧ c.received = [])

structure Answers (s : State) : Prop where
  answered : ∀ (i : Nat) (c : Conn), s.conns[i]? = some c → c.Answered (Failed s i)
  within : ∀ i, Failed s i → i < s.conns.length

def Main.conn? : Main → Option Nat
  | .forking i | .closing i => some i
  | _ => none

/-- The server has the connection open that `main` is about, and no other. -/
structure Descriptors (s : State) : Prop where
  opened : ∀ (i : Nat) (c : Conn), s.conns[i]? = some c → (c.opened = true ↔ s.main.conn? = some i)
  within : ∀ i, s.main.conn? = some i → i < s.conns.length
  fresh : ∀ (i : Nat) (c : Conn), s.main = .forking i → s.conns[i]? = some c → c.child = none

/-- A process that has ended is waited for, or the signal for this is on its way. -/
def Noticed (s : State) : Prop :=
  ∀ c ∈ s.conns, c.child = some .zombie → s.pending = true ∨ ∃ saved, s.handler = some (.waiting saved)

def Child.rest : Child → Nat
  | .closingListener => 8
  | .sending => 7
  | .closing => 6
  | .exiting => 5
  | .zombie => 1
  | .reaped => 0

def Conn.rest (c : Conn) : Nat := (c.child.map Child.rest).getD 0

def Main.rest : Main → Nat
  | .accepting => 0
  | .failed => 1
  | .forking _ => 10
  | .closing _ => 1

def Handler.rest : Handler → Nat
  | .waiting _ => 2
  | .restoring _ => 1

/-- How many steps the server can take at most without a new client or a failure of `accept`. -/
def State.rest (s : State) : Nat :=
  11 * s.backlog + (s.conns.map Conn.rest).sum + s.main.rest + (s.handler.map Handler.rest).getD 0 +
    if s.pending then 3 else 0

/-- The action makes `fork` fail, if it is called. -/
def Action.forkFails : Action → Bool
  | .main (some _) => true
  | _ => false

/-- The connections without a process. -/
def State.unforked (s : State) : Nat := s.conns.countP (fun c => c.child = none)

/-- There is one more of them while `main` is about to call `fork`. -/
def Main.unforked : Main → Nat
  | .forking _ => 1
  | _ => 0

/-- The steps that an action makes room for. -/
def Action.cost : Action → Nat
  | .connect => 12
  | .acceptFails _ => 2
  | _ => 0

def Action.isWork : Action → Bool
  | .connect | .acceptFails _ => false
  | _ => true

/-- The server can do nothing but wait for clients. -/
def Stuck (s : State) : Prop := ∀ a, a.isWork = true → step s a = none

variable {s t : State} {a : Action} {as : List Action}

section Errors

/-- Whatever the handler does to `errno`, the error in hand stays what `accept` has returned. -/
theorem turn_errors (h : Turn s a t) : accepts t ++ t.inHand = accepts s ++ s.inHand ++ a.failure?.toList := by
  cases h with
  | connect | closeListener | send | closeFd | exit | reap =>
    simp [accepts, State.inHand, State.error, Action.failure?]
  | acceptFails hm hh => simp [accepts, State.inHand, State.error, Action.failure?, hm, hh]
  | accept hm | forkFails hm | fork hm | close hm =>
    simp [accepts, State.inHand, Action.failure?, hm, Line.accept?]
  | perror hm hh => simp [accepts, State.inHand, State.error, Action.failure?, hm, hh, Line.accept?]
  | sendFails => simp [accepts, State.inHand, State.error, Action.failure?, Line.accept?]
  | deliver _ hh | leave hh | restore hh => simp [accepts, State.inHand, State.error, Action.failure?, hh]

theorem run_errors (hr : run step s as = some t) :
    accepts t ++ t.inHand = accepts s ++ s.inHand ++ failures as := by
  induction as generalizing s with
  | nil =>
    cases hr
    exact (List.append_nil _).symm
  | cons a as ih =>
    obtain ⟨u, hu, ht⟩ := run_cons.mp hr
    rw [ih ht, turn_errors (turn_of_step hu), failures, failures, List.append_assoc _ a.failure?.toList]
    cases h : a.failure? <;> simp [h]

end Errors

section Clients

/-- A client that connects is in the backlog or has been accepted. -/
theorem turn_clients (h : Turn s a t) :
    t.backlog + t.conns.length = s.backlog + s.conns.length + [a].count .connect := by
  cases h with
  | connect => simp +arith
  | accept _ _ hb => simp +arith [hb]
  | _ => simp

theorem run_clients (hr : run step s as = some t) :
    t.backlog + t.conns.length = s.backlog + s.conns.length + as.count .connect := by
  induction as generalizing s with
  | nil =>
    cases hr
    rfl
  | cons a as ih =>
    obtain ⟨u, hu, ht⟩ := run_cons.mp hr
    have hturn := turn_clients (turn_of_step hu)
    rw [ih ht, hturn, ← List.singleton_append (l := as), List.count_append, Nat.add_assoc]

end Clients

section Measure

theorem rest_conns {i : Nat} {c : Conn} (hi : s.conns[i]? = some c) (d : Conn) :
    ((s.conns.set i d).map Conn.rest).sum + c.rest = (s.conns.map Conn.rest).sum + d.rest :=
  sum_map_set Conn.rest hi d

theorem rest_child {c : Conn} {place : Child} (h : c.child = some place) : c.rest = place.rest := by
  rw [Conn.rest, h]
  rfl

theorem rest_mk (received : List String) (opened : Bool) (place : Child) :
    Conn.rest ⟨received, opened, some place⟩ = place.rest := rfl

theorem turn_rest (h : Turn s a t) : t.rest + 1 ≤ s.rest + a.cost := by
  cases h with
  | connect =>
    simp only [State.rest, Action.cost]
    omega
  | acceptFails hm | perror hm | forkFails hm =>
    simp only [State.rest, Action.cost, hm, Main.rest]
    omega
  | accept hm _ hb =>
    simp only [State.rest, Action.cost, hm, hb, Main.rest, List.map_append, List.sum_append]
    simp only [Conn.rest, List.map_cons, List.map_nil, List.sum_cons, List.sum_nil, Option.map_none, Option.getD_none]
    omega
  | @fork i c hm _ hi =>
    have hsum := rest_conns hi { c with child := some .closingListener }
    rw [rest_mk] at hsum
    simp only [State.rest, Action.cost, hm, Main.rest, Child.rest] at hsum ⊢
    omega
  | @close _ i c hm _ hi =>
    have hsum := rest_conns hi { c with opened := false }
    have hsame : Conn.rest { c with opened := false } = c.rest := rfl
    simp only [State.rest, Action.cost, hm, Main.rest] at hsum ⊢
    omega
  | @closeListener _ i c hi hc =>
    have hsum := rest_conns hi { c with child := some .sending }
    rw [rest_child hc, rest_mk] at hsum
    simp only [State.rest, Action.cost, Child.rest] at hsum ⊢
    omega
  | @sendFails i e c hi hc =>
    have hsum := rest_conns hi { c with child := some .closing }
    rw [rest_child hc, rest_mk] at hsum
    simp only [State.rest, Action.cost, Child.rest] at hsum ⊢
    omega
  | @send i c hi hc =>
    have hsum := rest_conns hi { c with received := c.received ++ [greeting], child := some .closing }
    rw [rest_child hc, rest_mk] at hsum
    simp only [State.rest, Action.cost, Child.rest] at hsum ⊢
    omega
  | @closeFd _ i c hi hc =>
    have hsum := rest_conns hi { c with child := some .exiting }
    rw [rest_child hc, rest_mk] at hsum
    simp only [State.rest, Action.cost, Child.rest] at hsum ⊢
    omega
  | @exit _ i c hi hc =>
    -- The signal makes room for the three steps of the handler beside the call that finds this process.
    have hsum := rest_conns hi { c with child := some .zombie }
    rw [rest_child hc, rest_mk] at hsum
    simp only [State.rest, Action.cost, Child.rest] at hsum ⊢
    split_ifs <;> omega
  | deliver hp hh =>
    simp only [State.rest, Action.cost, hp, hh, Option.map_none, Option.map_some, Option.getD_none, Option.getD_some,
      Handler.rest, if_true, Bool.false_eq_true, if_false]
    omega
  | leave hh | restore hh =>
    simp only [State.rest, Action.cost, hh, Option.map_none, Option.map_some, Option.getD_none, Option.getD_some,
      Handler.rest]
    omega
  | @reap i _ c hh hi hz =>
    have hsum := rest_conns hi { c with child := some .reaped }
    rw [rest_child hz, rest_mk] at hsum
    simp only [State.rest, Action.cost, Child.rest] at hsum ⊢
    omega

/-- The steps that a run makes room for. -/
def budget (as : List Action) : Nat := 12 * as.count .connect + 2 * (failures as).length

theorem budget_cons (a : Action) (as : List Action) : budget (a :: as) = a.cost + budget as := by
  cases a with
  | connect | acceptFails =>
    simp only [budget, failures, List.filterMap_cons, Action.failure?, Action.cost]
    simp
    omega
  | main | child | deliver | handler =>
    simp only [budget, failures, List.filterMap_cons, Action.failure?, Action.cost]
    simp

theorem run_rest (hr : run step s as = some t) : as.length + t.rest ≤ s.rest + budget as := by
  induction as generalizing s with
  | nil =>
    cases hr
    exact Nat.le_of_eq (Nat.zero_add _)
  | cons a as ih =>
    obtain ⟨u, hu, ht⟩ := run_cons.mp hr
    have hfirst := turn_rest (turn_of_step hu)
    have hrest := ih ht
    rw [List.length_cons, budget_cons]
    omega

end Measure

section Answering

theorem failed_append {l : List Line} {i : Nat} :
    Failed { s with log := s.log ++ l } i ↔ Failed s i ∨ ∃ e, .send i e ∈ l := by
  simp only [Failed, List.mem_append, exists_or]

/-- A line that is not about `send` says nothing about the connections. -/
theorem failed_line {l : Line} (h : ∀ i e, l ≠ .send i e) {i : Nat} :
    Failed { s with log := s.log ++ [l] } i ↔ Failed s i := by
  rw [failed_append, or_iff_left]
  rintro ⟨e, he⟩
  exact h i e (List.mem_singleton.mp he).symm

theorem answered_congr {c : Conn} {p q : Prop} (h : p ↔ q) : c.Answered p ↔ c.Answered q := by rw [propext h]

/-- The entry of one connection changes, and nothing is said about the others. -/
theorem answers_set {i : Nat} {c d : Conn} (h : Answers s) (hi : s.conns[i]? = some c)
    (hconns : t.conns = s.conns.set i d) (hother : ∀ j, j ≠ i → (Failed t j ↔ Failed s j))
    (hd : c.Answered (Failed s i) → d.Answered (Failed t i)) : Answers t := by
  have hlt : i < s.conns.length := (List.getElem?_eq_some_iff.mp hi).1
  constructor
  case answered =>
    intro j c' hj
    rw [hconns] at hj
    obtain ⟨rfl, rfl⟩ | ⟨hne, hj⟩ := getElem?_set_cases hj
    · exact hd (h.answered _ _ hi)
    · exact (answered_congr (hother j hne)).mpr (h.answered j c' hj)
  case within =>
    intro j hj
    rw [hconns, List.length_set]
    obtain rfl | hne := eq_or_ne j i
    · exact hlt
    · exact h.within j ((hother j hne).mp hj)

theorem turn_answers (h : Turn s a t) (hd : Descriptors s) (hs : Answers s) : Answers t := by
  cases h with
  | connect | acceptFails | forkFails | deliver | leave | restore => exact ⟨hs.answered, hs.within⟩
  | perror =>
    have hfailed : ∀ i, Failed _ i ↔ Failed s i := fun i => failed_line (l := .accept s.errno) nofun
    constructor
    case answered => exact fun i c hi => (answered_congr (hfailed i)).mpr (hs.answered i c hi)
    case within => exact fun i hi => hs.within i ((hfailed i).mp hi)
  | accept =>
    have hfailed : ∀ i, Failed _ i ↔ Failed s i := fun i => failed_line (l := .connection s.conns.length) nofun
    constructor
    case answered =>
      intro i c hi
      obtain hi | ⟨rfl, rfl⟩ := getElem?_snoc_cases hi
      · exact (answered_congr (hfailed i)).mpr (hs.answered i c hi)
      · exact .inr (.inr ⟨rfl, fun hf => absurd (hs.within _ ((hfailed _).mp hf)) (Nat.lt_irrefl _), rfl⟩)
    case within =>
      intro i hi
      have hlt := hs.within i ((hfailed i).mp hi)
      rw [List.length_append]
      exact Nat.lt_add_right 1 hlt
  | fork hm hh hi =>
    have hchild := hd.fresh _ _ hm hi
    refine answers_set hs hi rfl (fun _ _ => Iff.rfl) ?_
    simp [Conn.Answered, Conn.past, hchild, Failed]
  | close hm hh hi => exact answers_set hs hi rfl (fun _ _ => Iff.rfl) id
  | @sendFails i e c hi hc =>
    have hnew : Failed { s with log := s.log ++ [.send i e] } i := ⟨e, List.mem_append_right _ List.mem_cons_self⟩
    refine answers_set hs hi rfl (fun j hj => ?_) fun h => ?_
    · apply failed_append.trans
      rw [or_iff_left]
      rintro ⟨e', he⟩
      cases List.mem_singleton.mp he
      exact hj rfl
    · obtain ⟨hp, -⟩ | ⟨hp, -⟩ | ⟨-, -, hr⟩ := h
      · simp [Conn.past, hc] at hp
      · simp [Conn.past, hc] at hp
      · exact .inr (.inl ⟨rfl, hnew, hr⟩)
  | send hi hc =>
    refine answers_set hs hi rfl (fun _ _ => Iff.rfl) fun h => ?_
    obtain ⟨hp, -⟩ | ⟨hp, -⟩ | ⟨-, hf, hr⟩ := h
    · simp [Conn.past, hc] at hp
    · simp [Conn.past, hc] at hp
    · exact .inl ⟨rfl, hf, congrArg (· ++ [greeting]) hr⟩
  | closeListener hi hc | closeFd hi hc | exit hi hc | reap _ hi hc =>
    refine answers_set hs hi rfl (fun _ _ => Iff.rfl) ?_
    simp [Conn.Answered, Conn.past, hc, Failed]

end Answering

section Connections

theorem descriptors_set {i : Nat} {c d : Conn} (hs : Descriptors s) (hi : s.conns[i]? = some c)
    (hconns : t.conns = s.conns.set i d) (hmain : t.main = s.main) (hopened : d.opened = c.opened)
    (hchild : c.child ≠ none) : Descriptors t := by
  constructor
  case opened =>
    intro j c' hj
    rw [hconns] at hj
    rw [hmain]
    obtain ⟨rfl, rfl⟩ | ⟨-, hj⟩ := getElem?_set_cases hj
    · rw [hopened]
      exact hs.opened _ _ hi
    · exact hs.opened _ _ hj
  case within =>
    intro j hj
    rw [hmain] at hj
    rw [hconns, List.length_set]
    exact hs.within j hj
  case fresh =>
    intro j c' hj hc'
    rw [hmain] at hj
    rw [hconns] at hc'
    obtain ⟨rfl, rfl⟩ | ⟨-, hc'⟩ := getElem?_set_cases hc'
    · exact absurd (hs.fresh _ _ hj hi) hchild
    · exact hs.fresh _ _ hj hc'

theorem turn_descriptors (h : Turn s a t) (hs : Descriptors s) : Descriptors t := by
  cases h with
  | connect | deliver | leave | restore => exact ⟨hs.opened, hs.within, hs.fresh⟩
  | acceptFails hm hh =>
    constructor
    case opened =>
      intro i c hi
      have h := hs.opened i c hi
      rw [hm] at h
      exact h
    case within => exact nofun
    case fresh => exact nofun
  | perror hm =>
    constructor
    case opened =>
      intro i c hi
      have h := hs.opened i c hi
      rw [hm] at h
      exact h
    case within => exact nofun
    case fresh => exact nofun
  | accept hm _ hb =>
    constructor
    case opened =>
      intro i c hi
      obtain hi' | ⟨rfl, rfl⟩ := getElem?_snoc_cases hi
      · have h := hs.opened i c hi'
        have hlt := (List.getElem?_eq_some_iff.mp hi').1
        rw [hm] at h
        exact h.trans (iff_of_false nofun fun he => absurd (Option.some.inj he) (by omega))
      · exact iff_of_true rfl rfl
    case within =>
      intro i hi
      cases hi
      rw [List.length_append]
      exact Nat.lt_succ_self _
    case fresh =>
      intro i c hi hc
      cases hi
      rw [List.getElem?_concat_length] at hc
      cases hc
      rfl
  | @forkFails i e hm =>
    have hsame : s.main.conn? = some i := congrArg Main.conn? hm
    constructor
    case opened =>
      intro j c hj
      have h := hs.opened j c hj
      rw [hsame] at h
      exact h
    case within => exact fun i hi => hs.within i (hsame.trans hi)
    case fresh => exact nofun
  | @fork i c hm hh hi =>
    have hsame : s.main.conn? = some i := congrArg Main.conn? hm
    constructor
    case opened =>
      intro j c' hj
      have h : c'.opened = true ↔ s.main.conn? = some j := by
        obtain ⟨rfl, rfl⟩ | ⟨-, hj⟩ := getElem?_set_cases hj
        · exact hs.opened _ c hi
        · exact hs.opened _ _ hj
      rw [hsame] at h
      exact h
    case within =>
      intro j hj
      rw [List.length_set]
      exact hs.within j (hsame.trans hj)
    case fresh => exact nofun
  | @close _ i c hm hh hi =>
    constructor
    case opened =>
      intro j c' hj
      obtain ⟨rfl, rfl⟩ | ⟨hne, hj⟩ := getElem?_set_cases hj
      · exact iff_of_false nofun nofun
      · have h := hs.opened j c' hj
        rw [hm] at h
        exact h.trans (iff_of_false (fun he => hne (Option.some.inj he).symm) nofun)
    case within => exact nofun
    case fresh => exact nofun
  | closeListener hi hc | sendFails hi hc | send hi hc | closeFd hi hc | exit hi hc | reap _ hi hc =>
    refine descriptors_set hs hi rfl rfl rfl ?_
    rw [hc]
    exact nofun

theorem noticed_set {i : Nat} {d : Conn} (hs : Noticed s) (hconns : t.conns = s.conns.set i d)
    (hpending : t.pending = s.pending) (hhandler : t.handler = s.handler) (hd : d.child ≠ some .zombie) :
    Noticed t := by
  intro c hc hz
  rw [hconns] at hc
  rw [hpending, hhandler]
  obtain hc | rfl := List.mem_or_eq_of_mem_set hc
  · exact hs c hc hz
  · exact absurd hz hd

/-- The first process that ends after the last search of the handler brings the signal. -/
theorem turn_noticed (h : Turn s a t) (hs : Noticed s) : Noticed t := by
  cases h with
  | connect | acceptFails | perror | forkFails => exact hs
  | accept =>
    intro c hc hz
    obtain hc | hc := List.mem_append.mp hc
    · exact hs c hc hz
    · cases List.mem_singleton.mp hc
      cases hz
  | fork | closeListener | sendFails | send | closeFd | reap =>
    refine noticed_set hs rfl rfl rfl ?_
    simp
  | @close _ i c hm hh hi =>
    intro d hdm hz
    obtain hdm | rfl := List.mem_or_eq_of_mem_set hdm
    · exact hs d hdm hz
    · exact hs c (List.mem_of_getElem? hi) hz
  | exit => exact fun _ _ _ => .inl rfl
  | deliver => exact fun _ _ _ => .inr ⟨s.errno, rfl⟩
  | leave _ hz => exact fun c hc hzc => absurd hzc (hz c hc)
  | restore hh =>
    intro c hc hz
    obtain hp | ⟨saved, hw⟩ := hs c hc hz
    · exact .inl hp
    · rw [hh] at hw
      cases hw

structure Inv (s : State) : Prop where
  answers : Answers s
  descriptors : Descriptors s
  noticed : Noticed s

theorem inv_init (errno : Nat) : Inv (init errno) := by
  constructor
  case answers => exact ⟨nofun, fun i ⟨e, he⟩ => absurd he List.not_mem_nil⟩
  case descriptors => exact ⟨nofun, nofun, nofun⟩
  case noticed => exact nofun

theorem inv_step (hs : Inv s) (ht : step s a = some t) : Inv t :=
  have hturn := turn_of_step ht
  ⟨turn_answers hturn hs.descriptors hs.answers, turn_descriptors hturn hs.descriptors, turn_noticed hturn hs.noticed⟩

theorem run_inv {errno : Nat} (hr : run step (init errno) as = some s) : Inv s :=
  run_invariant Inv (fun _ _ _ => inv_step) (inv_init errno) hr

end Connections

section Forks

theorem unforked_set {i : Nat} {c d : Conn} (hi : s.conns[i]? = some c) (h : c.child = none ↔ d.child = none) :
    (s.conns.set i d).countP (fun c => c.child = none) = s.unforked := by
  have hcount := countP_set (fun c : Conn => c.child = none) hi d
  simp only [decide_eq_true_eq, h] at hcount
  rw [State.unforked]
  split_ifs at hcount <;> omega

/-- A connection is left without a process only where `fork` fails. -/
theorem turn_unforked (h : Turn s a t) (hs : Descriptors s) :
    t.unforked + s.main.unforked ≤ s.unforked + t.main.unforked + [a].countP Action.forkFails := by
  cases h with
  | connect | deliver | leave | restore => exact Nat.le_add_right _ _
  | acceptFails hm | perror hm => simp [State.unforked, Main.unforked, hm]
  | accept hm => simp [State.unforked, Main.unforked, hm]
  | forkFails hm => simp [State.unforked, Main.unforked, hm, Action.forkFails]
  | @fork i c hm _ hi =>
    have hcount := countP_set (fun c : Conn => c.child = none) hi { c with child := some .closingListener }
    have hchild := hs.fresh i c hm hi
    simp [hchild] at hcount
    simp [State.unforked, Main.unforked, hm, Action.forkFails]
    omega
  | @close _ i c hm _ hi =>
    have hcount := unforked_set (d := { c with opened := false }) hi Iff.rfl
    rw [State.unforked, hcount, hm]
    exact Nat.le_add_right _ _
  | closeListener hi hc | sendFails hi hc | send hi hc | closeFd hi hc | exit hi hc | reap _ hi hc =>
    rw [State.unforked, unforked_set hi]
    · exact Nat.le_add_right _ _
    · simp [hc]

theorem run_unforked (hs : Inv s) (hr : run step s as = some t) :
    t.unforked + s.main.unforked ≤ s.unforked + t.main.unforked + as.countP Action.forkFails := by
  induction as generalizing s with
  | nil =>
    cases hr
    exact Nat.le_refl _
  | cons a as ih =>
    obtain ⟨u, hu, ht⟩ := run_cons.mp hr
    have hfirst := turn_unforked (turn_of_step hu) hs.descriptors
    have hrest := ih (inv_step hs hu) ht
    rw [← List.singleton_append (l := as), List.countP_append]
    omega

end Forks

section Quiet

/-- A handler that runs has a next step. -/
theorem handler_none (h : Stuck s) : s.handler = none := by
  cases hh : s.handler with
  | none => rfl
  | some place =>
    exfalso
    cases place with
    | restoring saved =>
      have hstep := h (.handler 0) rfl
      simp [step, sigchldHandler, hh] at hstep
    | waiting saved =>
      by_cases hany : s.conns.any Conn.isZombie = true
      · obtain ⟨c, hc, hz⟩ := List.any_eq_true.mp hany
        obtain ⟨i, hi⟩ := List.mem_iff_getElem?.mp hc
        have hstep := h (.handler i) rfl
        simp [step, sigchldHandler, hh, hi, hz, hany] at hstep
      · have hstep := h (.handler 0) rfl
        simp [step, sigchldHandler, hh, hany] at hstep

theorem pending_false (h : Stuck s) : s.pending = false := by
  have hstep := h .deliver rfl
  simpa [step, deliver, handler_none h] using hstep

theorem main_accepting (h : Stuck s) (hs : Descriptors s) : s.main = .accepting ∧ s.backlog = 0 := by
  have hstep := h (.main none) rfl
  rw [step, if_pos (handler_none h), mainStep] at hstep
  cases hm : s.main with
  | accepting =>
    simp only [hm] at hstep
    split_ifs at hstep with hb
    exact ⟨rfl, hb⟩
  | failed => simp [hm] at hstep
  | forking i | closing i =>
    have hlt := hs.within i (congrArg Main.conn? hm)
    simp [hm, List.getElem?_eq_getElem hlt] at hstep

/-- The processes that are there have been waited for. -/
theorem child_reaped (h : Stuck s) (hs : Noticed s) {i : Nat} {c : Conn} (hi : s.conns[i]? = some c) :
    c.child = none ∨ c.child = some .reaped := by
  have hstep := h (.child i none) rfl
  rw [step, hi, Option.bind_some] at hstep
  cases hc : c.child with
  | none => exact .inl rfl
  | some place =>
    cases place with
    | reaped => exact .inr rfl
    | zombie =>
      obtain hp | ⟨saved, hw⟩ := hs c (List.mem_of_getElem? hi) hc
      · rw [pending_false h] at hp
        cases hp
      · rw [handler_none h] at hw
        cases hw
    | _ => simp [childStep, hc] at hstep

end Quiet

/-- The end of a run: the server waits in `accept`, and has printed the error of each call of `accept` that has
failed. Each client has been accepted, its connection is closed, and it has received the greeting from a process that
has been waited for, unless `fork` or `send` has failed. -/
structure Settled (as : List Action) (s : State) : Prop where
  accepting : s.main = .accepting ∧ s.handler = none ∧ s.pending = false
  accepted : s.conns.length = as.count .connect
  errors : accepts s = failures as
  served : ∀ (i : Nat) (c : Conn), s.conns[i]? = some c → c.opened = false ∧
    (c.child = none ∧ c.received = [] ∨
      c.child = some .reaped ∧ (c.received = [greeting] ∧ ¬ Failed s i ∨ c.received = [] ∧ Failed s i))

theorem settled_of_stuck {errno : Nat} (hr : run step (init errno) as = some s) (h : Stuck s) : Settled as s := by
  have hinv := run_inv hr
  obtain ⟨hmain, hbacklog⟩ := main_accepting h hinv.descriptors
  constructor
  case accepting => exact ⟨hmain, handler_none h, pending_false h⟩
  case accepted =>
    have hclients := run_clients hr
    simpa [hbacklog, init] using hclients
  case errors =>
    have herrors := run_errors hr
    simpa [State.inHand, hmain, init, accepts] using herrors
  case served =>
    intro i c hi
    have hopened := hinv.descriptors.opened i c hi
    rw [hmain] at hopened
    have hclosed : c.opened = false := by
      rw [Bool.eq_false_iff]
      intro ho
      cases hopened.mp ho
    refine ⟨hclosed, ?_⟩
    have hanswered := hinv.answers.answered i c hi
    obtain hc | hc := child_reaped h hinv.noticed hi
    · simp [Conn.Answered, Conn.past, hc] at hanswered
      exact .inl ⟨hc, hanswered.2⟩
    · simp [Conn.Answered, Conn.past, hc] at hanswered
      exact .inr ⟨hc, hanswered.imp And.symm And.symm⟩

/-- In every run of clients, failing calls, signals and processes: the number of steps is bounded by the clients and
the failures of `accept`; the errors printed for `accept` are its own, in their order, however the handler comes in
between; each client is sent the greeting once, unless `send` fails; the server has no connection open but the one it
is about to hand over; not more connections have been left without a process than calls of `fork` may have failed; no
process that has ended is forgotten; and where the server can only wait, all is settled. -/
theorem clients_served (errno : Nat) (as : List Action) (s : State) (hr : run step (init errno) as = some s) :
    as.length ≤ budget as ∧ accepts s ++ s.inHand = failures as ∧
      (∀ (i : Nat) (c : Conn), s.conns[i]? = some c →
        c.Answered (Failed s i) ∧ (c.opened = true ↔ s.main.conn? = some i)) ∧
      s.unforked ≤ as.countP Action.forkFails + s.main.unforked ∧
      Noticed s ∧ (Stuck s → Settled as s) := by
  have hinv := run_inv hr
  have hrest := run_rest hr
  have hforks := run_unforked (inv_init errno) hr
  have hinit : (init errno).rest = 0 := rfl
  refine ⟨by omega, run_errors hr, fun i c hi => ⟨?_, ?_⟩, ?_, hinv.noticed, settled_of_stuck hr⟩
  · exact hinv.answers.answered i c hi
  · exact hinv.descriptors.opened i c hi
  · have hnone : (init errno).unforked = 0 := rfl
    omega

/-- One client, with `accept` failing once before; the signal comes while the server closes the connection. -/
def oneClient : List Action :=
  [.acceptFails 4, .main none, .connect, .main none, .main none, .child 0 none, .child 0 none, .child 0 none,
    .child 0 none, .deliver, .handler 0, .handler 0, .handler 0, .main none]

def afterOne : State :=
  ⟨0, [⟨[greeting], false, some .reaped⟩], .accepting, none, false, 4, [.accept 4, .connection 0]⟩

theorem stuck_afterOne : Stuck afterOne := by
  intro a ha
  cases a with
  | connect | acceptFails => cases ha
  | main | deliver | handler => rfl
  | child i f =>
    cases i with
    | zero => rfl
    | succ i => rfl

theorem clients_served_one : Settled oneClient afterOne :=
  (clients_served 0 oneClient afterOne (by decide)).2.2.2.2.2 stuck_afterOne

end C11AndC.ForkServer
