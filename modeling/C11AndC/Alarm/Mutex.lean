import C11AndC.Alarm.Order
import C11AndC.Library.Progress

namespace C11AndC.Alarm.Mutex

open C11AndC.Library

/-- Where the alarm thread is that has a mutex only: before it locks it, or in its sleep with the alarm that
it has taken. -/
inductive Place where
  | lock
  | asleep (wake : Int) (alarm : Option AlarmT)
  deriving DecidableEq

/-- The list, the clock and the thread. Each alarm that was inserted is recorded with the end of the sleep that
the thread was in, and each alarm that was fired with the time at which it was. -/
structure State where
  alarmList : List AlarmT
  clock : Int
  place : Place
  inserted : List (AlarmT × Int)
  fired : List (AlarmT × Int)
  deriving DecidableEq

def init (clock : Int) : State := ⟨[], clock, .lock, [], []⟩

def State.wake (s : State) : Int :=
  match s.place with
  | .lock => s.clock
  | .asleep wake _ => wake

/-- The critical section of `alarm_thread`, up to its sleep. -/
def takeAlarm (s : State) : State :=
  match s.alarmList with
  | [] => { s with place := .asleep (s.clock + 1) none }
  | alarm :: rest =>
      let sleepTime := if alarm.time ≤ s.clock then 0 else alarm.time - s.clock
      { s with alarmList := rest, place := .asleep (s.clock + sleepTime) (some alarm) }

/-- The next part of `alarm_thread`. -/
def alarmThread (s : State) : Option State :=
  match s.place with
  | .lock => some (takeAlarm s)
  | .asleep wake alarm =>
      if wake ≤ s.clock then
        some { s with place := .lock, fired := s.fired ++ alarm.toList.map (fun alarm => (alarm, s.clock)) }
      else none

inductive Action where
  | tick (clock : Int)
  | insert (seconds : Int) (message : List Char)
  | thread
  deriving DecidableEq

/-- What can happen next. `main` inserts an alarm while the thread sleeps or waits for the mutex. -/
def step (s : State) : Action → Option State
  | .tick clock => if s.clock ≤ clock then some { s with clock := clock } else none
  | .insert seconds message =>
      let alarm := ⟨s.inserted.length, seconds, s.clock + seconds, message⟩
      some { s with
        alarmList := insertSorted alarm s.alarmList
        inserted := s.inserted ++ [(alarm, s.wake)] }
  | .thread => alarmThread s

/-- The steps that the thread takes by itself. -/
def isWork : Action → Bool
  | .thread => true
  | _ => false

/-- The alarm that the thread sleeps for. -/
def Place.hand : Place → List AlarmT
  | .lock => []
  | .asleep _ alarm => alarm.toList

def State.pending (s : State) : List AlarmT := s.alarmList ++ s.place.hand

/-- No alarm is lost, none is fired twice and none before its time. -/
structure Delivers (s : State) : Prop where
  once : (s.inserted.map Prod.fst).Perm (s.pending ++ s.fired.map Prod.fst)
  nodup : (s.pending ++ s.fired.map Prod.fst).Nodup
  early : ∀ p ∈ s.fired, p.1.time ≤ p.2

/-- An alarm has been fired when its time has come and the sleep is over in which it was inserted. -/
def Punctual (s : State) : Prop :=
  ∀ p ∈ s.inserted, p.1.time ≤ s.clock → p.2 ≤ s.clock → p.1 ∈ s.fired.map Prod.fst

/-- What is kept by every step; where the thread sleeps, it does not sleep longer than the alarms that are
left can bear. -/
structure Inv (s : State) : Prop where
  parts : (s.inserted.map Prod.fst).Perm (s.pending ++ s.fired.map Prod.fst)
  ids : s.inserted.map (fun p => p.1.id) = List.range s.inserted.length
  fired : ∀ p ∈ s.fired, p.1.time ≤ p.2
  sorted : s.alarmList.Pairwise (fun a b => a.time ≤ b.time)
  hand : ∀ wake alarm, s.place = .asleep wake (some alarm) → alarm.time ≤ wake
  asleep : ∀ wake alarm, s.place = .asleep wake alarm → ∀ p ∈ s.inserted, p.1 ∈ s.pending →
    wake ≤ s.clock ∨ wake ≤ p.1.time ∨ wake ≤ p.2

def Place.rank (clock : Int) : Place → Nat
  | .lock => 1
  | .asleep wake _ => if wake ≤ clock then 2 else 0

/-- The steps that the thread still takes at most. -/
def State.rest (s : State) : Nat := 2 * s.alarmList.length + s.place.rank s.clock

section Steps

variable {s t : State} {a : Action}

theorem inv_init (clock : Int) : Inv (init clock) := by
  constructor
  case parts => exact List.Perm.refl _
  case ids => rfl
  case fired => exact fun p hp => absurd hp List.not_mem_nil
  case sorted => exact List.Pairwise.nil
  case hand =>
    intro wake alarm h
    cases h
  case asleep => exact fun wake alarm h p hp => absurd hp List.not_mem_nil

theorem inv_insert {alarm : AlarmT} (h : Inv s) (hid : alarm.id = s.inserted.length) :
    Inv { s with
      alarmList := insertSorted alarm s.alarmList
      inserted := s.inserted ++ [(alarm, s.wake)] } := by
  have hperm := perm_insertSorted alarm s.alarmList
  constructor
  case parts =>
    rw [List.map_append, State.pending]
    apply (List.perm_append_comm.trans (h.parts.cons alarm)).trans
    exact ((hperm.append_right _).append_right _).symm
  case ids =>
    rw [List.map_append, h.ids, List.length_append, List.length_singleton, List.range_succ]
    exact congrArg (List.range s.inserted.length ++ [·]) hid
  case fired => exact h.fired
  case sorted => exact sorted_insertSorted h.sorted
  case hand => exact h.hand
  case asleep =>
    intro wake held hp p hmem hpending
    obtain hmem | hnew := List.mem_append.mp hmem
    · rw [State.pending, List.mem_append, hperm.mem_iff, List.mem_cons] at hpending
      obtain (hpending | hpending) | hpending := hpending
      · have hold : p.1.id ∈ s.inserted.map (fun p => p.1.id) := List.mem_map_of_mem hmem
        rw [h.ids, List.mem_range, hpending, hid] at hold
        exact absurd hold (Nat.lt_irrefl _)
      · exact h.asleep wake held hp p hmem (List.mem_append_left _ hpending)
      · exact h.asleep wake held hp p hmem (List.mem_append_right _ hpending)
    · right
      right
      rw [List.mem_singleton.mp hnew, State.wake]
      simp only at hp
      rw [hp]

/-- What is taken is the earliest alarm, so that the sleep is too long for none of those that are left. -/
theorem inv_take (h : Inv s) (hp : s.place = .lock) : Inv (takeAlarm s) := by
  have hparts := h.parts
  rw [State.pending, hp, Place.hand, List.append_nil] at hparts
  cases hl : s.alarmList with
  | nil =>
    rw [hl] at hparts
    simp only [takeAlarm, hl]
    constructor
    case parts => exact hparts
    case ids => exact h.ids
    case fired => exact h.fired
    case sorted => exact List.Pairwise.nil
    case hand =>
      intro wake alarm hplace
      cases hplace
    case asleep =>
      intro wake alarm hplace p _ hpending
      cases hplace
      cases hpending
  | cons alarm rest =>
    obtain ⟨hfirst, hrest⟩ := List.pairwise_cons.mp (hl ▸ h.sorted)
    rw [hl] at hparts
    simp only [takeAlarm, hl]
    constructor
    case parts => exact hparts.trans ((List.perm_append_singleton alarm rest).symm.append_right _)
    case ids => exact h.ids
    case fired => exact h.fired
    case sorted => exact hrest
    case hand =>
      intro wake alarm' hplace
      cases hplace
      split_ifs with hle
      · omega
      · omega
    case asleep =>
      intro wake alarm' hplace p _ hpending
      have hle : alarm.time ≤ p.1.time := by
        obtain hlater | heq := List.mem_append.mp hpending
        · exact hfirst p.1 hlater
        · rw [List.mem_singleton.mp heq]
      cases hplace
      split_ifs with hdue
      · exact .inl (Int.le_of_eq (Int.add_zero _))
      · right
        left
        omega

theorem inv_wake {wake : Int} {alarm : Option AlarmT} (h : Inv s) (hp : s.place = .asleep wake alarm)
    (hle : wake ≤ s.clock) :
    Inv { s with place := .lock, fired := s.fired ++ alarm.toList.map (fun alarm => (alarm, s.clock)) } := by
  have hparts := h.parts
  rw [State.pending, hp, Place.hand] at hparts
  constructor
  case parts =>
    rw [State.pending, Place.hand, List.append_nil, List.map_append, List.map_map]
    have hid : alarm.toList.map (Prod.fst ∘ fun alarm => (alarm, s.clock)) = alarm.toList := List.map_id _
    rw [hid]
    apply hparts.trans
    rw [List.append_assoc]
    exact List.perm_append_comm.append_left _
  case ids => exact h.ids
  case fired =>
    intro p hmem
    obtain hold | hnew := List.mem_append.mp hmem
    · exact h.fired p hold
    · obtain ⟨alarm', halarm, rfl⟩ := List.mem_map.mp hnew
      rw [Option.mem_toList] at halarm
      cases halarm
      exact Int.le_trans (h.hand wake alarm' hp) hle
  case sorted => exact h.sorted
  case hand =>
    intro wake alarm hplace
    cases hplace
  case asleep =>
    intro wake alarm hplace
    cases hplace

theorem inv_step (h : Inv s) (hs : step s a = some t) : Inv t := by
  cases a with
  | tick clock =>
    obtain ⟨hle, hs⟩ := Option.ite_none_right_eq_some.mp hs
    cases hs
    constructor
    · exact h.parts
    · exact h.ids
    · exact h.fired
    · exact h.sorted
    · exact h.hand
    · intro wake alarm hp p hmem hpending
      exact (h.asleep wake alarm hp p hmem hpending).imp_left fun hwake => Int.le_trans hwake hle
  | insert seconds message =>
    cases hs
    exact inv_insert h rfl
  | thread =>
    simp only [step, alarmThread] at hs
    cases hp : s.place with
    | lock =>
      rw [hp] at hs
      cases hs
      exact inv_take h hp
    | asleep wake alarm =>
      rw [hp] at hs
      obtain ⟨hle, hs⟩ := Option.ite_none_right_eq_some.mp hs
      cases hs
      exact inv_wake h hp hle

theorem punctual_of_stuck (h : Inv s) (hstuck : Stuck step isWork s) : Punctual s := by
  intro p hmem htime hinsert
  have hthread := hstuck .thread rfl
  simp only [step, alarmThread] at hthread
  cases hp : s.place with
  | lock =>
    rw [hp] at hthread
    cases hthread
  | asleep wake alarm =>
    rw [hp] at hthread
    have hlate : ¬ wake ≤ s.clock := by
      intro hle
      simp only [if_pos hle] at hthread
      cases hthread
    have hparts := h.parts.subset (List.mem_map_of_mem hmem)
    obtain hpending | hfired := List.mem_append.mp hparts
    · have hbound := h.asleep wake alarm hp p hmem hpending
      omega
    · exact hfired

theorem rest_work (ha : isWork a = true) (hs : step s a = some t) : t.rest < s.rest := by
  cases a with
  | tick | insert => cases ha
  | thread =>
    simp only [step, alarmThread] at hs
    cases hp : s.place with
    | lock =>
      rw [hp] at hs
      cases hs
      cases hl : s.alarmList with
      | nil =>
        simp only [takeAlarm, State.rest, hl, hp, Place.rank]
        split_ifs with hle
        · omega
        · omega
      | cons alarm rest =>
        simp only [takeAlarm, State.rest, hl, hp, Place.rank, List.length_cons]
        split_ifs
        · omega
        · omega
        · omega
        · omega
    | asleep wake alarm =>
      rw [hp] at hs
      obtain ⟨hle, hs⟩ := Option.ite_none_right_eq_some.mp hs
      cases hs
      simp only [State.rest, hp, Place.rank, if_pos hle]
      omega

theorem rest_other (ha : isWork a = false) (hs : step s a = some t) : t.rest ≤ s.rest + 2 := by
  cases a with
  | thread => cases ha
  | tick clock =>
    obtain ⟨hle, hs⟩ := Option.ite_none_right_eq_some.mp hs
    cases hs
    simp only [State.rest]
    cases hp : s.place with
    | lock => exact Nat.le_add_right _ 2
    | asleep wake alarm =>
      simp only [Place.rank]
      split_ifs
      · omega
      · omega
      · omega
      · omega
  | insert seconds message =>
    cases hs
    have hlen := (perm_insertSorted ⟨s.inserted.length, seconds, s.clock + seconds, message⟩ s.alarmList).length_eq
    rw [List.length_cons] at hlen
    simp only [State.rest, hlen]
    omega

end Steps

end C11AndC.Alarm.Mutex
