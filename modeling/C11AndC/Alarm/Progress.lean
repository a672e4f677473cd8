import C11AndC.Alarm.Order
import C11AndC.Library.Progress

namespace C11AndC.Alarm

open C11AndC.Library

/-- The steps that lead no alarm to the time that marks an idle thread. -/
def timedStep (s : State) (a : Action) : Option State :=
  if NonZero s a then step s a else none

/-- The steps that the alarm thread takes by itself. -/
def isWork : Action → Bool
  | .thread => true
  | .timeOut => true
  | _ => false

/-- What gives the alarm thread something to do. The clock does not. -/
def calls : Action → Bool
  | .insert _ _ => true
  | .wake => true
  | _ => false

/-- The alarms whose time has come have been fired. -/
def Punctual (s : State) : Prop :=
  ∀ alarm ∈ s.inserted, alarm.time ≤ s.clock → ∃ clock, (alarm, clock) ∈ s.fired ∧ alarm.time ≤ clock

/-- An idle thread has nothing to do, and an insertion will wake it. -/
structure Watchful (s : State) : Prop where
  idle : s.place = .idle → s.alarmList = [] ∧ s.currentAlarm = 0
  woken : s.place = .idleWoken → s.alarmList = [] → s.currentAlarm = 0

def Place.rank : Place → Nat
  | .idle => 0
  | .top => 1
  | .idleWoken => 1
  | .starting => 2
  | .timedWoken _ true => 2
  | .timed _ => 3
  | .timedWoken _ false => 8

/-- The steps that the thread still takes at most. -/
def State.rest (s : State) : Nat := 6 * s.alarmList.length + s.place.rank

section Moves

variable {s t : State} {alarm : AlarmT}

theorem insertSorted_ne_nil (alarm : AlarmT) (list : List AlarmT) : insertSorted alarm list ≠ [] := by
  intro h
  have hlen := (perm_insertSorted alarm list).length_eq
  rw [h] at hlen
  cases hlen

theorem signal_ne_idle (place : Place) : place.signal ≠ .idle := by
  cases place <;> exact Place.noConfusion

variable (alarm) in
theorem watchful_insert (h : Watchful s) : Watchful (alarmInsert s alarm) := by
  constructor
  · intro hp
    simp only [alarmInsert] at hp
    split_ifs at hp with hc
    · exact absurd hp (signal_ne_idle _)
    · exact absurd (.inl (h.idle hp).2) hc
  · intro _ hnil
    rw [alarmList_alarmInsert] at hnil
    exact absurd hnil (insertSorted_ne_nil alarm _)

/-- At these places there is nothing to watch. -/
theorem watchful_of_place (hi : t.place ≠ .idle) (hw : t.place ≠ .idleWoken) : Watchful t :=
  ⟨fun hp => absurd hp hi, fun hp => absurd hp hw⟩

theorem watchful_takeAlarm (hnil : s.alarmList = [] → s.currentAlarm = 0) : Watchful (takeAlarm s) := by
  cases hl : s.alarmList with
  | nil =>
    simp only [takeAlarm, hl]
    exact ⟨fun _ => ⟨rfl, hnil hl⟩, fun hp => Place.noConfusion hp⟩
  | cons alarm rest =>
    simp only [takeAlarm, hl]
    split_ifs
    · exact watchful_of_place Place.noConfusion Place.noConfusion
    · exact watchful_of_place Place.noConfusion Place.noConfusion

theorem watchful_step {a : Action} (h : Watchful s) (ht : step s a = some t) : Watchful t := by
  cases a with
  | tick clock =>
    simp only [step] at ht
    split_ifs at ht
    cases ht
    exact ⟨h.idle, h.woken⟩
  | insert seconds message =>
    simp only [step] at ht
    split_ifs at ht
    cases ht
    have hins := watchful_insert ⟨s.inserted.length, seconds, s.clock + seconds, message⟩ h
    exact ⟨hins.idle, hins.woken⟩
  | thread =>
    simp only [step, alarmThread] at ht
    cases hp : s.place with
    | starting =>
      rw [hp] at ht
      cases ht
      exact watchful_of_place Place.noConfusion Place.noConfusion
    | top =>
      rw [hp] at ht
      cases ht
      exact watchful_takeAlarm fun _ => rfl
    | idleWoken =>
      rw [hp] at ht
      cases ht
      exact watchful_takeAlarm (h.woken hp)
    | timedWoken alarm timedOut =>
      rw [hp] at ht
      cases ht
      simp only [leaveWait]
      split_ifs
      · exact watchful_of_place Place.noConfusion Place.noConfusion
      · exact watchful_of_place Place.noConfusion Place.noConfusion
      · exact watchful_of_place Place.noConfusion Place.noConfusion
    | idle =>
      rw [hp] at ht
      cases ht
    | timed alarm =>
      rw [hp] at ht
      cases ht
  | wake =>
    simp only [step] at ht
    cases hp : s.place with
    | idle =>
      rw [hp] at ht
      cases ht
      exact ⟨fun hq => Place.noConfusion hq, fun _ _ => (h.idle hp).2⟩
    | timed alarm =>
      rw [hp] at ht
      cases ht
      exact watchful_of_place Place.noConfusion Place.noConfusion
    | starting | top | idleWoken | timedWoken =>
      rw [hp] at ht
      cases ht
  | timeOut =>
    simp only [step] at ht
    cases hp : s.place with
    | timed alarm =>
      rw [hp] at ht
      simp only at ht
      split_ifs at ht
      cases ht
      exact watchful_of_place Place.noConfusion Place.noConfusion
    | starting | top | idle | idleWoken | timedWoken =>
      rw [hp] at ht
      cases ht

theorem rank_signal (place : Place) : place.signal.rank ≤ place.rank + 5 := by
  cases place with
  | timed alarm => exact Nat.le_refl 8
  | idle => exact Nat.le_of_lt (by decide)
  | starting | top | idleWoken | timedWoken => exact Nat.le_add_right _ _

theorem length_insertSorted (alarm : AlarmT) (list : List AlarmT) :
    (insertSorted alarm list).length = list.length + 1 := (perm_insertSorted alarm list).length_eq

theorem rest_alarmInsert_le (s : State) (alarm : AlarmT) : (alarmInsert s alarm).rest ≤ s.rest + 11 := by
  have hsignal := rank_signal s.place
  simp only [alarmInsert]
  split_ifs
  · simp only [State.rest, length_insertSorted]
    omega
  · simp only [State.rest, length_insertSorted]
    omega

theorem rest_takeAlarm (hr : s.place.rank = 1) : (takeAlarm s).rest < s.rest := by
  have hrest : s.rest = 6 * s.alarmList.length + 1 := by rw [State.rest, hr]
  rw [hrest]
  cases hl : s.alarmList with
  | nil =>
    simp only [takeAlarm, hl, State.rest, Place.rank, List.length_nil]
    omega
  | cons alarm rest =>
    simp only [takeAlarm, hl]
    split_ifs
    · simp only [State.rest, Place.rank, List.length_cons]
      omega
    · simp only [fire, State.rest, Place.rank, List.length_cons]
      omega

theorem rest_work {a : Action} (ha : isWork a = true) (ht : step s a = some t) : t.rest < s.rest := by
  cases a with
  | tick | insert | wake => cases ha
  | thread =>
    simp only [step, alarmThread] at ht
    cases hp : s.place with
    | starting =>
      rw [hp] at ht
      cases ht
      simp only [State.rest, hp, Place.rank]
      omega
    | top =>
      rw [hp] at ht
      cases ht
      exact rest_takeAlarm (s := { s with currentAlarm := 0 }) (by rw [hp, Place.rank])
    | idleWoken =>
      rw [hp] at ht
      cases ht
      exact rest_takeAlarm (by rw [hp, Place.rank])
    | timedWoken alarm timedOut =>
      rw [hp] at ht
      cases ht
      cases timedOut with
      | true =>
        simp only [leaveWait, fire, ↓reduceIte, State.rest, hp, Place.rank]
        omega
      | false =>
        simp only [leaveWait, Bool.false_eq_true, ↓reduceIte]
        split_ifs
        · simp only [State.rest, hp, Place.rank]
          omega
        · simp only [State.rest, alarmList_alarmInsert, length_insertSorted, hp, Place.rank]
          omega
    | idle =>
      rw [hp] at ht
      cases ht
    | timed alarm =>
      rw [hp] at ht
      cases ht
  | timeOut =>
    simp only [step] at ht
    cases hp : s.place with
    | timed alarm =>
      rw [hp] at ht
      simp only at ht
      split_ifs at ht
      cases ht
      simp only [State.rest, hp, Place.rank]
      omega
    | starting | top | idle | idleWoken | timedWoken =>
      rw [hp] at ht
      cases ht

theorem rest_other {a : Action} (ha : isWork a = false) (ht : step s a = some t) : t.rest ≤ s.rest + 11 := by
  cases a with
  | thread | timeOut => cases ha
  | tick clock =>
    simp only [step] at ht
    split_ifs at ht
    cases ht
    exact Nat.le_add_right _ _
  | insert seconds message =>
    simp only [step] at ht
    split_ifs at ht
    cases ht
    exact rest_alarmInsert_le s _
  | wake =>
    have hsignal := rank_signal s.place
    have hwoken : ({ s with place := s.place.signal } : State).rest ≤ s.rest + 11 := by
      simp only [State.rest]
      omega
    simp only [step] at ht
    split at ht
    · cases ht
      exact hwoken
    · cases ht
      exact hwoken
    · cases ht

theorem rest_tick {a : Action} (ha : isWork a = false) (hc : calls a = false) (ht : step s a = some t) :
    t.rest ≤ s.rest := by
  cases a with
  | thread | timeOut => cases ha
  | insert | wake => cases hc
  | tick clock =>
    simp only [step] at ht
    split_ifs at ht
    cases ht
    exact Nat.le_refl _

/-- Where the thread waits, no alarm is due. -/
theorem punctual_of_stuck (h : Inv s) (hw : Watchful s) (hstuck : Stuck timedStep isWork s) : Punctual s := by
  have hthread : step s .thread = none := by simpa [timedStep, NonZero] using hstuck .thread rfl
  have htimeOut : step s .timeOut = none := by simpa [timedStep, NonZero] using hstuck .timeOut rfl
  intro alarm ha hdue
  have hparts := h.parts.subset ha
  rw [List.mem_append, List.mem_append] at hparts
  obtain hleft | hfired := hparts
  · simp only [step, alarmThread] at hthread htimeOut
    cases hp : s.place with
    | idle =>
      rw [(hw.idle hp).1, hp] at hleft
      simp [Place.hand] at hleft
    | timed first =>
      have hlate : s.clock < first.time := by simpa [hp] using htimeOut
      have hcurrent := h.current first (by rw [hp]; exact List.mem_singleton_self _)
      rw [h.blocked first hp] at hcurrent
      obtain hlist | hhand := hleft
      · have hle := hcurrent.2.2 alarm hlist
        omega
      · rw [hp] at hhand
        rw [List.mem_singleton.mp hhand] at hdue
        omega
    | starting | top | idleWoken | timedWoken =>
      rw [hp] at hthread
      cases hthread
  · obtain ⟨⟨a, clock⟩, hmem, rfl⟩ := List.mem_map.mp hfired
    exact ⟨clock, hmem, h.fired _ hmem⟩

end Moves

theorem descends_timedStep : Descends timedStep isWork (fun s => Inv s ∧ Watchful s) 11 State.rest := by
  constructor
  case keep =>
    intro s a t h ht
    obtain ⟨hz, ht⟩ := Option.ite_none_right_eq_some.mp ht
    exact ⟨inv_step h.1 hz ht, watchful_step h.2 ht⟩
  case down => exact fun s a t _ ht ha => rest_work ha (Option.ite_none_right_eq_some.mp ht).2
  case up => exact fun s a t _ ht ha => rest_other ha (Option.ite_none_right_eq_some.mp ht).2

/-- Each insertion and each spurious wake-up gives the alarm thread a bounded number of steps to take, and
the clock gives it none. When it has taken them all alarms have been fired whose time has come: an insertion
is never overlooked. -/
theorem alarms_punctual (clock : Int) : Completes timedStep isWork Punctual (init clock) 2 11 ∧
    ∀ as t, run timedStep (init clock) as = some t → as.countP isWork ≤ 2 + 11 * as.countP calls := by
  have hinit : Inv (init clock) ∧ Watchful (init clock) :=
    ⟨inv_init clock, watchful_of_place Place.noConfusion Place.noConfusion⟩
  constructor
  · apply completes_of_descends descends_timedStep (fun s h hstuck => punctual_of_stuck h.1 h.2 hstuck) hinit
    exact Nat.le_refl 2
  · intro as t hr
    have hle := descends_timedStep.run_le_calls calls
      (fun s a t _ ht ha hc => rest_tick ha hc (Option.ite_none_right_eq_some.mp ht).2) hinit hr
    exact Nat.le_trans (Nat.le_add_right _ _) hle

end C11AndC.Alarm
