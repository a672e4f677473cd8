import C11AndC.Library.Runs

namespace C11AndC.Alarm

/-- An alarm; `id` stands for the address of its record. -/
structure AlarmT where
  id : Nat
  seconds : Int
  time : Int
  message : List Char
  deriving DecidableEq

/-- Where the alarm thread is. At `top` it has the mutex, and in every other place it
waits for it or for the condition. -/
inductive Place where
  | starting
  | top
  | idle
  | idleWoken
  | timed (alarm : AlarmT)
  | timedWoken (alarm : AlarmT) (timedOut : Bool)
  deriving DecidableEq

/-- The shared data, the clock and the place of the alarm thread. The alarms inserted by
`main` and those fired, with the time at which they were, are recorded. -/
structure State where
  alarmList : List AlarmT
  currentAlarm : Int
  clock : Int
  place : Place
  inserted : List AlarmT
  fired : List (AlarmT × Int)
  deriving DecidableEq

def init (clock : Int) : State := ⟨[], 0, clock, .starting, [], []⟩

/-- `pthread_cond_signal` wakes the thread if it waits for the condition. -/
def Place.signal : Place → Place
  | .idle => .idleWoken
  | .timed alarm => .timedWoken alarm false
  | place => place

/-- The loop of `alarm_insert`. -/
def insertSorted (alarm : AlarmT) : List AlarmT → List AlarmT
  | [] => [alarm]
  | next :: rest =>
      if next.time ≥ alarm.time then alarm :: next :: rest else next :: insertSorted alarm rest

def alarmInsert (s : State) (alarm : AlarmT) : State :=
  let s := { s with alarmList := insertSorted alarm s.alarmList }
  if s.currentAlarm = 0 ∨ alarm.time < s.currentAlarm then
    { s with currentAlarm := alarm.time, place := s.place.signal }
  else s

def fire (s : State) (alarm : AlarmT) : State :=
  { s with fired := s.fired ++ [(alarm, s.clock)], place := .top }

/-- The alarm thread with the mutex, from the test of the list on. -/
def takeAlarm (s : State) : State :=
  match s.alarmList with
  | [] => { s with place := .idle }
  | alarm :: rest =>
      let s := { s with alarmList := rest }
      if alarm.time > s.clock then { s with currentAlarm := alarm.time, place := .timed alarm }
      else fire s alarm

/-- The alarm thread with the mutex, back from its timed wait. -/
def leaveWait (s : State) (alarm : AlarmT) (timedOut : Bool) : State :=
  if timedOut then fire s alarm
  else if s.currentAlarm = alarm.time then { s with place := .timed alarm }
  else { alarmInsert s alarm with place := .top }

/-- The next part of `alarm_thread`, up to its next wait or the end of its loop. -/
def alarmThread (s : State) : Option State :=
  match s.place with
  | .starting => some { s with place := .top }
  | .top => some (takeAlarm { s with currentAlarm := 0 })
  | .idleWoken => some (takeAlarm s)
  | .timedWoken alarm timedOut => some (leaveWait s alarm timedOut)
  | .idle | .timed _ => none

/-- What can happen next. The main thread needs the mutex; a wait may end without a
signal, and with a time-out once the clock has come to the time of the alarm. -/
inductive Action where
  | tick (clock : Int)
  | insert (seconds : Int) (message : List Char)
  | thread
  | wake
  | timeOut
  deriving DecidableEq

def step (s : State) : Action → Option State
  | .tick clock => if s.clock ≤ clock then some { s with clock := clock } else none
  | .insert seconds message =>
      if s.place = .top then none
      else
        let alarm := ⟨s.inserted.length, seconds, s.clock + seconds, message⟩
        some { alarmInsert s alarm with inserted := s.inserted ++ [alarm] }
  | .thread => alarmThread s
  | .wake =>
      match s.place with
      | .idle | .timed _ => some { s with place := s.place.signal }
      | _ => none
  | .timeOut =>
      match s.place with
      | .timed alarm =>
          if alarm.time ≤ s.clock then some { s with place := .timedWoken alarm true } else none
      | _ => none

end C11AndC.Alarm
