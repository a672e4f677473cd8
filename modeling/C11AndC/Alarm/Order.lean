import C11AndC.Alarm.Model
import Mathlib.Data.List.Nodup
import Mathlib.Data.List.Range
import Mathlib.Tactic.SplitIfs

namespace C11AndC.Alarm

open C11AndC.Library

/-- The alarm that the thread has taken from the list and not put back or fired. -/
def Place.hand : Place → List AlarmT
  | .timed alarm => [alarm]
  | .timedWoken alarm _ => [alarm]
  | _ => []

/-- The clock does not lead to the time that marks an idle thread. -/
def NonZero (s : State) : Action → Prop
  | .insert seconds _ => s.clock + seconds ≠ 0
  | _ => True

instance (s : State) (a : Action) : Decidable (NonZero s a) :=
  match a with
  | .insert seconds _ => inferInstanceAs (Decidable (s.clock + seconds ≠ 0))
  | .tick _ => .isTrue trivial
  | .thread => .isTrue trivial
  | .wake => .isTrue trivial
  | .timeOut => .isTrue trivial

/-- What the alarm thread owes its user. -/
structure Orderly (s : State) : Prop where
  once : s.inserted.Perm (s.alarmList ++ s.place.hand ++ s.fired.map Prod.fst) ∧
    (s.alarmList ++ s.place.hand ++ s.fired.map Prod.fst).Nodup
  punctual : ∀ p ∈ s.fired, p.1.time ≤ p.2
  sorted : s.alarmList.Pairwise (fun a b => a.time ≤ b.time)
  overtaken : ∀ alarm ∈ s.place.hand, (∃ b ∈ s.alarmList, b.time < alarm.time) →
    s.currentAlarm ≠ alarm.time ∧ ∃ timedOut, s.place = .timedWoken alarm timedOut ∧
      (timedOut = false → ∃ t, step s .thread = some t ∧ t.place = .top ∧ alarm ∈ t.alarmList)

structure Inv (s : State) : Prop where
  parts : s.inserted.Perm (s.alarmList ++ s.place.hand ++ s.fired.map Prod.fst)
  ids : s.inserted.map AlarmT.id = List.range s.inserted.length
  nonzero : ∀ a ∈ s.inserted, a.time ≠ 0
  fired : ∀ p ∈ s.fired, p.1.time ≤ p.2
  sorted : s.alarmList.Pairwise (fun a b => a.time ≤ b.time)
  current : ∀ alarm ∈ s.place.hand, s.currentAlarm ≠ 0 ∧ s.currentAlarm ≤ alarm.time ∧
    ∀ b ∈ s.alarmList, s.currentAlarm ≤ b.time
  blocked : ∀ alarm, s.place = .timed alarm → s.currentAlarm = alarm.time
  timedOut : ∀ alarm, s.place = .timedWoken alarm true → alarm.time ≤ s.clock

section Insert

variable {alarm : AlarmT} {list : List AlarmT}

theorem perm_insertSorted (alarm : AlarmT) (list : List AlarmT) :
    (insertSorted alarm list).Perm (alarm :: list) := by
  induction list with
  | nil => exact List.Perm.refl _
  | cons next rest ih =>
    rw [insertSorted]
    split_ifs
    · exact List.Perm.refl _
    · exact (ih.cons next).trans (List.Perm.swap ..)

theorem sorted_insertSorted (h : list.Pairwise (fun a b => a.time ≤ b.time)) :
    (insertSorted alarm list).Pairwise (fun a b => a.time ≤ b.time) := by
  induction list with
  | nil => exact List.pairwise_singleton _ _
  | cons next rest ih =>
    obtain ⟨hnext, hrest⟩ := List.pairwise_cons.mp h
    rw [insertSorted]
    split_ifs with hle
    · refine List.pairwise_cons.mpr ⟨fun b hb => ?_, h⟩
      obtain rfl | hb := List.mem_cons.mp hb
      · exact hle
      · exact Int.le_trans hle (hnext b hb)
    · refine List.pairwise_cons.mpr ⟨fun b hb => ?_, ih hrest⟩
      obtain rfl | hb := List.mem_cons.mp ((perm_insertSorted alarm rest).subset hb)
      · exact Int.le_of_lt (Int.not_le.mp hle)
      · exact hnext b hb

theorem hand_signal (place : Place) : place.signal.hand = place.hand := by
  cases place <;> rfl

theorem signal_timed (place : Place) (alarm : AlarmT) : place.signal ≠ .timed alarm := by
  cases place <;> exact Place.noConfusion

theorem signal_timedOut {place : Place} (h : place.signal = .timedWoken alarm true) :
    place = .timedWoken alarm true := by
  cases place with
  | timedWoken a timedOut => exact h
  | timed a => cases h
  | _ => cases h

theorem alarmList_alarmInsert (s : State) (alarm : AlarmT) :
    (alarmInsert s alarm).alarmList = insertSorted alarm s.alarmList := by
  simp only [alarmInsert]
  split_ifs <;> rfl

theorem hand_alarmInsert (s : State) (alarm : AlarmT) :
    (alarmInsert s alarm).place.hand = s.place.hand := by
  simp only [alarmInsert]
  split_ifs
  · exact hand_signal s.place
  · rfl

theorem rest_alarmInsert (s : State) (alarm : AlarmT) : (alarmInsert s alarm).clock = s.clock ∧
    (alarmInsert s alarm).inserted = s.inserted ∧ (alarmInsert s alarm).fired = s.fired := by
  simp only [alarmInsert]
  split_ifs <;> exact ⟨rfl, rfl, rfl⟩

end Insert

section Steps

variable {s t : State} {alarm : AlarmT}

theorem nodup_of_ids (h : s.inserted.map AlarmT.id = List.range s.inserted.length) :
    s.inserted.Nodup := by
  apply List.Nodup.of_map AlarmT.id
  rw [h]
  exact List.nodup_range

/-- A thread that holds an alarm is woken by the insertion of an earlier one. -/
theorem inv_insert {seconds : Int} {message : List Char} (h : Inv s)
    (hz : s.clock + seconds ≠ 0) (ht : step s (.insert seconds message) = some t) : Inv t := by
  simp only [step] at ht
  split_ifs at ht with htop
  cases ht
  generalize halarm : (⟨s.inserted.length, seconds, s.clock + seconds, message⟩ : AlarmT) = alarm
  have hid : alarm.id = s.inserted.length := by rw [← halarm]
  have htime : alarm.time ≠ 0 := by rw [← halarm]; exact hz
  have hperm := perm_insertSorted alarm s.alarmList
  obtain ⟨hclock, hins, hfired⟩ := rest_alarmInsert s alarm
  have hhand := hand_alarmInsert s alarm
  have hlist := alarmList_alarmInsert s alarm
  refine ⟨?_, ?_, ?_, ?_, ?_, ?_, ?_, ?_⟩
  · simp only [hlist, hhand, hfired]
    refine (List.perm_append_singleton alarm s.inserted).trans ?_
    refine (h.parts.cons alarm).trans ?_
    exact ((hperm.append_right _).append_right _).symm
  · simp only [List.map_append, List.map_cons, List.map_nil, List.length_append,
      List.length_singleton, List.range_succ, h.ids, hid]
  · intro a ha
    obtain ha | ha := List.mem_append.mp ha
    · exact h.nonzero a ha
    · rw [List.mem_singleton.mp ha]
      exact htime
  · simp only [hfired]
    exact h.fired
  · simp only [hlist]
    exact sorted_insertSorted h.sorted
  · intro a ha
    simp only [hhand] at ha
    obtain ⟨h₁, h₂, h₃⟩ := h.current a ha
    simp only [alarmInsert, h₁, false_or]
    split_ifs with hlt
    · refine ⟨htime, by simp only; omega, fun b hb => ?_⟩
      obtain rfl | hb := List.mem_cons.mp (hperm.subset hb)
      · exact Int.le_refl _
      · have := h₃ b hb
        simp only
        omega
    · refine ⟨h₁, h₂, fun b hb => ?_⟩
      obtain rfl | hb := List.mem_cons.mp (hperm.subset hb)
      · exact Int.not_lt.mp hlt
      · exact h₃ b hb
  · intro a ha
    simp only [alarmInsert] at ha ⊢
    split_ifs at ha ⊢
    · exact absurd ha (signal_timed s.place a)
    · exact h.blocked a ha
  · intro a ha
    simp only [hclock]
    simp only [alarmInsert] at ha
    split_ifs at ha
    · exact h.timedOut a (signal_timedOut ha)
    · exact h.timedOut a ha

/-- Without an alarm in its hand nothing is asked of the thread. -/
theorem inv_empty {place : Place} {current clock : Int} {list inserted : List AlarmT}
    {fired : List (AlarmT × Int)} (hids : inserted.map AlarmT.id = List.range inserted.length)
    (hnonzero : ∀ a ∈ inserted, a.time ≠ 0) (hhand : place.hand = [])
    (hparts : inserted.Perm (list ++ fired.map Prod.fst)) (hfired : ∀ p ∈ fired, p.1.time ≤ p.2)
    (hsorted : list.Pairwise (fun a b => a.time ≤ b.time)) :
    Inv ⟨list, current, clock, place, inserted, fired⟩ := by
  refine ⟨?_, hids, hnonzero, hfired, hsorted, fun a ha => ?_, fun a ha => ?_, fun a ha => ?_⟩
  · simp only [hhand, List.append_nil]
    exact hparts
  · simp only [hhand] at ha
    exact absurd ha List.not_mem_nil
  · simp only at ha
    rw [ha] at hhand
    cases hhand
  · simp only at ha
    rw [ha] at hhand
    cases hhand

theorem fired_append {fired : List (AlarmT × Int)} {clock : Int}
    (h : ∀ p ∈ fired, p.1.time ≤ p.2) (ht : alarm.time ≤ clock) :
    ∀ p ∈ fired ++ [(alarm, clock)], p.1.time ≤ p.2 := by
  intro p hp
  obtain hp | hp := List.mem_append.mp hp
  · exact h p hp
  · rw [List.mem_singleton.mp hp]
    exact ht

/-- The thread takes the first alarm, to fire it or to wait for its time. -/
theorem inv_takeAlarm {current : Int} (h : Inv s) (hhand : s.place.hand = []) :
    Inv (takeAlarm { s with currentAlarm := current }) := by
  have hparts := h.parts
  rw [hhand, List.append_nil] at hparts
  cases hl : s.alarmList with
  | nil =>
    simp only [takeAlarm]
    rw [hl] at hparts
    exact inv_empty h.ids h.nonzero rfl hparts h.fired List.Pairwise.nil
  | cons alarm rest =>
    have hsorted := h.sorted
    rw [hl] at hparts hsorted
    obtain ⟨hle, hrest⟩ := List.pairwise_cons.mp hsorted
    simp only [takeAlarm]
    split_ifs with hlt
    · refine ⟨?_, h.ids, h.nonzero, h.fired, hrest, fun a ha => ?_, fun a ha => ?_, fun a ha => ?_⟩
      · rw [List.append_assoc]
        exact hparts.trans List.perm_middle.symm
      · rw [List.mem_singleton.mp ha]
        refine ⟨?_, Int.le_refl _, hle⟩
        exact h.nonzero alarm (hparts.symm.subset (List.mem_cons_self ..))
      · cases ha
        rfl
      · cases ha
    · refine inv_empty h.ids h.nonzero rfl ?_ (fired_append h.fired (Int.not_lt.mp hlt)) hrest
      rw [List.map_append, ← List.append_assoc]
      exact hparts.trans (List.perm_append_singleton alarm _).symm

theorem inv_leaveWait {timedOut : Bool} (h : Inv s)
    (hp : s.place = .timedWoken alarm timedOut) : Inv (leaveWait s alarm timedOut) := by
  have hparts := h.parts
  rw [hp] at hparts
  simp only [leaveWait]
  split_ifs with hout hcur
  · subst hout
    refine inv_empty h.ids h.nonzero rfl ?_ (fired_append h.fired (h.timedOut alarm hp)) h.sorted
    rw [List.map_append, ← List.append_assoc]
    refine hparts.trans ?_
    rw [List.append_assoc]
    exact List.perm_middle.trans (List.perm_append_singleton alarm _).symm
  · have hcurrent := h.current
    rw [hp] at hcurrent
    refine ⟨hparts, h.ids, h.nonzero, h.fired, h.sorted, hcurrent, fun a ha => ?_, fun a ha => ?_⟩
    · cases ha
      exact hcur
    · cases ha
  · obtain ⟨-, hins, hfired⟩ := rest_alarmInsert s alarm
    have hlist := alarmList_alarmInsert s alarm
    apply inv_empty
    · rw [hins]
      exact h.ids
    · rw [hins]
      exact h.nonzero
    · rfl
    · rw [hins, hlist, hfired]
      refine hparts.trans ?_
      rw [List.append_assoc]
      exact List.perm_middle.trans ((perm_insertSorted alarm s.alarmList).symm.append_right _)
    · rw [hfired]
      exact h.fired
    · rw [hlist]
      exact sorted_insertSorted h.sorted

theorem inv_step {a : Action} (h : Inv s) (hz : NonZero s a) (ht : step s a = some t) : Inv t := by
  cases a with
  | tick clock =>
    simp only [step] at ht
    split_ifs at ht with hle
    cases ht
    exact ⟨h.parts, h.ids, h.nonzero, h.fired, h.sorted, h.current, h.blocked,
      fun alarm ha => Int.le_trans (h.timedOut alarm ha) hle⟩
  | insert seconds message => exact inv_insert h hz ht
  | thread =>
    simp only [step, alarmThread] at ht
    cases hp : s.place with
    | starting =>
      have hparts := h.parts
      rw [hp] at ht hparts
      cases ht
      exact inv_empty h.ids h.nonzero rfl (by simpa [Place.hand] using hparts) h.fired h.sorted
    | top =>
      rw [hp] at ht
      cases ht
      exact inv_takeAlarm h (by rw [hp]; rfl)
    | idleWoken =>
      rw [hp] at ht
      cases ht
      exact inv_takeAlarm h (by rw [hp]; rfl)
    | timedWoken alarm timedOut =>
      rw [hp] at ht
      cases ht
      exact inv_leaveWait h hp
    | idle =>
      rw [hp] at ht
      cases ht
    | timed alarm =>
      rw [hp] at ht
      cases ht
  | wake =>
    have hhand := hand_signal s.place
    have hinv : Inv { s with place := s.place.signal } := by
      refine ⟨?_, h.ids, h.nonzero, h.fired, h.sorted, ?_, fun a ha => ?_, fun a ha => ?_⟩
      · simp only [hhand]
        exact h.parts
      · simp only [hhand]
        exact h.current
      · exact absurd ha (signal_timed s.place a)
      · exact h.timedOut a (signal_timedOut ha)
    simp only [step] at ht
    split at ht
    · cases ht
      exact hinv
    · cases ht
      exact hinv
    · cases ht
  | timeOut =>
    simp only [step] at ht
    split at ht
    · rename_i alarm hp
      split_ifs at ht with hle
      cases ht
      have hparts := h.parts
      have hcurrent := h.current
      rw [hp] at hparts hcurrent
      refine ⟨hparts, h.ids, h.nonzero, h.fired, h.sorted, hcurrent, fun a ha => ?_,
        fun a ha => ?_⟩
      · cases ha
      · cases ha
        exact hle
    · cases ht

theorem orderly_of_inv (h : Inv s) : Orderly s := by
  refine ⟨⟨h.parts, h.parts.nodup_iff.mp (nodup_of_ids h.ids)⟩, h.fired, h.sorted,
    fun alarm ha hb => ?_⟩
  obtain ⟨b, hb, hlt⟩ := hb
  obtain ⟨-, -, hle⟩ := h.current alarm ha
  have hne : s.currentAlarm ≠ alarm.time := by
    have := hle b hb
    omega
  refine ⟨hne, ?_⟩
  cases hp : s.place with
  | timed a =>
    rw [hp] at ha
    obtain rfl : alarm = a := List.mem_singleton.mp ha
    exact absurd (h.blocked alarm hp) hne
  | timedWoken a timedOut =>
    rw [hp] at ha
    obtain rfl : alarm = a := List.mem_singleton.mp ha
    refine ⟨timedOut, rfl, ?_⟩
    rintro rfl
    refine ⟨_, by simp only [step, alarmThread, hp]; rfl, ?_, ?_⟩
    · simp only [leaveWait, hne, Bool.false_eq_true, ↓reduceIte]
    · simp only [leaveWait, hne, Bool.false_eq_true, ↓reduceIte, alarmList_alarmInsert]
      exact (perm_insertSorted alarm s.alarmList).symm.subset (List.mem_cons_self ..)
  | starting | top | idle | idleWoken =>
    rw [hp] at ha
    exact absurd ha List.not_mem_nil

end Steps

theorem inv_init (clock : Int) : Inv (init clock) :=
  inv_empty rfl (fun _ ha => absurd ha List.not_mem_nil) rfl (List.Perm.refl _)
    (fun _ hp => absurd hp List.not_mem_nil) List.Pairwise.nil

/-- Whatever the main thread inserts and whenever the alarm thread is woken, no alarm is
lost, fired twice or fired before its time, and the thread does not go on to wait for one
when an earlier one has come. -/
theorem alarms_orderly (clock : Int) (as : List Action)
    (hz : Each step NonZero (init clock) as) : Always step Orderly (init clock) as :=
  always_of_each Inv (fun _ _ _ h hz ht => inv_step h hz ht) (fun _ h => orderly_of_inv h)
    (inv_init clock) hz

/-- A second alarm comes before the one that the thread waits for. -/
def overtaking : List Action :=
  [.thread, .thread, .insert 9 [], .thread, .insert 5 [], .thread, .thread, .tick 15, .timeOut,
    .thread]

theorem alarms_orderly_overtaking :
    ∃ s, run step (init 10) overtaking = some s ∧ s.fired = [(⟨1, 5, 15, []⟩, 15)] ∧
      s.alarmList = [⟨0, 9, 19, []⟩] ∧ Orderly s :=
  ⟨_, rfl, rfl, rfl, always_run (alarms_orderly 10 overtaking (by decide)) rfl⟩

end C11AndC.Alarm
