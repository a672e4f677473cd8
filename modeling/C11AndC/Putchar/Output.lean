import C11AndC.Putchar.Model
import C11AndC.Library.Interleaving
import C11AndC.Library.Progress

namespace C11AndC.Putchar

open C11AndC.Library

/-- What a thread writes without letting others write in between. -/
def Config.pieces (c : Config) (string : List Char) : List (List Char) :=
  if c.flockFlag then [announcement string, string] else string.map (fun ch => [ch])

/-- The pieces that a thread has not begun to write. -/
def Thread.pieces (c : Config) (t : Thread) : List (List Char) :=
  match t.place with
  | .absent => c.pieces t.string
  | .created => [announcement t.string, t.string]
  | .announced => [t.string]
  | .locked _ => []
  | .unlocked pointer => pointer.map (fun ch => [ch])
  | .returned => []

/-- What the owner of the lock has still to write. -/
def current (owner : Option Nat) (threads : List Thread) : List Char :=
  match owner.bind (fun i => threads[i]?) with
  | some ⟨_, .locked pointer⟩ => pointer
  | _ => []

/-- What has been written, with the string completed that a thread is writing. -/
def State.closed (s : State) : List Char := s.output ++ current s.owner s.threads

def AllReturned (s : State) : Prop := ∀ t ∈ s.threads, t.place = .returned

/-- The places of the function that the threads run. -/
def Place.fits (flockFlag : Bool) : Place → Prop
  | .absent => True
  | .created => flockFlag = true
  | .announced => flockFlag = true
  | .locked _ => flockFlag = true
  | .unlocked _ => flockFlag = false
  | .returned => True

structure Inv (c : Config) (s : State) : Prop where
  owner : ∀ i, s.owner = some i → ∃ string pointer, s.threads[i]? = some ⟨string, .locked pointer⟩
  locked : ∀ i string pointer, s.threads[i]? = some ⟨string, .locked pointer⟩ → s.owner = some i
  fits : ∀ t ∈ s.threads, t.place.fits c.flockFlag

/-- What one step can do. -/
inductive Turn (c : Config) (s : State) : State → Prop
  | creates {i string} (hi : s.threads[i]? = some ⟨string, .absent⟩) :
      Turn c s { s with threads := s.threads.set i ⟨string, threadFunc c string⟩ }
  | announces {i string} (hi : s.threads[i]? = some ⟨string, .created⟩) (ho : s.owner = none) :
      Turn c s { s with
        threads := s.threads.set i ⟨string, .announced⟩
        output := s.output ++ announcement string }
  | locks {i string} (hi : s.threads[i]? = some ⟨string, .announced⟩) (ho : s.owner = none) :
      Turn c s { s with
        owner := some i
        threads := s.threads.set i ⟨string, .locked string⟩ }
  | puts {i string ch pointer} (hi : s.threads[i]? = some ⟨string, .locked (ch :: pointer)⟩) :
      Turn c s { s with
        threads := s.threads.set i ⟨string, .locked pointer⟩
        output := s.output ++ [ch] }
  | unlocks {i string} (hi : s.threads[i]? = some ⟨string, .locked []⟩) :
      Turn c s { s with
        owner := none
        threads := s.threads.set i ⟨string, .returned⟩ }
  | putchars {i string ch pointer} (hi : s.threads[i]? = some ⟨string, .unlocked (ch :: pointer)⟩)
      (ho : s.owner = none) :
      Turn c s { s with
        threads := s.threads.set i ⟨string, .unlocked pointer⟩
        output := s.output ++ [ch] }
  | returns {i string} (hi : s.threads[i]? = some ⟨string, .unlocked []⟩) :
      Turn c s { s with threads := s.threads.set i ⟨string, .returned⟩ }

section Turns

variable {c : Config} {s t : State} {a : Action} {i : Nat}

theorem turn_of_step (hs : step c s a = some t) : Turn c s t := by
  cases a with
  | create i =>
    obtain ⟨⟨string, place⟩, hi, hs⟩ := Option.bind_eq_some_iff.mp hs
    obtain ⟨⟨hp, -⟩, hs⟩ := Option.ite_none_right_eq_some.mp hs
    cases hp
    cases hs
    exact .creates hi
  | thread i =>
    obtain ⟨⟨string, place⟩, hi, hs⟩ := Option.bind_eq_some_iff.mp hs
    cases hf : c.flockFlag with
    | true =>
      rw [hf, if_pos rfl] at hs
      cases place with
      | absent | unlocked | returned => cases hs
      | created =>
        obtain ⟨ho, hs⟩ := Option.ite_none_right_eq_some.mp hs
        cases hs
        exact .announces hi ho
      | announced =>
        obtain ⟨ho, hs⟩ := Option.ite_none_right_eq_some.mp hs
        cases hs
        exact .locks hi ho
      | locked pointer =>
        cases pointer with
        | nil =>
          cases hs
          exact .unlocks hi
        | cons ch pointer =>
          cases hs
          exact .puts hi
    | false =>
      rw [hf, if_neg Bool.false_ne_true] at hs
      cases place with
      | absent | created | announced | locked | returned => cases hs
      | unlocked pointer =>
        cases pointer with
        | nil =>
          cases hs
          exact .returns hi
        | cons ch pointer =>
          obtain ⟨ho, hs⟩ := Option.ite_none_right_eq_some.mp hs
          cases hs
          exact .putchars hi ho

/-- A step of a thread that neither has the lock nor takes it. -/
theorem inv_set {old new : Thread} {output : List Char} (h : Inv c s) (hi : s.threads[i]? = some old)
    (hold : ∀ pointer, old.place ≠ .locked pointer) (hnew : ∀ pointer, new.place ≠ .locked pointer)
    (hfits : new.place.fits c.flockFlag) :
    Inv c { s with threads := s.threads.set i new, output := output } := by
  constructor
  case owner =>
    intro j hj
    obtain ⟨string, pointer, hlocked⟩ := h.owner j hj
    apply Exists.intro string
    apply Exists.intro pointer
    rw [List.getElem?_set_ne]
    · exact hlocked
    · intro hij
      subst hij
      rw [hi] at hlocked
      cases hlocked
      exact hold pointer rfl
  case locked =>
    intro j string pointer hj
    obtain ⟨rfl, rfl⟩ | ⟨-, hj⟩ := getElem?_set_cases hj
    · exact absurd rfl (hnew pointer)
    · exact h.locked j string pointer hj
  case fits =>
    intro t ht
    obtain ht | ht := List.mem_or_eq_of_mem_set ht
    · exact h.fits t ht
    · subst ht
      exact hfits

theorem fits_set {new : Thread} (h : Inv c s) (hfits : new.place.fits c.flockFlag) :
    ∀ t ∈ s.threads.set i new, t.place.fits c.flockFlag := by
  intro t ht
  obtain ht | ht := List.mem_or_eq_of_mem_set ht
  · exact h.fits t ht
  · subst ht
    exact hfits

theorem fits_at {t : Thread} (h : Inv c s) (hi : s.threads[i]? = some t) : t.place.fits c.flockFlag :=
  h.fits t (List.mem_of_getElem? hi)

theorem fits_threadFunc (c : Config) (string : List Char) : (threadFunc c string).fits c.flockFlag := by
  rw [threadFunc]
  split_ifs with hf
  · exact hf
  · exact Bool.eq_false_of_not_eq_true hf

theorem threadFunc_ne_locked (c : Config) (string pointer : List Char) : threadFunc c string ≠ .locked pointer := by
  rw [threadFunc]
  split_ifs
  · exact Place.noConfusion
  · exact Place.noConfusion

theorem inv_turn (h : Inv c s) (ht : Turn c s t) : Inv c t := by
  cases ht with
  | @creates i string hi =>
    exact inv_set h hi (fun _ => Place.noConfusion) (threadFunc_ne_locked c string) (fits_threadFunc c string)
  | @announces i string hi ho =>
    have hf : c.flockFlag = true := fits_at h hi
    exact inv_set h hi (fun _ => Place.noConfusion) (fun _ => Place.noConfusion) hf
  | @locks i string hi ho =>
    have hf : c.flockFlag = true := fits_at h hi
    constructor
    case owner =>
      intro j hj
      cases hj
      exact ⟨string, string, List.getElem?_set_self (List.getElem?_eq_some_iff.mp hi).1⟩
    case locked =>
      intro j string' pointer hj
      obtain ⟨rfl, -⟩ | ⟨-, hj⟩ := getElem?_set_cases hj
      · rfl
      · rw [h.locked j string' pointer hj] at ho
        cases ho
    case fits => exact fits_set h hf
  | @puts i string ch pointer hi =>
    have ho := h.locked i string (ch :: pointer) hi
    have hf : c.flockFlag = true := fits_at h hi
    constructor
    case owner =>
      intro j hj
      rw [ho] at hj
      cases hj
      exact ⟨string, pointer, List.getElem?_set_self (List.getElem?_eq_some_iff.mp hi).1⟩
    case locked =>
      intro j string' pointer' hj
      obtain ⟨rfl, -⟩ | ⟨-, hj⟩ := getElem?_set_cases hj
      · exact ho
      · exact h.locked j string' pointer' hj
    case fits => exact fits_set h hf
  | @unlocks i string hi =>
    have ho := h.locked i string [] hi
    constructor
    case owner =>
      intro j hj
      cases hj
    case locked =>
      intro j string' pointer hj
      obtain ⟨-, hplace⟩ | ⟨hne, hj⟩ := getElem?_set_cases hj
      · cases hplace
      · have hj' := h.locked j string' pointer hj
        rw [ho] at hj'
        cases hj'
        exact absurd rfl hne
    case fits => exact fits_set h True.intro
  | @putchars i string ch pointer hi ho =>
    have hf : c.flockFlag = false := fits_at h hi
    exact inv_set h hi (fun _ => Place.noConfusion) (fun _ => Place.noConfusion) hf
  | @returns i string hi =>
    exact inv_set h hi (fun _ => Place.noConfusion) (fun _ => Place.noConfusion) True.intro

theorem inv_init (c : Config) : Inv c (init c) := by
  have hplace : ∀ t ∈ (init c).threads, t.place = .absent := by
    intro t ht
    obtain ⟨string, -, rfl⟩ := List.mem_map.mp ht
    rfl
  constructor
  case owner =>
    intro i hi
    cases hi
  case locked =>
    intro i string pointer hi
    cases hplace _ (List.mem_of_getElem? hi)
  case fits =>
    intro t ht
    rw [hplace t ht]
    exact True.intro

/-- What a step says to the outside: nothing, or that a thread begins to write its next piece. -/
inductive Emits (c : Config) (s t : State) : Prop
  | silent (hp : t.threads.map (Thread.pieces c) = s.threads.map (Thread.pieces c)) (hout : t.closed = s.closed)
  | piece (i : Nat) (piece : List Char) (pieces : List (List Char))
      (hi : (s.threads.map (Thread.pieces c))[i]? = some (piece :: pieces))
      (hp : t.threads.map (Thread.pieces c) = (s.threads.map (Thread.pieces c)).set i pieces)
      (hout : t.closed = s.closed ++ piece)

theorem closed_none (ho : s.owner = none) : s.closed = s.output := by
  rw [State.closed, ho]
  exact List.append_nil _

theorem closed_some {string pointer : List Char} (ho : s.owner = some i)
    (hi : s.threads[i]? = some ⟨string, .locked pointer⟩) : s.closed = s.output ++ pointer := by
  rw [State.closed, current, ho, Option.bind_some, hi]

/-- The owner is not concerned by the step of another thread. -/
theorem current_set {old new : Thread} (h : Inv c s) (hi : s.threads[i]? = some old)
    (hold : ∀ pointer, old.place ≠ .locked pointer) :
    current s.owner (s.threads.set i new) = current s.owner s.threads := by
  obtain ho | ⟨j, ho⟩ := Option.eq_none_or_eq_some s.owner
  · rw [ho]
    rfl
  · obtain ⟨string, pointer, hj⟩ := h.owner j ho
    have hij : i ≠ j := by
      intro hij
      subst hij
      rw [hi] at hj
      cases hj
      exact hold pointer rfl
    rw [ho, current, current, Option.bind_some, Option.bind_some, List.getElem?_set_ne hij]

theorem set_same {α : Type} {l : List α} {x : α} (h : l[i]? = some x) : l.set i x = l := by
  obtain ⟨hlt, rfl⟩ := List.getElem?_eq_some_iff.mp h
  exact List.set_getElem_self hlt

theorem pieces_at {old : Thread} (hi : s.threads[i]? = some old) :
    (s.threads.map (Thread.pieces c))[i]? = some (old.pieces c) := by
  rw [List.getElem?_map, hi, Option.map_some]

/-- A step that leaves the pieces of its thread alone. -/
theorem pieces_same {old new : Thread} (hi : s.threads[i]? = some old) (hp : new.pieces c = old.pieces c) :
    (s.threads.set i new).map (Thread.pieces c) = s.threads.map (Thread.pieces c) := by
  rw [List.map_set, hp]
  exact set_same (pieces_at hi)

theorem pieces_threadFunc (c : Config) (string : List Char) :
    (⟨string, threadFunc c string⟩ : Thread).pieces c = c.pieces string := by
  rw [threadFunc, Config.pieces]
  cases c.flockFlag with
  | true => rfl
  | false => rfl

theorem emits_turn (h : Inv c s) (ht : Turn c s t) : Emits c s t := by
  cases ht with
  | @creates i string hi =>
    apply Emits.silent
    · exact pieces_same hi (pieces_threadFunc c string)
    · rw [State.closed, current_set h hi fun _ => Place.noConfusion]
      rfl
  | @announces i string hi ho =>
    apply Emits.piece i (announcement string) [string] (pieces_at hi)
    · exact List.map_set
    · rw [closed_none ho, State.closed, ho]
      exact List.append_nil _
  | @locks i string hi ho =>
    apply Emits.piece i string [] (pieces_at hi)
    · exact List.map_set
    · rw [closed_none ho]
      exact closed_some rfl (List.getElem?_set_self (List.getElem?_eq_some_iff.mp hi).1)
  | @puts i string ch pointer hi =>
    have ho := h.locked i string (ch :: pointer) hi
    apply Emits.silent
    · exact pieces_same hi rfl
    · rw [closed_some ho hi, State.closed, ho, current, Option.bind_some,
        List.getElem?_set_self (List.getElem?_eq_some_iff.mp hi).1]
      exact (List.append_cons ..).symm
  | @unlocks i string hi =>
    apply Emits.silent
    · exact pieces_same hi rfl
    · rw [closed_some (h.locked i string [] hi) hi]
      rfl
  | @putchars i string ch pointer hi ho =>
    apply Emits.piece i [ch] (pointer.map (fun ch => [ch])) (pieces_at hi)
    · exact List.map_set
    · rw [closed_none ho, State.closed, ho]
      exact List.append_nil _
  | @returns i string hi =>
    apply Emits.silent
    · exact pieces_same hi rfl
    · rw [State.closed, current_set h hi fun _ => Place.noConfusion]
      rfl

theorem owner_of_allReturned (h : Inv c s) (hall : AllReturned s) : s.owner = none := by
  obtain ho | ⟨i, ho⟩ := Option.eq_none_or_eq_some s.owner
  · exact ho
  · obtain ⟨string, pointer, hi⟩ := h.owner i ho
    cases hall _ (List.mem_of_getElem? hi)

/-- What a run writes that comes to the end is an interleaving of the pieces that were left. -/
theorem output_of_run {as : List Action} (h : Inv c s) (hr : run (step c) s as = some t) (hall : AllReturned t) :
    ∃ w, Interleaving (s.threads.map (Thread.pieces c)) w ∧ t.output = s.closed ++ w.flatten := by
  induction as generalizing s with
  | nil =>
    cases hr
    refine ⟨[], .done ?_, ?_⟩
    · intro pieces hpieces
      obtain ⟨u, hu, rfl⟩ := List.mem_map.mp hpieces
      rw [Thread.pieces, hall u hu]
    · rw [closed_none (owner_of_allReturned h hall), List.flatten_nil, List.append_nil]
  | cons a as ih =>
    obtain ⟨u, hu, hr⟩ := run_cons.mp hr
    have hturn := turn_of_step hu
    obtain ⟨w, hw, hout⟩ := ih (inv_turn h hturn) hr
    cases emits_turn h hturn with
    | silent hp hsame =>
      rw [hp] at hw
      rw [hsame] at hout
      exact ⟨w, hw, hout⟩
    | piece i piece pieces hi hp hnew =>
      rw [hp] at hw
      rw [hnew, List.append_assoc, ← List.flatten_cons] at hout
      exact ⟨piece :: w, .take hi hw, hout⟩

end Turns

def Thread.rank (t : Thread) : Nat :=
  match t.place with
  | .absent => t.string.length + 4
  | .created => t.string.length + 3
  | .announced => t.string.length + 2
  | .locked pointer => pointer.length + 1
  | .unlocked pointer => pointer.length + 1
  | .returned => 0

/-- The steps that are left at most. -/
def State.rest (s : State) : Nat := (s.threads.map Thread.rank).sum

section Progress

variable {c : Config} {s t : State} {i : Nat}

theorem rank_threadFunc_lt (c : Config) (string : List Char) :
    (⟨string, threadFunc c string⟩ : Thread).rank < string.length + 4 := by
  rw [threadFunc]
  cases c.flockFlag with
  | true => exact Nat.lt_succ_self _
  | false => exact Nat.add_lt_add_left (by decide : 1 < 4) _

theorem rest_set {old new : Thread} (hi : s.threads[i]? = some old) (hlt : new.rank < old.rank) :
    ((s.threads.set i new).map Thread.rank).sum < s.rest := by
  have hset := sum_map_set Thread.rank hi new
  rw [State.rest]
  omega

theorem rest_turn (ht : Turn c s t) : t.rest < s.rest := by
  cases ht with
  | @creates i string hi => exact rest_set hi (rank_threadFunc_lt c string)
  | announces hi => exact rest_set hi (Nat.lt_succ_self _)
  | locks hi => exact rest_set hi (Nat.lt_succ_self _)
  | puts hi => exact rest_set hi (Nat.lt_succ_self _)
  | unlocks hi => exact rest_set hi (Nat.lt_succ_self _)
  | putchars hi => exact rest_set hi (Nat.lt_succ_self _)
  | returns hi => exact rest_set hi (Nat.lt_succ_self _)

theorem not_absent_of_stuck (hstuck : Stuck (step c) (fun _ => true) s) : ∀ t ∈ s.threads, t.place ≠ .absent := by
  have hindex : ∀ (i : Nat) (t : Thread), s.threads[i]? = some t → t.place ≠ .absent := by
    intro i
    induction i using Nat.strong_induction_on with
    | _ i ih =>
      intro t hi habs
      have hcreate := hstuck (.create i) rfl
      rw [step, hi, Option.bind_some, create, if_pos] at hcreate
      · cases hcreate
      · apply And.intro habs
        rw [List.all_eq_true]
        intro u hu
        obtain ⟨j, hj⟩ := List.mem_iff_getElem?.mp hu
        rw [List.getElem?_take] at hj
        split_ifs at hj with hji
        exact decide_eq_true (ih j hji u hj)
  intro t ht
  obtain ⟨i, hi⟩ := List.mem_iff_getElem?.mp ht
  exact hindex i t hi

theorem allReturned_of_stuck (h : Inv c s) (hstuck : Stuck (step c) (fun _ => true) s) : AllReturned s := by
  have hthread : ∀ (i : Nat) (t : Thread), s.threads[i]? = some t →
      (if c.flockFlag then lockRoutine s i t else unlockRoutine s i t) = none := by
    intro i t hi
    have hstep := hstuck (.thread i) rfl
    rwa [step, hi, Option.bind_some] at hstep
  have ho : s.owner = none := by
    obtain ho | ⟨i, ho⟩ := Option.eq_none_or_eq_some s.owner
    · exact ho
    · obtain ⟨string, pointer, hi⟩ := h.owner i ho
      have hnone := hthread i _ hi
      rw [if_pos (show c.flockFlag = true from fits_at h hi)] at hnone
      cases pointer with
      | nil => cases hnone
      | cons ch pointer => cases hnone
  intro t ht
  obtain ⟨i, hi⟩ := List.mem_iff_getElem?.mp ht
  have hnone := hthread i t hi
  have hfits := h.fits t ht
  obtain ⟨string, place⟩ := t
  cases place with
  | returned => rfl
  | absent => exact absurd rfl (not_absent_of_stuck hstuck _ ht)
  | created | announced =>
    rw [if_pos (show c.flockFlag = true from hfits)] at hnone
    simp only [lockRoutine, ho] at hnone
    cases hnone
  | locked pointer =>
    rw [h.locked i string pointer hi] at ho
    cases ho
  | unlocked pointer =>
    rw [show c.flockFlag = false from hfits, if_neg Bool.false_ne_true] at hnone
    simp only [unlockRoutine, ho] at hnone
    cases pointer with
    | nil => cases hnone
    | cons ch pointer => cases hnone

theorem completes_returned (c : Config) (h : Inv c s) :
    Completes (step c) (fun _ => true) AllReturned s s.rest 0 := by
  have hdescends : Descends (step c) (fun _ => true) (Inv c) 0 State.rest := by
    constructor
    case keep => exact fun s a t h hs => inv_turn h (turn_of_step hs)
    case down => exact fun s a t h hs _ => rest_turn (turn_of_step hs)
    case up => exact fun s a t h hs ha => Bool.noConfusion ha
  exact completes_of_descends hdescends (fun s h hstuck => allReturned_of_stuck h hstuck) h (Nat.le_refl _)

end Progress

/-- All threads have been created, and none of them has the lock. -/
structure Ready (c : Config) (s : State) : Prop where
  inv : Inv c s
  free : s.owner = none
  created : ∀ t ∈ s.threads, t.place ≠ .absent

section Schedules

variable {c : Config} {s : State} {i : Nat}

theorem ready_set {old new : Thread} {output : List Char} (h : Ready c s) (hi : s.threads[i]? = some old)
    (hlocked : ∀ pointer, new.place ≠ .locked pointer) (habs : new.place ≠ .absent)
    (hfits : new.place.fits c.flockFlag) :
    Ready c { s with threads := s.threads.set i new, output := output } := by
  constructor
  case inv =>
    apply inv_set h.inv hi _ hlocked hfits
    intro pointer hp
    obtain ⟨string, place⟩ := old
    cases hp
    have ho := h.inv.locked i string pointer hi
    rw [h.free] at ho
    cases ho
  case free => exact h.free
  case created =>
    intro t ht
    obtain ht | ht := List.mem_or_eq_of_mem_set ht
    · exact h.created t ht
    · subst ht
      exact habs

theorem step_lock {t : Thread} (hi : s.threads[i]? = some t) (hf : c.flockFlag = true) :
    step c s (.thread i) = lockRoutine s i t := by
  rw [step, hi, Option.bind_some, if_pos hf]

theorem step_unlock {t : Thread} (hi : s.threads[i]? = some t) (hf : c.flockFlag = false) :
    step c s (.thread i) = unlockRoutine s i t := by
  rw [step, hi, Option.bind_some, hf, if_neg Bool.false_ne_true]

/-- The owner of the lock writes the rest of its string and gives the lock back. -/
theorem run_block {string : List Char} (pointer : List Char) (hf : c.flockFlag = true)
    (hi : s.threads[i]? = some ⟨string, .locked pointer⟩) :
    ∃ as, run (step c) s as =
      some ⟨none, s.threads.set i ⟨string, .returned⟩, s.output ++ pointer⟩ := by
  induction pointer generalizing s with
  | nil =>
    apply Exists.intro [.thread i]
    rw [run_cons, List.append_nil]
    exact ⟨_, step_lock hi hf, rfl⟩
  | cons ch pointer ih =>
    have hself := List.getElem?_set_self (a := ⟨string, .locked pointer⟩) (List.getElem?_eq_some_iff.mp hi).1
    obtain ⟨as, has⟩ := ih (s := { s with
      threads := s.threads.set i ⟨string, .locked pointer⟩
      output := s.output ++ [ch] }) hself
    apply Exists.intro (.thread i :: as)
    rw [run_cons]
    refine ⟨_, step_lock hi hf, ?_⟩
    rw [has, List.set_set, List.append_assoc, List.singleton_append]

/-- A thread that is to write a piece can do so at once. -/
theorem run_piece {piece : List Char} {pieces : List (List Char)} (h : Ready c s)
    (hp : (s.threads.map (Thread.pieces c))[i]? = some (piece :: pieces)) :
    ∃ as t, run (step c) s as = some t ∧ Ready c t ∧ t.output = s.output ++ piece ∧
      t.threads.map (Thread.pieces c) = (s.threads.map (Thread.pieces c)).set i pieces := by
  rw [List.getElem?_map] at hp
  obtain ⟨⟨string, place⟩, hi, hpieces⟩ := Option.map_eq_some_iff.mp hp
  have hfits := fits_at h.inv hi
  have ho := h.free
  cases place with
  | absent => exact absurd rfl (h.created _ (List.mem_of_getElem? hi))
  | locked | returned => cases hpieces
  | created =>
    have hf : c.flockFlag = true := hfits
    cases hpieces
    have hstep := (step_lock hi hf).trans (if_pos ho)
    refine ⟨[.thread i], _, run_cons.mpr ⟨_, hstep, rfl⟩, ?_, rfl, List.map_set⟩
    exact ready_set h hi (fun _ => Place.noConfusion) Place.noConfusion hf
  | announced =>
    have hf : c.flockFlag = true := hfits
    cases hpieces
    have hself := List.getElem?_set_self (a := ⟨string, .locked string⟩) (List.getElem?_eq_some_iff.mp hi).1
    obtain ⟨as, has⟩ := run_block (s := { s with
      owner := some i
      threads := s.threads.set i ⟨string, .locked string⟩ }) string hf hself
    rw [List.set_set] at has
    have hready : Ready c { s with
        threads := s.threads.set i ⟨string, .returned⟩
        output := s.output ++ string } :=
      ready_set h hi (fun _ => Place.noConfusion) Place.noConfusion True.intro
    refine ⟨.thread i :: as, _, ?_, hready, ?_, List.map_set⟩
    · rw [run_cons]
      refine ⟨_, (step_lock hi hf).trans (if_pos ho), ?_⟩
      rw [has, ho]
    · rfl
  | unlocked pointer =>
    have hf : c.flockFlag = false := hfits
    cases pointer with
    | nil => cases hpieces
    | cons ch pointer =>
      cases hpieces
      have hstep := (step_unlock hi hf).trans (if_pos ho)
      refine ⟨[.thread i], _, run_cons.mpr ⟨_, hstep, rfl⟩, ?_, rfl, List.map_set⟩
      exact ready_set h hi (fun _ => Place.noConfusion) Place.noConfusion hf

/-- Every interleaving of the pieces can be written. -/
theorem run_of_interleaving {w : List (List Char)} (h : Ready c s)
    (hw : Interleaving (s.threads.map (Thread.pieces c)) w) :
    ∃ as t, run (step c) s as = some t ∧ AllReturned t ∧ t.output = s.output ++ w.flatten := by
  generalize hls : s.threads.map (Thread.pieces c) = ls at hw
  induction hw generalizing s with
  | done hnil =>
    obtain ⟨as, t, -, ht, hstuck⟩ := (completes_returned c h.inv).ends [] s rfl
    have hinv := run_invariant (Inv c) (fun s a t h hs => inv_turn h (turn_of_step hs)) h.inv ht
    have hall := allReturned_of_stuck hinv hstuck
    obtain ⟨w, hw, hout⟩ := output_of_run h.inv ht hall
    rw [hls] at hw
    rw [hw.nil_of_empty hnil, closed_none h.free] at hout
    exact ⟨as, t, ht, hall, hout⟩
  | take hi hw ih =>
    rw [← hls] at hi
    obtain ⟨as, t, ht, hready, hout, hpieces⟩ := run_piece h hi
    rw [hls] at hpieces
    obtain ⟨bs, u, hu, hall, hrest⟩ := ih hready hpieces
    refine ⟨as ++ bs, u, run_append.mpr ⟨t, ht, hu⟩, hall, ?_⟩
    rw [hrest, hout, List.flatten_cons, List.append_assoc]

/-- `main` can create all threads before one of them does anything. -/
theorem run_creates (c : Config) (k : Nat) (hk : k ≤ c.strings.length) :
    ∃ s, run (step c) (init c) ((List.range k).map .create) = some s ∧ Inv c s ∧ s.owner = none ∧ s.output = [] ∧
      s.threads.map (Thread.pieces c) = c.strings.map c.pieces ∧
      ∀ (j : Nat) (t : Thread), s.threads[j]? = some t → (t.place = .absent ↔ k ≤ j) := by
  induction k with
  | zero =>
    refine ⟨init c, rfl, inv_init c, rfl, rfl, ?_, ?_⟩
    · rw [init, List.map_map]
      rfl
    · intro j t hj
      obtain ⟨string, -, rfl⟩ := List.mem_map.mp (List.mem_of_getElem? hj)
      exact ⟨fun _ => Nat.zero_le j, fun _ => rfl⟩
  | succ k ih =>
    obtain ⟨s, hs, hinv, ho, hout, hpieces, habs⟩ := ih (Nat.le_of_succ_le hk)
    have hlen : k < s.threads.length := by
      have hlength := congrArg List.length hpieces
      rw [List.length_map, List.length_map] at hlength
      omega
    have hi := List.getElem?_eq_getElem hlen
    generalize s.threads[k] = t at hi
    obtain ⟨string, place⟩ := t
    have hplace : place = .absent := (habs k _ hi).mpr (Nat.le_refl k)
    subst hplace
    have hstep : step c s (.create k) =
        some { s with threads := s.threads.set k ⟨string, threadFunc c string⟩ } := by
      rw [step, hi, Option.bind_some, create, if_pos]
      apply And.intro rfl
      rw [List.all_eq_true]
      intro u hu
      obtain ⟨j, hj⟩ := List.mem_iff_getElem?.mp hu
      rw [List.getElem?_take] at hj
      split_ifs at hj with hjk
      apply decide_eq_true
      intro hu
      have hkj := (habs j u hj).mp hu
      omega
    refine ⟨_, ?_, inv_turn hinv (turn_of_step hstep), ho, hout, ?_, ?_⟩
    · rw [List.range_succ, List.map_append, run_append]
      exact ⟨s, hs, run_cons.mpr ⟨_, hstep, rfl⟩⟩
    · rw [← hpieces]
      exact pieces_same hi (pieces_threadFunc c string)
    · intro j t hj
      obtain ⟨rfl, rfl⟩ | ⟨hne, hj⟩ := getElem?_set_cases hj
      · have hpresent : threadFunc c string ≠ .absent := by
          rw [threadFunc]
          split_ifs
          · exact Place.noConfusion
          · exact Place.noConfusion
        exact ⟨fun h => absurd h hpresent, fun h => absurd h (Nat.not_succ_le_self j)⟩
      · rw [habs j t hj]
        omega

end Schedules

/-- The program ends under every schedule, and what it can write is exactly what can be put together from the
pieces: with the lock these are whole strings (and the lines that announce them), without it single characters. -/
theorem putchar_outputs (c : Config) :
    Completes (step c) (fun _ => true) AllReturned (init c)
        ((c.strings.map (fun string => string.length + 4)).sum) 0 ∧
      ∀ output, (∃ as t, run (step c) (init c) as = some t ∧ AllReturned t ∧ t.output = output) ↔
        ∃ w, Interleaving (c.strings.map c.pieces) w ∧ output = w.flatten := by
  constructor
  · have hrest : (init c).rest = (c.strings.map (fun string => string.length + 4)).sum := by
      rw [State.rest, init, List.map_map]
      rfl
    rw [← hrest]
    exact completes_returned c (inv_init c)
  · intro output
    obtain ⟨s, hs, hinv, ho, hout, hpieces, habs⟩ := run_creates c c.strings.length (Nat.le_refl _)
    constructor
    · rintro ⟨as, t, ht, hall, rfl⟩
      obtain ⟨w, hw, hwrite⟩ := output_of_run (inv_init c) ht hall
      refine ⟨w, ?_, hwrite⟩
      rw [init, List.map_map] at hw
      exact hw
    · rintro ⟨w, hw, rfl⟩
      have hready : Ready c s := by
        refine ⟨hinv, ho, ?_⟩
        intro t ht habsent
        obtain ⟨j, hj⟩ := List.mem_iff_getElem?.mp ht
        have hle := (habs j t hj).mp habsent
        have hlength := congrArg List.length hpieces
        rw [List.length_map, List.length_map] at hlength
        have hlt := (List.getElem?_eq_some_iff.mp hj).1
        omega
      rw [← hpieces] at hw
      obtain ⟨as, t, ht, hall, hwrite⟩ := run_of_interleaving hready hw
      refine ⟨_ ++ as, t, run_append.mpr ⟨s, hs, ht⟩, hall, ?_⟩
      rw [hwrite, hout, List.nil_append]

end C11AndC.Putchar
