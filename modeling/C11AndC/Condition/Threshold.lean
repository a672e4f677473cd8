import C11AndC.Condition.Model
import C11AndC.Library.Lists
import C11AndC.Library.Progress

namespace C11AndC.Condition

open C11AndC.Library

/-- The steps that the threads take by themselves. -/
def isWork : Action → Bool
  | .wake => false
  | _ => true

def Line.isReceived : Line → Bool
  | .received _ => true
  | _ => false

def Line.isThreshold : Line → Bool
  | .thresholdReached _ => true
  | _ => false

def Line.final? : Line → Option Nat
  | .final count => some count
  | _ => none

/-- How often the watcher has come out of its wait. -/
def received (s : State) : Nat := s.printed.countP Line.isReceived

/-- How often the watcher has been signaled. -/
def thresholds (s : State) : Nat := s.printed.countP Line.isThreshold

def finals (s : State) : List Nat := s.printed.filterMap Line.final?

/-- All rounds have been made, and `count` has been raised beside them once for each end of the wait. The
watcher has ended if `count` has come to the limit and else waits for ever, and `main` with it. -/
structure Ended (c : Config) (s : State) : Prop where
  rounds : s.rounds = List.replicate c.incThreads c.tcount
  counted : s.count = c.incThreads * c.tcount + 125 * received s
  few : 125 * received s < c.countLimit + 125
  once : thresholds s ≤ 1
  outcome : (c.countLimit ≤ s.count ∧ s.watcher = .exited ∧ finals s = [s.count]) ∨
    (s.count < c.countLimit ∧ s.watcher = .waiting ∧ finals s = [])

/-- How the counter comes about. -/
structure Sums (c : Config) (s : State) : Prop where
  counted : s.count = s.rounds.sum + 125 * received s
  few : 125 * received s < c.countLimit + 125
  below : s.count < c.countLimit → thresholds s = 0
  once : thresholds s ≤ 1

/-- No signal is lost: the watcher waits below the limit only. -/
structure Watches (c : Config) (s : State) : Prop where
  waiting : s.watcher = .waiting → s.count < c.countLimit
  waited : s.watcher = .waiting ∨ s.watcher = .woken → 125 * received s < c.countLimit
  exited : s.watcher = .exited → c.countLimit ≤ s.count

/-- How far `main` is. -/
structure Joins (c : Config) (s : State) : Prop where
  size : s.rounds.length = c.incThreads
  rounds : ∀ round ∈ s.rounds, round ≤ c.tcount
  joined : s.joined ≤ c.incThreads + 2
  watched : 0 < s.joined → s.watcher = .exited
  ended : ∀ i, i + 1 < s.joined → i < c.incThreads → s.rounds[i]? = some c.tcount
  final : finals s = if s.joined = c.incThreads + 2 then [s.count] else []

structure Inv (c : Config) (s : State) : Prop where
  sums : Sums c s
  watches : Watches c s
  joins : Joins c s

def Watcher.rank : Watcher → Nat
  | .starting => 1
  | .woken => 1
  | .waiting => 0
  | .exited => 0

/-- The steps that are left at most. -/
def State.rest (c : Config) (s : State) : Nat :=
  2 * (s.rounds.map (fun round => c.tcount - round)).sum + s.watcher.rank + (c.incThreads + 2 - s.joined)

section Parts

variable {c : Config} {s : State} {i round : Nat}

theorem count_incCount : (incCount c s i round).count = s.count + 1 := by
  simp only [incCount]
  split_ifs
  · rfl
  · rfl

theorem rounds_incCount : (incCount c s i round).rounds = s.rounds.set i (round + 1) := by
  simp only [incCount]
  split_ifs
  · rfl
  · rfl

theorem joined_incCount : (incCount c s i round).joined = s.joined := by
  simp only [incCount]
  split_ifs
  · rfl
  · rfl

theorem watcher_incCount : (incCount c s i round).watcher =
    if s.count + 1 = c.countLimit then s.watcher.signal else s.watcher := by
  simp only [incCount]
  split_ifs
  · rfl
  · rfl

theorem received_incCount : received (incCount c s i round) = received s := by
  simp only [incCount]
  split_ifs
  · simp [received, Line.isReceived]
  · simp [received, Line.isReceived]

theorem thresholds_incCount : thresholds (incCount c s i round) =
    if s.count + 1 = c.countLimit then thresholds s + 1 else thresholds s := by
  simp only [incCount]
  split_ifs
  · simp [thresholds, Line.isThreshold, List.countP_cons]
  · simp [thresholds, Line.isThreshold]

theorem finals_incCount : finals (incCount c s i round) = finals s := by
  simp only [incCount]
  split_ifs
  · simp [finals, Line.final?]
  · simp [finals, Line.final?]

/-- What is left alone where the watcher tests the counter. -/
theorem testCount_frame (c : Config) (s : State) :
    (testCount c s).count = s.count ∧ (testCount c s).rounds = s.rounds ∧
    (testCount c s).joined = s.joined ∧ received (testCount c s) = received s ∧
    thresholds (testCount c s) = thresholds s ∧ finals (testCount c s) = finals s := by
  simp only [testCount]
  split_ifs
  · simp [received, thresholds, finals, Line.isReceived, Line.isThreshold, Line.final?]
  · simp [received, thresholds, finals, Line.isReceived, Line.isThreshold, Line.final?]

theorem watcher_testCount : (testCount c s).watcher = if s.count < c.countLimit then .waiting else .exited := by
  simp only [testCount]
  split_ifs
  · rfl
  · rfl

theorem sum_set {l : List Nat} {x : Nat} (h : l[i]? = some x) : (l.set i (x + 1)).sum = l.sum + 1 := by
  have hset := sum_map_set id h (x + 1)
  rw [List.map_id, List.map_id, id, id] at hset
  omega

end Parts

section Moves

variable {c : Config} {s t : State} {a : Action} {i round : Nat}

theorem inv_init (c : Config) : Inv c (init c) := by
  constructor
  case sums =>
    constructor
    · simp [init, received]
    · exact Nat.lt_of_lt_of_le (by decide : 0 < 125) (Nat.le_add_left _ _)
    · exact fun _ => rfl
    · exact Nat.zero_le 1
  case watches =>
    constructor
    · exact fun h => Watcher.noConfusion h
    · exact fun h => h.elim (fun h => Watcher.noConfusion h) (fun h => Watcher.noConfusion h)
    · exact fun h => Watcher.noConfusion h
  case joins =>
    constructor
    · exact List.length_replicate
    · intro round hround
      rw [List.eq_of_mem_replicate hround]
      exact Nat.zero_le _
    · exact Nat.zero_le _
    · exact fun h => absurd h (Nat.lt_irrefl 0)
    · exact fun i h => absurd h (Nat.not_lt_zero _)
    · exact (if_neg (Nat.succ_ne_zero _).symm).symm

/-- While a thread has rounds to make, `main` has not joined it. -/
theorem joined_le (h : Joins c s) (hi : s.rounds[i]? = some round) (hlt : round < c.tcount) :
    i < c.incThreads ∧ s.joined ≤ i + 1 := by
  have hlen : i < c.incThreads := h.size ▸ (List.getElem?_eq_some_iff.mp hi).1
  apply And.intro hlen
  by_contra hgt
  have hended := h.ended i (by omega) hlen
  rw [hi] at hended
  cases hended
  exact absurd hlt (Nat.lt_irrefl _)

theorem signal_ne_waiting (watcher : Watcher) : watcher.signal ≠ .waiting := by
  cases watcher with
  | starting | waiting | woken | exited => exact Watcher.noConfusion

theorem signal_exited {watcher : Watcher} (h : watcher.signal = .exited) : watcher = .exited := by
  cases watcher with
  | waiting => cases h
  | starting | woken | exited => exact h

theorem signal_waits {watcher : Watcher} (h : watcher.signal = .woken) : watcher = .waiting ∨ watcher = .woken := by
  cases watcher with
  | waiting => exact .inl rfl
  | starting | woken | exited => exact .inr h

theorem inv_inc (h : Inv c s) (hi : s.rounds[i]? = some round) (hlt : round < c.tcount) :
    Inv c (incCount c s i round) := by
  obtain ⟨hlen, hjoined⟩ := joined_le h.joins hi hlt
  constructor
  case sums =>
    have hcounted := h.sums.counted
    have hbelow := h.sums.below
    have honce := h.sums.once
    constructor
    · rw [count_incCount, rounds_incCount, received_incCount, sum_set hi]
      omega
    · rw [received_incCount]
      exact h.sums.few
    · intro hb
      rw [count_incCount] at hb
      rw [thresholds_incCount, if_neg (by omega)]
      exact hbelow (by omega)
    · rw [thresholds_incCount]
      split_ifs with hlimit
      · rw [hbelow (by omega)]
      · exact honce
  case watches =>
    constructor
    · intro hw
      rw [watcher_incCount] at hw
      rw [count_incCount]
      split_ifs at hw with hlimit
      · exact absurd hw (signal_ne_waiting _)
      · have hwaiting := h.watches.waiting hw
        omega
    · intro hw
      rw [watcher_incCount] at hw
      rw [received_incCount]
      apply h.watches.waited
      split_ifs at hw with hlimit
      · exact signal_waits (hw.resolve_left (signal_ne_waiting _))
      · exact hw
    · intro hw
      rw [watcher_incCount] at hw
      rw [count_incCount]
      have hexited : s.watcher = .exited := by
        split_ifs at hw with hlimit
        · exact signal_exited hw
        · exact hw
      exact Nat.le_succ_of_le (h.watches.exited hexited)
  case joins =>
    constructor
    · rw [rounds_incCount, List.length_set]
      exact h.joins.size
    · intro r hr
      rw [rounds_incCount] at hr
      obtain hr | hr := List.mem_or_eq_of_mem_set hr
      · exact h.joins.rounds r hr
      · rw [hr]
        exact hlt
    · rw [joined_incCount]
      exact h.joins.joined
    · intro hj
      rw [joined_incCount] at hj
      have hexited := h.joins.watched hj
      rw [watcher_incCount, hexited]
      exact ite_self _
    · intro j hj hjn
      rw [joined_incCount] at hj
      rw [rounds_incCount, List.getElem?_set_ne (by omega)]
      exact h.joins.ended j hj hjn
    · have hfinal := h.joins.final
      rw [if_neg (by omega)] at hfinal
      rw [finals_incCount, joined_incCount, if_neg (by omega)]
      exact hfinal

/-- The test after the lock or after a wait. -/
theorem inv_test (h : Sums c s) (hj : Joins c s) (hz : s.joined = 0) : Inv c (testCount c s) := by
  obtain ⟨hcount, hrounds, hjoined, hreceived, hthresholds, hfinals⟩ := testCount_frame c s
  have hcounted := h.counted
  constructor
  case sums =>
    constructor
    · rw [hcount, hrounds, hreceived]
      exact hcounted
    · rw [hreceived]
      exact h.few
    · rw [hcount, hthresholds]
      exact h.below
    · rw [hthresholds]
      exact h.once
  case watches =>
    constructor
    · intro hw
      rw [watcher_testCount] at hw
      rw [hcount]
      split_ifs at hw with hlt
      exact hlt
    · intro hw
      rw [watcher_testCount] at hw
      rw [hreceived]
      split_ifs at hw with hlt
      · omega
      · exact hw.elim False.elim False.elim
    · intro hw
      rw [watcher_testCount] at hw
      rw [hcount]
      split_ifs at hw with hlt
      exact Nat.le_of_not_lt hlt
  case joins =>
    constructor
    · rw [hrounds]
      exact hj.size
    · rw [hrounds]
      exact hj.rounds
    · rw [hjoined]
      exact hj.joined
    · intro hpos
      rw [hjoined, hz] at hpos
      exact absurd hpos (Nat.lt_irrefl 0)
    · rw [hrounds, hjoined]
      exact hj.ended
    · rw [hfinals, hjoined, hcount]
      exact hj.final

theorem joined_zero (h : Joins c s) (hw : s.watcher ≠ .exited) : s.joined = 0 := by
  by_contra hpos
  exact hw (h.watched (Nat.pos_of_ne_zero hpos))

theorem inv_watch (h : Inv c s) (hs : watchCount c s = some t) : Inv c t := by
  cases hw : s.watcher with
  | waiting | exited =>
    rw [watchCount, hw] at hs
    cases hs
  | starting =>
    rw [watchCount, hw] at hs
    cases hs
    exact inv_test h.sums h.joins (joined_zero h.joins (by rw [hw]; exact Watcher.noConfusion))
  | woken =>
    rw [watchCount, hw] at hs
    cases hs
    have hz := joined_zero h.joins (by rw [hw]; exact Watcher.noConfusion)
    have hcounted := h.sums.counted
    have hwaited := h.watches.waited (.inr hw)
    apply inv_test
    · constructor
      · simp only [received, List.countP_append, List.countP_cons, Line.isReceived] at hcounted ⊢
        simp only [List.countP_nil, Bool.false_eq_true, ↓reduceIte]
        omega
      · simp only [received, List.countP_append, List.countP_cons, Line.isReceived] at hwaited ⊢
        simp only [List.countP_nil, Bool.false_eq_true, ↓reduceIte]
        omega
      · intro hlt
        have hbelow := h.sums.below (by simp only at hlt; omega)
        simpa [thresholds, Line.isThreshold] using hbelow
      · simpa [thresholds, Line.isThreshold] using h.sums.once
    · have hfinal := h.joins.final
      rw [if_neg (by omega)] at hfinal
      constructor
      · exact h.joins.size
      · exact h.joins.rounds
      · exact h.joins.joined
      · exact fun hpos => absurd hz (Nat.ne_of_gt hpos)
      · exact h.joins.ended
      · rw [if_neg (by simp only; omega)]
        simpa [finals, Line.final?] using hfinal
    · exact hz

theorem ended_iff (s : State) : ended c s = true ↔
    (s.joined = 0 → s.watcher = .exited) ∧ ∀ i, s.joined = i + 1 → s.rounds[i]? = some c.tcount := by
  cases hj : s.joined with
  | zero => simp [ended, hj]
  | succ i => simp [ended, hj]

theorem inv_join (h : Inv c s) (hs : step c s .join = some t) : Inv c t := by
  simp only [step] at hs
  split_ifs at hs with hjoin hlast
  · cases hs
    obtain ⟨hwatch, hround⟩ := (ended_iff s).mp hjoin.2
    have hfinal := h.joins.final
    rw [if_neg (by omega)] at hfinal
    constructor
    case sums => exact ⟨h.sums.counted, h.sums.few, h.sums.below, h.sums.once⟩
    case watches => exact ⟨h.watches.waiting, h.watches.waited, h.watches.exited⟩
    case joins =>
      constructor
      · exact h.joins.size
      · exact h.joins.rounds
      · exact Nat.succ_le_succ (Nat.le_succ_of_le hjoin.1)
      · intro _
        by_cases hz : s.joined = 0
        · exact hwatch hz
        · exact h.joins.watched (Nat.pos_of_ne_zero hz)
      · intro i hi hin
        obtain hlt | heq := Nat.lt_or_eq_of_le (Nat.le_of_lt_succ hi)
        · exact h.joins.ended i hlt hin
        · exact hround i heq.symm
      · rw [if_neg (by simp only; omega)]
        exact hfinal
  · cases hs
    have hfinal := h.joins.final
    rw [if_neg (by omega)] at hfinal
    constructor
    case sums =>
      have hcounted := h.sums.counted
      have hfew := h.sums.few
      have hbelow := h.sums.below
      have honce := h.sums.once
      constructor
      · simpa [received, Line.isReceived] using hcounted
      · simpa [received, Line.isReceived] using hfew
      · simpa [thresholds, Line.isThreshold] using hbelow
      · simpa [thresholds, Line.isThreshold] using honce
    case watches =>
      have hwaited := h.watches.waited
      constructor
      · exact h.watches.waiting
      · simpa [received, Line.isReceived] using hwaited
      · exact h.watches.exited
    case joins =>
      constructor
      · exact h.joins.size
      · exact h.joins.rounds
      · exact Nat.le_of_eq (congrArg (· + 1) hlast)
      · exact fun _ => h.joins.watched (by omega)
      · exact fun i _ hin => h.joins.ended i (by omega) hin
      · rw [if_pos (by simp only; omega)]
        simp only [finals] at hfinal
        simp [finals, Line.final?, List.filterMap_append, hfinal]

theorem inv_step (h : Inv c s) (hs : step c s a = some t) : Inv c t := by
  cases a with
  | inc i =>
    simp only [step] at hs
    split at hs
    · rename_i round hi
      split_ifs at hs with hlt
      cases hs
      exact inv_inc h hi hlt
    · cases hs
  | watch => exact inv_watch h hs
  | join => exact inv_join h hs
  | wake =>
    cases hw : s.watcher with
    | starting | woken | exited =>
      simp only [step, hw] at hs
      cases hs
    | waiting =>
      simp only [step, hw] at hs
      cases hs
      constructor
      · exact ⟨h.sums.counted, h.sums.few, h.sums.below, h.sums.once⟩
      · constructor
        · exact fun h => Watcher.noConfusion h
        · exact fun _ => h.watches.waited (.inl hw)
        · exact fun h => Watcher.noConfusion h
      · constructor
        · exact h.joins.size
        · exact h.joins.rounds
        · exact h.joins.joined
        · intro hpos
          have hexited := h.joins.watched hpos
          rw [hw] at hexited
          cases hexited
        · exact h.joins.ended
        · exact h.joins.final

theorem rank_signal_le (watcher : Watcher) : watcher.signal.rank ≤ watcher.rank + 1 := by
  cases watcher with
  | waiting => exact Nat.le_refl 1
  | starting | woken | exited => exact Nat.le_add_right _ 1

theorem rest_work (ha : isWork a = true) (hs : step c s a = some t) : t.rest c < s.rest c := by
  cases a with
  | wake => cases ha
  | inc i =>
    simp only [step] at hs
    split at hs
    · rename_i round hi
      split_ifs at hs with hlt
      cases hs
      have hsum := sum_map_set (fun round => c.tcount - round) hi (round + 1)
      have hsignal := rank_signal_le s.watcher
      rw [State.rest, State.rest, rounds_incCount, joined_incCount, watcher_incCount]
      split_ifs
      · omega
      · omega
    · cases hs
  | watch =>
    have htest : ∀ u : State, u.rounds = s.rounds → u.joined = s.joined → s.watcher.rank = 1 →
        (testCount c u).rest c < s.rest c := by
      intro u hrounds hjoined hrank
      obtain ⟨-, hr, hj, -⟩ := testCount_frame c u
      have hzero : (testCount c u).watcher.rank = 0 := by
        rw [watcher_testCount]
        split_ifs
        · rfl
        · rfl
      rw [State.rest, State.rest, hr, hj, hrounds, hjoined, hzero, hrank]
      omega
    cases hw : s.watcher with
    | waiting | exited =>
      simp only [step, watchCount, hw] at hs
      cases hs
    | starting | woken =>
      simp only [step, watchCount, hw] at hs
      cases hs
      exact htest _ rfl rfl (by rw [hw, Watcher.rank])
  | join =>
    simp only [step] at hs
    split_ifs at hs with hjoin hlast
    all_goals
      cases hs
      simp only [State.rest]
      omega

theorem rest_wake (hs : step c s .wake = some t) : t.rest c ≤ s.rest c + 1 := by
  cases hw : s.watcher with
  | starting | woken | exited =>
    simp only [step, hw] at hs
    cases hs
  | waiting =>
    simp only [step, hw] at hs
    cases hs
    simp only [State.rest, hw, Watcher.rank]
    omega

theorem rest_init_le (c : Config) : (init c).rest c ≤ 2 * (c.incThreads * c.tcount) + c.incThreads + 3 := by
  rw [State.rest, init, List.map_replicate, List.sum_replicate_nat]
  simp only [Nat.sub_zero, Watcher.rank]
  omega

theorem ended_of_stuck (h : Inv c s) (hstuck : Stuck (step c) isWork s) : Ended c s := by
  have hrounds : s.rounds = List.replicate c.incThreads c.tcount := by
    apply List.eq_replicate_iff.mpr
    apply And.intro h.joins.size
    intro round hround
    obtain ⟨i, hi⟩ := List.mem_iff_getElem?.mp hround
    have hinc := hstuck (.inc i) rfl
    simp only [step, hi] at hinc
    split_ifs at hinc with hlt
    exact Nat.le_antisymm (h.joins.rounds round hround) (Nat.le_of_not_lt hlt)
  have hcounted := h.sums.counted
  rw [hrounds, List.sum_replicate_nat] at hcounted
  have hjoin := hstuck .join rfl
  simp only [step] at hjoin
  split_ifs at hjoin with hjoined hlast
  have hwatch := hstuck .watch rfl
  constructor
  case rounds => exact hrounds
  case counted => exact hcounted
  case few => exact h.sums.few
  case once => exact h.sums.once
  case outcome =>
    cases hw : s.watcher with
    | starting | woken =>
      simp only [step, watchCount, hw] at hwatch
      cases hwatch
    | waiting =>
      have hfinal := h.joins.final
      rw [joined_zero h.joins (by rw [hw]; exact Watcher.noConfusion), if_neg (by omega)] at hfinal
      exact .inr ⟨h.watches.waiting hw, rfl, hfinal⟩
    | exited =>
      left
      have hall : s.joined = c.incThreads + 2 := by
        have hle := h.joins.joined
        by_contra hne
        apply hjoined
        apply And.intro (by omega)
        rw [ended_iff]
        apply And.intro (fun _ => hw)
        intro i hi
        rw [hrounds, List.getElem?_replicate, if_pos (by omega)]
      have hfinal := h.joins.final
      rw [if_pos hall] at hfinal
      exact ⟨h.watches.exited hw, rfl, hfinal⟩

/-- With the numbers of the source `main` prints 20, or 145 where the watcher had to wait. -/
theorem condvar_prints (h : Ended condvar s) : finals s = [20] ∨ finals s = [145] := by
  have hcounted : s.count = 20 + 125 * received s := h.counted
  have hfew : 125 * received s < 137 := h.few
  obtain ⟨-, -, hfinals⟩ | ⟨hlt, -⟩ := h.outcome
  · have hone : received s = 0 ∨ received s = 1 := by omega
    rw [hfinals, hcounted]
    obtain hzero | hone := hone
    · left
      rw [hzero]
    · right
      rw [hone]
  · have hlt' : s.count < 12 := hlt
    omega

end Moves

/-- Whatever turns the threads take they come to an end. The threshold is signaled once at most, and the
watcher cannot miss it: it is left waiting only if all increments together do not reach the limit. -/
theorem condvar_ends (c : Config) : Completes (step c) isWork (Ended c) (init c)
    (2 * (c.incThreads * c.tcount) + c.incThreads + 3) 1 := by
  have hdescends : Descends (step c) isWork (Inv c) 1 (State.rest c) := by
    constructor
    case keep => exact fun s a t h hs => inv_step h hs
    case down => exact fun s a t _ hs ha => rest_work ha hs
    case up =>
      intro s a t h hs ha
      cases a with
      | inc | watch | join => cases ha
      | wake => exact rest_wake hs
  exact completes_of_descends hdescends (fun s h hstuck => ended_of_stuck h hstuck) (inv_init c) (rest_init_le c)

end C11AndC.Condition
