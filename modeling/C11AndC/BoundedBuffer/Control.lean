import C11AndC.BoundedBuffer.Model
import Mathlib.Tactic.SplitIfs

namespace C11AndC.BoundedBuffer

open C11AndC.Library

/-- The locations inside of a critical section. -/
def Location.holds : Location → Bool
  | .test | .unlock | .count | .wake | .leave => true
  | _ => false

/-- The locations behind the test for the wait, where the thread has not counted yet. -/
def Location.permitted : Location → Bool
  | .woken | .unlock | .slot | .print | .relock | .count => true
  | _ => false

/-- The rounds of the thread that `numUsedBytes` takes into account. -/
def Thread.counted (t : Thread) : Nat :=
  match t.location with
  | .wake | .leave => t.index + 1
  | _ => t.index

/-- The value of `numUsedBytes` for which a thread waits. -/
def blocked (cfg : Config) : Party → Int
  | .producer => cfg.bufferSize
  | .consumer => 0

def change : Party → Int
  | .producer => 1
  | .consumer => -1

/-- What links the counter, the mutex and the places of the threads. -/
structure Control (cfg : Config) (s : State) : Prop where
  mutex : ∀ p, s.mutex = some p ↔ (s.threads p).location.holds = true
  used : s.numUsedBytes = (s.threads .producer).counted - (s.threads .consumer).counted
  low : 0 ≤ s.numUsedBytes
  high : s.numUsedBytes ≤ cfg.bufferSize
  permit : ∀ p, (s.threads p).location.permitted = true → s.numUsedBytes ≠ blocked cfg p
  waits : ∀ p, (s.threads p).location = .waiting →
    s.numUsedBytes = blocked cfg p ∨ (s.threads p.other).location = .wake
  fresh : ∀ p, (s.threads p).location = .wake → s.numUsedBytes ≠ blocked cfg p.other
  bound : ∀ p, (s.threads p).location = .finished ↔ cfg.dataSize ≤ (s.threads p).index

section Moves

variable {cfg : Config} {s t : State} {p q : Party} {l : Location} {th : Thread}

theorem other_ne (p : Party) : p.other ≠ p := by cases p <;> decide

theorem eq_or_other (p q : Party) : q = p ∨ q = p.other := by cases p <;> cases q <;> decide

theorem other_other (p : Party) : p.other.other = p := by cases p <;> rfl

@[simp] theorem put_self : (s.put p th).threads p = th := Function.update_self ..

@[simp] theorem put_other : (s.put p th).threads p.other = s.threads p.other :=
  Function.update_of_ne (other_ne p) ..

@[simp] theorem goto_self : (s.goto p l).threads p = ⟨l, (s.threads p).index⟩ := put_self

@[simp] theorem goto_other : (s.goto p l).threads p.other = s.threads p.other := put_other

@[simp] theorem goto_mutex : (s.goto p l).mutex = s.mutex := rfl

@[simp] theorem goto_used : (s.goto p l).numUsedBytes = s.numUsedBytes := rfl

/-- The counter, seen from the thread `p`. -/
theorem used_iff (p : Party) (u : Int) :
    u = (s.threads .producer).counted - (s.threads .consumer).counted ↔
      (s.threads p).counted = (s.threads p.other).counted + change p * u := by
  cases p with
  | producer | consumer =>
    simp only [change, Party.other]
    omega

/-- A move of `p` that leaves the counter and the other thread alone. -/
structure Moves (cfg : Config) (p : Party) (s t : State) : Prop where
  other : t.threads p.other = s.threads p.other
  own : t.mutex = some p ↔ (t.threads p).location.holds = true
  theirs : t.mutex = some p.other ↔ s.mutex = some p.other
  used : t.numUsedBytes = s.numUsedBytes
  counted : (t.threads p).counted = (s.threads p).counted
  permit : (t.threads p).location.permitted = true → s.numUsedBytes ≠ blocked cfg p
  waits : (t.threads p).location = .waiting → s.numUsedBytes = blocked cfg p
  wake : (t.threads p).location ≠ .wake
  awake : (s.threads p).location ≠ .wake
  bound : (t.threads p).location = .finished ↔ cfg.dataSize ≤ (t.threads p).index

theorem control_moves (h : Control cfg s) (hm : Moves cfg p s t) : Control cfg t := by
  have hcounted : ∀ q, (t.threads q).counted = (s.threads q).counted := by
    intro q
    obtain rfl | rfl := eq_or_other p q
    · exact hm.counted
    · rw [hm.other]
  constructor
  case mutex =>
    intro q
    obtain rfl | rfl := eq_or_other p q
    · exact hm.own
    · rw [hm.theirs, hm.other]
      exact h.mutex _
  case used => rw [hm.used, hcounted, hcounted, h.used]
  case low => exact hm.used ▸ h.low
  case high => exact hm.used ▸ h.high
  case permit =>
    intro q
    obtain rfl | rfl := eq_or_other p q
    · exact hm.used ▸ hm.permit
    · rw [hm.used, hm.other]
      exact h.permit _
  case waits =>
    intro q hq
    obtain rfl | rfl := eq_or_other p q
    · exact .inl (hm.used ▸ hm.waits hq)
    · rw [hm.other] at hq
      rw [hm.used, other_other]
      obtain hu | hw := h.waits _ hq
      · exact .inl hu
      · exact absurd (other_other p ▸ hw) hm.awake
  case fresh =>
    intro q hq
    obtain rfl | rfl := eq_or_other p q
    · exact absurd hq hm.wake
    · rw [hm.other] at hq
      exact hm.used ▸ h.fresh _ hq
  case bound =>
    intro q
    obtain rfl | rfl := eq_or_other p q
    · exact hm.bound
    · rw [hm.other]
      exact h.bound _

theorem not_both (h : Control cfg s) (hp : (s.threads p).location.holds = true) :
    (s.threads p.other).location.holds = false := by
  by_contra hq
  rw [Bool.not_eq_false, ← h.mutex, (h.mutex p).mpr hp] at hq
  exact other_ne p (Option.some.inj hq).symm

/-- The counter stays between its bounds, as the thread has been permitted to change it. -/
theorem change_range {u : Int} (hlow : 0 ≤ u) (hhigh : u ≤ cfg.bufferSize) (hu : u ≠ blocked cfg p) :
    0 ≤ u + change p ∧ u + change p ≤ cfg.bufferSize ∧ u + change p ≠ blocked cfg p.other := by
  cases p with
  | producer | consumer =>
    simp only [blocked, change, Party.other] at *
    omega

theorem bound_keep (h : Control cfg s) (hl : (s.threads p).location ≠ .finished) {l : Location}
    (hl' : l ≠ .finished) : l = .finished ↔ cfg.dataSize ≤ (s.threads p).index :=
  iff_of_false hl' (mt (h.bound p).mpr hl)

theorem control_count (h : Control cfg s) (hl : (s.threads p).location = .count) :
    Control cfg { s.goto p .wake with numUsedBytes := s.numUsedBytes + change p } := by
  have hholds : (s.threads p).location.holds = true := by rw [hl]; rfl
  obtain ⟨hlow, hhigh, hne⟩ := change_range h.low h.high (h.permit p (by rw [hl]; rfl))
  have hcounted : (⟨.wake, (s.threads p).index⟩ : Thread).counted = (s.threads p).counted + 1 := by
    simp [Thread.counted, hl]
  constructor
  case mutex =>
    intro q
    obtain rfl | rfl := eq_or_other p q
    · simpa [Location.holds] using (h.mutex q).mpr hholds
    · simpa using h.mutex p.other
  case used =>
    have hused := (used_iff p _).mp h.used
    rw [used_iff p]
    simp only [goto_self, goto_other, hcounted]
    cases p with
    | producer | consumer =>
      simp only [change] at hused ⊢
      omega
  case low => exact hlow
  case high => exact hhigh
  case permit =>
    intro q hq
    obtain rfl | rfl := eq_or_other p q
    · simp [Location.permitted] at hq
    · exact hne
  case waits =>
    intro q hq
    obtain rfl | rfl := eq_or_other p q
    · simp at hq
    · exact .inr (by simp [other_other])
  case fresh =>
    intro q hq
    obtain rfl | rfl := eq_or_other p q
    · exact hne
    · have hfree := not_both h hholds
      simp only [goto_other] at hq
      rw [hq] at hfree
      cases hfree
  case bound =>
    intro q
    obtain rfl | rfl := eq_or_other p q
    · simpa using bound_keep h (by simp [hl]) (by simp : Location.wake ≠ .finished)
    · simpa using h.bound p.other

@[simp] theorem wakeAll_self : (s.wakeAll p.other).threads p = s.threads p := by
  unfold State.wakeAll
  split_ifs
  · have hother := goto_other (s := s) (p := p.other) (l := .woken)
    rwa [other_other] at hother
  · rfl

theorem wakeAll_other (p : Party) :
    ((s.wakeAll p).threads p = s.threads p ∧ (s.threads p).location ≠ .waiting) ∨
      ((s.wakeAll p).threads p = ⟨.woken, (s.threads p).index⟩ ∧ (s.threads p).location = .waiting) := by
  unfold State.wakeAll
  split_ifs with h
  · exact .inr ⟨goto_self, h⟩
  · exact .inl ⟨rfl, h⟩

@[simp] theorem wakeAll_mutex : (s.wakeAll p).mutex = s.mutex := by
  unfold State.wakeAll
  split_ifs <;> rfl

@[simp] theorem wakeAll_used : (s.wakeAll p).numUsedBytes = s.numUsedBytes := by
  unfold State.wakeAll
  split_ifs <;> rfl

theorem control_wake (h : Control cfg s) (hl : (s.threads p).location = .wake) :
    Control cfg ((s.wakeAll p.other).goto p .leave) := by
  have hholds : (s.threads p).location.holds = true := by rw [hl]; rfl
  have hcounted : (⟨.leave, (s.threads p).index⟩ : Thread).counted = (s.threads p).counted := by
    simp [Thread.counted, hl]
  have hfresh := h.fresh p hl
  have hbound : Location.leave = .finished ↔ cfg.dataSize ≤ (s.threads p).index :=
    bound_keep h (by simp [hl]) (by simp)
  constructor
  case mutex =>
    intro q
    obtain rfl | rfl := eq_or_other p q
    · simpa [Location.holds] using (h.mutex q).mpr hholds
    · have hq := h.mutex p.other
      obtain ⟨hother, -⟩ | ⟨hother, hwait⟩ := wakeAll_other (s := s) p.other
      · simpa [hother] using hq
      · simpa [hother, hwait, Location.holds] using hq
  case used =>
    have hused := (used_iff p _).mp h.used
    rw [used_iff p]
    obtain ⟨hother, -⟩ | ⟨hother, hwait⟩ := wakeAll_other (s := s) p.other
    · simpa [hcounted, hother] using hused
    · have hwoken : (⟨.woken, (s.threads p.other).index⟩ : Thread).counted = (s.threads p.other).counted := by
        simp [Thread.counted, hwait]
      simpa [hcounted, hother, hwoken] using hused
  case low => simpa using h.low
  case high => simpa using h.high
  case permit =>
    intro q hq
    obtain rfl | rfl := eq_or_other p q
    · simp [Location.permitted] at hq
    · simpa using hfresh
  case waits =>
    intro q hq
    obtain rfl | rfl := eq_or_other p q
    · simp at hq
    · obtain ⟨hother, hwait⟩ | ⟨hother, -⟩ := wakeAll_other (s := s) p.other
      · simp [hother, hwait] at hq
      · simp [hother] at hq
  case fresh =>
    intro q hq
    obtain rfl | rfl := eq_or_other p q
    · simp at hq
    · have hfree := not_both h hholds
      obtain ⟨hother, hwait⟩ | ⟨hother, -⟩ := wakeAll_other (s := s) p.other
      · simp only [goto_other, hother] at hq
        rw [hq] at hfree
        cases hfree
      · simp [hother] at hq
  case bound =>
    intro q
    obtain rfl | rfl := eq_or_other p q
    · simpa using hbound
    · obtain ⟨hother, -⟩ | ⟨hother, hwait⟩ := wakeAll_other (s := s) p.other
      · simpa [hother] using h.bound p.other
      · simpa [hother, hwait] using h.bound p.other

/-- What the accesses to the slots leave to be said of the threads. -/
structure Looks (p : Party) (s t : State) : Prop where
  threads : ∃ l, (l = .print ∨ l = .relock) ∧ t.threads = (s.goto p l).threads
  mutex : t.mutex = s.mutex
  used : t.numUsedBytes = s.numUsedBytes

theorem loop_bound (i : Nat) : (loop cfg i).location = .finished ↔ cfg.dataSize ≤ (loop cfg i).index := by
  unfold loop
  split_ifs with h
  · simpa using h
  · simpa using h

theorem loop_counted (cfg : Config) (i : Nat) : (loop cfg i).counted = i := by
  unfold loop Thread.counted
  split_ifs <;> rfl

theorem loop_idle (cfg : Config) (i : Nat) : (loop cfg i).location = .lock ∨ (loop cfg i).location = .finished := by
  unfold loop
  split_ifs
  · exact .inl rfl
  · exact .inr rfl

/-- Moves inside of a round that neither count nor wake the other thread. -/
theorem control_goto {l' : Location} (h : Control cfg s) (hl : (s.threads p).location = l)
    (ht : t.threads = (s.goto p l').threads) (hu : t.numUsedBytes = s.numUsedBytes)
    (hm : t.mutex = if l'.holds then some p else if l.holds then none else s.mutex)
    (hcounted : ∀ i, (⟨l', i⟩ : Thread).counted = (⟨l, i⟩ : Thread).counted)
    (hquiet : l ≠ .wake ∧ l' ≠ .wake ∧ l ≠ .finished ∧ l' ≠ .finished)
    (hfree : l'.holds = true → l.holds = true ∨ s.mutex = none)
    (hpermit : l'.permitted = true → l.permitted = true ∨ s.numUsedBytes ≠ blocked cfg p)
    (hwaits : l' = .waiting → s.numUsedBytes = blocked cfg p) : Control cfg t := by
  obtain ⟨hwake, hwake', hfin, hfin'⟩ := hquiet
  have hself : t.threads p = ⟨l', (s.threads p).index⟩ := by rw [ht, goto_self]
  have hthread : s.threads p = ⟨l, (s.threads p).index⟩ := by rw [← hl]
  have hown := h.mutex p
  have htheirs := h.mutex p.other
  have hboth := not_both h (p := p)
  rw [hl] at hown hboth
  refine control_moves (p := p) h ⟨by rw [ht, goto_other], ?_, ?_, hu, ?_, ?_, ?_, ?_, hl ▸ hwake, ?_⟩
  case refine_1 =>
    rw [hself, hm]
    split_ifs with hheld hheld'
    · simp [hheld]
    · simp [hheld]
    · simpa [hheld, hheld'] using hown
  case refine_2 =>
    rw [hm]
    split_ifs with hheld hheld'
    · obtain hheld' | hfree := hfree hheld
      · simp [htheirs, hboth hheld', (other_ne p).symm]
      · simp [hfree, (other_ne p).symm]
    · simp [htheirs, hboth hheld']
    · exact Iff.rfl
  case refine_3 => rw [hself, hcounted, ← hthread]
  case refine_4 =>
    rw [hself]
    intro hheld
    obtain hheld | hne := hpermit hheld
    · exact h.permit p (hl ▸ hheld)
    · exact hne
  case refine_5 =>
    rw [hself]
    exact hwaits
  case refine_6 =>
    rw [hself]
    exact hwake'
  case refine_7 =>
    rw [hself]
    exact bound_keep h (hl ▸ hfin) hfin'

theorem control_looks (h : Control cfg s)
    (hl : (s.threads p).location = .slot ∨ (s.threads p).location = .print) (hlook : Looks p s t) :
    Control cfg t := by
  obtain ⟨⟨l', hl', ht⟩, hm, hu⟩ := hlook
  obtain hl | hl := hl <;> obtain rfl | rfl := hl' <;>
    exact control_goto h hl ht hu hm (fun _ => rfl) (by decide) (by simp [Location.holds])
      (by simp [Location.permitted]) (by simp)

section Round

variable {slot print : State → Nat → Option State}

theorem round_control (h : Control cfg s) (hslot : (s.threads p).location ≠ .slot)
    (hprint : (s.threads p).location ≠ .print)
    (hr : round cfg p (blocked cfg p) (change p) slot print s = some t) : Control cfg t := by
  simp only [round, State.acquire] at hr
  cases hl : (s.threads p).location <;>
    simp only [hl, Option.ite_none_right_eq_some, Option.some.injEq, reduceCtorEq] at hr
  case lock | woken | relock =>
    obtain ⟨hfree, rfl⟩ := hr
    exact control_goto h hl rfl rfl rfl (fun _ => rfl) (by decide) (by simp [hfree])
      (by simp [Location.permitted]) (by simp)
  case test =>
    split_ifs at hr with hu
    · cases hr
      exact control_goto h hl rfl rfl rfl (fun _ => rfl) (by decide) (by simp [Location.holds])
        (by simp [Location.permitted]) fun _ => hu
    · cases hr
      have hm : s.mutex = some p := (h.mutex p).mpr (by simp [hl, Location.holds])
      exact control_goto h hl rfl rfl hm (fun _ => rfl) (by decide) (by simp [Location.holds])
        (fun _ => .inr hu) (by simp)
  case unlock =>
    subst hr
    exact control_goto h hl rfl rfl rfl (fun _ => rfl) (by decide) (by simp [Location.holds])
        (by simp [Location.permitted]) (by simp)
  case slot => exact absurd hl hslot
  case print => exact absurd hl hprint
  case count =>
    subst hr
    exact control_count h hl
  case wake =>
    subst hr
    exact control_wake h hl
  case leave =>
    subst hr
    have hm : s.mutex = some p := (h.mutex p).mpr (by simp [hl, Location.holds])
    have hcounted : (s.threads p).counted = (s.threads p).index + 1 := by simp [Thread.counted, hl]
    refine control_moves (p := p) h ⟨put_other, ?_, ?_, rfl, ?_, ?_, ?_, ?_, by simp [hl], ?_⟩ <;>
      simp only [put_self]
    case refine_7 => exact loop_bound _
    case refine_3 => rw [loop_counted, hcounted]
    case refine_2 => simp [hm, (other_ne p).symm]
    all_goals obtain hidle | hidle := loop_idle cfg ((s.threads p).index + 1) <;>
      simp [hidle, Location.holds, Location.permitted]

end Round

end Moves

end C11AndC.BoundedBuffer
