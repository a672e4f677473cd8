import C11AndC.BoundedBuffer.Slots
import C11AndC.Library.Progress

namespace C11AndC.BoundedBuffer

open C11AndC.Library

/-- The steps that a thread still takes in its round at most. -/
def Location.rank : Location → Nat
  | .lock => 11
  | .test => 10
  | .waiting => 9
  | .woken => 8
  | .unlock => 7
  | .slot => 6
  | .print => 5
  | .relock => 4
  | .count => 3
  | .wake => 2
  | .leave => 1
  | .finished => 0

/-- The steps that a thread still takes in all its rounds at most. -/
def Thread.rest (cfg : Config) (t : Thread) : Nat := 11 * (cfg.dataSize - (t.index + 1)).toNat + t.location.rank

def State.rest (cfg : Config) (s : State) : Nat :=
  (s.threads .producer).rest cfg + (s.threads .consumer).rest cfg

section Moves

variable {cfg : Config} {s t : State} {p : Party}

theorem rest_split (p : Party) : s.rest cfg = (s.threads p).rest cfg + (s.threads p.other).rest cfg := by
  cases p with
  | producer => rfl
  | consumer => exact Nat.add_comm ..

/-- A step that takes its own thread on and leaves the other one, or wakes it. -/
theorem rest_lt (hown : (t.threads p).rest cfg < (s.threads p).rest cfg)
    (hother : (t.threads p.other).rest cfg ≤ (s.threads p.other).rest cfg) : t.rest cfg < s.rest cfg := by
  rw [rest_split p, rest_split p]
  omega

theorem rest_mk (l : Location) (i : Nat) :
    (⟨l, i⟩ : Thread).rest cfg = 11 * (cfg.dataSize - (i + 1)).toNat + l.rank := rfl

theorem rest_at {l : Location} (hl : (s.threads p).location = l) :
    (s.threads p).rest cfg = 11 * (cfg.dataSize - ((s.threads p).index + 1)).toNat + l.rank := by
  rw [← hl, Thread.rest]

theorem rest_goto {l m : Location} (hl : (s.threads p).location = l) (hlt : m.rank < l.rank)
    (ht : t.threads = (s.goto p m).threads) : t.rest cfg < s.rest cfg := by
  apply rest_lt (p := p)
  · rw [ht, goto_self, rest_mk, rest_at hl]
    exact Nat.add_lt_add_left hlt _
  · rw [ht, goto_other]

theorem wakeAll_rest (s : State) (p : Party) : ((s.wakeAll p).threads p).rest cfg ≤ (s.threads p).rest cfg := by
  obtain ⟨hother, -⟩ | ⟨hother, hwait⟩ := wakeAll_other (s := s) p
  · rw [hother]
  · rw [hother, rest_mk, rest_at hwait]
    exact Nat.add_le_add_left (by decide) _

theorem loop_rest (cfg : Config) (i : Nat) : (loop cfg i).rest cfg ≤ 11 * (cfg.dataSize - i).toNat := by
  unfold loop Thread.rest
  split_ifs with hi
  · simp only [Location.rank]
    omega
  · simp only [Location.rank]
    omega

theorem round_rest {b c : Int} {slot print : State → Nat → Option State}
    (hbound : (s.threads p).location = .finished ↔ cfg.dataSize ≤ (s.threads p).index)
    (hslot : ∀ i t, slot s i = some t → (s.threads p).location = .slot → t.rest cfg < s.rest cfg)
    (hprint : ∀ i t, print s i = some t → (s.threads p).location = .print → t.rest cfg < s.rest cfg)
    (hr : round cfg p b c slot print s = some t) : t.rest cfg < s.rest cfg := by
  simp only [round, State.acquire] at hr
  cases hl : (s.threads p).location <;>
    simp only [hl, Option.ite_none_right_eq_some, Option.some.injEq, reduceCtorEq] at hr
  case lock | woken | relock =>
    obtain ⟨-, rfl⟩ := hr
    exact rest_goto hl (by decide) rfl
  case test =>
    split_ifs at hr <;> cases hr <;> exact rest_goto hl (by decide) rfl
  case unlock | count =>
    subst hr
    exact rest_goto hl (by decide) rfl
  case slot => exact hslot _ t hr hl
  case print => exact hprint _ t hr hl
  case wake =>
    subst hr
    apply rest_lt (p := p)
    · rw [goto_self, wakeAll_self, rest_mk, rest_at hl]
      exact Nat.add_lt_add_left (by decide) _
    · rw [goto_other]
      exact wakeAll_rest s p.other
  case leave =>
    subst hr
    have hi : ¬ cfg.dataSize ≤ (s.threads p).index := mt hbound.mpr (by simp [hl])
    have hloop := loop_rest cfg ((s.threads p).index + 1)
    apply rest_lt (p := p)
    · rw [put_self, rest_at hl]
      refine Nat.lt_of_le_of_lt hloop ?_
      simp only [Location.rank]
      omega
    · rw [put_other]

theorem step_rest (h : Control cfg s) (hs : step cfg s p = some t) : t.rest cfg < s.rest cfg := by
  cases p with
  | producer =>
    rw [step, Producer.run] at hs
    apply round_rest (h.bound .producer) _ _ hs
    · intro i t hw hl
      unfold write at hw
      split_ifs at hw
      cases hw
      exact rest_goto (m := .relock) hl (by decide) rfl
    · intro i t hp
      cases hp
  | consumer =>
    rw [step, Consumer.run] at hs
    apply round_rest (h.bound .consumer) _ _ hs
    · intro i t hr hl
      obtain ⟨f, -, ht⟩ := Option.bind_eq_some_iff.mp hr
      cases ht
      exact rest_goto (m := .print) hl (by decide) rfl
    · intro i t hr hl
      obtain ⟨f, -, ht⟩ := Option.bind_eq_some_iff.mp hr
      cases ht
      exact rest_goto (m := .relock) hl (by decide) rfl

/-- No thread goes on for more rounds than there are bytes. -/
def Within (cfg : Config) (s : State) : Prop := ∀ p, (s.threads p).index ≤ cfg.dataSize.toNat

theorem within_put {u : Thread} (h : Within cfg s) (hu : u.index ≤ cfg.dataSize.toNat)
    (ht : t.threads = (s.put p u).threads) : Within cfg t := by
  intro q
  rw [ht]
  obtain rfl | rfl := eq_or_other p q
  · rwa [put_self]
  · rw [put_other]
    exact h _

theorem within_goto {l : Location} (h : Within cfg s) (ht : t.threads = (s.goto p l).threads) : Within cfg t :=
  within_put (u := ⟨l, (s.threads p).index⟩) h (h p) ht

theorem within_wakeAll (h : Within cfg s) (p : Party) : Within cfg (s.wakeAll p) := by
  unfold State.wakeAll
  split_ifs
  · exact within_goto h rfl
  · exact h

theorem loop_index (cfg : Config) (i : Nat) : (loop cfg i).index = i := by
  unfold loop
  split_ifs <;> rfl

theorem round_within {b c : Int} {slot print : State → Nat → Option State} (h : Within cfg s)
    (hbound : (s.threads p).location = .finished ↔ cfg.dataSize ≤ (s.threads p).index)
    (hslot : ∀ i t, slot s i = some t → Within cfg t) (hprint : ∀ i t, print s i = some t → Within cfg t)
    (hr : round cfg p b c slot print s = some t) : Within cfg t := by
  simp only [round, State.acquire] at hr
  cases hl : (s.threads p).location <;>
    simp only [hl, Option.ite_none_right_eq_some, Option.some.injEq, reduceCtorEq] at hr
  case lock | woken | relock =>
    obtain ⟨-, rfl⟩ := hr
    exact within_goto h rfl
  case test =>
    split_ifs at hr <;> cases hr <;> exact within_goto h rfl
  case unlock | count =>
    subst hr
    exact within_goto h rfl
  case slot => exact hslot _ t hr
  case print => exact hprint _ t hr
  case wake =>
    subst hr
    exact within_goto (within_wakeAll h p.other) rfl
  case leave =>
    subst hr
    have hi : ¬ cfg.dataSize ≤ (s.threads p).index := mt hbound.mpr (by simp [hl])
    apply within_put (u := loop cfg ((s.threads p).index + 1)) h _ rfl
    rw [loop_index]
    omega

theorem step_within (h : Control cfg s) (hw : Within cfg s) (hs : step cfg s p = some t) : Within cfg t := by
  cases p with
  | producer =>
    rw [step, Producer.run] at hs
    apply round_within hw (h.bound .producer) _ _ hs
    · intro i t hp
      unfold write at hp
      split_ifs at hp
      cases hp
      exact within_goto (l := .relock) hw rfl
    · intro i t hp
      cases hp
  | consumer =>
    rw [step, Consumer.run] at hs
    apply round_within hw (h.bound .consumer) _ _ hs
    · intro i t hr
      obtain ⟨f, -, ht⟩ := Option.bind_eq_some_iff.mp hr
      cases ht
      exact within_goto (l := .print) hw rfl
    · intro i t hr
      obtain ⟨f, -, ht⟩ := Option.bind_eq_some_iff.mp hr
      cases ht
      exact within_goto (l := .relock) hw rfl

end Moves

/-- Both threads have returned, and all bytes have been passed on. -/
structure Passed (cfg : Config) (s : State) : Prop where
  finished : ∀ p, (s.threads p).location = .finished
  produced : s.produced = (List.range cfg.dataSize.toNat).map cfg.byte
  values : s.values = s.produced
  printed : s.printed = s.produced

theorem passed_of_finished {cfg : Config} {s : State} (h : Control cfg s) (hd : Data cfg s) (hw : Within cfg s)
    (hfin : ∀ p, (s.threads p).location = .finished) : Passed cfg s := by
  have hindex : ∀ p, (s.threads p).index = cfg.dataSize.toNat := by
    intro p
    have hle := (h.bound p).mp (hfin p)
    have hle' := hw p
    omega
  have hthread : ∀ p, s.threads p = ⟨.finished, cfg.dataSize.toNat⟩ := fun p => by rw [← hindex p, ← hfin p]
  have hproduced := hd.produced
  have hvalues := hd.values
  have hprinted := hd.printed
  rw [hthread] at hproduced hvalues hprinted
  exact ⟨hfin, hproduced, hvalues.trans hproduced.symm, hprinted.trans hproduced.symm⟩

/-- Whatever turns the threads take, they come to an end within eleven steps for a byte and thread,
neither waits for ever, and the consumer has then shown and printed all that was written. -/
theorem buffer_completes (cfg : Config) (hlow : 1 ≤ cfg.bufferSize) (hhigh : cfg.bufferSize ≤ 8192)
    (buffer : Vector Char 8192) :
    Completes (step cfg) (fun _ => true) (Passed cfg) (start cfg buffer) (22 * cfg.dataSize.toNat) 0 := by
  have hdescends : Descends (step cfg) (fun _ => true) (fun s => (Control cfg s ∧ Data cfg s) ∧ Within cfg s) 0
      (State.rest cfg) := by
    constructor
    case keep => exact fun s p t h ht => ⟨step_inv h.1 ht, step_within h.1.1 h.2 ht⟩
    case down => exact fun s p t h ht _ => step_rest h.1.1 ht
    case up => exact fun s p t _ _ hno => nomatch hno
  have hrest : (loop cfg 0).rest cfg ≤ 11 * cfg.dataSize.toNat := by
    simpa using loop_rest cfg 0
  apply completes_of_descends hdescends
  · rintro s ⟨⟨h, hd⟩, hw⟩ hstuck
    obtain ⟨p, t, ht⟩ | ⟨hfin, -⟩ := buffer_progress hlow hhigh h hd
    · rw [hstuck p rfl] at ht
      cases ht
    · exact passed_of_finished h hd hw hfin
  · apply And.intro (start_inv buffer)
    intro p
    change (loop cfg 0).index ≤ _
    rw [loop_index]
    exact Nat.zero_le _
  · change (loop cfg 0).rest cfg + (loop cfg 0).rest cfg ≤ _
    omega

theorem buffer_completes_master :
    Completes (step master) (fun _ => true) (Passed master) (start master (.replicate 8192 'x'))
      (22 * (100 : Int).toNat) 0 :=
  buffer_completes master (by decide) (by decide) _

end C11AndC.BoundedBuffer
