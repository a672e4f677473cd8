import C11AndC.BoundedBuffer.Control
import C11AndC.Library.Ring

namespace C11AndC.BoundedBuffer

open C11AndC.Library

/-- The rounds of the thread that are through with the slot. -/
def Thread.accessed (t : Thread) : Nat :=
  match t.location with
  | .relock | .count | .wake | .leave => t.index + 1
  | _ => t.index

/-- The rounds in which the consumer has read the value. -/
def Thread.shown (t : Thread) : Nat :=
  match t.location with
  | .print | .relock | .count | .wake | .leave => t.index + 1
  | _ => t.index

/-- What is in the slots, and what has been got out of them. -/
structure Data (cfg : Config) (s : State) : Prop where
  silent : (s.threads .producer).location ≠ .print
  produced : s.produced = (List.range (s.threads .producer).accessed).map cfg.byte
  values : s.values = (List.range (s.threads .consumer).shown).map cfg.byte
  printed : s.printed = (List.range (s.threads .consumer).accessed).map cfg.byte
  slots : ∀ k, (s.threads .consumer).accessed ≤ k → k < (s.threads .producer).accessed →
    s.buffer[k % cfg.bufferSize]? = some (cfg.byte k)

section Moves

variable {cfg : Config} {s t : State} {p q : Party} {l : Location} {th : Thread}

/-- Moves that are not accesses to the slots. -/
structure Still (s t : State) : Prop where
  buffer : t.buffer = s.buffer
  produced : t.produced = s.produced
  values : t.values = s.values
  printed : t.printed = s.printed
  accessed : ∀ q, (t.threads q).accessed = (s.threads q).accessed
  shown : ∀ q, (t.threads q).shown = (s.threads q).shown
  silent : ∀ q, (t.threads q).location = .print → (s.threads q).location = .print

theorem still_put (haccessed : th.accessed = (s.threads p).accessed) (hshown : th.shown = (s.threads p).shown)
    (hsilent : th.location ≠ .print) (m : Option Party) (u : Int) :
    Still s { s.put p th with mutex := m, numUsedBytes := u } := by
  refine ⟨rfl, rfl, rfl, rfl, fun q => ?_, fun q => ?_, fun q => ?_⟩
  · obtain rfl | rfl := eq_or_other p q
    · simpa using haccessed
    · simp
  · obtain rfl | rfl := eq_or_other p q
    · simpa using hshown
    · simp
  · obtain rfl | rfl := eq_or_other p q
    · simp [hsilent]
    · simp

theorem still_goto (l' : Location) (hl : (s.threads p).location = l)
    (haccessed : ∀ i, (⟨l', i⟩ : Thread).accessed = (⟨l, i⟩ : Thread).accessed)
    (hshown : ∀ i, (⟨l', i⟩ : Thread).shown = (⟨l, i⟩ : Thread).shown) (hsilent : l' ≠ .print)
    (m : Option Party) (u : Int) : Still s { s.goto p l' with mutex := m, numUsedBytes := u } := by
  have hthread : s.threads p = ⟨l, (s.threads p).index⟩ := by rw [← hl]
  refine still_put ?_ ?_ hsilent m u
  · rw [haccessed, ← hthread]
  · rw [hshown, ← hthread]

theorem still_wakeAll (s : State) (p : Party) : Still s (s.wakeAll p) := by
  unfold State.wakeAll
  split_ifs with h
  · exact still_goto .woken h (fun _ => rfl) (fun _ => rfl) (by decide) s.mutex s.numUsedBytes
  · exact ⟨rfl, rfl, rfl, rfl, fun _ => rfl, fun _ => rfl, fun _ => id⟩

theorem Still.trans {u : State} (h : Still s t) (h' : Still t u) : Still s u :=
  ⟨h'.buffer.trans h.buffer, h'.produced.trans h.produced, h'.values.trans h.values,
    h'.printed.trans h.printed, fun q => (h'.accessed q).trans (h.accessed q),
    fun q => (h'.shown q).trans (h.shown q), fun q hq => h.silent q (h'.silent q hq)⟩

theorem loop_accessed (cfg : Config) (i : Nat) : (loop cfg i).accessed = i ∧ (loop cfg i).shown = i := by
  unfold loop Thread.accessed Thread.shown
  split_ifs <;> exact ⟨rfl, rfl⟩

theorem round_still {b c : Int} {slot print : State → Nat → Option State}
    (hslot : (s.threads p).location ≠ .slot)
    (hprint : (s.threads p).location ≠ .print) (hr : round cfg p b c slot print s = some t) : Still s t := by
  simp only [round, State.acquire] at hr
  cases hl : (s.threads p).location <;>
    simp only [hl, Option.ite_none_right_eq_some, Option.some.injEq, reduceCtorEq] at hr
  case lock | woken | relock =>
    obtain ⟨-, rfl⟩ := hr
    refine still_goto _ hl ?_ ?_ (by decide) _ _ <;> exact fun _ => rfl
  case test =>
    split_ifs at hr <;> cases hr <;> refine still_goto _ hl ?_ ?_ (by decide) _ _ <;> exact fun _ => rfl
  case unlock | count =>
    subst hr
    refine still_goto _ hl ?_ ?_ (by decide) _ _ <;> exact fun _ => rfl
  case slot => exact absurd hl hslot
  case print => exact absurd hl hprint
  case wake =>
    subst hr
    have hl' : ((s.wakeAll p.other).threads p).location = .wake := by rw [wakeAll_self, hl]
    exact (still_wakeAll s p.other).trans (still_goto .leave hl' (fun _ => rfl) (fun _ => rfl)
      (by decide) _ _)
  case leave =>
    subst hr
    obtain ⟨haccessed, hshown⟩ := loop_accessed cfg ((s.threads p).index + 1)
    refine still_put ?_ ?_ ?_ _ _
    · rw [haccessed, Thread.accessed, hl]
    · rw [hshown, Thread.shown, hl]
    · obtain hidle | hidle := loop_idle cfg ((s.threads p).index + 1) <;> simp [hidle]

theorem data_still (h : Data cfg s) (hs : Still s t) : Data cfg t := by
  constructor
  case silent => exact fun hprint => h.silent (hs.silent _ hprint)
  case produced => rw [hs.produced, hs.accessed, h.produced]
  case values => rw [hs.values, hs.shown, h.values]
  case printed => rw [hs.printed, hs.accessed, h.printed]
  case slots =>
    rw [hs.accessed, hs.accessed, hs.buffer]
    exact h.slots

theorem counted_le (th : Thread) : th.counted ≤ th.accessed := by
  obtain ⟨l, i⟩ := th
  cases l <;> simp [Thread.counted, Thread.accessed]

/-- What the counter says about the rounds that the threads are in. -/
theorem producer_room (h : Control cfg s) (hl : (s.threads .producer).location = .slot) :
    (s.threads .producer).index < (s.threads .consumer).accessed + cfg.bufferSize := by
  have hne : s.numUsedBytes ≠ cfg.bufferSize := h.permit .producer (by simp [hl, Location.permitted])
  have hcounted : (s.threads .producer).counted = (s.threads .producer).index := by simp [Thread.counted, hl]
  have hle := counted_le (s.threads .consumer)
  have hused := h.used
  have hhigh := h.high
  omega

theorem consumer_room (h : Control cfg s)
    (hl : (s.threads .consumer).location = .slot ∨ (s.threads .consumer).location = .print) :
    (s.threads .consumer).index < (s.threads .producer).accessed := by
  have hne : s.numUsedBytes ≠ 0 :=
    h.permit .consumer (by obtain hl | hl := hl <;> simp [hl, Location.permitted])
  have hcounted : (s.threads .consumer).counted = (s.threads .consumer).index := by
    obtain hl | hl := hl <;> simp [Thread.counted, hl]
  have hle := counted_le (s.threads .producer)
  have hused := h.used
  have hlow := h.low
  omega

theorem shown_le (h : Control cfg s) :
    (s.threads .consumer).accessed ≤ (s.threads .consumer).shown ∧
      (s.threads .consumer).shown ≤ (s.threads .producer).accessed := by
  have hpermit := h.permit .consumer
  have hle := counted_le (s.threads .producer)
  have hused := h.used
  have hlow := h.low
  simp only [blocked] at hpermit
  generalize s.threads .consumer = th at *
  generalize s.threads .producer = th' at *
  obtain ⟨l, i⟩ := th
  generalize th'.accessed = a at *
  generalize th'.counted = b at *
  cases l <;> simp [Thread.shown, Thread.accessed, Thread.counted, Location.permitted] at * <;> omega

theorem write_data (h : Control cfg s) (hd : Data cfg s) (hl : (s.threads .producer).location = .slot)
    (hw : write cfg s (s.threads .producer).index = some t) : Looks .producer s t ∧ Data cfg t := by
  unfold write at hw
  split_ifs at hw with hlt
  cases hw
  refine ⟨⟨⟨.relock, .inr rfl, rfl⟩, rfl, rfl⟩, ?_⟩
  have hroom := producer_room h hl
  have haccessed : (s.threads .producer).accessed = (s.threads .producer).index := by
    simp [Thread.accessed, hl]
  have hself : (s.goto .producer .relock).threads .producer = ⟨.relock, (s.threads .producer).index⟩ := goto_self
  have hother : (s.goto .producer .relock).threads .consumer = s.threads .consumer := goto_other
  constructor
  case silent => simp
  case produced =>
    rw [hself]
    simp only [hd.produced, haccessed]
    simp only [Thread.accessed, List.range_succ, List.map_append, List.map_cons, List.map_nil]
  case values =>
    rw [hother]
    exact hd.values
  case printed =>
    rw [hother]
    exact hd.printed
  case slots =>
    intro k hk hk'
    rw [hother] at hk
    rw [hself] at hk'
    simp only [Thread.accessed] at hk'
    rw [Vector.getElem?_set]
    split_ifs with hslot
    · obtain rfl : k = (s.threads .producer).index := by
        by_contra hne
        exact mod_ne (by omega) (by omega) hslot.symm
      rfl
    · refine hd.slots k hk ?_
      rw [haccessed]
      refine Nat.lt_of_le_of_ne (Nat.lt_succ_iff.mp hk') ?_
      rintro rfl
      exact hslot rfl

/-- The consumer goes on with what it has read and printed; it may only let go of slots. -/
theorem data_consumer {location : Location} {values printed : List Char} (hd : Data cfg s)
    (hvalues : values = (List.range (Thread.shown ⟨location, (s.threads .consumer).index⟩)).map cfg.byte)
    (hprinted : printed = (List.range (Thread.accessed ⟨location, (s.threads .consumer).index⟩)).map cfg.byte)
    (hle : (s.threads .consumer).accessed ≤ Thread.accessed ⟨location, (s.threads .consumer).index⟩) :
    Data cfg { s.goto .consumer location with values := values, printed := printed } := by
  have hself : (s.goto .consumer location).threads .consumer = ⟨location, (s.threads .consumer).index⟩ :=
    goto_self
  have hother : (s.goto .consumer location).threads .producer = s.threads .producer := goto_other
  constructor
  case silent =>
    rw [hother]
    exact hd.silent
  case produced =>
    rw [hother]
    exact hd.produced
  case values =>
    rw [hself]
    exact hvalues
  case printed =>
    rw [hself]
    exact hprinted
  case slots =>
    intro k hk
    rw [hself] at hk
    rw [hother]
    exact hd.slots k (Nat.le_trans hle hk)

theorem readValue_data (h : Control cfg s) (hd : Data cfg s) (hl : (s.threads .consumer).location = .slot)
    (hr : readValue cfg s (s.threads .consumer).index = some t) : Looks .consumer s t ∧ Data cfg t := by
  have haccessed : (s.threads .consumer).accessed = (s.threads .consumer).index := by
    simp [Thread.accessed, hl]
  have hshown : (s.threads .consumer).shown = (s.threads .consumer).index := by
    simp [Thread.shown, hl]
  have hslot := hd.slots _ (Nat.le_of_eq haccessed) (consumer_room h (.inl hl))
  simp only [readValue, hslot, Option.bind_eq_bind, Option.bind_some] at hr
  cases hr
  refine ⟨⟨⟨.print, .inl rfl, rfl⟩, rfl, rfl⟩, data_consumer hd ?_ ?_ (Nat.le_of_eq haccessed)⟩
  · simp only [hd.values, hshown]
    simp only [Thread.shown, List.range_succ, List.map_append, List.map_cons, List.map_nil]
  · exact hd.printed.trans (by rw [haccessed]; rfl)

theorem readPrint_data (h : Control cfg s) (hd : Data cfg s) (hl : (s.threads .consumer).location = .print)
    (hr : readPrint cfg s (s.threads .consumer).index = some t) : Looks .consumer s t ∧ Data cfg t := by
  have haccessed : (s.threads .consumer).accessed = (s.threads .consumer).index := by
    simp [Thread.accessed, hl]
  have hshown : (s.threads .consumer).shown = (s.threads .consumer).index + 1 := by
    simp [Thread.shown, hl]
  have hslot := hd.slots _ (Nat.le_of_eq haccessed) (consumer_room h (.inr hl))
  simp only [readPrint, hslot, Option.bind_eq_bind, Option.bind_some] at hr
  cases hr
  refine ⟨⟨⟨.relock, .inr rfl, rfl⟩, rfl, rfl⟩, data_consumer hd ?_ ?_ ?_⟩
  · exact hd.values.trans (by rw [hshown]; rfl)
  · simp only [hd.printed, haccessed]
    simp only [Thread.accessed, List.range_succ, List.map_append, List.map_cons, List.map_nil]
  · rw [haccessed]
    exact Nat.le_succ _

theorem start_inv (buffer : Vector Char 8192) :
    Control cfg (start cfg buffer) ∧ Data cfg (start cfg buffer) := by
  have haccessed := loop_accessed cfg 0
  have hcounted := loop_counted cfg 0
  have hidle := loop_idle cfg 0
  refine ⟨⟨fun p => ?_, ?_, Int.le_refl 0, Int.natCast_nonneg _, fun p hp => ?_, fun p hp => ?_,
    fun p hp => ?_, fun p => loop_bound 0⟩, ⟨?_, ?_, ?_, ?_, fun k hk hk' => ?_⟩⟩
  · obtain hl | hl := hidle <;> simp [start, hl, Location.holds]
  · simp [start, hcounted]
  · obtain hl | hl := hidle <;> simp [start, hl, Location.permitted] at hp
  · obtain hl | hl := hidle <;> simp [start, hl] at hp
  · obtain hl | hl := hidle <;> simp [start, hl] at hp
  · obtain hl | hl := hidle <;> simp [start, hl]
  · simp [start, haccessed.1]
  · simp [start, haccessed.2]
  · simp [start, haccessed.1]
  · simp [start, haccessed.1] at hk'

theorem step_inv (h : Control cfg s ∧ Data cfg s) (hs : step cfg s p = some t) :
    Control cfg t ∧ Data cfg t := by
  obtain ⟨h, hd⟩ := h
  cases p with
  | producer =>
    by_cases hslot : (s.threads .producer).location = .slot
    · have hs' : write cfg s (s.threads .producer).index = some t := by
        simpa [step, Producer.run, round, hslot] using hs
      obtain ⟨hlook, hdata⟩ := write_data h hd hslot hs'
      exact ⟨control_looks h (.inl hslot) hlook, hdata⟩
    · by_cases hprint : (s.threads .producer).location = .print
      · simp [step, Producer.run, round, hprint] at hs
      · have hs' : round cfg .producer (blocked cfg .producer) (change .producer) (write cfg)
            (fun _ _ => none) s = some t := hs
        exact ⟨round_control h hslot hprint hs', data_still hd (round_still hslot hprint hs')⟩
  | consumer =>
    by_cases hslot : (s.threads .consumer).location = .slot
    · have hs' : readValue cfg s (s.threads .consumer).index = some t := by
        simpa [step, Consumer.run, round, hslot] using hs
      obtain ⟨hlook, hdata⟩ := readValue_data h hd hslot hs'
      exact ⟨control_looks h (.inl hslot) hlook, hdata⟩
    · by_cases hprint : (s.threads .consumer).location = .print
      · have hs' : readPrint cfg s (s.threads .consumer).index = some t := by
          simpa [step, Consumer.run, round, hprint] using hs
        obtain ⟨hlook, hdata⟩ := readPrint_data h hd hprint hs'
        exact ⟨control_looks h (.inr hprint) hlook, hdata⟩
      · exact ⟨round_control h hslot hprint hs, data_still hd (round_still hslot hprint hs)⟩

end Moves

/-- What is to be shown of every state. -/
structure Safe (cfg : Config) (s : State) : Prop where
  used : s.mutex = none → 0 ≤ s.numUsedBytes ∧ s.numUsedBytes ≤ cfg.bufferSize
  writes : (s.threads .producer).location = .slot →
    (s.threads .producer).index % cfg.bufferSize < 8192 ∧ ∀ k < (s.threads .producer).index,
      k % cfg.bufferSize = (s.threads .producer).index % cfg.bufferSize → k < s.printed.length
  reads : (s.threads .consumer).location = .slot ∨ (s.threads .consumer).location = .print →
    (s.threads .consumer).index < s.produced.length ∧
      s.buffer[(s.threads .consumer).index % cfg.bufferSize]? = s.produced[(s.threads .consumer).index]?
  consumed : s.values <+: s.produced ∧ s.printed <+: s.produced
  awake : ¬ ((s.threads .producer).location = .waiting ∧ (s.threads .consumer).location = .waiting)

theorem safe_of_inv {cfg : Config} {s : State} (hlow : 1 ≤ cfg.bufferSize) (hhigh : cfg.bufferSize ≤ 8192)
    (h : Control cfg s) (hd : Data cfg s) : Safe cfg s := by
  have hinit : ∀ {m n : Nat}, m ≤ n → (List.range m).map cfg.byte <+: (List.range n).map cfg.byte := by
    intro m n hmn
    obtain ⟨d, rfl⟩ := Nat.exists_eq_add_of_le hmn
    rw [List.range_add, List.map_append]
    exact List.prefix_append ..
  constructor
  case used => exact fun _ => ⟨h.low, h.high⟩
  case writes =>
    intro hl
    have hroom := producer_room h hl
    refine ⟨Nat.lt_of_lt_of_le (Nat.mod_lt _ hlow) hhigh, fun k hk hmod => ?_⟩
    rw [hd.printed, List.length_map, List.length_range]
    by_contra hlt
    exact mod_ne hk (by omega) hmod
  case reads =>
    intro hl
    have hroom := consumer_room h hl
    have haccessed : (s.threads .consumer).accessed = (s.threads .consumer).index := by
      obtain hl | hl := hl <;> simp [Thread.accessed, hl]
    rw [hd.produced, List.length_map, List.length_range]
    refine ⟨hroom, ?_⟩
    rw [hd.slots _ (Nat.le_of_eq haccessed) hroom]
    simp [hroom]
  case consumed =>
    obtain ⟨hle, hle'⟩ := shown_le h
    rw [hd.values, hd.printed, hd.produced]
    exact ⟨hinit hle', hinit (Nat.le_trans hle hle')⟩
  case awake =>
    rintro ⟨hp, hc⟩
    have hproducer := h.waits .producer hp
    have hconsumer := h.waits .consumer hc
    simp only [Party.other, hp, hc, blocked, reduceCtorEq, or_false] at hproducer hconsumer
    omega

section Progress

variable {cfg : Config} {s : State} {p : Party}

theorem round_some {b c : Int} {slot print : State → Nat → Option State}
    (hfree : s.mutex = none ∨ (s.threads p).location.holds = true)
    (hslot : (s.threads p).location = .slot → (slot s (s.threads p).index).isSome)
    (hprint : (s.threads p).location = .print → (print s (s.threads p).index).isSome)
    (hidle : (s.threads p).location ≠ .waiting ∧ (s.threads p).location ≠ .finished) :
    (round cfg p b c slot print s).isSome := by
  cases hl : (s.threads p).location <;> simp [round, State.acquire, hl, Location.holds] at *
  case lock | woken | relock => simp [hfree]
  case test => split_ifs <;> simp
  case slot => exact hslot
  case print => exact hprint

theorem step_some (hlow : 1 ≤ cfg.bufferSize) (hhigh : cfg.bufferSize ≤ 8192) (h : Control cfg s)
    (hd : Data cfg s) (hfree : s.mutex = none ∨ (s.threads p).location.holds = true)
    (hidle : (s.threads p).location ≠ .waiting ∧ (s.threads p).location ≠ .finished) :
    (step cfg s p).isSome := by
  have haccessed : ∀ th : Thread, th.location = .slot ∨ th.location = .print → th.accessed = th.index := by
    rintro th (hl | hl) <;> simp [Thread.accessed, hl]
  have hslot := fun hl => hd.slots _ (Nat.le_of_eq (haccessed _ hl)) (consumer_room h hl)
  cases p with
  | producer =>
    have hlt := Nat.lt_of_lt_of_le (Nat.mod_lt (s.threads .producer).index hlow) hhigh
    rw [step, Producer.run]
    exact round_some hfree (fun _ => by simp [write, hlt]) (fun hl => absurd hl hd.silent) hidle
  | consumer =>
    rw [step, Consumer.run]
    exact round_some hfree (fun hl => by simp [readValue, hslot (.inl hl)])
      (fun hl => by simp [readPrint, hslot (.inr hl)]) hidle

/-- No state is a dead end: a thread can go on, or both are through with all their bytes. -/
theorem buffer_progress (hlow : 1 ≤ cfg.bufferSize) (hhigh : cfg.bufferSize ≤ 8192) (h : Control cfg s)
    (hd : Data cfg s) :
    (∃ p t, step cfg s p = some t) ∨
      (∀ p, (s.threads p).location = .finished) ∧ cfg.dataSize ≤ s.printed.length := by
  by_cases hsome : ∃ p, (step cfg s p).isSome
  · obtain ⟨p, hp⟩ := hsome
    exact .inl ⟨p, Option.isSome_iff_exists.mp hp⟩
  refine .inr ?_
  have hstop : ∀ p, s.mutex = none ∨ (s.threads p).location.holds = true →
      (s.threads p).location = .waiting ∨ (s.threads p).location = .finished := by
    intro p hfree
    by_contra hidle
    exact hsome ⟨p, step_some hlow hhigh h hd hfree (not_or.mp hidle)⟩
  have hfree : s.mutex = none := by
    cases hm : s.mutex with
    | none => rfl
    | some p =>
      have hholds := (h.mutex p).mp hm
      obtain hl | hl := hstop p (.inr hholds) <;> simp [hl, Location.holds] at hholds
  have hcounted : ∀ p, (s.threads p).counted = (s.threads p).index ∧
      (s.threads p).accessed = (s.threads p).index := by
    intro p
    obtain hl | hl := hstop p (.inl hfree) <;> simp [Thread.counted, Thread.accessed, hl]
  have hwaits : ∀ p, (s.threads p).location = .waiting → s.numUsedBytes = blocked cfg p := by
    intro p hl
    obtain hu | hw := h.waits p hl
    · exact hu
    · obtain hl | hl := hstop p.other (.inl hfree) <;> simp [hl] at hw
  have hused := h.used
  rw [(hcounted _).1, (hcounted _).1] at hused
  have hproducer := h.bound .producer
  have hconsumer := h.bound .consumer
  have hprinted : s.printed.length = (s.threads .consumer).index := by
    rw [hd.printed, List.length_map, List.length_range, (hcounted _).2]
  have hp := hwaits .producer
  have hc := hwaits .consumer
  simp only [blocked] at hp hc
  obtain hl | hl := hstop .producer (.inl hfree) <;> obtain hl' | hl' := hstop .consumer (.inl hfree) <;>
    simp only [hl, hl', reduceCtorEq, true_iff, false_iff, Int.not_le, forall_const] at hp hc hproducer hconsumer
  · omega
  · omega
  · omega
  · refine ⟨fun p => ?_, by rw [hprinted]; exact hconsumer⟩
    cases p with
    | producer => exact hl
    | consumer => exact hl'

end Progress

/-- The producer and the consumer pass the bytes on in order, whatever turns they take. -/
theorem buffer_safe (cfg : Config) (hlow : 1 ≤ cfg.bufferSize) (hhigh : cfg.bufferSize ≤ 8192)
    (buffer : Vector Char 8192) (schedule : List Party) :
    Always (step cfg) (Safe cfg) (start cfg buffer) schedule := by
  refine always_of_each (C := fun _ _ => True) (fun s => Control cfg s ∧ Data cfg s)
    (fun s p t h _ ht => step_inv h ht) (fun s h => safe_of_inv hlow hhigh h.1 h.2) (start_inv buffer) ?_
  exact each_of_forall fun _ _ => trivial

theorem buffer_safe_master :
    Always (step master) (Safe master) (start master (.replicate 8192 'x'))
      [.consumer, .consumer, .producer, .producer, .consumer] :=
  buffer_safe master (by decide) (by decide) _ _

end C11AndC.BoundedBuffer
