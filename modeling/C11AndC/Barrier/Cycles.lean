import C11AndC.Barrier.Agreement
import C11AndC.Library.Lists

namespace C11AndC.Barrier

open C11AndC.Library

/-- The `int` that `barrier_wait` keeps of the cycle has the value of the cycle after its sign is extended. -/
def FitsInt (cycle : BitVec 64) : Prop := cycle.toNat < 2 ^ 31 ∨ 2 ^ 64 - 2 ^ 31 ≤ cycle.toNat

instance : DecidablePred FitsInt := fun cycle =>
  inferInstanceAs (Decidable (cycle.toNat < 2 ^ 31 ∨ 2 ^ 64 - 2 ^ 31 ≤ cycle.toNat))

theorem signExtend_truncate (cycle : BitVec 64) : (cycle.truncate 32).signExtend 64 = cycle ↔ FitsInt cycle := by
  have hlt := cycle.isLt
  rw [← BitVec.toInt_inj, BitVec.toInt_signExtend_of_le (by decide), BitVec.toInt_setWidth,
    BitVec.toInt_eq_toNat_bmod, FitsInt]
  simp only [Int.bmod]
  omega

/-- The number of the cycle that call `i` came in, as the barrier has it. -/
def arrivalCycle (n i : Nat) : BitVec 64 := BitVec.ofNat 64 (i / n)

/-- What the test of the loop owes a call that is not the last of its cycle: it holds, and the call is still in the
loop, as long as no cycle has been completed since, and it fails after up to `2 ^ 64 - 1` more cycles. -/
structure Waits (n : Nat) (s : State) : Prop where
  stays : ∀ i c, s.calls[i]? = some c → (i + 1) % n ≠ 0 → s.calls.length / n = i / n →
    sameCycle c.cycle s.barrier = true ∧ ∀ status, c.phase ≠ .returned status
  leaves : ∀ i c, s.calls[i]? = some c → (i + 1) % n ≠ 0 → i / n < s.calls.length / n →
    s.calls.length / n < i / n + 2 ^ 64 → sameCycle c.cycle s.barrier = false

/-- A thread that is not the last of its cycle arrives in a cycle that the copy can hold. -/
def ArrivesInInt (s : State) : Action → Prop
  | .arrive _ => s.barrier.counter ≠ 1 → FitsInt s.barrier.cycle
  | _ => True

instance (s : State) : DecidablePred (ArrivesInInt s)
  | .arrive _ => inferInstanceAs (Decidable (s.barrier.counter ≠ 1 → FitsInt s.barrier.cycle))
  | .wake _ => .isTrue trivial
  | .recheck _ => .isTrue trivial

/-- The counter, the cycle and the copies say how many calls have come, however many these are. -/
structure Counts (n : Nat) (s : State) : Prop where
  valid : s.barrier.valid = barrierValid
  threshold : s.barrier.threshold = n
  counter : s.barrier.counter = n - (s.calls.length % n : Nat)
  cycle : s.barrier.cycle = arrivalCycle n s.calls.length
  calls : ∀ i c, s.calls[i]? = some c → c.cycle = (arrivalCycle n i).truncate 32

section Counting

variable {n : Nat} {s t : State} {a : Action}

theorem counts_init (n : Nat) : Counts n (init n) := by
  refine ⟨rfl, rfl, ?_, ?_, fun i c hc => ?_⟩
  · simp [init, barrierInt]
  · simp [init, barrierInt, arrivalCycle]
  · simp [init] at hc

theorem counts_set {i : Nat} {c : Call} {phase : Phase} (h : Counts n s) (hc : s.calls[i]? = some c) :
    Counts n { s with calls := s.calls.set i { c with phase := phase } } := by
  have hlen : (s.calls.set i { c with phase := phase }).length = s.calls.length := List.length_set
  refine ⟨h.valid, h.threshold, hlen ▸ h.counter, hlen ▸ h.cycle, fun j d hd => ?_⟩
  obtain ⟨rfl, rfl⟩ | ⟨-, hd⟩ := getElem?_set_cases hd
  · exact h.calls j c hc
  · exact h.calls j d hd

/-- The last call of a cycle completes it and wakes the others. -/
theorem arrive_last (h : Counts n s) (hn : 0 < n) (hlast : (s.calls.length + 1) % n = 0) (thread : Nat) :
    arrive thread s = { barrier := { s.barrier with cycle := s.barrier.cycle + 1, counter := n }
                        calls := s.calls.map Call.awaken ++
                          [⟨thread, (arrivalCycle n s.calls.length).truncate 32, .returned (-1)⟩] } := by
  have hcount := h.counter
  have hzero : s.barrier.counter - 1 = 0 := by
    obtain ⟨h₀, -⟩ | ⟨h₀, h₁, -⟩ := succ_cycle (m := s.calls.length) hn
    · omega
    · omega
  rw [arrive, if_pos hzero, h.threshold, h.cycle]

/-- Another call goes through the test of the loop. -/
theorem arrive_notLast (h : Counts n s) (hn : 0 < n) (hlast : (s.calls.length + 1) % n ≠ 0) (thread : Nat) :
    arrive thread s = { barrier := { s.barrier with counter := s.barrier.counter - 1 }
                        calls := s.calls ++ [⟨thread, (arrivalCycle n s.calls.length).truncate 32,
                          waitOrReturn ((arrivalCycle n s.calls.length).truncate 32) s.barrier⟩] } := by
  have hcount := h.counter
  have hne : ¬ s.barrier.counter - 1 = 0 := by
    obtain ⟨-, h₁, -⟩ | ⟨h₀, -, -⟩ := succ_cycle (m := s.calls.length) hn
    · exact absurd h₁ hlast
    · omega
  rw [arrive, if_neg hne, h.cycle]

theorem step_arrive {thread : Nat} (h : Counts n s) (hs : step s (.arrive thread) = some t) :
    t = arrive thread s := by
  simp only [step] at hs
  split_ifs at hs with hin hv
  · exact absurd h.valid hv
  · exact (Option.some.inj hs).symm

theorem counts_arrive (h : Counts n s) (hn : 0 < n) (thread : Nat) : Counts n (arrive thread s) := by
  have hcount := h.counter
  obtain ⟨h₀, h₁, h₂⟩ | ⟨h₀, h₁, h₂⟩ := succ_cycle (m := s.calls.length) hn
  · rw [arrive_last h hn h₁]
    refine ⟨h.valid, h.threshold, ?_, ?_, fun i c hc => ?_⟩
    · simp only [List.length_append, List.length_map, List.length_singleton, h₁]
      omega
    · simp only [List.length_append, List.length_map, List.length_singleton, arrivalCycle, h₂, h.cycle]
      exact (BitVec.ofNat_add _ 1).symm
    · obtain hc | ⟨rfl, rfl⟩ := getElem?_snoc_cases hc
      · rw [List.getElem?_map] at hc
        obtain ⟨d, hd, rfl⟩ := Option.map_eq_some_iff.mp hc
        rw [awaken_cycle]
        exact h.calls i d hd
      · rw [List.length_map]
  · rw [arrive_notLast h hn (by omega)]
    refine ⟨h.valid, h.threshold, ?_, ?_, fun i c hc => ?_⟩
    · simp only [List.length_append, List.length_singleton, h₁]
      omega
    · simp only [List.length_append, List.length_singleton, arrivalCycle, h₂]
      exact h.cycle
    · obtain hc | ⟨rfl, rfl⟩ := getElem?_snoc_cases hc
      · exact h.calls i c hc
      · rfl

/-- The copy of a call that came in a cycle it can hold tells this cycle from the next `2 ^ 64 - 1`. -/
theorem sameCycle_iff {i : Nat} {c : Call} (h : Counts n s) (hc : s.calls[i]? = some c)
    (hfits : FitsInt (arrivalCycle n i)) (hfar : s.calls.length / n < i / n + 2 ^ 64) :
    sameCycle c.cycle s.barrier = true ↔ s.calls.length / n = i / n := by
  have hle : i / n ≤ s.calls.length / n := Nat.div_le_div_right (Nat.le_of_lt (lt_of_call hc))
  rw [sameCycle, h.calls i c hc, (signExtend_truncate _).mpr hfits, h.cycle, beq_iff_eq, arrivalCycle, arrivalCycle,
    ← BitVec.toNat_inj, BitVec.toNat_ofNat, BitVec.toNat_ofNat]
  omega

end Counting

/-- What holds in the runs in which every thread arrives in a cycle that the copy can hold. -/
structure Kept (n : Nat) (s : State) : Prop where
  counts : Counts n s
  fits : ∀ i c, s.calls[i]? = some c → (i + 1) % n ≠ 0 → FitsInt (arrivalCycle n i)
  inside : ∀ i c, s.calls[i]? = some c → (i + 1) % n ≠ 0 → s.calls.length / n = i / n →
    ∀ status, c.phase ≠ .returned status

section Waiting

variable {n : Nat} {s t : State} {a : Action}

theorem waits_of_kept (h : Kept n s) : Waits n s := by
  refine ⟨fun i c hc hi hm => ⟨?_, h.inside i c hc hi hm⟩, fun i c hc hi hm hfar => ?_⟩
  · exact (sameCycle_iff h.counts hc (h.fits i c hc hi) (by omega)).mpr hm
  · rw [← Bool.not_eq_true, sameCycle_iff h.counts hc (h.fits i c hc hi) hfar]
    omega

theorem kept_init (n : Nat) : Kept n (init n) :=
  ⟨counts_init n, fun i c hc => by simp [init] at hc, fun i c hc => by simp [init] at hc⟩

theorem kept_set {i : Nat} {c : Call} {phase : Phase} (h : Kept n s) (hc : s.calls[i]? = some c)
    (hp : (i + 1) % n ≠ 0 → s.calls.length / n = i / n → ∀ status, phase ≠ .returned status) :
    Kept n { s with calls := s.calls.set i { c with phase := phase } } := by
  have hlen : (s.calls.set i { c with phase := phase }).length = s.calls.length := List.length_set
  refine ⟨counts_set h.counts hc, fun j d hd => ?_, fun j d hd hj hm => ?_⟩
  · obtain ⟨rfl, -⟩ | ⟨-, hd⟩ := getElem?_set_cases hd
    · exact h.fits j c hc
    · exact h.fits j d hd
  · simp only [hlen] at hm
    obtain ⟨rfl, rfl⟩ | ⟨-, hd⟩ := getElem?_set_cases hd
    · exact hp hj hm
    · exact h.inside j d hd hj hm

theorem kept_arrive (h : Kept n s) (hn : 0 < n) {thread : Nat} (hfit : ArrivesInInt s (.arrive thread)) :
    Kept n (arrive thread s) := by
  have hcounts := counts_arrive h.counts hn thread
  obtain ⟨h₀, h₁, h₂⟩ | ⟨h₀, h₁, h₂⟩ := succ_cycle (m := s.calls.length) hn
  · rw [arrive_last h.counts hn h₁] at hcounts ⊢
    refine ⟨hcounts, fun i c hc hi => ?_, fun i c hc hi hm => ?_⟩
    · obtain hc | ⟨rfl, -⟩ := getElem?_snoc_cases hc
      · rw [List.getElem?_map] at hc
        obtain ⟨d, hd, -⟩ := Option.map_eq_some_iff.mp hc
        exact h.fits i d hd hi
      · rw [List.length_map] at hi
        exact absurd h₁ hi
    · simp only [List.length_append, List.length_map, List.length_singleton] at hm
      have hlt := lt_of_call (s := ⟨s.barrier, _⟩) hc
      simp only [List.length_append, List.length_map, List.length_singleton] at hlt
      have hle : i / n ≤ s.calls.length / n := Nat.div_le_div_right (Nat.le_of_lt_succ hlt)
      omega
  · have hcount := h.counts.counter
    have hcycle : FitsInt (arrivalCycle n s.calls.length) := by
      rw [← h.counts.cycle]
      exact hfit (by omega)
    rw [arrive_notLast h.counts hn (by omega)] at hcounts ⊢
    refine ⟨hcounts, fun i c hc hi => ?_, fun i c hc hi hm => ?_⟩
    · obtain hc | ⟨rfl, -⟩ := getElem?_snoc_cases hc
      · exact h.fits i c hc hi
      · exact hcycle
    · simp only [List.length_append, List.length_singleton, h₂] at hm
      obtain hc | ⟨rfl, rfl⟩ := getElem?_snoc_cases hc
      · exact h.inside i c hc hi hm
      · have hsame : sameCycle ((arrivalCycle n s.calls.length).truncate 32) s.barrier = true := by
          rw [sameCycle, (signExtend_truncate _).mpr hcycle, h.counts.cycle, beq_self_eq_true]
        rw [waitOrReturn, if_pos hsame]
        exact fun _ => Phase.noConfusion

theorem kept_step (h : Kept n s) (hn : 0 < n) (hfit : ArrivesInInt s a) (hs : step s a = some t) : Kept n t := by
  obtain ⟨thread, rfl, rfl | rfl⟩ | ⟨i, c, -, hc, -, rfl⟩ | ⟨i, c, -, hc, -, rfl⟩ := step_cases hs
  · exact h
  · exact kept_arrive h hn hfit
  · exact kept_set h hc fun _ _ _ => Phase.noConfusion
  · refine kept_set h hc fun hi hm => ?_
    have hsame := (sameCycle_iff h.counts hc (h.fits i c hc hi) (by omega)).mpr hm
    rw [waitOrReturn, if_pos hsame]
    exact fun _ => Phase.noConfusion

/-- If the call that arrives waits, its copy holds the cycle. -/
theorem arrivesInInt_of_waits (h : Counts n s) (hn : 0 < n) (hs : step s a = some t) (ht : Waits n t) :
    ArrivesInInt s a := by
  cases a with
  | arrive thread =>
    intro hne
    obtain rfl := step_arrive h hs
    have hcount := h.counter
    obtain ⟨h₀, -⟩ | ⟨h₀, h₁, h₂⟩ := succ_cycle (m := s.calls.length) hn
    · omega
    · rw [arrive_notLast h hn (by omega)] at ht
      have hnew := (ht.stays s.calls.length _ List.getElem?_concat_length (by omega) (by simpa using h₂)).1
      rw [sameCycle, beq_iff_eq, h.cycle] at hnew
      rw [h.cycle]
      exact (signExtend_truncate _).mp hnew
  | wake i => trivial
  | recheck i => trivial

end Waiting

/-- The calls of a run wait as they should exactly if no thread but the last of a cycle arrives in a cycle that the
copy cannot hold. -/
theorem barrier_waits_iff (n : Nat) (hn : 1 ≤ n) (as : List Action) :
    Always step (Waits n) (init n) as ↔ Each step ArrivesInInt (init n) as := by
  apply always_iff_each (Kept n) _ (fun s => waits_of_kept) _ (kept_init n)
  · exact fun s a t h hc hs => kept_step h hn hc hs
  · exact fun s a t h hs ht => arrivesInInt_of_waits h.counts hn hs ht

theorem barrier_waits_reenter :
    Always step (Waits 2) (init 2) [.arrive 0, .arrive 1, .arrive 1, .recheck 0, .wake 2, .recheck 2] :=
  (barrier_waits_iff 2 (by decide) [.arrive 0, .arrive 1, .arrive 1, .recheck 0, .wake 2, .recheck 2]).mpr (by decide)

/-- Two threads go through `c` cycles one after the other. -/
def rounds : Nat → List Action
  | 0 => []
  | c + 1 => rounds c ++ [.arrive 0, .arrive 1, .recheck (2 * c)]

def oldCalls : Nat → List Call
  | 0 => []
  | c + 1 => oldCalls c ++ [⟨0, BitVec.ofNat 32 c, .returned 0⟩, ⟨1, BitVec.ofNat 32 c, .returned (-1)⟩]

def after (c : Nat) : State := ⟨⟨barrierValid, 2, 2, BitVec.ofNat 64 c⟩, oldCalls c⟩

section Rounds

variable {c : Nat}

theorem length_oldCalls (c : Nat) : (oldCalls c).length = 2 * c := by
  induction c with
  | zero => rfl
  | succ c ih =>
    rw [oldCalls, List.length_append, ih]
    rfl

theorem returned_oldCalls {x : Call} (hx : x ∈ oldCalls c) : ∃ status, x.phase = .returned status := by
  induction c with
  | zero => exact absurd hx List.not_mem_nil
  | succ c ih =>
    rw [oldCalls, List.mem_append, List.mem_cons, List.mem_singleton] at hx
    obtain hx | rfl | rfl := hx
    · exact ih hx
    · exact ⟨_, rfl⟩
    · exact ⟨_, rfl⟩

theorem any_oldCalls (c thread : Nat) : (oldCalls c).any (Call.inside thread) = false := by
  refine List.any_eq_false.mpr fun x hx => ?_
  obtain ⟨status, hp⟩ := returned_oldCalls hx
  simp [Call.inside, hp]

theorem awaken_oldCalls (c : Nat) : (oldCalls c).map Call.awaken = oldCalls c := by
  refine (List.map_congr_left fun x hx => ?_).trans (List.map_id _)
  obtain ⟨status, hp⟩ := returned_oldCalls hx
  rw [Call.awaken, if_neg (by rw [hp]; exact Phase.noConfusion)]
  rfl

theorem waitOrReturn_ofNat {d : Nat} {b : BarrierT} (hc : c < 2 ^ 31) (hd : d < 2 ^ 64)
    (hb : b.cycle = BitVec.ofNat 64 d) :
    waitOrReturn (BitVec.ofNat 32 c) b = if c = d then .asleep else .returned 0 := by
  have hfits : FitsInt (BitVec.ofNat 64 c) := Or.inl (by rw [BitVec.toNat_ofNat]; omega)
  have hsame : sameCycle (BitVec.ofNat 32 c) b = true ↔ c = d := by
    rw [sameCycle, hb, ← truncate_ofNat, (signExtend_truncate _).mpr hfits, beq_iff_eq, ← BitVec.toNat_inj,
      BitVec.toNat_ofNat, BitVec.toNat_ofNat]
    omega
  simp only [waitOrReturn, hsame]

theorem step_first (c : Nat) : step (after c) (.arrive 0) = some ⟨⟨barrierValid, 2, 1, BitVec.ofNat 64 c⟩,
    oldCalls c ++ [⟨0, BitVec.ofNat 32 c, waitOrReturn (BitVec.ofNat 32 c) (after c).barrier⟩]⟩ := by
  have hfree : (after c).calls.any (Call.inside 0) = false := any_oldCalls c 0
  have hvalid : ¬ (after c).barrier.valid ≠ barrierValid := fun h => h rfl
  rw [step, hfree, if_neg Bool.false_ne_true, if_neg hvalid, arrive]
  rw [if_neg (show ¬ (after c).barrier.counter - 1 = 0 from (by decide : ¬ (2 : Int) - 1 = 0))]
  simp only [after, truncate_ofNat]
  rfl

theorem step_second (c : Nat) : step ⟨⟨barrierValid, 2, 1, BitVec.ofNat 64 c⟩,
    oldCalls c ++ [⟨0, BitVec.ofNat 32 c, .asleep⟩]⟩ (.arrive 1) =
    some ⟨⟨barrierValid, 2, 2, BitVec.ofNat 64 (c + 1)⟩,
      oldCalls c ++ [⟨0, BitVec.ofNat 32 c, .woken⟩, ⟨1, BitVec.ofNat 32 c, .returned (-1)⟩]⟩ := by
  have hfree : (oldCalls c ++ [(⟨0, BitVec.ofNat 32 c, .asleep⟩ : Call)]).any (Call.inside 1) = false := by
    rw [List.any_append, any_oldCalls]
    rfl
  have hvalid : ¬ barrierValid ≠ barrierValid := fun h => h rfl
  rw [step, hfree, if_neg Bool.false_ne_true, if_neg hvalid, arrive]
  rw [if_pos (show (1 : Int) - 1 = 0 by decide)]
  simp only [List.map_append, awaken_oldCalls, truncate_ofNat, List.append_assoc]
  rw [BitVec.ofNat_add]
  rfl

theorem step_third (hc : c < 2 ^ 31) : step ⟨⟨barrierValid, 2, 2, BitVec.ofNat 64 (c + 1)⟩,
    oldCalls c ++ [⟨0, BitVec.ofNat 32 c, .woken⟩, ⟨1, BitVec.ofNat 32 c, .returned (-1)⟩]⟩ (.recheck (2 * c)) =
    some (after (c + 1)) := by
  have hwait := waitOrReturn_ofNat (d := c + 1)
    (b := ⟨barrierValid, 2, 2, BitVec.ofNat 64 (c + 1)⟩) hc (by omega) rfl
  rw [if_neg (by omega)] at hwait
  have hget : (oldCalls c ++ [⟨0, BitVec.ofNat 32 c, .woken⟩, ⟨1, BitVec.ofNat 32 c, .returned (-1)⟩])[2 * c]? =
      some ⟨0, BitVec.ofNat 32 c, .woken⟩ := by
    rw [← length_oldCalls c, List.getElem?_append_right (Nat.le_refl _), Nat.sub_self]
    rfl
  simp only [step, hget, Option.bind_eq_bind, Option.bind_some, if_true, hwait, after, oldCalls]
  rw [← length_oldCalls c, List.set_append_right _ _ (Nat.le_refl _), Nat.sub_self]
  rfl

theorem run_rounds (hc : c ≤ 2 ^ 31) : run step (init 2) (rounds c) = some (after c) := by
  induction c with
  | zero => rfl
  | succ c ih =>
    rw [rounds, run_append]
    refine ⟨after c, ih (by omega), ?_⟩
    have hwait := waitOrReturn_ofNat (c := c) (d := c) (b := (after c).barrier) hc (by omega) rfl
    rw [if_pos rfl] at hwait
    simp only [run, step_first, hwait, step_second, step_third (show c < 2 ^ 31 from hc), Option.bind_some]

/-- The thread that arrives in cycle `2 ^ 31` does not wait. -/
theorem run_last (hc : c = 2 ^ 31) : ∃ s, run step (init 2) (rounds c ++ [.arrive 0]) = some s ∧
    s.calls[2 * c]? = some ⟨0, BitVec.ofNat 32 c, .returned 0⟩ ∧ s.calls.length = 2 * c + 1 := by
  have hreturn : waitOrReturn (BitVec.ofNat 32 c) (after c).barrier = .returned 0 := by
    subst hc
    decide
  refine ⟨⟨⟨barrierValid, 2, 1, BitVec.ofNat 64 c⟩, oldCalls c ++ [⟨0, BitVec.ofNat 32 c, .returned 0⟩]⟩, ?_, ?_, ?_⟩
  · rw [run_append]
    refine ⟨after c, run_rounds (by omega), ?_⟩
    rw [run, step_first, hreturn]
    rfl
  · rw [← length_oldCalls c, List.getElem?_append_right (Nat.le_refl _), Nat.sub_self]
    rfl
  · rw [List.length_append, length_oldCalls]
    rfl

theorem notWaits_rounds (hc : c = 2 ^ 31) : ¬ Always step (Waits 2) (init 2) (rounds c ++ [.arrive 0]) := by
  intro h
  obtain ⟨s, hrun, hcall, hlen⟩ := run_last hc
  have hstays := (always_run h hrun).stays (2 * c) _ hcall (by omega) (by rw [hlen]; omega)
  exact hstays.2 0 rfl

end Rounds

/-- In cycle `2 ^ 31` the copy is negative: the first of two threads returns before the other arrives. -/
theorem barrier_waits_long : ¬ Always step (Waits 2) (init 2) (rounds (2 ^ 31) ++ [.arrive 0]) :=
  notWaits_rounds rfl

end C11AndC.Barrier
