import C11AndC.Barrier.Model
import C11AndC.Library.Lists
import Mathlib.Algebra.Ring.Nat
import Mathlib.Data.Nat.Basic
import Mathlib.Tactic.SplitIfs

namespace C11AndC.Barrier

open C11AndC.Library

/-- The phase of call `i` after `m` calls, for cycles of `n` calls each. -/
def PhaseOk (n m i : Nat) : Phase → Prop
  | .asleep => i / n = m / n
  | .woken => (i + 1) % n ≠ 0
  | .returned status => i / n < m / n ∧ status = if (i + 1) % n = 0 then -1 else 0

/-- The counter and the cycle say how many calls have come, and every call is as far as
the calls behind it allow. -/
structure Inv (n : Nat) (s : State) : Prop where
  valid : s.barrier.valid = barrierValid
  threshold : s.barrier.threshold = n
  counter : s.barrier.counter = n - (s.calls.length % n : Nat)
  cycle : s.barrier.cycle = BitVec.ofNat 64 (s.calls.length / n)
  calls : ∀ i c, s.calls[i]? = some c →
    c.cycle = BitVec.ofNat 32 (i / n) ∧ PhaseOk n s.calls.length i c.phase

section Cycles

/-- Two cycles that an `int` can hold are told apart. -/
theorem signExtend_ofNat {c d : Nat} (hc : c < 2 ^ 31) (hd : d < 2 ^ 31) :
    ((BitVec.ofNat 32 c).signExtend 64 == BitVec.ofNat 64 d) = true ↔ c = d := by
  rw [beq_iff_eq]
  have hmsb : (BitVec.ofNat 32 c).msb = false := by
    rw [BitVec.msb_eq_decide]
    simp
    omega
  rw [BitVec.signExtend_eq_setWidth_of_msb_false hmsb]
  rw [← BitVec.toNat_inj]
  simp
  omega

theorem truncate_ofNat (c : Nat) :
    (BitVec.ofNat 64 c).truncate 32 = BitVec.ofNat 32 c := by
  apply BitVec.eq_of_toNat_eq
  simp

/-- The call behind `m` others begins a new cycle, or it belongs to that of the one before. -/
theorem succ_cycle {n m : Nat} (hn : 0 < n) :
    (m % n + 1 = n ∧ (m + 1) % n = 0 ∧ (m + 1) / n = m / n + 1) ∨
      (m % n + 1 < n ∧ (m + 1) % n = m % n + 1 ∧ (m + 1) / n = m / n) := by
  have hlt := Nat.mod_lt m hn
  have hm := Nat.div_add_mod m n
  by_cases h : m % n + 1 = n
  · have heq : m + 1 = n * (m / n + 1) := by
      rw [Nat.mul_add, Nat.mul_one]
      omega
    refine .inl ⟨h, ?_, ?_⟩
    · rw [heq, Nat.mul_mod_right]
    · rw [heq, Nat.mul_div_cancel_left _ hn]
  · have hlt' : m % n + 1 < n := by omega
    have heq : m + 1 = (m % n + 1) + n * (m / n) := by omega
    refine .inr ⟨hlt', ?_, ?_⟩
    · rw [heq, Nat.add_mul_mod_self_left, Nat.mod_eq_of_lt hlt']
    · rw [heq, Nat.add_mul_div_left _ _ hn, Nat.div_eq_of_lt hlt', Nat.zero_add]

/-- A call with another one behind it in its cycle is not the last. -/
theorem not_last {n m i : Nat} (hn : 0 < n) (hi : i < m) (h : i / n = m / n) :
    (i + 1) % n ≠ 0 := by
  intro h0
  have hle : (i + 1) / n ≤ m / n := Nat.div_le_div_right hi
  obtain ⟨-, -, h₂⟩ | ⟨-, h₁, -⟩ := succ_cycle (m := i) hn
  · omega
  · omega

end Cycles

section Steps

variable {n : Nat} {s t : State}

theorem inv_set {i : Nat} {c : Call} {phase : Phase} (h : Inv n s) (hc : s.calls[i]? = some c)
    (hp : PhaseOk n s.calls.length i phase) :
    Inv n { s with calls := s.calls.set i { c with phase := phase } } := by
  refine ⟨h.valid, h.threshold, ?_, ?_, fun j d hd => ?_⟩
  · rw [List.length_set]
    exact h.counter
  · rw [List.length_set]
    exact h.cycle
  · rw [List.length_set]
    by_cases hij : i = j
    · subst hij
      obtain ⟨hlt, -⟩ := List.getElem?_eq_some_iff.mp hc
      simp only [List.getElem?_set_self hlt, Option.some.injEq] at hd
      rw [← hd]
      exact ⟨(h.calls i c hc).1, hp⟩
    · simp only [List.getElem?_set_ne hij] at hd
      exact h.calls j d hd

theorem lt_of_call {i : Nat} {c : Call} (hc : s.calls[i]? = some c) : i < s.calls.length :=
  (List.getElem?_eq_some_iff.mp hc).1

/-- The test of the loop compares the cycle of the call with the present one. -/
theorem phaseOk_recheck {i : Nat} {c : Call} (hb : s.calls.length / n < 2 ^ 31)
    (h : Inv n s) (hc : s.calls[i]? = some c) (hp : (i + 1) % n ≠ 0) :
    PhaseOk n s.calls.length i (waitOrReturn c.cycle s.barrier) ∧
      (i / n < s.calls.length / n → waitOrReturn c.cycle s.barrier = .returned 0) := by
  have hle : i / n ≤ s.calls.length / n := Nat.div_le_div_right (Nat.le_of_lt (lt_of_call hc))
  have hsame : sameCycle c.cycle s.barrier = true ↔ i / n = s.calls.length / n := by
    rw [sameCycle, (h.calls i c hc).1, h.cycle]
    exact signExtend_ofNat (by omega) hb
  unfold waitOrReturn
  split_ifs with hs
  · have heq := hsame.mp hs
    exact ⟨heq, fun hlt => absurd heq (Nat.ne_of_lt hlt)⟩
  · have hne := mt hsame.mpr hs
    refine ⟨⟨by omega, ?_⟩, fun _ => rfl⟩
    rw [if_neg hp]

theorem awaken_cycle (c : Call) : c.awaken.cycle = c.cycle := by
  unfold Call.awaken
  split_ifs
  · rfl
  · rfl

/-- A broadcast at the end of a cycle leaves nobody asleep. -/
theorem phaseOk_awaken {m i : Nat} {c : Call} (hn : 0 < n) (hi : i < m)
    (hm : (m + 1) / n = m / n + 1) (h : PhaseOk n m i c.phase) :
    PhaseOk n (m + 1) i c.awaken.phase := by
  unfold Call.awaken
  split_ifs with ha
  · rw [ha] at h
    exact not_last hn hi h
  · cases hp : c.phase with
    | asleep => exact absurd hp ha
    | woken =>
      rw [hp] at h
      exact h
    | returned status =>
      rw [hp] at h
      refine ⟨?_, h.2⟩
      have := h.1
      omega

/-- A call that does not end a cycle changes nothing for the others. -/
theorem phaseOk_same {m i : Nat} {p : Phase} (hm : (m + 1) / n = m / n) (h : PhaseOk n m i p) :
    PhaseOk n (m + 1) i p := by
  cases p with
  | asleep => exact h.trans hm.symm
  | woken => exact h
  | returned status =>
    refine ⟨?_, h.2⟩
    rw [hm]
    exact h.1

theorem inv_arrive (hn : 0 < n) (hb : s.calls.length / n < 2 ^ 31) (h : Inv n s) (thread : Nat) :
    Inv n (arrive thread s) := by
  have hcount := h.counter
  have hcyc : s.barrier.cycle.truncate 32 = BitVec.ofNat 32 (s.calls.length / n) := by
    rw [h.cycle, truncate_ofNat]
  unfold arrive
  obtain ⟨h₀, h₁, h₂⟩ | ⟨h₀, h₁, h₂⟩ := succ_cycle (m := s.calls.length) hn
  · have hz : s.barrier.counter - 1 = 0 := by omega
    rw [if_pos hz]
    refine ⟨h.valid, h.threshold, ?_, ?_, fun i c hc => ?_⟩
    · simp only [List.length_append, List.length_map, List.length_singleton, h₁, h.threshold]
      rfl
    · simp only [List.length_append, List.length_map, List.length_singleton, h₂, h.cycle]
      exact (BitVec.ofNat_add _ 1).symm
    · simp only [List.length_append, List.length_map, List.length_singleton]
      obtain hc | ⟨rfl, rfl⟩ := getElem?_snoc_cases hc
      · rw [List.getElem?_map, Option.map_eq_some_iff] at hc
        obtain ⟨d, hd, rfl⟩ := hc
        obtain ⟨hdc, hdp⟩ := h.calls i d hd
        exact ⟨by rw [awaken_cycle, hdc], phaseOk_awaken hn (lt_of_call hd) h₂ hdp⟩
      · rw [List.length_map]
        refine ⟨hcyc, ?_, ?_⟩
        · omega
        · rw [if_pos h₁]
  · have hz : ¬ s.barrier.counter - 1 = 0 := by omega
    have hsame : sameCycle (s.barrier.cycle.truncate 32) s.barrier = true := by
      rw [sameCycle, hcyc, h.cycle]
      exact (signExtend_ofNat hb hb).mpr rfl
    rw [if_neg hz]
    refine ⟨h.valid, h.threshold, ?_, ?_, fun i c hc => ?_⟩
    · simp only [List.length_append, List.length_singleton, h₁]
      omega
    · simp only [List.length_append, List.length_singleton, h₂]
      exact h.cycle
    · simp only [List.length_append, List.length_singleton]
      obtain hc | ⟨rfl, rfl⟩ := getElem?_snoc_cases hc
      · obtain ⟨hcc, hcp⟩ := h.calls i c hc
        exact ⟨hcc, phaseOk_same h₂ hcp⟩
      · refine ⟨hcyc, ?_⟩
        simp only [waitOrReturn, hsame, ↓reduceIte]
        exact h₂.symm

theorem length_arrive (thread : Nat) : (arrive thread s).calls.length = s.calls.length + 1 := by
  simp only [arrive]
  split_ifs
  · simp
  · simp

theorem step_cases {a : Action} (h : step s a = some t) :
    (∃ thread, a = .arrive thread ∧ (t = s ∨ t = arrive thread s)) ∨
    (∃ i c, a = .wake i ∧ s.calls[i]? = some c ∧ c.phase = .asleep ∧
      t = { s with calls := s.calls.set i { c with phase := .woken } }) ∨
    (∃ i c, a = .recheck i ∧ s.calls[i]? = some c ∧ c.phase = .woken ∧
      t = { s with calls := s.calls.set i { c with phase := waitOrReturn c.cycle s.barrier } }) := by
  cases a with
  | arrive thread =>
    refine .inl ⟨thread, rfl, ?_⟩
    simp only [step] at h
    split_ifs at h with hin hv
    · exact .inl (Option.some.inj h).symm
    · exact .inr (Option.some.inj h).symm
  | wake i =>
    obtain ⟨c, hc, h⟩ := Option.bind_eq_some_iff.mp h
    split_ifs at h with hp
    exact .inr (.inl ⟨i, c, rfl, hc, hp, (Option.some.inj h).symm⟩)
  | recheck i =>
    obtain ⟨c, hc, h⟩ := Option.bind_eq_some_iff.mp h
    split_ifs at h with hp
    exact .inr (.inr ⟨i, c, rfl, hc, hp, (Option.some.inj h).symm⟩)

theorem length_step {a : Action} (h : step s a = some t) : s.calls.length ≤ t.calls.length := by
  obtain ⟨thread, -, rfl | rfl⟩ | ⟨i, c, -, -, -, rfl⟩ | ⟨i, c, -, -, -, rfl⟩ := step_cases h
  · exact Nat.le_refl _
  · rw [length_arrive]
    exact Nat.le_succ _
  · rw [List.length_set]
  · rw [List.length_set]

/-- A step keeps the invariant as long as an `int` can count the cycles. -/
theorem inv_step {a : Action} (hn : 0 < n) (h : Inv n s) (hs : step s a = some t)
    (hb : t.calls.length / n < 2 ^ 31) : Inv n t := by
  have hb' : s.calls.length / n < 2 ^ 31 :=
    Nat.lt_of_le_of_lt (Nat.div_le_div_right (length_step hs)) hb
  obtain ⟨thread, -, rfl | rfl⟩ | ⟨i, c, -, hc, hp, rfl⟩ | ⟨i, c, -, hc, hp, rfl⟩ := step_cases hs
  · exact h
  · exact inv_arrive hn hb' h thread
  · have hphase := (h.calls i c hc).2
    rw [hp] at hphase
    exact inv_set h hc (not_last hn (lt_of_call hc) hphase)
  · have hphase := (h.calls i c hc).2
    rw [hp] at hphase
    exact inv_set h hc (phaseOk_recheck hb' h hc hphase).1

end Steps

theorem inv_init {n : Nat} : Inv n (init n) := by
  refine ⟨rfl, rfl, ?_, ?_, fun i c hc => ?_⟩
  · simp [init, barrierInt]
  · simp [init, barrierInt]
  · simp [init] at hc

theorem inv_run {n : Nat} {s t : State} {as : List Action} (hn : 0 < n) (h : Inv n s)
    (hr : run step s as = some t) (hb : t.calls.length / n < 2 ^ 31) : Inv n t := by
  refine run_invariant (fun u => u.calls.length / n < 2 ^ 31 → Inv n u) ?_ (fun _ => h) hr hb
  intro u a v hu hv hlt
  have hlt' := Nat.lt_of_le_of_lt (Nat.div_le_div_right (c := n) (length_step hv)) hlt
  exact inv_step hn (hu hlt') hv hlt

/-- What a barrier for `n` threads owes its callers. Call `i`, counted from zero, belongs
to cycle `i / n`. -/
structure Agreement (n : Nat) (s : State) : Prop where
  cycle : ∀ i c, s.calls[i]? = some c → c.cycle.toNat = i / n
  counter : 1 ≤ s.barrier.counter ∧ s.barrier.counter ≤ s.barrier.threshold
  returned : ∀ i c status, s.calls[i]? = some c → c.phase = .returned status →
    (i / n + 1) * n ≤ s.calls.length ∧ status = if (i + 1) % n = 0 then -1 else 0
  last : ∀ k, (k + 1) * n ≤ s.calls.length →
    ∃ c, s.calls[(k + 1) * n - 1]? = some c ∧ c.phase = .returned (-1)
  released : ∀ i c, s.calls[i]? = some c → (i / n + 1) * n ≤ s.calls.length →
    (∃ status, c.phase = .returned status) ∨ c.phase = .woken ∧
      step s (.recheck i) = some { s with calls := s.calls.set i { c with phase := .returned 0 } }

theorem agreement_of_inv {n : Nat} {s : State} (hn : 0 < n) (hb : s.calls.length / n < 2 ^ 31)
    (h : Inv n s) : Agreement n s := by
  have hdone : ∀ i, i / n < s.calls.length / n ↔ (i / n + 1) * n ≤ s.calls.length := by
    intro i
    rw [← Nat.le_div_iff_mul_le hn]
    exact Iff.rfl
  have hmod := Nat.mod_lt s.calls.length hn
  have hcount := h.counter
  have hthr := h.threshold
  refine ⟨fun i c hc => ?_, ⟨by omega, by omega⟩, fun i c status hc hp => ?_, fun k hk => ?_,
    fun i c hc hle => ?_⟩
  · have hle : i / n ≤ s.calls.length / n := Nat.div_le_div_right (Nat.le_of_lt (lt_of_call hc))
    rw [(h.calls i c hc).1, BitVec.toNat_ofNat, Nat.mod_eq_of_lt (by omega)]
  · have hphase := (h.calls i c hc).2
    rw [hp] at hphase
    exact ⟨(hdone i).mp hphase.1, hphase.2⟩
  · have hpos : 0 < (k + 1) * n := Nat.mul_pos (Nat.succ_pos k) hn
    have hi : (k + 1) * n - 1 < s.calls.length := by omega
    have hmod0 : ((k + 1) * n - 1 + 1) % n = 0 := by
      rw [Nat.sub_add_cancel hpos, Nat.mul_mod_left]
    have hc := List.getElem?_eq_getElem hi
    refine ⟨_, hc, ?_⟩
    have hphase := (h.calls _ _ hc).2
    cases hp : (s.calls[(k + 1) * n - 1]).phase with
    | asleep =>
      rw [hp] at hphase
      exact absurd hmod0 (not_last hn hi hphase)
    | woken =>
      rw [hp] at hphase
      exact absurd hmod0 hphase
    | returned status =>
      rw [hp] at hphase
      rw [hphase.2, if_pos hmod0]
  · have hphase := (h.calls i c hc).2
    have hlt := (hdone i).mpr hle
    cases hp : c.phase with
    | asleep =>
      rw [hp] at hphase
      exact absurd hphase (Nat.ne_of_lt hlt)
    | woken =>
      rw [hp] at hphase
      refine .inr ⟨rfl, ?_⟩
      simp only [step, hc, Option.bind_eq_bind, Option.bind_some, hp, ↓reduceIte,
        (phaseOk_recheck hb h hc hphase).2 hlt]
      rfl
    | returned status => exact .inl ⟨status, rfl⟩

/-- Whatever threads call the barrier and whoever is woken when, the barrier keeps to its
cycles, as long as fewer than `2 ^ 31` of them are complete. -/
theorem barrier_agreement (n : Nat) (hn : 1 ≤ n) (as : List Action) (s : State)
    (hr : run step (init n) as = some s) (hb : s.calls.length / n < 2 ^ 31) : Agreement n s :=
  agreement_of_inv hn hb (inv_run hn inv_init hr hb)

/-- A thread comes back for the next cycle before the other one has left the first. -/
theorem barrier_agreement_reenter :
    ∃ s, run step (init 2) [.arrive 0, .arrive 1, .arrive 1, .recheck 0] = some s ∧
      s.calls.map Call.phase = [.returned 0, .returned (-1), .asleep] ∧ Agreement 2 s :=
  ⟨_, rfl, rfl, barrier_agreement 2 (by decide) [.arrive 0, .arrive 1, .arrive 1, .recheck 0] _ rfl
    (by decide)⟩
end C11AndC.Barrier
