import C11AndC.Library.Runs
import Mathlib.Algebra.Order.Ring.Nat

namespace C11AndC.Library

variable {σ α : Type} {step : σ → α → Option σ}

/-- The measure `μ` says how much is left to do in a state with the invariant `I`. The steps that are
`work` lower it, and any other step raises it by `c` at most. -/
structure Descends (step : σ → α → Option σ) (work : α → Bool) (I : σ → Prop) (c : Nat) (μ : σ → Nat) :
    Prop where
  keep : ∀ s a t, I s → step s a = some t → I t
  down : ∀ s a t, I s → step s a = some t → work a = true → μ t < μ s
  up : ∀ s a t, I s → step s a = some t → work a = false → μ t ≤ μ s + c

/-- No step that is work can be taken. -/
def Stuck (step : σ → α → Option σ) (work : α → Bool) (s : σ) : Prop :=
  ∀ a, work a = true → step s a = none

namespace Descends

variable {work : α → Bool} {I : σ → Prop} {c : Nat} {μ : σ → Nat} {s t : σ} {as : List α}

theorem run_keep (h : Descends step work I c μ) (hs : I s) (hr : run step s as = some t) : I t :=
  run_invariant I h.keep hs hr

/-- A run does no more work than was left, and what the steps that are `calls` have added. -/
theorem run_le_calls (calls : α → Bool) (h : Descends step work I c μ)
    (hfree : ∀ s a t, I s → step s a = some t → work a = false → calls a = false → μ t ≤ μ s)
    (hs : I s) (hr : run step s as = some t) : as.countP work + μ t ≤ μ s + c * as.countP calls := by
  induction as generalizing s with
  | nil =>
    cases hr
    simp
  | cons a as ih =>
    obtain ⟨u, hu, ht⟩ := run_cons.mp hr
    have hrest := ih (h.keep s a u hs hu) ht
    rw [List.countP_cons, List.countP_cons, Nat.mul_add]
    cases ha : work a with
    | true =>
      have hdown := h.down s a u hs hu ha
      simp only [if_true]
      omega
    | false =>
      cases hcall : calls a with
      | true =>
        have hup := h.up s a u hs hu ha
        simp only [if_true, Bool.false_eq_true, if_false]
        omega
      | false =>
        have hle := hfree s a u hs hu ha hcall
        simp only [Bool.false_eq_true, if_false]
        omega

/-- Where nothing is known of the steps that are not work, each of them may be a call. -/
theorem run_le (h : Descends step work I c μ) (hs : I s) (hr : run step s as = some t) :
    as.countP work + μ t ≤ μ s + c * as.countP (fun a => !work a) := by
  apply h.run_le_calls (fun a => !work a) _ hs hr
  intro s a t _ _ ha hno
  rw [ha] at hno
  cases hno

/-- Where every step is work, no run is longer than the measure of its first state. -/
theorem run_length (h : Descends step (fun _ => true) I c μ) (hs : I s) (hr : run step s as = some t) :
    as.length + μ t ≤ μ s := by
  have hle := h.run_le hs hr
  rwa [List.countP_true, List.countP_eq_zero.mpr (by simp), Nat.mul_zero, Nat.add_zero] at hle

/-- From every state work leads to a state in which nothing is left to do. -/
theorem finishes (h : Descends step work I c μ) (hs : I s) :
    ∃ bs t, bs.all work = true ∧ run step s bs = some t ∧ Stuck step work t := by
  generalize hm : μ s = m
  induction m using Nat.strong_induction_on generalizing s with
  | _ m ih =>
    by_cases hstuck : Stuck step work s
    · exact ⟨[], s, rfl, rfl, hstuck⟩
    · obtain ⟨a, ha, hsome⟩ : ∃ a, work a = true ∧ ¬ step s a = none := by
        simpa [Stuck] using hstuck
      obtain ⟨u, hu⟩ := Option.ne_none_iff_exists'.mp hsome
      have hlt : μ u < m := hm ▸ h.down s a u hs hu ha
      obtain ⟨bs, t, hbs, ht, hdone⟩ := ih (μ u) hlt (h.keep s a u hs hu) rfl
      apply Exists.intro (a :: bs)
      apply Exists.intro t
      exact ⟨by simp [ha, hbs], run_cons.mpr ⟨u, hu, ht⟩, hdone⟩

end Descends

/-- Every run from `s` does at most `n` steps of work beside those that steps of another kind call for,
it can be led on by work alone until no work is left, and where no work is left the state is `Done`. -/
structure Completes (step : σ → α → Option σ) (work : α → Bool) (Done : σ → Prop) (s : σ) (n c : Nat) :
    Prop where
  bounded : ∀ as t, run step s as = some t → as.countP work ≤ n + c * as.countP (fun a => !work a)
  ends : ∀ as t, run step s as = some t → ∃ bs u, bs.all work = true ∧ run step t bs = some u ∧ Stuck step work u
  done : ∀ as t, run step s as = some t → Stuck step work t → Done t

theorem completes_of_descends {work : α → Bool} {I Done : σ → Prop} {c n : Nat} {μ : σ → Nat} {s : σ}
    (h : Descends step work I c μ) (hstuck : ∀ s, I s → Stuck step work s → Done s) (hs : I s)
    (hn : μ s ≤ n) : Completes step work Done s n c := by
  constructor
  case bounded =>
    intro as t ht
    have hle := h.run_le hs ht
    omega
  case ends =>
    intro as t ht
    exact h.finishes (h.run_keep hs ht)
  case done =>
    intro as t ht
    exact hstuck t (h.run_keep hs ht)

/-- So that a run can always be led on by work to a state that is `Done`. -/
theorem Completes.reaches {work : α → Bool} {Done : σ → Prop} {s : σ} {n c : Nat}
    (h : Completes step work Done s n c) {as : List α} {t : σ} (ht : run step s as = some t) :
    ∃ bs u, bs.all work = true ∧ run step t bs = some u ∧ Done u := by
  obtain ⟨bs, u, hbs, hu, hstuck⟩ := h.ends as t ht
  exact ⟨bs, u, hbs, hu, h.done (as ++ bs) u (run_append.mpr ⟨t, ht, hu⟩) hstuck⟩

end C11AndC.Library
