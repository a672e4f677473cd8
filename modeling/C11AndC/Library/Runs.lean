import Mathlib.Data.List.Basic

namespace C11AndC.Library

variable {σ α : Type} (step : σ → α → Option σ)

/-- Take the actions of a list one after the other. An action that is not
enabled in the state it meets ends the run without a result. -/
def run : σ → List α → Option σ
  | s, [] => some s
  | s, a :: as => (step s a).bind (fun t => run t as)

/-- The property holds in every state of the run, the first one included. -/
def Always (P : σ → Prop) : σ → List α → Prop
  | s, [] => P s
  | s, a :: as => P s ∧ ∀ t, step s a = some t → Always P t as

/-- Every step of the run is taken in a state that meets the condition `C`. -/
def Each (C : σ → α → Prop) : σ → List α → Prop
  | _, [] => True
  | s, a :: as => ∀ t, step s a = some t → C s a ∧ Each C t as

instance decidableEach {C : σ → α → Prop} [∀ s a, Decidable (C s a)] :
    (s : σ) → (as : List α) → Decidable (Each step C s as)
  | _, [] => .isTrue trivial
  | s, a :: as =>
      have : ∀ t, Decidable (Each step C t as) := fun t => decidableEach t as
      inferInstanceAs (Decidable (∀ t, t ∈ step s a → C s a ∧ Each step C t as))

/-- The steps with a mark that stays once a step has been taken which is `bad` in the state it meets. -/
def flagged (bad : σ → α → Bool) (s : σ × Bool) (a : α) : Option (σ × Bool) :=
  (step s.1 a).map fun t => (t, s.2 || bad s.1 a)

variable {step}

theorem run_cons {s t : σ} {a : α} {as : List α} :
    run step s (a :: as) = some t ↔ ∃ u, step s a = some u ∧ run step u as = some t := by
  simp [run, Option.bind_eq_some_iff]

theorem run_append {s t : σ} {as bs : List α} :
    run step s (as ++ bs) = some t ↔ ∃ u, run step s as = some u ∧ run step u bs = some t := by
  induction as generalizing s with
  | nil => simp [run]
  | cons a as ih =>
    simp only [List.cons_append, run_cons, ih]
    constructor
    · rintro ⟨v, hv, u, hu, ht⟩
      exact ⟨u, ⟨v, hv, hu⟩, ht⟩
    · rintro ⟨u, ⟨v, hv, hu⟩, ht⟩
      exact ⟨v, hv, u, hu, ht⟩

/-- What holds at the start and is kept by every step holds at the end of a run. -/
theorem run_invariant (I : σ → Prop) (hstep : ∀ s a t, I s → step s a = some t → I t)
    {s t : σ} {as : List α} (hs : I s) (hr : run step s as = some t) : I t := by
  induction as generalizing s with
  | nil =>
    cases hr
    exact hs
  | cons a as ih =>
    obtain ⟨u, hu, ht⟩ := run_cons.mp hr
    exact ih (hstep s a u hs hu) ht

/-- The same for steps restricted by `C`, with a conclusion for every state of the run. -/
theorem always_of_each {C : σ → α → Prop} {P : σ → Prop} (I : σ → Prop)
    (hstep : ∀ s a t, I s → C s a → step s a = some t → I t) (hp : ∀ s, I s → P s)
    {s : σ} {as : List α} (hs : I s) (hc : Each step C s as) : Always step P s as := by
  induction as generalizing s with
  | nil => exact hp s hs
  | cons a as ih =>
    refine ⟨hp s hs, fun t ht => ?_⟩
    obtain ⟨hca, hct⟩ := hc t ht
    exact ih (hstep s a t hs hca ht) hct

theorem each_of_forall {C : α → Prop} {s : σ} {as : List α} (h : ∀ a ∈ as, C a) :
    Each step (fun _ a => C a) s as := by
  induction as generalizing s with
  | nil => trivial
  | cons a as ih =>
    intro t _
    exact ⟨h a (List.mem_cons_self ..), ih (fun b hb => h b (List.mem_cons_of_mem _ hb))⟩

theorem each_and {C D : σ → α → Prop} {s : σ} {as : List α} :
    Each step (fun s a => C s a ∧ D s a) s as ↔ Each step C s as ∧ Each step D s as := by
  induction as generalizing s with
  | nil => exact (and_self_iff).symm
  | cons a as ih =>
    simp only [Each, ih]
    exact ⟨fun h => ⟨fun t ht => ⟨(h t ht).1.1, (h t ht).2.1⟩, fun t ht => ⟨(h t ht).1.2, (h t ht).2.2⟩⟩,
      fun h t ht => ⟨⟨(h.1 t ht).1, (h.2 t ht).1⟩, (h.1 t ht).2, (h.2 t ht).2⟩⟩

theorem always_head {P : σ → Prop} {s : σ} {as : List α} (h : Always step P s as) : P s := by
  cases as with
  | nil => exact h
  | cons a as => exact h.1

theorem always_run {P : σ → Prop} {s t : σ} {as : List α} (h : Always step P s as)
    (hr : run step s as = some t) : P t := by
  induction as generalizing s with
  | nil =>
    cases hr
    exact h
  | cons a as ih =>
    obtain ⟨u, hu, ht⟩ := run_cons.mp hr
    exact ih (h.2 u hu) ht

theorem flagged_some {bad : σ → α → Bool} {s : σ} {a : α} {u : σ × Bool} :
    flagged step bad (s, false) a = some u ↔ ∃ t, step s a = some t ∧ u = (t, bad s a) := by
  rw [flagged, Option.map_eq_some_iff]
  exact exists_congr fun t => and_congr_right fun _ => by rw [Bool.false_or, eq_comm]

/-- No mark is ever set exactly if no step is bad. -/
theorem always_flagged {bad : σ → α → Bool} {P : σ → Prop} {s : σ} {as : List α} :
    Always (flagged step bad) (fun s => s.2 = false ∧ P s.1) (s, false) as ↔
      Always step P s as ∧ Each step (fun s a => bad s a = false) s as := by
  induction as generalizing s with
  | nil => exact ⟨fun h => ⟨h.2, trivial⟩, fun h => ⟨rfl, h.1⟩⟩
  | cons a as ih =>
    constructor
    · rintro ⟨⟨-, hs⟩, hrest⟩
      have hnext : ∀ t, step s a = some t → bad s a = false ∧ Always step P t as ∧
          Each step (fun s a => bad s a = false) t as := by
        intro t ht
        have ht' := hrest _ (flagged_some.mpr ⟨t, ht, rfl⟩)
        have hbad : bad s a = false := (always_head ht').1
        rw [hbad] at ht'
        exact ⟨hbad, ih.mp ht'⟩
      exact ⟨⟨hs, fun t ht => (hnext t ht).2.1⟩, fun t ht => ⟨(hnext t ht).1, (hnext t ht).2.2⟩⟩
    · rintro ⟨⟨hs, hrest⟩, heach⟩
      refine ⟨⟨rfl, hs⟩, fun u hu => ?_⟩
      obtain ⟨t, ht, rfl⟩ := flagged_some.mp hu
      obtain ⟨hbad, hnext⟩ := heach t ht
      rw [hbad]
      exact ih.mpr ⟨hrest t ht, hnext⟩

/-- If the steps that meet `C` keep an invariant, and only they lead from there to a state with `P`, then
`P` holds along a run exactly if all its steps meet `C`. -/
theorem always_iff_each {C : σ → α → Prop} {P : σ → Prop} (I : σ → Prop)
    (hstep : ∀ s a t, I s → C s a → step s a = some t → I t) (hp : ∀ s, I s → P s)
    (hc : ∀ s a t, I s → step s a = some t → P t → C s a) {s : σ} {as : List α} (hs : I s) :
    Always step P s as ↔ Each step C s as := by
  refine ⟨fun h => ?_, always_of_each I hstep hp hs⟩
  induction as generalizing s with
  | nil => trivial
  | cons a as ih =>
    intro t ht
    have ha := hc s a t hs ht (always_head (h.2 t ht))
    exact ⟨ha, ih (hstep s a t hs ha ht) (h.2 t ht)⟩

end C11AndC.Library
