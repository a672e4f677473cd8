import C11AndC.Library.Program

namespace C11AndC.Library

variable {α ρ β γ δ : Type}

/-- One call after the other, with their answers. -/
def session (call : γ → Program α ρ β) : List γ → Program α ρ (List β)
  | [] => pure []
  | c :: cs => do
    let answer ← call c
    let answers ← session call cs
    return answer :: answers

/-- The same on an abstract value, which each call answers and changes. -/
def abstractly (spec : γ → δ → β × δ) : List γ → δ → List β × δ
  | [], d => ([], d)
  | c :: cs, d =>
      let (answer, d) := spec c d
      let (answers, d) := abstractly spec cs d
      (answer :: answers, d)

/-- Each call of the session is made in a store that meets the condition `C`. -/
def EachCall (call : γ → Program α ρ β) (C : γ → Store α ρ → Prop) : List γ → Store α ρ → Prop
  | [], _ => True
  | c :: cs, s =>
      C c s ∧
        match call c s with
        | .ok (_, t) => EachCall call C cs t
        | .error _ => True

instance decidableEachCall {call : γ → Program α ρ β} {C : γ → Store α ρ → Prop} [∀ c s, Decidable (C c s)] :
    (cs : List γ) → (s : Store α ρ) → Decidable (EachCall call C cs s)
  | [], _ => .isTrue trivial
  | c :: cs, s =>
      have : Decidable (match call c s with
          | .ok (_, t) => EachCall call C cs t
          | .error _ => True) :=
        match call c s with
        | .ok (_, t) => decidableEachCall cs t
        | .error _ => .isTrue trivial
      inferInstanceAs (Decidable (_ ∧ _))

theorem eachCall_of_forall {call : γ → Program α ρ β} {C : γ → Store α ρ → Prop} (h : ∀ c s, C c s) (cs : List γ)
    (s : Store α ρ) : EachCall call C cs s := by
  induction cs generalizing s with
  | nil => exact True.intro
  | cons c cs ih =>
    refine ⟨h c s, ?_⟩
    cases call c s with
    | ok r => exact ih r.2
    | error e => exact True.intro

/-- What one call does to a store and the value it stands for, calls do one after the other. The number
counts the calls that are still to come. -/
theorem wp_session {call : γ → Program α ρ β} {spec : γ → δ → β × δ} {C : γ → Store α ρ → Prop}
    {R : Nat → Store α ρ → δ → Prop}
    (hcall : ∀ n c s d, R (n + 1) s d → C c s →
      wp (call c) (fun answer t => answer = (spec c d).1 ∧ R n t (spec c d).2) s)
    (cs : List γ) {s : Store α ρ} {d : δ} (hs : R cs.length s d) (hc : EachCall call C cs s) :
    wp (session call cs) (fun answers t => answers = (abstractly spec cs d).1 ∧
      R 0 t (abstractly spec cs d).2) s := by
  induction cs generalizing s d with
  | nil => exact ⟨[], s, rfl, rfl, hs⟩
  | cons c cs ih =>
    obtain ⟨hfirst, hrest⟩ := hc
    obtain ⟨answer, t, ht, rfl, hr⟩ := hcall cs.length c s d hs hfirst
    rw [ht] at hrest
    simp only [session, wp_bind, wp_pure]
    apply (wp_of_ok ht).mpr
    apply wp_mono (ih hr hrest)
    rintro _ u ⟨rfl, hu⟩
    exact ⟨rfl, hu⟩

end C11AndC.Library
