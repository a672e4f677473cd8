import C11AndC.Library.Memory

namespace C11AndC.Library

/-- Why a program does not return: it follows a pointer that leads nowhere or writes behind the
end of an array, or it is still looping when its allowance of steps is used up. -/
inductive Stop where
  | fault
  | steps
  deriving DecidableEq, Repr

/-- The memory a program works on, with the variables that outlive a call. -/
@[ext] structure Store (α ρ : Type) where
  mem : Memory α
  reg : ρ

abbrev Program (α ρ β : Type) := StateT (Store α ρ) (Except Stop) β

variable {α ρ β γ : Type}

def load (a : Nat) : Program α ρ α := fun s =>
  match s.mem.cell a with
  | some v => .ok (v, s)
  | none => .error .fault

def store (a : Nat) (f : α → α) : Program α ρ Unit := fun s =>
  match s.mem.cell a with
  | some _ => .ok ((), { s with mem := s.mem.modify a f })
  | none => .error .fault

def new (v : α) : Program α ρ Nat := fun s =>
  .ok (s.mem.next, { s with mem := s.mem.alloc v })

def delete (a : Nat) : Program α ρ Unit := fun s =>
  match s.mem.cell a with
  | some _ => .ok ((), { s with mem := s.mem.free a })
  | none => .error .fault

def getReg : Program α ρ ρ := fun s => .ok (s.reg, s)

def setReg (f : ρ → ρ) : Program α ρ Unit := fun s => .ok ((), { s with reg := f s.reg })

def fault : Program α ρ β := fun _ => .error .fault

def outOfSteps : Program α ρ β := fun _ => .error .steps

/-- Repeat `body` until it answers on the right, at most `n` times. -/
def loop (body : β → Program α ρ (β ⊕ γ)) : Nat → β → Program α ρ γ
  | 0, _ => outOfSteps
  | n + 1, b => do
    match ← body b with
    | .inl b' => loop body n b'
    | .inr c => pure c

/-- The program returns, and its result and final store satisfy `Q`. -/
def wp (p : Program α ρ β) (Q : β → Store α ρ → Prop) (s : Store α ρ) : Prop :=
  ∃ r t, p s = .ok (r, t) ∧ Q r t

variable {Q R : β → Store α ρ → Prop} {s : Store α ρ}

theorem wp_mono {p : Program α ρ β} (h : wp p Q s) (hq : ∀ r t, Q r t → R r t) : wp p R s := by
  obtain ⟨r, t, hp, hr⟩ := h
  exact ⟨r, t, hp, hq r t hr⟩

theorem wp_of_ok {p : Program α ρ β} {r : β} {t : Store α ρ} (h : p s = .ok (r, t)) :
    wp p Q s ↔ Q r t := by
  constructor
  · rintro ⟨r', t', hp, hq⟩
    rw [h] at hp
    cases hp
    exact hq
  · exact fun hq => ⟨r, t, h, hq⟩

theorem wp_of_error {p : Program α ρ β} {e : Stop} (h : p s = .error e) : ¬ wp p Q s := by
  rintro ⟨r, t, hp, -⟩
  rw [h] at hp
  cases hp

theorem wp_and {p : Program α ρ β} (hq : wp p Q s) (hr : wp p R s) : ∃ r t, Q r t ∧ R r t := by
  obtain ⟨r, t, hp, hq⟩ := hq
  exact ⟨r, t, hq, (wp_of_ok hp).mp hr⟩

theorem ok_of_wp_eq {p : Program α ρ β} {r : β} {t : Store α ρ}
    (h : wp p (fun r' t' => r' = r ∧ t' = t) s) : p s = .ok (r, t) := by
  obtain ⟨_, _, hp, rfl, rfl⟩ := h
  exact hp

@[simp] theorem wp_fault : wp (fault : Program α ρ β) Q s ↔ False := iff_false_intro (wp_of_error rfl)

@[simp] theorem wp_pure (b : β) : wp (pure b : Program α ρ β) Q s ↔ Q b s := wp_of_ok rfl

@[simp] theorem wp_bind (p : Program α ρ γ) (f : γ → Program α ρ β) :
    wp (p >>= f) Q s ↔ wp p (fun r t => wp (f r) Q t) s := by
  cases h : p s with
  | error e =>
    have he : (p >>= f) s = .error e := by simp [bind, StateT.bind, Except.bind, h]
    simp only [wp_of_error he, wp_of_error h]
  | ok x =>
    have he : (p >>= f) s = f x.1 x.2 := by simp [bind, StateT.bind, Except.bind, h]
    rw [wp_of_ok h]
    simp only [wp, he]

@[simp] theorem wp_map (f : γ → β) (p : Program α ρ γ) :
    wp (f <$> p) Q s ↔ wp p (fun r t => Q (f r) t) s := by
  rw [← bind_pure_comp, wp_bind]
  simp only [wp_pure]

@[simp] theorem wp_ite (c : Prop) [Decidable c] (p q : Program α ρ β) :
    wp (if c then p else q) Q s ↔ (c → wp p Q s) ∧ (¬ c → wp q Q s) := by
  by_cases h : c <;> simp [h]

@[simp] theorem wp_load (a : Nat) {Q : α → Store α ρ → Prop} :
    wp (load a) Q s ↔ ∃ v, s.mem.cell a = some v ∧ Q v s := by
  cases h : s.mem.cell a with
  | none =>
    have hp : load a s = .error .fault := by simp only [load, h]
    simp [wp_of_error hp]
  | some v =>
    have hp : load a s = .ok (v, s) := by simp only [load, h]
    simp [wp_of_ok hp]

@[simp] theorem wp_store (a : Nat) (f : α → α) {Q : Unit → Store α ρ → Prop} :
    wp (store a f) Q s ↔
      (s.mem.cell a).isSome ∧ Q () { s with mem := s.mem.modify a f } := by
  cases h : s.mem.cell a with
  | none =>
    have hp : store a f s = .error .fault := by simp only [store, h]
    simp [wp_of_error hp]
  | some v =>
    have hp : store a f s = .ok ((), { s with mem := s.mem.modify a f }) := by
      simp only [store, h]
    simp [wp_of_ok hp]

@[simp] theorem wp_new (v : α) {Q : Nat → Store α ρ → Prop} :
    wp (new v) Q s ↔ Q s.mem.next { s with mem := s.mem.alloc v } := wp_of_ok rfl

@[simp] theorem wp_delete (a : Nat) {Q : Unit → Store α ρ → Prop} :
    wp (delete a) Q s ↔
      (s.mem.cell a).isSome ∧ Q () { s with mem := s.mem.free a } := by
  cases h : s.mem.cell a with
  | none =>
    have hp : delete a s = .error .fault := by simp only [delete, h]
    simp [wp_of_error hp]
  | some v =>
    have hp : delete a s = .ok ((), { s with mem := s.mem.free a }) := by
      simp only [delete, h]
    simp [wp_of_ok hp]

@[simp] theorem wp_getReg {Q : ρ → Store α ρ → Prop} : wp getReg Q s ↔ Q s.reg s :=
  wp_of_ok rfl

@[simp] theorem wp_setReg (f : ρ → ρ) {Q : Unit → Store α ρ → Prop} :
    wp (setReg f) Q s ↔ Q () { s with reg := f s.reg } := wp_of_ok rfl

theorem wp_loop_succ {body : β → Program α ρ (β ⊕ γ)} {Q : γ → Store α ρ → Prop} {n : Nat} {b : β} :
    wp (loop body (n + 1) b) Q s ↔ wp (body b) (fun r t =>
      match r with
      | .inl b' => wp (loop body n b') Q t
      | .inr c => Q c t) s := by
  rw [loop, wp_bind]
  constructor
  · intro h
    refine wp_mono h fun r t hr => ?_
    cases r with
    | inl b' => exact hr
    | inr c => exact (wp_pure c).mp hr
  · intro h
    refine wp_mono h fun r t hr => ?_
    cases r with
    | inl b' => exact hr
    | inr c => exact (wp_pure c).mpr hr

/-- A loop whose body keeps `I` while its index goes down returns within as many rounds. -/
theorem wp_loop {body : β → Program α ρ (β ⊕ γ)} {Q : γ → Store α ρ → Prop}
    (I : Nat → β → Store α ρ → Prop)
    (hbody : ∀ k b s, I k b s → wp (body b) (fun r t =>
      match r with
      | .inl b' => ∃ j, j < k ∧ I j b' t
      | .inr c => Q c t) s)
    {k n : Nat} {b : β} (hi : I k b s) (hn : k < n) : wp (loop body n b) Q s := by
  induction n generalizing k b s with
  | zero => omega
  | succ n ih =>
    rw [wp_loop_succ]
    refine wp_mono (hbody k b s hi) ?_
    intro r t hr
    cases r with
    | inl b' =>
      obtain ⟨j, hj, hr⟩ := hr
      exact ih hr (by omega)
    | inr c => exact hr

/-- A loop that goes through the states `g 0` to `g d` and changes the store in its last round only. -/
theorem wp_loop_walk {body : β → Program α ρ (β ⊕ γ)} {Q : γ → Store α ρ → Prop} (g : Nat → β) {d n : Nat}
    (hgo : ∀ j < d, wp (body (g j)) (fun r t => r = .inl (g (j + 1)) ∧ t = s) s)
    (hstop : wp (body (g d)) (fun r t => ∃ c, r = .inr c ∧ Q c t) s) (hn : d < n) :
    wp (loop body n (g 0)) Q s := by
  refine wp_loop (fun k b t => ∃ j, j + k = d ∧ b = g j ∧ t = s) ?_ ⟨0, Nat.zero_add d, rfl, rfl⟩ hn
  rintro k _ t ⟨j, hj, rfl, rfl⟩
  obtain rfl | hlt := Nat.eq_or_lt_of_le (Nat.le.intro hj)
  · refine wp_mono hstop ?_
    rintro _ u ⟨c, rfl, hq⟩
    exact hq
  · refine wp_mono (hgo j hlt) ?_
    rintro _ u ⟨rfl, rfl⟩
    exact ⟨k - 1, by omega, j + 1, by omega, rfl, rfl⟩

end C11AndC.Library
