import Mathlib.Data.List.Basic
import Mathlib.Algebra.GroupWithZero.Nat

namespace C11AndC.Library

variable {α : Type}

/-- Replacing or changing the entry at a position leaves both sides of it alone. -/
theorem split_at {l : List α} {i : Nat} {x : α} (h : l[i]? = some x) :
    ∃ l₁ l₂, l = l₁ ++ x :: l₂ ∧ (∀ y, l.set i y = l₁ ++ y :: l₂) ∧
      ∀ f, l.modify i f = l₁ ++ f x :: l₂ := by
  induction l generalizing i with
  | nil => simp at h
  | cons a l ih =>
    cases i with
    | zero =>
      cases h
      exact ⟨[], l, by simp, by simp, by simp⟩
    | succ i =>
      obtain ⟨l₁, l₂, rfl, hs, hm⟩ := ih (by simpa using h)
      exact ⟨a :: l₁, l₂, by simp, by simp [hs], by simp [hm]⟩

/-- `arr[i] = x`, which is undefined from the end of the array on. -/
def put (arr : List α) (i : Nat) (x : α) : Option (List α) :=
  if i < arr.length then some (arr.set i x) else none

theorem put_append {a b : List α} {i : Nat} (hi : i = a.length) (hb : 0 < b.length) (x : α) :
    put (a ++ b) i x = some (a ++ [x] ++ b.drop 1) := by
  subst hi
  cases b with
  | nil => simp at hb
  | cons y b => simp [put]

theorem getElem?_set_cases {l : List α} {i j : Nat} {x y : α} (h : (l.set i x)[j]? = some y) :
    (j = i ∧ y = x) ∨ (j ≠ i ∧ l[j]? = some y) := by
  by_cases hij : j = i
  · subst hij
    obtain ⟨hlt, hy⟩ := List.getElem?_eq_some_iff.mp h
    rw [List.getElem_set_self] at hy
    exact .inl ⟨rfl, hy.symm⟩
  · rw [List.getElem?_set_ne (Ne.symm hij)] at h
    exact .inr ⟨hij, h⟩

theorem getElem?_snoc_cases {l : List α} {i : Nat} {x y : α} (h : (l ++ [x])[i]? = some y) :
    l[i]? = some y ∨ (i = l.length ∧ y = x) := by
  rcases Nat.lt_or_ge i l.length with hi | hi
  · rw [List.getElem?_append_left hi] at h
    exact .inl h
  · rw [List.getElem?_append_right hi] at h
    obtain ⟨hlt, hy⟩ := List.getElem?_eq_some_iff.mp h
    rw [List.length_singleton] at hlt
    refine .inr ⟨by omega, ?_⟩
    rw [← hy, List.getElem_singleton]

/-- What `f` picks from a list, with the contribution of one position set apart. -/
theorem filterMap_set {β : Type} (f : α → Option β) {l : List α} {i : Nat} {x : α}
    (h : l[i]? = some x) :
    ∃ rest, (l.filterMap f).Perm ((f x).toList ++ rest) ∧
      ∀ y, ((l.set i y).filterMap f).Perm ((f y).toList ++ rest) := by
  obtain ⟨l₁, l₂, rfl, hs, -⟩ := split_at h
  have hp : ∀ y, ((l₁ ++ y :: l₂).filterMap f).Perm
      ((f y).toList ++ (l₁.filterMap f ++ l₂.filterMap f)) := by
    intro y
    cases hf : f y with
    | none => simp [hf]
    | some b => simp [hf]
  exact ⟨_, hp x, fun y => by rw [hs]; exact hp y⟩

theorem flatMap_set {β : Type} (f : α → List β) {l : List α} {i : Nat} {x : α}
    (h : l[i]? = some x) :
    ∃ rest, (l.flatMap f).Perm (f x ++ rest) ∧
      ∀ y, ((l.set i y).flatMap f).Perm (f y ++ rest) := by
  obtain ⟨l₁, l₂, rfl, hs, -⟩ := split_at h
  have hp : ∀ y, ((l₁ ++ y :: l₂).flatMap f).Perm (f y ++ (l₁.flatMap f ++ l₂.flatMap f)) := by
    intro y
    rw [List.flatMap_append, List.flatMap_cons]
    exact List.perm_append_comm_assoc ..
  exact ⟨_, hp x, fun y => by rw [hs]; exact hp y⟩

theorem countP_set (p : α → Bool) {l : List α} {i : Nat} {x : α} (h : l[i]? = some x) (y : α) :
    ((l.set i y).countP p : Int) = l.countP p - (if p x then 1 else 0) + (if p y then 1 else 0) := by
  obtain ⟨l₁, l₂, rfl, hs, -⟩ := split_at h
  rw [hs, List.countP_append, List.countP_append, List.countP_cons, List.countP_cons]
  split_ifs <;> omega

theorem modify_set (l : List α) (i : Nat) (x : α) (f : α → α) :
    (l.set i x).modify i f = l.set i (f x) := by
  induction l generalizing i with
  | nil => simp
  | cons y l ih =>
    cases i with
    | zero => simp
    | succ i => simp [ih]

theorem map_modify {β : Type} {f : α → β} {g : α → α} (hfg : ∀ x, f (g x) = f x) (l : List α)
    (i : Nat) : (l.modify i g).map f = l.map f := by
  induction l generalizing i with
  | nil => simp
  | cons x l ih =>
    cases i with
    | zero => simp [hfg]
    | succ i => simp [ih]

theorem sum_map_set (f : α → Nat) {l : List α} {i : Nat} {x : α} (h : l[i]? = some x) (y : α) :
    ((l.set i y).map f).sum + f x = (l.map f).sum + f y := by
  obtain ⟨l₁, l₂, rfl, hs, -⟩ := split_at h
  rw [hs]
  simp only [List.map_append, List.map_cons, List.sum_append, List.sum_cons]
  omega

theorem sum_map_modify_le {c : Nat} {g : α → α} (f : α → Nat) (l : List α) (i : Nat)
    (h : ∀ x, f (g x) ≤ f x + c) : ((l.modify i g).map f).sum ≤ (l.map f).sum + c := by
  cases hi : l[i]? with
  | none =>
    rw [List.modify_eq_self (List.getElem?_eq_none_iff.mp hi)]
    exact Nat.le_add_right _ c
  | some x =>
    obtain ⟨l₁, l₂, rfl, -, hm⟩ := split_at hi
    have hx := h x
    rw [hm]
    simp only [List.map_append, List.map_cons, List.sum_append, List.sum_cons]
    omega

theorem sum_map_le {f : α → Nat} {b : Nat} {l : List α} (h : ∀ x ∈ l, f x ≤ b) :
    (l.map f).sum ≤ l.length * b := by
  induction l with
  | nil => simp
  | cons x l ih =>
    have hx := h x (List.mem_cons_self ..)
    have hl := ih (fun y hy => h y (List.mem_cons_of_mem _ hy))
    rw [List.map_cons, List.sum_cons, List.length_cons, Nat.succ_mul]
    omega

theorem sum_map_zero {f : α → Nat} {l : List α} (h : ∀ x ∈ l, f x = 0) : (l.map f).sum = 0 := by
  have hle := sum_map_le (b := 0) (fun x hx => Nat.le_of_eq (h x hx))
  rwa [Nat.mul_zero, Nat.le_zero] at hle

/-- If the bounded values add up to all that the bound allows, every one attains it. -/
theorem eq_of_sum_map {f : α → Nat} {b : Nat} {l : List α} (h : ∀ x ∈ l, f x ≤ b)
    (hs : (l.map f).sum = l.length * b) : ∀ x ∈ l, f x = b := by
  induction l with
  | nil => simp
  | cons x l ih =>
    have hx := h x (List.mem_cons_self ..)
    have h' : ∀ y ∈ l, f y ≤ b := fun y hy => h y (List.mem_cons_of_mem _ hy)
    have hle := sum_map_le h'
    rw [List.map_cons, List.sum_cons, List.length_cons, Nat.succ_mul] at hs
    intro y hy
    obtain rfl | hy := List.mem_cons.mp hy
    · omega
    · exact ih h' (by omega) y hy

/-- Reading the first entries one after another. -/
theorem mapM_getElem? {l : List α} {n : Nat} (h : n ≤ l.length) :
    (List.range n).mapM (fun i => l[i]?) = some (l.take n) := by
  induction n with
  | zero => rfl
  | succ n ih =>
    rw [List.range_succ, List.mapM_append, ih (Nat.le_of_succ_le h), List.take_add_one]
    simp [List.getElem?_eq_getElem h]

/-- Of a fold that comes to its end each step does. -/
theorem foldlM_each {α β : Type} {step : β → α → Option β} {xs : List α} {s t : β}
    (h : xs.foldlM step s = some t) : ∀ x ∈ xs, ∃ u v, step u x = some v := by
  induction xs generalizing s with
  | nil => exact fun x hx => absurd hx List.not_mem_nil
  | cons y xs ih =>
    rw [List.foldlM_cons] at h
    obtain ⟨u, hu, h⟩ := Option.bind_eq_some_iff.mp h
    exact List.forall_mem_cons.mpr ⟨⟨s, u, hu⟩, ih h⟩

theorem foldlM_mono {α β : Type} {f g : β → α → Option β} (hfg : ∀ u x v, f u x = some v → g u x = some v)
    {xs : List α} {s t : β} (h : xs.foldlM f s = some t) : xs.foldlM g s = some t := by
  induction xs generalizing s with
  | nil => exact h
  | cons x xs ih =>
    rw [List.foldlM_cons] at h ⊢
    obtain ⟨u, hu, h⟩ := Option.bind_eq_some_iff.mp h
    rw [hfg s x u hu]
    exact ih h

section Rounds

variable {β : Type} {step : β → Nat → Option β} {I : Nat → β → Prop} {n : Nat} {s t : β}

/-- A loop over `0, ..., n - 1` whose rounds keep `I`. -/
theorem foldlM_range (hstep : ∀ k < n, ∀ s t, I k s → step s k = some t → I (k + 1) t) (hs : I 0 s)
    (h : (List.range n).foldlM step s = some t) : I n t := by
  induction n generalizing t with
  | zero =>
    cases h
    exact hs
  | succ n ih =>
    rw [List.range_succ, List.foldlM_append] at h
    obtain ⟨u, hu, h⟩ := Option.bind_eq_some_iff.mp h
    obtain ⟨v, hv, h⟩ := Option.bind_eq_some_iff.mp h
    cases h
    have hI := ih (fun k hk => hstep k (Nat.lt_succ_of_lt hk)) hu
    exact hstep n (Nat.lt_succ_self n) u t hI hv

/-- The same for rounds that do not fail. -/
theorem foldlM_range_some (hstep : ∀ k < n, ∀ s, I k s → ∃ t, step s k = some t ∧ I (k + 1) t)
    (hs : I 0 s) : ∃ t, (List.range n).foldlM step s = some t ∧ I n t := by
  induction n with
  | zero => exact ⟨s, rfl, hs⟩
  | succ n ih =>
    obtain ⟨u, hu, hI⟩ := ih fun k hk => hstep k (Nat.lt_succ_of_lt hk)
    obtain ⟨t, ht, hI⟩ := hstep n (Nat.lt_succ_self n) u hI
    refine ⟨t, ?_, hI⟩
    simp [List.range_succ, List.foldlM_append, hu, ht]

/-- The same for rounds with a parameter that does not matter. -/
theorem foldlM_range_uniform {γ : Type} {P : γ → Prop} {step : γ → β → Nat → Option β}
    (hstep : ∀ k < n, ∀ s, I k s → ∃ t, (∀ c, P c → step c s k = some t) ∧ I (k + 1) t)
    (hs : I 0 s) : ∃ t, (∀ c, P c → (List.range n).foldlM (step c) s = some t) ∧ I n t := by
  induction n with
  | zero => exact ⟨s, fun _ _ => rfl, hs⟩
  | succ n ih =>
    obtain ⟨u, hu, hI⟩ := ih fun k hk => hstep k (Nat.lt_succ_of_lt hk)
    obtain ⟨t, ht, hI⟩ := hstep n (Nat.lt_succ_self n) u hI
    refine ⟨t, fun c hc => ?_, hI⟩
    simp [List.range_succ, List.foldlM_append, hu c hc, ht c hc]

end Rounds

theorem sum_filter_le {f : α → Nat} {p q : α → Bool} {l : List α} (h : ∀ x, q x = true → p x = true) :
    ((l.filter q).map f).sum ≤ ((l.filter p).map f).sum := by
  induction l with
  | nil => exact Nat.le_refl _
  | cons x l ih =>
    by_cases hq : q x = true
    · simp only [List.filter_cons, hq, h x hq, ↓reduceIte, List.map_cons, List.sum_cons]
      omega
    · by_cases hp : p x = true
      · simp only [List.filter_cons, hq, hp, ↓reduceIte, List.map_cons, List.sum_cons]
        simp only [Bool.false_eq_true, ↓reduceIte]
        omega
      · simpa [hq, hp] using ih

/-- What a stronger filter leaves out is missing in the sum. -/
theorem sum_filter_lt {f : α → Nat} {p q : α → Bool} {l : List α} {x : α} (h : ∀ x, q x = true → p x = true)
    (hx : x ∈ l) (hp : p x = true) (hq : q x = false) :
    ((l.filter q).map f).sum + f x ≤ ((l.filter p).map f).sum := by
  obtain ⟨l₁, l₂, rfl⟩ := List.append_of_mem hx
  have h₁ := sum_filter_le (f := f) (l := l₁) h
  have h₂ := sum_filter_le (f := f) (l := l₂) h
  simp only [List.filter_append, List.filter_cons, hp, hq, Bool.false_eq_true, ↓reduceIte, List.map_append,
    List.map_cons, List.sum_append, List.sum_cons]
  omega

end C11AndC.Library
