import Mathlib.Logic.Function.Iterate
import Mathlib.Data.Set.Finite.Basic

namespace C11AndC.Library

variable {α : Type} {f g : α → α} {S : α → Prop} {x : α} {t c d m : Nat}

/-- The walk from `x` stops after `d` steps. -/
def Leads (f : α → α) (S : α → Prop) (x : α) (d : Nat) : Prop := S (f^[d] x) ∧ ∀ j < d, ¬ S (f^[j] x)

/-- The walk from `x` takes `t` steps to a cycle of length `c`, and has met no element twice before
it has gone round. -/
structure Rounds (f : α → α) (x : α) (t c : Nat) : Prop where
  pos : 0 < c
  close : f^[t + c] x = f^[t] x
  inj : ∀ i < t + c, ∀ j < t + c, f^[i] x = f^[j] x → i = j

theorem leads_succ : Leads f S x (d + 1) ↔ ¬ S x ∧ Leads f S (f x) d := by
  constructor
  · rintro ⟨hstop, hgo⟩
    exact ⟨hgo 0 (Nat.succ_pos d), hstop, fun j hj => hgo (j + 1) (Nat.succ_lt_succ hj)⟩
  · rintro ⟨hx, hstop, hgo⟩
    refine ⟨hstop, fun j hj => ?_⟩
    cases j with
    | zero => exact hx
    | succ j => exact hgo j (Nat.lt_of_succ_lt_succ hj)

theorem iterate_congr (h : ∀ j < m, g (f^[j] x) = f (f^[j] x)) : g^[m] x = f^[m] x := by
  induction m with
  | zero => rfl
  | succ m ih =>
    rw [Function.iterate_succ_apply', Function.iterate_succ_apply',
      ih (fun j hj => h j (Nat.lt_succ_of_lt hj)), h m (Nat.lt_succ_self m)]

theorem leads_congr {S' : α → Prop} (h : Leads f S x d) (hg : ∀ j < d, g (f^[j] x) = f (f^[j] x))
    (hs : ∀ j ≤ d, S' (f^[j] x) ↔ S (f^[j] x)) : Leads g S' x d := by
  have heq : ∀ j ≤ d, g^[j] x = f^[j] x := fun j hj => iterate_congr fun i hi => hg i (hi.trans_le hj)
  refine ⟨?_, fun j hj => ?_⟩
  · rw [heq d (Nat.le_refl d), hs d (Nat.le_refl d)]
    exact h.1
  · rw [heq j hj.le, hs j hj.le]
    exact h.2 j hj

/-- After a return the walk meets only what it has met before. -/
theorem iterate_return {i n : Nat} (hi : i < n) (hret : f^[n] x = f^[i] x) (m : Nat) :
    ∃ j < n, f^[m] x = f^[j] x := by
  induction m with
  | zero => exact ⟨0, Nat.zero_lt_of_lt hi, rfl⟩
  | succ m ih =>
    obtain ⟨j, hj, he⟩ := ih
    rw [Function.iterate_succ_apply', he, ← Function.iterate_succ_apply' f j]
    obtain hlt | rfl := Nat.lt_or_eq_of_le (Nat.succ_le_of_lt hj)
    · exact ⟨j + 1, hlt, rfl⟩
    · exact ⟨i, hi, hret⟩

/-- A walk that stops meets no element twice. -/
theorem leads_inj (h : Leads f S x d) : ∀ i ≤ d, ∀ j ≤ d, f^[i] x = f^[j] x → i = j := by
  have hlt : ∀ i j, i < j → j ≤ d → f^[j] x ≠ f^[i] x := by
    intro i j hij hj he
    obtain ⟨k, hk, hstop⟩ := iterate_return hij he d
    exact h.2 k (hk.trans_le hj) (hstop ▸ h.1)
  intro i hi j hj he
  obtain hij | rfl | hij := Nat.lt_trichotomy i j
  · exact absurd he.symm (hlt i j hij hj)
  · rfl
  · exact absurd he (hlt j i hij hi)

theorem rounds_step (h : Rounds f x (t + 1) c) : Rounds f (f x) t c := by
  have hclose := h.close
  rw [Nat.add_right_comm] at hclose
  refine ⟨h.pos, hclose, fun i hi j hj he => ?_⟩
  exact Nat.succ_injective (h.inj (i + 1) (by omega) (j + 1) (by omega) he)

/-- The element that the walk comes back to is met nowhere on the way there. -/
theorem rounds_ne (h : Rounds f x (t + 1) c) (m : Nat) : f^[m] (f x) ≠ x := by
  intro he
  have hclose := h.close
  have hpos := h.pos
  obtain ⟨j, hj, hm⟩ := iterate_return (f := f) (x := f x) (i := t) (n := t + c) (by omega)
    (by rwa [Nat.add_right_comm] at hclose) m
  have hzero := h.inj (j + 1) (by omega) 0 (by omega) (hm.symm.trans he)
  exact absurd hzero (Nat.succ_ne_zero j)

/-- Where the map is injective along the walk, the walk starts on its cycle. -/
theorem rounds_of_inj (hinj : ∀ i j, f (f^[i] x) = f (f^[j] x) → f^[i] x = f^[j] x) (h : Rounds f x t c) : t = 0 := by
  cases t with
  | zero => rfl
  | succ t =>
    have hclose := h.close
    have hpos := h.pos
    rw [Nat.add_right_comm, Function.iterate_succ_apply', Function.iterate_succ_apply'] at hclose
    have he := h.inj (t + c) (by omega) t (by omega) (hinj _ _ hclose)
    omega

theorem rounds_unique {c' : Nat} (h : Rounds f x 0 c) (h' : Rounds f x 0 c') : c = c' := by
  have hlt : ∀ {c c'}, Rounds f x 0 c → Rounds f x 0 c' → ¬ c < c' := by
    intro c c' h h' hlt
    have hclose := h.close
    rw [Nat.zero_add] at hclose
    have he := h'.inj c (by omega) 0 (by omega) hclose
    exact absurd he h.pos.ne'
  exact Nat.le_antisymm (not_lt.mp (hlt h' h)) (not_lt.mp (hlt h h'))

theorem rounds_congr (h : Rounds f x t c) (hg : ∀ j, g (f^[j] x) = f (f^[j] x)) : Rounds g x t c := by
  have heq : ∀ j, g^[j] x = f^[j] x := fun j => iterate_congr fun i _ => hg i
  refine ⟨h.pos, by rw [heq, heq, h.close], fun i hi j hj he => h.inj i hi j hj ?_⟩
  rwa [heq, heq] at he

theorem rounds_mul {i : Nat} (h : Rounds f x t c) (ht : t ≤ i) (k : Nat) : f^[i + c * k] x = f^[i] x := by
  induction k with
  | zero => rfl
  | succ k ih =>
    have he : i + c * (k + 1) = i + c * k - t + (t + c) := by
      rw [Nat.mul_succ]
      omega
    rw [he, Function.iterate_add_apply, h.close, ← Function.iterate_add_apply, ← ih]
    congr 1
    omega

/-- The walk comes back to an element exactly on the cycle, after whole rounds. -/
theorem rounds_add_iff {i n : Nat} (h : Rounds f x t c) : f^[i + n] x = f^[i] x ↔ n = 0 ∨ t ≤ i ∧ c ∣ n := by
  have hmod : ∀ {i}, t ≤ i → f^[i] x = f^[t + (i - t) % c] x := by
    intro i ht
    have hk := rounds_mul h (Nat.le_add_right t ((i - t) % c)) ((i - t) / c)
    rw [Nat.add_assoc, Nat.mod_add_div, Nat.add_sub_cancel' ht] at hk
    exact hk
  have hlt : ∀ i, t + (i - t) % c < t + c := fun i => Nat.add_lt_add_left (Nat.mod_lt _ h.pos) t
  constructor
  · intro he
    obtain hi | hi := Nat.lt_or_ge i t
    · left
      obtain hn | hn := Nat.lt_or_ge (i + n) t
      · have hz := h.inj (i + n) (by omega) i (by omega) he
        omega
      · rw [hmod hn] at he
        have hz := h.inj _ (hlt _) i (by omega) he
        omega
    · rw [hmod hi, hmod (i := i + n) (by omega)] at he
      have hz := Nat.add_left_cancel (h.inj _ (hlt _) _ (hlt _) he)
      have hd := Nat.dvd_of_mod_eq_zero (Nat.sub_mod_eq_zero_of_mod_eq hz)
      have hn : i + n - t - (i - t) = n := by omega
      exact .inr ⟨hi, hn ▸ hd⟩
  · rintro (rfl | ⟨ht, k, rfl⟩)
    · rfl
    · exact rounds_mul h ht k

/-- Among finitely many elements a walk stops or goes round. -/
theorem leads_or_rounds (hfin : {y | ¬ S y}.Finite) (x : α) :
    (∃ d, Leads f S x d) ∨ (∃ t c, Rounds f x t c) ∧ ∀ j, ¬ S (f^[j] x) := by
  classical
  by_cases hstop : ∃ d, S (f^[d] x)
  · exact .inl ⟨Nat.find hstop, Nat.find_spec hstop, fun j hj => Nat.find_min hstop hj⟩
  · rw [not_exists] at hstop
    obtain ⟨i, j, hij, he⟩ : ∃ i j, i < j ∧ f^[i] x = f^[j] x := by
      obtain ⟨i, -, j, -, hne, he⟩ := Set.infinite_univ.exists_ne_map_eq_of_mapsTo
        (f := fun j : Nat => f^[j] x) (fun j _ => hstop j) hfin
      obtain hij | hij := Nat.lt_or_gt_of_ne hne
      · exact ⟨i, j, hij, he⟩
      · exact ⟨j, i, hij, he.symm⟩
    have hret : ∃ n, ∃ i < n, f^[n] x = f^[i] x := ⟨j, i, hij, he.symm⟩
    obtain ⟨t, ht, hclose⟩ := Nat.find_spec hret
    have hsum : t + (Nat.find hret - t) = Nat.find hret := by omega
    refine .inr ⟨⟨t, Nat.find hret - t, by omega, by rwa [hsum], fun i hi j hj hij => ?_⟩, hstop⟩
    rw [hsum] at hi hj
    obtain hlt | rfl | hlt := Nat.lt_trichotomy i j
    · exact absurd ⟨i, hlt, hij.symm⟩ (Nat.find_min hret hj)
    · rfl
    · exact absurd ⟨j, hlt, hij⟩ (Nat.find_min hret hi)

end C11AndC.Library
