import Mathlib.Logic.Function.Basic

namespace C11AndC.Library

/-- Positions that are less than `n` apart stay different modulo `n`. -/
theorem mod_ne {n i k : Nat} (hk : k < i) (hi : i < k + n) : k % n ≠ i % n := by
  intro h
  have hdvd : n ∣ i - k := Nat.dvd_of_mod_eq_zero (Nat.sub_mod_eq_zero_of_mod_eq h.symm)
  have hle := Nat.le_of_dvd (by omega) hdvd
  omega

section Ring

variable {α : Type}

/-- A circular array of `n` places, read from `first` for `count` places. -/
def ring (n : Nat) (cells : Nat → α) (first count : Nat) : List α :=
  (List.range count).map fun i => cells ((first + i) % n)

variable {n first count : Nat} {cells : Nat → α} {x : α}

@[simp] theorem length_ring : (ring n cells first count).length = count := by
  rw [ring, List.length_map, List.length_range]

theorem ring_push (h : count < n) :
    ring n (Function.update cells ((first + count) % n) x) first (count + 1) =
      ring n cells first count ++ [x] := by
  have hkeep : ∀ i ∈ List.range count,
      Function.update cells ((first + count) % n) x ((first + i) % n) = cells ((first + i) % n) := by
    intro i hi
    rw [List.mem_range] at hi
    exact Function.update_of_ne (mod_ne (by omega) (by omega)) ..
  rw [ring, List.range_succ, List.map_append, List.map_congr_left hkeep, List.map_cons, List.map_nil,
    Function.update_self]
  rfl

theorem ring_pop : ring n cells first (count + 1) =
    cells (first % n) :: ring n cells ((first + 1) % n) count := by
  rw [ring, List.range_succ_eq_map, List.map_cons, List.map_map]
  refine congrArg _ (List.map_congr_left fun i _ => ?_)
  rw [Function.comp_apply, Nat.mod_add_mod, Nat.succ_eq_add_one, Nat.add_assoc, Nat.add_comm 1 i]

end Ring

end C11AndC.Library
