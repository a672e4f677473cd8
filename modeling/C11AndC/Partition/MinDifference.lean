import Mathlib.Algebra.Order.Group.Abs
import Mathlib.Algebra.Order.Ring.Int
import Mathlib.Algebra.BigOperators.Group.List.Basic
import Mathlib.Order.Bounds.Basic
import C11AndC.Library.Wrap

namespace C11AndC.Partition

open C11AndC.Library

def findMinRec (arr : List Int) : Nat → Int → Int → Option Int
  | 0, sumCalculated, sumTotal => do
      let other ← checked (sumTotal - sumCalculated)
      let difference ← checked (other - sumCalculated)
      checked |difference|
  | i + 1, sumCalculated, sumTotal => do
      let x ← arr[i]?
      let taken ← findMinRec arr i (← checked (sumCalculated + x)) sumTotal
      let left ← findMinRec arr i sumCalculated sumTotal
      return min taken left

def findMin (arr : List Int) : Option Int := do
  let sumTotal ← arr.foldlM (fun sumTotal x => checked (sumTotal + x)) 0
  findMinRec arr arr.length 0 sumTotal

/-- The sum of the sizes. -/
def weight (l : List Int) : Int := (l.map fun x => |x|).sum

/-- The difference between the sums of the elements that are not chosen and of those that are. -/
def difference (arr chosen : List Int) : Int := arr.sum - 2 * chosen.sum

variable {arr xs l : List Int} {c t x d : Int} {i : Nat}

section Weights

theorem checked_of_abs (h : |x| ≤ INT_MAX) : checked x = some x := by
  rw [checked_eq_some, IsInt, INT_MIN]
  rw [INT_MAX, abs_le] at h
  rw [INT_MAX]
  omega

theorem weight_nonneg (l : List Int) : 0 ≤ weight l := by
  induction l with
  | nil => exact Int.le_refl 0
  | cons x l ih =>
    rw [weight, List.map_cons, List.sum_cons]
    exact Int.add_nonneg (abs_nonneg x) ih

theorem weight_snoc (xs : List Int) (x : Int) : weight (xs ++ [x]) = weight xs + |x| := by
  simp [weight]

theorem sublist_snoc : l.Sublist (xs ++ [x]) ↔ l.Sublist xs ∨ ∃ l', l = l' ++ [x] ∧ l'.Sublist xs := by
  rw [List.sublist_append_iff]
  constructor
  · rintro ⟨l₁, l₂, rfl, h₁, h₂⟩
    obtain h₂ | ⟨r, rfl, hr⟩ := List.sublist_cons_iff.mp h₂
    · rw [List.sublist_nil.mp h₂, List.append_nil]
      exact .inl h₁
    · rw [List.sublist_nil.mp hr]
      exact .inr ⟨l₁, rfl, h₁⟩
  · rintro (h | ⟨l', rfl, h⟩)
    · exact ⟨l, [], (List.append_nil l).symm, h, List.nil_sublist _⟩
    · exact ⟨l', [x], rfl, h, List.Sublist.refl _⟩

/-- The choice of the positive elements makes the difference as large as the weight. -/
theorem difference_positive (arr : List Int) : difference arr (arr.filter (0 < ·)) = - weight arr := by
  induction arr with
  | nil => rfl
  | cons x arr ih =>
    rw [difference, weight] at ih ⊢
    rw [List.sum_cons, List.map_cons, List.sum_cons]
    by_cases hx : 0 < x
    · rw [List.filter_cons_of_pos (by simpa using hx), List.sum_cons, abs_of_pos hx]
      omega
    · rw [List.filter_cons_of_neg (by simpa using hx), abs_of_nonpos (not_lt.mp hx)]
      omega

end Weights

section Recursion

/-- The differences that the choices from `xs` lead to, after elements with the sum `c` have been chosen. -/
def differences (xs : List Int) (c t : Int) : Set Int :=
  {d | ∃ l : List Int, l.Sublist xs ∧ d = |t - 2 * (c + l.sum)|}

theorem differences_nil : differences [] c t = {|t - 2 * c|} := by
  ext d
  simp [differences]

theorem differences_snoc : differences (xs ++ [x]) c t = differences xs (c + x) t ∪ differences xs c t := by
  ext d
  constructor
  · rintro ⟨l, hl, rfl⟩
    obtain hl' | ⟨l', rfl, hl'⟩ := sublist_snoc.mp hl
    · exact .inr ⟨l, hl', rfl⟩
    · refine .inl ⟨l', hl', ?_⟩
      rw [List.sum_append, List.sum_singleton]
      congr 2
      omega
  · rintro (⟨l, hl, rfl⟩ | ⟨l, hl, rfl⟩)
    · refine ⟨l ++ [x], sublist_snoc.mpr (.inr ⟨l, rfl, hl⟩), ?_⟩
      rw [List.sum_append, List.sum_singleton]
      congr 2
      omega
    · exact ⟨l, sublist_snoc.mpr (.inl hl), rfl⟩

/-- No sum overflows: neither of the chosen elements, nor of the others, nor the difference of both. -/
structure Room (xs : List Int) (c t : Int) : Prop where
  chosen : |c| + weight xs ≤ INT_MAX
  other : |t - xs.sum - c| + weight xs ≤ INT_MAX
  difference : |t - xs.sum - 2 * c| + weight xs ≤ INT_MAX

theorem abs_add_le_weight {y r : Int} (h : |y| + weight (xs ++ [x]) ≤ INT_MAX) (hr : r = y + x ∨ r = y ∨ r = y - x) :
    |r| + weight xs ≤ INT_MAX := by
  rw [weight_snoc] at h
  have hadd := abs_add_le y x
  have hsub := abs_sub y x
  have hx := abs_nonneg x
  obtain rfl | rfl | rfl := hr
  · omega
  · omega
  · omega

theorem room_take (h : Room (xs ++ [x]) c t) : Room xs (c + x) t := by
  obtain ⟨h1, h2, h3⟩ := h
  rw [List.sum_append, List.sum_singleton] at h2 h3
  constructor
  case chosen => exact abs_add_le_weight h1 (.inl rfl)
  case other => exact abs_add_le_weight h2 (.inr (.inl (by omega)))
  case difference => exact abs_add_le_weight h3 (.inr (.inr (by omega)))

theorem room_leave (h : Room (xs ++ [x]) c t) : Room xs c t := by
  obtain ⟨h1, h2, h3⟩ := h
  rw [List.sum_append, List.sum_singleton] at h2 h3
  constructor
  case chosen => exact abs_add_le_weight h1 (.inr (.inl rfl))
  case other => exact abs_add_le_weight h2 (.inl (by omega))
  case difference => exact abs_add_le_weight h3 (.inl (by omega))

theorem take_snoc (hi : i < arr.length) : arr.take (i + 1) = arr.take i ++ [arr[i]] :=
  List.take_succ_eq_append_getElem hi

theorem findMinRec_isLeast (hi : i ≤ arr.length) (h : Room (arr.take i) c t) :
    ∃ d, findMinRec arr i c t = some d ∧ IsLeast (differences (arr.take i) c t) d := by
  induction i generalizing c with
  | zero =>
    obtain ⟨-, h2, h3⟩ := h
    simp only [List.take_zero, weight, List.map_nil, List.sum_nil, Int.sub_zero, Int.add_zero] at h2 h3
    have hother : t - c - c = t - 2 * c := by omega
    refine ⟨|t - 2 * c|, ?_, ?_⟩
    · rw [findMinRec, checked_of_abs h2, Option.bind_eq_bind, Option.bind_some, hother, checked_of_abs h3,
        Option.bind_some, checked_of_abs (by rwa [abs_abs])]
    · rw [List.take_zero, differences_nil]
      exact isLeast_singleton
  | succ i ih =>
    have hlt : i < arr.length := hi
    rw [take_snoc hlt] at h ⊢
    obtain ⟨d, hd, hleast⟩ := ih (Nat.le_of_lt hlt) (room_take h)
    obtain ⟨d', hd', hleast'⟩ := ih (Nat.le_of_lt hlt) (room_leave h)
    have hsum : checked (c + arr[i]) = some (c + arr[i]) := by
      apply checked_of_abs
      have hw := weight_nonneg (arr.take i)
      have hroom := (room_take h).chosen
      omega
    refine ⟨min d d', ?_, ?_⟩
    · simp only [findMinRec, List.getElem?_eq_getElem hlt, hsum, hd, hd', Option.bind_eq_bind, Option.bind_some,
        Option.pure_def]
    · rw [differences_snoc]
      exact hleast.union hleast'

/-- Each choice has been tried, and its difference is one that `int` can hold. -/
theorem findMinRec_within (h : findMinRec arr i c t = some d) (hi : i ≤ arr.length) (hl : l.Sublist (arr.take i)) :
    |t - 2 * (c + l.sum)| ≤ INT_MAX := by
  induction i generalizing c d l with
  | zero =>
    rw [List.take_zero] at hl
    rw [List.sublist_nil.mp hl, List.sum_nil, Int.add_zero]
    simp only [findMinRec, Option.bind_eq_bind, Option.bind_eq_some_iff, checked_eq_some] at h
    obtain ⟨_, ⟨-, rfl⟩, _, ⟨-, rfl⟩, hd, -⟩ := h
    have hother : t - c - c = t - 2 * c := by omega
    rw [hother] at hd
    exact hd.2
  | succ i ih =>
    have hlt : i < arr.length := hi
    rw [take_snoc hlt] at hl
    simp only [findMinRec, List.getElem?_eq_getElem hlt, Option.bind_eq_bind, Option.bind_some,
      Option.bind_eq_some_iff, checked_eq_some] at h
    obtain ⟨_, ⟨-, rfl⟩, d, hd, d', hd', -⟩ := h
    obtain hl' | ⟨l', rfl, hl'⟩ := sublist_snoc.mp hl
    · exact ih hd' (Nat.le_of_lt hlt) hl'
    · have hbound := ih hd (Nat.le_of_lt hlt) hl'
      rw [List.sum_append, List.sum_singleton]
      have hsum : c + (l'.sum + arr[i]) = c + arr[i] + l'.sum := by omega
      rw [hsum]
      exact hbound

end Recursion

section Total

theorem sum_within (c : Int) (xs : List Int) (h : |c| + weight xs ≤ INT_MAX) :
    xs.foldlM (fun sumTotal x => checked (sumTotal + x)) c = some (c + xs.sum) := by
  induction xs generalizing c with
  | nil => simp
  | cons x xs ih =>
    rw [weight, List.map_cons, List.sum_cons] at h
    have hadd := abs_add_le c x
    have hw := weight_nonneg xs
    have hnext : |c + x| + weight xs ≤ INT_MAX := by
      rw [weight] at hw ⊢
      omega
    rw [List.foldlM_cons, checked_of_abs (by omega), Option.bind_eq_bind, Option.bind_some, ih _ hnext, List.sum_cons,
      Int.add_assoc]

theorem sum_of_some {total : Int} (h : xs.foldlM (fun sumTotal x => checked (sumTotal + x)) c = some total) :
    total = c + xs.sum := by
  induction xs generalizing c with
  | nil =>
    cases h
    simp
  | cons x xs ih =>
    rw [List.foldlM_cons, Option.bind_eq_bind, Option.bind_eq_some_iff] at h
    obtain ⟨_, hx, h⟩ := h
    obtain ⟨-, rfl⟩ := checked_eq_some.mp hx
    rw [ih h, List.sum_cons, Int.add_assoc]

/-- `findMin` is defined exactly for the arrays whose sizes have a sum that `int` can hold, and its result is the
least difference between the sums of a choice of elements and of the others. -/
theorem findMin_eq_some (arr : List Int) (d : Int) :
    findMin arr = some d ↔
      weight arr ≤ INT_MAX ∧ IsLeast {d | ∃ l : List Int, l.Sublist arr ∧ d = |difference arr l|} d := by
  have hset : {d | ∃ l : List Int, l.Sublist arr ∧ d = |difference arr l|} =
      differences (arr.take arr.length) 0 arr.sum := by
    rw [List.take_length, differences]
    simp only [Int.zero_add, difference]
  have hdefined : weight arr ≤ INT_MAX →
      ∃ d, findMin arr = some d ∧ IsLeast (differences (arr.take arr.length) 0 arr.sum) d := by
    intro hw
    have htotal := sum_within 0 arr (by simpa using hw)
    have hroom : Room (arr.take arr.length) 0 arr.sum := by
      constructor <;> simpa using hw
    obtain ⟨d, hd, hleast⟩ := findMinRec_isLeast (Nat.le_refl _) hroom
    refine ⟨d, ?_, hleast⟩
    rw [findMin, htotal, Option.bind_eq_bind, Option.bind_some, Int.zero_add, hd]
  rw [hset]
  constructor
  · intro h
    have hw : weight arr ≤ INT_MAX := by
      rw [findMin, Option.bind_eq_bind, Option.bind_eq_some_iff] at h
      obtain ⟨total, htotal, h⟩ := h
      have hbound := findMinRec_within (l := arr.filter (0 < ·)) h (Nat.le_refl _)
        (by rw [List.take_length]; exact List.filter_sublist)
      rw [sum_of_some htotal, Int.zero_add, Int.zero_add] at hbound
      have hpositive := difference_positive arr
      rw [difference] at hpositive
      rwa [hpositive, abs_neg, abs_of_nonneg (weight_nonneg arr)] at hbound
    obtain ⟨d', hd', hleast⟩ := hdefined hw
    rw [hd'] at h
    cases h
    exact ⟨hw, hleast⟩
  · rintro ⟨hw, hleast⟩
    obtain ⟨d', hd', hleast'⟩ := hdefined hw
    rw [hd', hleast'.unique hleast]

example : findMin [3, 1, 4, 2, 2, 1] = some 1 := by decide

end Total

end C11AndC.Partition
