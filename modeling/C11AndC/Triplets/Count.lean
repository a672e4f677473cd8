import Mathlib.Algebra.Order.Group.Int
import Mathlib.Data.List.Sort
import Mathlib.Data.Nat.Choose.Basic
import C11AndC.Library.Choices
import C11AndC.Library.Lists
import C11AndC.Library.Wrap

namespace C11AndC.Triplets

open C11AndC.Library

/-- `sort(arr, arr + n)` -/
def sort (arr : List Int) (n : Nat) : List Int := (arr.take n).insertionSort (· ≤ ·) ++ arr.drop n

/-- The `while` loop. -/
def scan (arr : List Int) (sum : Int) (i j k : Nat) (ans : Int) : Option Int :=
  if j < k then do
    let x ← arr[i]?
    let y ← arr[j]?
    let z ← arr[k]?
    if wrap (wrap (x + y) + z) ≥ sum then
      scan arr sum i j (k - 1) ans
    else
      scan arr sum i (j + 1) k (wrap (ans + (k - j)))
  else
    some ans
termination_by k - j

def countTriplets (arr : List Int) (n : Nat) (sum : Int) : Option Int :=
  (List.range (n - 2)).foldlM (fun ans i => scan (sort arr n) sum i (i + 1) (n - 1) ans) 0

/-- The index triples with a sum below the bound. -/
def smallTriples (arr : List Int) (sum : Int) : Finset (Fin arr.length × Fin arr.length × Fin arr.length) :=
  Finset.univ.filter fun p =>
    p.1 < p.2.1 ∧ p.2.1 < p.2.2 ∧ arr.get p.1 + arr.get p.2.1 + arr.get p.2.2 < sum

/-- The three-element sums are of type `int`. -/
def IntSums (arr : List Int) : Prop :=
  ∀ i j k : Fin arr.length, i < j → j < k → IsInt (arr.get i + arr.get j + arr.get k)

instance : DecidablePred IntSums := fun arr =>
  inferInstanceAs (Decidable (∀ i j k : Fin arr.length, i < j → j < k → IsInt (arr.get i + arr.get j + arr.get k)))

section Scan

/-- The elements from `j` to `k`. -/
def window (l : List Int) (j k : Nat) : List Int := (l.take (k + 1)).drop j

variable {l : List Int} {j k : Nat}

theorem window_left (h : j ≤ k) (hk : k < l.length) :
    (window l j k : Multiset Int) = l[j] ::ₘ (window l (j + 1) k : Multiset Int) := by
  have hj : j < (l.take (k + 1)).length := by rw [List.length_take]; omega
  rw [window, List.drop_eq_getElem_cons hj, List.getElem_take, window, Multiset.cons_coe]

theorem window_right (h : j < k) (hk : k < l.length) :
    (window l j k : Multiset Int) = l[k] ::ₘ (window l j (k - 1) : Multiset Int) := by
  have hlen : j ≤ (l.take k).length := by rw [List.length_take]; omega
  rw [window, ← List.take_append_getElem hk, List.drop_append_of_le_length hlen, window,
    Nat.sub_add_cancel (by omega), ← Multiset.coe_add, Multiset.coe_singleton, add_comm, Multiset.singleton_add]

theorem length_window (hk : k < l.length) : (window l j k).length = k + 1 - j := by
  rw [window, List.length_drop, List.length_take, Nat.min_eq_left hk]

theorem mem_window {y : Int} (hk : k < l.length) (h : y ∈ window l j k) :
    ∃ m, ∃ hm : m < l.length, j ≤ m ∧ m ≤ k ∧ l[m] = y := by
  obtain ⟨m, hm, rfl⟩ := List.getElem_of_mem h
  rw [length_window hk] at hm
  refine ⟨j + m, by omega, by omega, by omega, ?_⟩
  simp only [window, List.getElem_drop, List.getElem_take]

theorem getElem_cons_sublist {t : List Int} (hj : j < l.length) (h : t.Sublist (l.drop (j + 1))) (hk : k ≤ j) :
    (l[j] :: t).Sublist (l.drop k) := by
  have hcons := h.cons_cons l[j]
  rw [← List.drop_eq_getElem_cons hj] at hcons
  exact hcons.trans (List.drop_sublist_drop_left l hk)

theorem sublist_three {i : Nat} (hij : i < j) (hjk : j < k) (hk : k < l.length) :
    [l[i], l[j], l[k]].Sublist l :=
  getElem_cons_sublist _ (getElem_cons_sublist _ (getElem_cons_sublist hk (List.nil_sublist _) hjk) hij)
    (Nat.zero_le i)

theorem scan_step {i : Nat} (sum ans : Int) (hi : i < j) (h : j < k) (hk : k < l.length)
    (hsum : IsInt (l[i] + l[j] + l[k])) :
    scan l sum i j k ans = if l[i] + l[j] + l[k] ≥ sum then scan l sum i j (k - 1) ans
      else scan l sum i (j + 1) k (wrap (ans + (k - j))) := by
  rw [scan, if_pos h, List.getElem?_eq_getElem (by omega), List.getElem?_eq_getElem (by omega),
    List.getElem?_eq_getElem hk]
  simp only [Option.bind_eq_bind, Option.bind_some, wrap_wrap_add, wrap_eq hsum]

theorem getElem_le (hsorted : l.Pairwise (· ≤ ·)) (h : j ≤ k) (hk : k < l.length) : l[j] ≤ l[k] := by
  obtain rfl | hlt := h.eq_or_lt
  · exact le_rfl
  · exact List.pairwise_iff_getElem.mp hsorted j k (by omega) hk hlt

/-- The last element of a window is too large for each of the others. -/
theorem window_large {i : Nat} {sum : Int} (hsorted : l.Pairwise (· ≤ ·)) (hi : i < l.length) (h : j < k)
    (hk : k < l.length) (hge : l[i] + l[j] + l[k] ≥ sum) :
    choicesBelow 2 (window l j k : Multiset Int) (sum - l[i]) =
      choicesBelow 2 (window l j (k - 1) : Multiset Int) (sum - l[i]) := by
  have hall : ∀ y ∈ (window l j (k - 1) : Multiset Int), sum - l[i] ≤ l[k] + y := by
    intro y hy
    obtain ⟨m, hm, hjm, -, rfl⟩ := mem_window (by omega) (Multiset.mem_coe.mp hy)
    have hle := getElem_le hsorted hjm hm
    omega
  rw [window_right h hk, choicesBelow_two_greatest hall]

/-- The first element of a window is small enough with each of the others. -/
theorem window_small {i : Nat} {sum : Int} (hsorted : l.Pairwise (· ≤ ·)) (hi : i < l.length) (h : j < k)
    (hk : k < l.length) (hlt : l[i] + l[j] + l[k] < sum) :
    choicesBelow 2 (window l j k : Multiset Int) (sum - l[i]) =
      k - j + choicesBelow 2 (window l (j + 1) k : Multiset Int) (sum - l[i]) := by
  have hall : ∀ y ∈ (window l (j + 1) k : Multiset Int), l[j] + y < sum - l[i] := by
    intro y hy
    obtain ⟨m, hm, -, hmk, rfl⟩ := mem_window hk (Multiset.mem_coe.mp hy)
    have hle := getElem_le hsorted hmk hk
    omega
  have hcard : Multiset.card (window l (j + 1) k : Multiset Int) = k - j := by
    rw [Multiset.coe_card, length_window hk]
    omega
  rw [window_left h.le hk, choicesBelow_two_least hall, hcard]

theorem window_none (hk : k < l.length) (h : k ≤ j) (s : Int) :
    choicesBelow 2 (window l j k : Multiset Int) s = 0 := by
  refine choicesBelow_eq_zero ?_
  rw [Multiset.coe_card, length_window hk]
  omega

theorem window_rest {i : Nat} (hi : i < l.length - 2) (s : Int) :
    choicesBelow 2 (window l (i + 1) (l.length - 1) : Multiset Int) (s - l[i]) +
      choicesBelow 3 (l.drop (i + 1) : Multiset Int) s = choicesBelow 3 (l.drop i : Multiset Int) s := by
  have hwindow : window l (i + 1) (l.length - 1) = l.drop (i + 1) := by
    rw [window, Nat.sub_add_cancel (by omega), List.take_length]
  rw [hwindow, ← choicesBelow_cons, Multiset.cons_coe, ← List.drop_eq_getElem_cons]

theorem choices_end (l : List Int) (s : Int) : choicesBelow 3 (l.drop (l.length - 2) : Multiset Int) s = 0 := by
  refine choicesBelow_eq_zero ?_
  rw [Multiset.coe_card, List.length_drop]
  omega

/-- The loop adds the pairs of its window that are small enough with `arr[i]`. -/
theorem scan_spec {i : Nat} (sum : Int) {ans : Int} (hsorted : l.Pairwise (· ≤ ·)) (hi : i < l.length)
    (hsums : ∀ j k, i < j → ∀ hjk : j < k, ∀ hk : k < l.length, IsInt (l[i] + l[j] + l[k]))
    (hij : i < j) (hk : k < l.length) (hans : IsInt ans) :
    scan l sum i j k ans = some (wrap (ans + choicesBelow 2 (window l j k : Multiset Int) (sum - l[i]))) := by
  induction hd : k - j generalizing j k ans with
  | zero =>
    rw [window_none hk (by omega), scan, if_neg (by omega), Int.natCast_zero, Int.add_zero, wrap_eq hans]
  | succ d ih =>
    have hjk : j < k := by omega
    rw [scan_step sum ans hij hjk hk (hsums j k hij hjk hk)]
    split
    · next hge => rw [ih hij (by omega) hans (by omega), window_large hsorted hi hjk hk hge]
    · next hlt =>
      rw [ih (by omega) hk (isInt_wrap _) (by omega), window_small hsorted hi hjk hk (Int.not_le.mp hlt),
        wrap_wrap_add, Int.natCast_add, Int.natCast_sub hjk.le, Int.add_assoc]

/-- Before round `i` the triples that start at `i` or behind it are still to be counted. -/
structure Counted (l : List Int) (sum : Int) (i : Nat) (ans : Int) : Prop where
  isInt : IsInt ans
  rest : wrap (ans + choicesBelow 3 (l.drop i : Multiset Int) sum) = wrap (choicesBelow 3 (l : Multiset Int) sum)

/-- A round of the `for` loop counts the triples whose first element is `arr[i]`. -/
theorem Counted.round {i : Nat} {sum ans : Int} (hsorted : l.Pairwise (· ≤ ·)) (hi : i < l.length - 2)
    (hsums : ∀ i j k, ∀ hij : i < j, ∀ hjk : j < k, ∀ hk : k < l.length, IsInt (l[i] + l[j] + l[k]))
    (h : Counted l sum i ans) :
    ∃ ans', scan l sum i (i + 1) (l.length - 1) ans = some ans' ∧ Counted l sum (i + 1) ans' := by
  have hlt : i < l.length := by omega
  have hlast : l.length - 1 < l.length := by omega
  have hscan := scan_spec sum hsorted hlt (fun j k => hsums i j k) (Nat.lt_succ_self i) hlast h.isInt
  refine ⟨_, hscan, isInt_wrap _, ?_⟩
  rw [wrap_wrap_add, Int.add_assoc, ← Int.natCast_add, window_rest hi, h.rest]

theorem Counted.done {sum ans : Int} (h : Counted l sum (l.length - 2) ans) :
    ans = wrap (choicesBelow 3 (l : Multiset Int) sum) := by
  have hrest := h.rest
  rwa [choices_end, Int.natCast_zero, Int.add_zero, wrap_eq h.isInt] at hrest

end Scan

section Result

variable {arr : List Int} {sum : Int}

theorem sort_length (arr : List Int) : sort arr arr.length = arr.insertionSort (· ≤ ·) := by
  rw [sort, List.take_length, List.drop_length, List.append_nil]

theorem coe_sort (arr : List Int) : (sort arr arr.length : Multiset Int) = (arr : Multiset Int) := by
  rw [sort_length]
  exact Multiset.coe_eq_coe.mpr (List.perm_insertionSort _ arr)

theorem card_smallTriples (arr : List Int) (sum : Int) :
    (smallTriples arr sum).card = choicesBelow 3 (arr : Multiset Int) sum := by
  have hsum : ∀ p : Fin arr.length × Fin arr.length × Fin arr.length,
      ({arr.get p.1, arr.get p.2.1, arr.get p.2.2} : Multiset Int).sum =
        arr.get p.1 + arr.get p.2.1 + arr.get p.2.2 := fun p => by
    simp only [Multiset.insert_eq_cons, Multiset.sum_cons, Multiset.sum_singleton, Int.add_assoc]
  rw [choicesBelow, ← map_triples, Multiset.countP_map]
  simp only [hsum]
  rw [← Finset.filter_val, Finset.card_val, triples, Finset.filter_filter]
  simp only [and_assoc, smallTriples]

theorem IntSums.of_choice (h : IntSums arr) {t : Multiset Int}
    (ht : t ∈ Multiset.powersetCard 3 (arr : Multiset Int)) : IsInt t.sum := by
  rw [← map_triples] at ht
  obtain ⟨p, hp, rfl⟩ := Multiset.mem_map.mp ht
  obtain ⟨hij, hjk⟩ := (Finset.mem_filter.mp hp).2
  have hint := h p.1 p.2.1 p.2.2 hij hjk
  rw [Int.add_assoc] at hint
  simpa only [Multiset.insert_eq_cons, Multiset.sum_cons, Multiset.sum_singleton] using hint

/-- Sorting keeps the three-element sums in range. -/
theorem IntSums.sorted (h : IntSums arr) (i j k : Nat) (hij : i < j) (hjk : j < k)
    (hk : k < (sort arr arr.length).length) :
    IsInt ((sort arr arr.length)[i] + (sort arr arr.length)[j] + (sort arr arr.length)[k]) := by
  have hle := Multiset.coe_le.mpr (sublist_three hij hjk hk).subperm
  rw [coe_sort] at hle
  have hint := h.of_choice (Multiset.mem_powersetCard.mpr ⟨hle, rfl⟩)
  rw [Int.add_assoc]
  simpa only [Multiset.sum_coe, List.sum_cons, List.sum_nil, Int.add_zero] using hint

theorem countTriplets_eq (h : IntSums arr) (sum : Int) :
    countTriplets arr arr.length sum = some (wrap (smallTriples arr sum).card) := by
  have hlen : (sort arr arr.length).length = arr.length := by
    rw [sort_length, List.length_insertionSort]
  have hsorted : (sort arr arr.length).Pairwise (· ≤ ·) := by
    rw [sort_length]
    exact List.pairwise_insertionSort _ arr
  have hstart : Counted (sort arr arr.length) sum 0 0 := ⟨by decide, by rw [Int.zero_add, List.drop_zero]⟩
  obtain ⟨ans, hrun, hcounted⟩ := foldlM_range_some
    (fun i hi ans hans => hans.round hsorted hi h.sorted) hstart
  rw [hcounted.done, coe_sort, ← card_smallTriples, hlen] at hrun
  exact hrun

theorem isInt_card : IsInt (smallTriples arr sum).card ↔ (smallTriples arr sum).card ≤ 2147483647 := by
  rw [IsInt, INT_MIN, INT_MAX]
  omega

/-- The answer is the number of the triples as long as an `int` holds this number. -/
theorem countTriplets_iff (arr : List Int) (sum : Int) (h : IntSums arr) :
    countTriplets arr arr.length sum = some ((smallTriples arr sum).card : Int) ↔
      (smallTriples arr sum).card ≤ 2147483647 := by
  rw [countTriplets_eq h, Option.some_inj, wrap_eq_iff, isInt_card]

theorem countTriplets_driver :
    countTriplets [5, 1, 3, 4, 7] 5 12 = some ((smallTriples [5, 1, 3, 4, 7] 12).card : Int) ∧
      (smallTriples [5, 1, 3, 4, 7] 12).card = 4 :=
  ⟨(countTriplets_iff [5, 1, 3, 4, 7] 12 (by decide)).mpr (by decide), by decide⟩

/-- Up to `2345` elements have not more triples than an `int` holds. -/
theorem countTriplets_short (h : IntSums arr) (hlen : arr.length ≤ 2345) :
    countTriplets arr arr.length sum = some ((smallTriples arr sum).card : Int) := by
  have hle : (smallTriples arr sum).card ≤ 2147483647 :=
    calc (smallTriples arr sum).card = choicesBelow 3 (arr : Multiset Int) sum := card_smallTriples arr sum
      _ ≤ arr.length.choose 3 := choicesBelow_le_choose 3 (arr : Multiset Int) sum
      _ ≤ Nat.choose 2345 3 := Nat.choose_le_choose 3 hlen
      _ ≤ 2147483647 := by rw [Nat.choose_eq_descFactorial_div_factorial]; decide
  rw [countTriplets_eq h, wrap_eq (isInt_card.mpr hle)]

theorem sum_zeros {t : Multiset Int} {n : Nat} (h : t ≤ Multiset.replicate n 0) : t.sum = 0 :=
  Multiset.sum_eq_zero fun _ hx => Multiset.eq_of_mem_replicate (Multiset.mem_of_le h hx)

theorem card_zeros (n : Nat) : (smallTriples (List.replicate n 0) 1).card = n.choose 3 := by
  have hsmall : ∀ t ∈ Multiset.powersetCard 3 (Multiset.replicate n (0 : Int)), t.sum < 1 := by
    intro t ht
    rw [sum_zeros (Multiset.mem_powersetCard.mp ht).1]
    exact Int.one_pos
  rw [card_smallTriples, Multiset.coe_replicate, choicesBelow_eq_choose hsmall, Multiset.card_replicate]

/-- The array of zeros has `2149201880` triples, which do not fit into an `int`. -/
theorem countTriplets_zeros : IntSums (List.replicate 2346 0) ∧
    (smallTriples (List.replicate 2346 0) 1).card = 2149201880 ∧
    countTriplets (List.replicate 2346 0) 2346 1 = some (-2145765416) := by
  have hsums : IntSums (List.replicate 2346 0) := by
    intro i j k _ _
    simp only [List.get_eq_getElem, List.getElem_replicate]
    decide
  have hcard : (smallTriples (List.replicate 2346 0) 1).card = 2149201880 := by
    rw [card_zeros, Nat.choose_eq_descFactorial_div_factorial]
    rfl
  refine ⟨hsums, hcard, ?_⟩
  have heq := countTriplets_eq hsums 1
  rw [hcard, List.length_replicate] at heq
  exact heq

end Result

end C11AndC.Triplets
