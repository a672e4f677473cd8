import C11AndC.Triplets.Count

namespace C11AndC.Triplets.Checked

open C11AndC.Library

/-- The `while` loop, in which a sum that is not of type `int` is undefined. -/
def scan (arr : List Int) (sum : Int) (i j k : Nat) (ans : Int) : Option Int :=
  if j < k then do
    let x ← arr[i]?
    let y ← arr[j]?
    let z ← arr[k]?
    let front ← checked (x + y)
    let total ← checked (front + z)
    if total ≥ sum then
      scan arr sum i j (k - 1) ans
    else do
      let ans ← checked (ans + (k - j))
      scan arr sum i (j + 1) k ans
  else
    some ans
termination_by k - j

def countTriplets (arr : List Int) (n : Nat) (sum : Int) : Option Int :=
  (List.range (n - 2)).foldlM (fun ans i => scan (sort arr n) sum i (i + 1) (n - 1) ans) 0

/-- The sums of three elements, and those of the first two of them, are of type `int`. -/
def Sums (arr : List Int) : Prop :=
  ∀ i j k : Fin arr.length, i < j → j < k →
    IsInt (arr.get i + arr.get j) ∧ IsInt (arr.get i + arr.get j + arr.get k)

instance : DecidablePred Sums := fun arr => inferInstanceAs (Decidable (∀ i j k : Fin arr.length, i < j → j < k →
  IsInt (arr.get i + arr.get j) ∧ IsInt (arr.get i + arr.get j + arr.get k)))

section Scan

variable {l : List Int} {i j k : Nat} {sum ans t : Int}

/-- Where all sums are defined, nothing is lost by taking them in 32 bits. -/
theorem scan_wrap (h : scan l sum i j k ans = some t) : Triplets.scan l sum i j k ans = some t := by
  fun_induction scan l sum i j k ans with
  | case1 j k ans hjk ih1 ih2 =>
    simp only [Option.bind_eq_bind, Option.bind_eq_some_iff, checked_eq_some] at h
    obtain ⟨x, hx, y, hy, z, hz, _, ⟨hfront, rfl⟩, _, ⟨htotal, rfl⟩, h⟩ := h
    rw [Triplets.scan, if_pos hjk, hx, hy, hz]
    simp only [Option.bind_eq_bind, Option.bind_some, wrap_wrap_add, wrap_eq htotal]
    split_ifs at h ⊢ with hge
    · exact ih1 h
    · obtain ⟨_, hans, h⟩ := Option.bind_eq_some_iff.mp h
      obtain ⟨hint, rfl⟩ := checked_eq_some.mp hans
      rw [wrap_eq hint]
      exact ih2 _ h
  | case2 j k ans hjk =>
    rw [Triplets.scan, if_neg hjk]
    exact h

theorem scan_step (sum ans : Int) (hi : i < l.length) (hj : j < l.length) (hk : k < l.length) (h : j < k)
    (hsum : IsInt (l[i] + l[j]) ∧ IsInt (l[i] + l[j] + l[k])) :
    scan l sum i j k ans = if l[i] + l[j] + l[k] ≥ sum then scan l sum i j (k - 1) ans
      else (checked (ans + (k - j))).bind (scan l sum i (j + 1) k) := by
  rw [scan, if_pos h, List.getElem?_eq_getElem hi, List.getElem?_eq_getElem hj, List.getElem?_eq_getElem hk]
  simp only [Option.bind_eq_bind, Option.bind_some, checked_of_isInt hsum.1, checked_of_isInt hsum.2]

theorem scan_sums (hi : i < l.length) (hj : j < l.length) (hk : k < l.length) (h : j < k)
    (hrun : scan l sum i j k ans = some t) :
    IsInt (l[i] + l[j]) ∧ IsInt (l[i] + l[j] + l[k]) := by
  rw [scan, if_pos h, List.getElem?_eq_getElem hi, List.getElem?_eq_getElem hj,
    List.getElem?_eq_getElem hk] at hrun
  simp only [Option.bind_eq_bind, Option.bind_some, Option.bind_eq_some_iff, checked_eq_some] at hrun
  obtain ⟨_, ⟨hfront, rfl⟩, _, ⟨htotal, -⟩, -⟩ := hrun
  exact ⟨hfront, htotal⟩

/-- The loop adds the pairs of its window that are small enough with `arr[i]`. -/
theorem scan_spec (hsorted : l.Pairwise (· ≤ ·)) (hsums : Sums l) (hij : i < j) (hi : i < l.length)
    (hk : k < l.length) (hans : 0 ≤ ans)
    (hmax : ans + choicesBelow 2 (window l j k : Multiset Int) (sum - l[i]) ≤ INT_MAX) :
    scan l sum i j k ans = some (ans + choicesBelow 2 (window l j k : Multiset Int) (sum - l[i])) := by
  induction hd : k - j generalizing j k ans with
  | zero => rw [window_none hk (by omega), scan, if_neg (by omega), Int.natCast_zero, Int.add_zero]
  | succ d ih =>
    have hjk : j < k := by omega
    have hj : j < l.length := hjk.trans hk
    rw [scan_step sum ans hi hj hk hjk (hsums ⟨i, hi⟩ ⟨j, hj⟩ ⟨k, hk⟩ hij hjk)]
    split
    · next hge =>
      rw [window_large hsorted hi hjk hk hge] at hmax ⊢
      exact ih hij (by omega) hans hmax (by omega)
    · next hlt =>
      rw [window_small hsorted hi hjk hk (Int.not_le.mp hlt), Int.natCast_add, Int.natCast_sub hjk.le,
        ← Int.add_assoc] at hmax ⊢
      have hint : IsInt (ans + (k - j)) := by
        rw [IsInt, INT_MIN]
        omega
      rw [checked_of_isInt hint]
      exact ih (by omega) hk (by omega) hmax (by omega)

end Scan

section Result

variable {arr : List Int} {sum t : Int}

theorem sort_sorted (h : arr.Pairwise (· ≤ ·)) : sort arr arr.length = arr := by
  rw [sort_length]
  exact h.insertionSort_eq

theorem countTriplets_card (hsorted : arr.Pairwise (· ≤ ·)) (hsums : Sums arr)
    (hcard : ((smallTriples arr sum).card : Int) ≤ INT_MAX) :
    countTriplets arr arr.length sum = some ((smallTriples arr sum).card : Int) := by
  have hround : ∀ i < arr.length - 2, ∀ ans : Int,
      0 ≤ ans ∧ ans + choicesBelow 3 (arr.drop i : Multiset Int) sum = (smallTriples arr sum).card →
      ∃ ans', scan arr sum i (i + 1) (arr.length - 1) ans = some ans' ∧ 0 ≤ ans' ∧
        ans' + choicesBelow 3 (arr.drop (i + 1) : Multiset Int) sum = (smallTriples arr sum).card := by
    intro i hi ans ⟨hans, hrest⟩
    rw [← window_rest hi, Int.natCast_add, ← Int.add_assoc] at hrest
    have hmax : ans + choicesBelow 2 (window arr (i + 1) (arr.length - 1) : Multiset Int) (sum - arr[i]) ≤
        INT_MAX := by
      omega
    exact ⟨_, scan_spec hsorted hsums (Nat.lt_succ_self i) (by omega) (by omega) hans hmax, by omega, hrest⟩
  have hstart : (0 : Int) ≤ 0 ∧
      0 + (choicesBelow 3 (arr.drop 0 : Multiset Int) sum : Int) = (smallTriples arr sum).card := by
    rw [List.drop_zero, card_smallTriples, Int.zero_add]
    exact ⟨le_rfl, rfl⟩
  obtain ⟨ans, hrun, -, hans⟩ := foldlM_range_some hround hstart
  rw [choices_end, Int.natCast_zero, Int.add_zero] at hans
  rw [countTriplets, sort_sorted hsorted, hrun, hans]

theorem countTriplets_wrap {n : Nat} (h : countTriplets arr n sum = some t) :
    Triplets.countTriplets arr n sum = some t :=
  foldlM_mono (fun _ _ _ hround => scan_wrap hround) h

/-- A count that is defined has formed the sums of each round's first window. -/
theorem countTriplets_sums (hsorted : arr.Pairwise (· ≤ ·)) (h : countTriplets arr arr.length sum = some t)
    {i : Nat} (hi : i + 2 < arr.length) :
    IsInt (arr[i] + arr[i + 1]) ∧ IsInt (arr[i] + arr[i + 1] + arr[arr.length - 1]) := by
  rw [countTriplets, sort_sorted hsorted] at h
  obtain ⟨u, v, hround⟩ := foldlM_each h i (List.mem_range.mpr (by omega))
  exact scan_sums (by omega) (by omega) (by omega) (by omega) hround

end Result

end C11AndC.Triplets.Checked
