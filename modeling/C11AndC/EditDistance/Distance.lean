import C11AndC.Library.Edits

namespace C11AndC.EditDistance

open C11AndC.Library

def min (x y z : Nat) : Nat := Min.min (Min.min x y) z

/-- `str1[m - 1]` is undefined behind the end of the string. -/
def editDist (str1 str2 : List Char) : Nat → Nat → Option Nat
  | 0, n => some n
  | m + 1, 0 => some (m + 1)
  | m + 1, n + 1 => do
    let c ← str1[m]?
    let d ← str2[n]?
    if c = d then
      editDist str1 str2 m n
    else
      let insert ← editDist str1 str2 (m + 1) n
      let remove ← editDist str1 str2 m (n + 1)
      let replace ← editDist str1 str2 m n
      return 1 + min insert remove replace
  termination_by m n => m + n

variable {str1 str2 : List Char} {m n : Nat}

theorem reverse_take_succ {l : List Char} {i : Nat} (h : i < l.length) :
    (l.take (i + 1)).reverse = l[i] :: (l.take i).reverse := by
  rw [List.take_add_one, List.getElem?_eq_getElem h]
  simp

/-- The two prefixes are aligned from their ends. The answer does not exceed the longer of the two
lengths, so that it is an `int` as they are. -/
theorem editDist_eq (hm : m ≤ str1.length) (hn : n ≤ str2.length) : ∃ d, editDist str1 str2 m n = some d ∧
    IsLeast {k | Aligned k (str1.take m).reverse (str2.take n).reverse} d ∧ d ≤ max m n := by
  induction m, n using editDist.induct with
  | case1 n =>
    refine ⟨n, by rw [editDist], ?_, Nat.le_max_right ..⟩
    have h := isLeast_nil_left (str2.take n).reverse
    rwa [List.length_reverse, List.length_take, Nat.min_eq_left hn] at h
  | case2 m =>
    refine ⟨m + 1, by rw [editDist], ?_, Nat.le_max_left ..⟩
    have h := isLeast_symm (isLeast_nil_left (str1.take (m + 1)).reverse)
    rwa [List.length_reverse, List.length_take, Nat.min_eq_left hm] at h
  | case3 m n both insert remove =>
    obtain ⟨c, hc, hcleast, hcle⟩ := both (Nat.le_of_succ_le hm) (Nat.le_of_succ_le hn)
    have hread : editDist str1 str2 (m + 1) (n + 1) = if str1[m] = str2[n] then some c else (do
        let a ← editDist str1 str2 (m + 1) n
        let b ← editDist str1 str2 m (n + 1)
        return 1 + min a b c) := by
      rw [editDist, List.getElem?_eq_getElem hm, List.getElem?_eq_getElem hn]
      simp only [Option.bind_eq_bind, Option.bind_some, hc]
    rw [hread, reverse_take_succ hm, reverse_take_succ hn]
    by_cases he : str1[m] = str2[n]
    · refine ⟨c, if_pos he, ?_, by omega⟩
      rw [he]
      exact isLeast_keep _ hcleast
    · obtain ⟨a, ha, haleast, -⟩ := insert hm (Nat.le_of_succ_le hn)
      obtain ⟨b, hb, hbleast, -⟩ := remove (Nat.le_of_succ_le hm) hn
      rw [reverse_take_succ hm] at haleast
      rw [reverse_take_succ hn] at hbleast
      refine ⟨1 + min a b c, ?_, isLeast_step he haleast hbleast hcleast, ?_⟩
      · rw [if_neg he, ha, hb]
        rfl
      · have hle : min a b c ≤ c := Nat.min_le_right ..
        omega

/-- On whole strings `editDist` counts the fewest edits from one to the other. -/
theorem editDist_least (s t : List Char) :
    ∃ d, editDist s t s.length t.length = some d ∧ IsLeast {k | Edits k s t} d := by
  obtain ⟨d, hd, hleast, -⟩ := editDist_eq (Nat.le_refl s.length) (Nat.le_refl t.length)
  refine ⟨d, hd, ?_⟩
  rw [List.take_length, List.take_length] at hleast
  have h := isLeast_edits hleast
  simpa only [edits_reverse_iff] using h

end C11AndC.EditDistance
