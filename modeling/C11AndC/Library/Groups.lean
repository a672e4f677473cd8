import Mathlib.Data.List.Basic

namespace C11AndC.Library

variable {α : Type}

/-- The list cut into groups of `k`; the last one may be shorter. -/
def groups (k : Nat) : List α → List (List α)
  | [] => []
  | x :: l => (x :: l.take (k - 1)) :: groups k (l.drop (k - 1))
  termination_by l => l.length

example : groups 2 [1, 2, 3] = [[1, 2], [3]] := by simp [groups]

/-- Each group of `k` turned round in its place. -/
def reverseGroups (k : Nat) (l : List α) : List α := ((groups k l).map List.reverse).flatten

section Cuts

variable {k : Nat} {l : List α}

theorem groups_nil (k : Nat) : groups k ([] : List α) = [] := by rw [groups]

theorem groups_eq (hk : 1 ≤ k) (hl : l ≠ []) : groups k l = l.take k :: groups k (l.drop k) := by
  obtain ⟨n, rfl⟩ := Nat.exists_eq_add_of_le' hk
  cases l with
  | nil => exact absurd rfl hl
  | cons x l =>
    rw [groups]
    rfl

theorem reverseGroups_eq (hk : 1 ≤ k) (hl : l ≠ []) :
    reverseGroups k l = (l.take k).reverse ++ reverseGroups k (l.drop k) := by
  rw [reverseGroups, groups_eq hk hl]
  rfl

theorem reverseGroups_nil (k : Nat) : reverseGroups k ([] : List α) = [] := by
  rw [reverseGroups, groups_nil]
  rfl

/-- An induction over the groups. -/
theorem groups_induction {P : List α → Prop} (hk : 1 ≤ k) (nil : P [])
    (cut : ∀ l, l ≠ [] → P (l.drop k) → P l) (l : List α) : P l := by
  generalize hn : l.length = n
  induction n using Nat.strongRecOn generalizing l with
  | ind n ih =>
    by_cases hl : l = []
    · exact hl ▸ nil
    · have hlen := List.length_pos_iff.mpr hl
      refine cut l hl (ih _ ?_ _ rfl)
      rw [List.length_drop]
      omega

theorem reverseGroups_perm (hk : 1 ≤ k) (l : List α) : (reverseGroups k l).Perm l := by
  induction l using groups_induction hk with
  | nil => rw [reverseGroups_nil]
  | cut l hl ih =>
    rw [reverseGroups_eq hk hl]
    have h := (List.reverse_perm (l.take k)).append ih
    rwa [List.take_append_drop] at h

/-- Only in front of an empty rest can a group be short. -/
theorem take_drop_short (hl : l.drop k ≠ []) : (l.take k).length = k := by
  rw [List.length_take]
  have h : k < l.length := by
    by_contra hle
    exact hl (List.drop_eq_nil_of_le (Nat.le_of_not_lt hle))
  omega

/-- The groups of a list with turned groups are the turned groups. -/
theorem groups_reverseGroups (hk : 1 ≤ k) (l : List α) :
    groups k (reverseGroups k l) = (groups k l).map List.reverse := by
  induction l using groups_induction hk with
  | nil => rw [reverseGroups_nil, groups_nil, List.map_nil]
  | cut l hl ih =>
    have hne : (l.take k).reverse ≠ [] := by
      rw [ne_eq, List.reverse_eq_nil_iff, List.take_eq_nil_iff]
      rintro (rfl | rfl)
      · omega
      · exact hl rfl
    rw [groups_eq hk hl, List.map_cons, ← ih, reverseGroups_eq hk hl,
      groups_eq hk (fun h => hne (List.append_eq_nil_iff.mp h).1)]
    by_cases hd : l.drop k = []
    · have hlen : (l.take k).reverse.length ≤ k := by
        rw [List.length_reverse]
        exact List.length_take_le k l
      rw [hd, reverseGroups_nil, List.append_nil, List.take_of_length_le hlen, List.drop_eq_nil_of_le hlen]
    · have hlen : (l.take k).reverse.length = k := by rw [List.length_reverse, take_drop_short hd]
      rw [List.take_left' hlen, List.drop_left' hlen]

theorem flatten_groups (hk : 1 ≤ k) (l : List α) : (groups k l).flatten = l := by
  induction l using groups_induction hk with
  | nil => rw [groups_nil, List.flatten_nil]
  | cut l hl ih => rw [groups_eq hk hl, List.flatten_cons, ih, List.take_append_drop]

theorem reverseGroups_involutive (hk : 1 ≤ k) (l : List α) : reverseGroups k (reverseGroups k l) = l := by
  rw [reverseGroups, groups_reverseGroups hk, List.map_map, List.reverse_involutive.comp_self, List.map_id,
    flatten_groups hk]

end Cuts

end C11AndC.Library
