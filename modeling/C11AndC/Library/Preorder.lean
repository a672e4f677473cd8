import Mathlib.Data.List.Lex
import Mathlib.Data.List.Sort
import Mathlib.Data.List.TakeWhile

namespace C11AndC.Library

section Stops

variable {α : Type} {p : α → Bool} {xs : List α} {x : α}

/-- In front of the first stop of an increasing list is what has no stop up to it. -/
theorem mem_takeWhile [LinearOrder α] (h : xs.Pairwise (· < ·)) :
    x ∈ xs.takeWhile p ↔ x ∈ xs ∧ ∀ y ∈ xs, y ≤ x → p y := by
  induction xs with
  | nil => simp
  | cons a xs ih =>
    obtain ⟨ha, hxs⟩ := List.pairwise_cons.mp h
    by_cases hp : p a
    · rw [List.takeWhile_cons_of_pos hp, List.mem_cons, ih hxs, List.mem_cons, List.forall_mem_cons]
      constructor
      · rintro (rfl | ⟨hx, hall⟩)
        · exact ⟨Or.inl rfl, fun _ => hp, fun y hy hle => absurd hle (not_le.mpr (ha y hy))⟩
        · exact ⟨Or.inr hx, fun _ => hp, hall⟩
      · rintro ⟨rfl | hx, -, hall⟩
        · exact Or.inl rfl
        · exact Or.inr ⟨hx, hall⟩
    · rw [List.takeWhile_cons_of_neg hp]
      refine iff_of_false List.not_mem_nil ?_
      rintro ⟨hx, hall⟩
      refine hp (hall a List.mem_cons_self ?_)
      rcases List.mem_cons.mp hx with rfl | hx
      · exact le_rfl
      · exact (ha x hx).le

/-- `q` holds of what is reached: of the list up to the first element that fails `p`, this one included. -/
def HoldsTo (p q : α → Bool) : List α → Prop
  | [] => True
  | x :: xs => q x ∧ (p x → HoldsTo p q xs)

instance decHoldsTo {q : α → Bool} : (xs : List α) → Decidable (HoldsTo p q xs)
  | [] => .isTrue trivial
  | x :: xs =>
    haveI := decHoldsTo (q := q) xs
    inferInstanceAs (Decidable (q x ∧ (p x → HoldsTo p q xs)))

theorem holdsTo_iff [LinearOrder α] {q : α → Bool} (h : xs.Pairwise (· < ·)) :
    HoldsTo p q xs ↔ ∀ x ∈ xs, (∀ y ∈ xs, y < x → p y) → q x := by
  induction xs with
  | nil => exact iff_of_true trivial fun x hx => absurd hx List.not_mem_nil
  | cons a xs ih =>
    obtain ⟨ha, hxs⟩ := List.pairwise_cons.mp h
    rw [HoldsTo, ih hxs, List.forall_mem_cons]
    refine and_congr ⟨fun hq _ => hq, fun hq => hq ?_⟩ ⟨fun hall x hx hp => ?_, fun hall hpa x hx hp => ?_⟩
    · exact List.forall_mem_cons.mpr ⟨fun hlt => absurd hlt (lt_irrefl a), fun y hy hlt =>
        absurd hlt (ha y hy).not_gt⟩
    · obtain ⟨hpa, hp⟩ := List.forall_mem_cons.mp hp
      exact hall (hpa (ha x hx)) x hx hp
    · exact hall x hx (List.forall_mem_cons.mpr ⟨fun _ => hpa, hp⟩)

end Stops

/-- The increasing sequences of at most `d` numbers from `start` on and below `n`, each behind its beginnings. -/
def preorder (n : Nat) : Nat → Nat → List (List Nat)
  | 0, _ => [[]]
  | d + 1, start => [] :: (List.range' start (n - start)).flatMap fun i => (preorder n d (i + 1)).map (i :: ·)

section Sequences

variable {n d start : Nat} {w : List Nat}

theorem mem_preorder :
    w ∈ preorder n d start ↔ w.length ≤ d ∧ w.Pairwise (· < ·) ∧ ∀ i ∈ w, start ≤ i ∧ i < n := by
  induction d generalizing start w with
  | zero =>
    rw [preorder, List.mem_singleton, Nat.le_zero, List.length_eq_zero_iff]
    refine ⟨?_, And.left⟩
    rintro rfl
    exact ⟨rfl, List.Pairwise.nil, fun i hi => absurd hi List.not_mem_nil⟩
  | succ d ih =>
    rw [preorder]
    cases w with
    | nil => exact iff_of_true List.mem_cons_self ⟨Nat.zero_le _, List.Pairwise.nil, fun i hi => by cases hi⟩
    | cons i w =>
      simp only [List.mem_cons, reduceCtorEq, false_or, List.mem_flatMap, List.mem_map, List.cons.injEq,
        List.mem_range'_1, List.length_cons, List.pairwise_cons, forall_eq_or_imp]
      constructor
      · rintro ⟨_, ⟨hlow, hhigh⟩, _, hw, rfl, rfl⟩
        obtain ⟨hlen, hlt, hmem⟩ := ih.mp hw
        exact ⟨by omega, ⟨fun j hj => (hmem j hj).1, hlt⟩, ⟨hlow, by omega⟩,
          fun j hj => ⟨by have := (hmem j hj).1; omega, (hmem j hj).2⟩⟩
      · rintro ⟨hlen, ⟨hi, hlt⟩, ⟨hlow, hhigh⟩, hmem⟩
        exact ⟨i, ⟨hlow, by omega⟩, w, ih.mpr ⟨by omega, hlt, fun j hj => ⟨hi j hj, (hmem j hj).2⟩⟩, rfl, rfl⟩

/-- The order is that of a dictionary. -/
theorem preorder_increasing : (preorder n d start).Pairwise (· < ·) := by
  induction d generalizing start with
  | zero => exact List.pairwise_singleton _ _
  | succ d ih =>
    rw [preorder]
    refine List.pairwise_cons.mpr ⟨?_, List.pairwise_flatMap.mpr ⟨fun i _ => ?_, ?_⟩⟩
    · intro w hw
      obtain ⟨i, -, hw⟩ := List.mem_flatMap.mp hw
      obtain ⟨w, -, rfl⟩ := List.mem_map.mp hw
      exact List.nil_lt_cons i w
    · refine List.pairwise_map.mpr (ih.imp fun h => ?_)
      exact List.cons_lt_cons_iff.mpr (Or.inr ⟨rfl, h⟩)
    · refine (List.pairwise_lt_range' 1).imp fun {i j} hij => ?_
      rintro _ hv _ hw
      obtain ⟨v, -, rfl⟩ := List.mem_map.mp hv
      obtain ⟨w, -, rfl⟩ := List.mem_map.mp hw
      exact List.cons_lt_cons_iff.mpr (Or.inl hij)

end Sequences

end C11AndC.Library
