import Mathlib.Algebra.BigOperators.Group.Multiset.Basic
import Mathlib.Algebra.Order.Group.Defs
import Mathlib.Data.Finset.Powerset
import Mathlib.Data.Finset.Sort
import Mathlib.Data.Fintype.Prod

namespace C11AndC.Library

open Multiset

section Count

variable {α : Type} [AddCommGroup α] [LinearOrder α]

/-- The number of choices of `k` elements with a sum below `s`. -/
def choicesBelow (k : Nat) (m : Multiset α) (s : α) : Nat := (powersetCard k m).countP fun t => t.sum < s

variable {k : Nat} {m : Multiset α} {s x : α}

theorem choicesBelow_eq_zero (h : card m < k) : choicesBelow k m s = 0 := by
  rw [choicesBelow, powersetCard_eq_empty k h, countP_zero]

theorem choicesBelow_le_choose (k : Nat) (m : Multiset α) (s : α) : choicesBelow k m s ≤ (card m).choose k :=
  (countP_le_card _ _).trans (card_powersetCard k m).le

theorem choicesBelow_eq_choose (h : ∀ t ∈ powersetCard k m, t.sum < s) : choicesBelow k m s = (card m).choose k := by
  rw [choicesBelow, countP_eq_card.mpr h, card_powersetCard]

theorem choicesBelow_one (m : Multiset α) (s : α) : choicesBelow 1 m s = m.countP (· < s) := by
  rw [choicesBelow, powersetCard_one, countP_map, countP_eq_card_filter]
  simp only [sum_singleton]

variable [IsOrderedAddMonoid α]

/-- A choice leaves the element out, or takes it and `k` of the others. -/
theorem choicesBelow_cons (k : Nat) (x : α) (m : Multiset α) (s : α) :
    choicesBelow (k + 1) (x ::ₘ m) s = choicesBelow k m (s - x) + choicesBelow (k + 1) m s := by
  have hsum : ∀ t : Multiset α, (x ::ₘ t).sum < s ↔ t.sum < s - x := fun t => by
    rw [sum_cons, lt_sub_iff_add_lt']
  rw [choicesBelow, powersetCard_cons, countP_add, countP_map, add_comm, countP_eq_card_filter]
  simp only [hsum, choicesBelow]
  rw [countP_eq_card_filter, countP_eq_card_filter]

/-- An element that is too large with the least of the others is in no pair. -/
theorem choicesBelow_two_greatest (h : ∀ y ∈ m, s ≤ x + y) : choicesBelow 2 (x ::ₘ m) s = choicesBelow 2 m s := by
  have hzero : choicesBelow 1 m (s - x) = 0 := by
    rw [choicesBelow_one]
    exact countP_eq_zero.mpr fun y hy => not_lt.mpr (sub_le_iff_le_add'.mpr (h y hy))
  rw [choicesBelow_cons, hzero, Nat.zero_add]

/-- An element that is small enough with the greatest of the others is in a pair with each of them. -/
theorem choicesBelow_two_least (h : ∀ y ∈ m, x + y < s) :
    choicesBelow 2 (x ::ₘ m) s = card m + choicesBelow 2 m s := by
  have hcard : choicesBelow 1 m (s - x) = card m := by
    rw [choicesBelow_one]
    exact countP_eq_card.mpr fun y hy => lt_sub_iff_add_lt'.mpr (h y hy)
  rw [choicesBelow_cons, hcard]

end Count

section Triples

variable {α : Type} {n : Nat}

def triples (n : Nat) : Finset (Fin n × Fin n × Fin n) :=
  Finset.univ.filter fun p => p.1 < p.2.1 ∧ p.2.1 < p.2.2

/-- The set of the three numbers. -/
def trio (p : Fin n × Fin n × Fin n) : Finset (Fin n) := {p.1, p.2.1, p.2.2}

theorem trio_val {p : Fin n × Fin n × Fin n} (h : p ∈ triples n) : (trio p).val = {p.1, p.2.1, p.2.2} := by
  obtain ⟨h1, h2⟩ := (Finset.mem_filter.mp h).2
  rw [trio, Finset.insert_val_of_notMem, Finset.insert_val_of_notMem]
  · rfl
  · simpa only [Finset.mem_singleton] using h2.ne
  · simpa only [Finset.mem_insert, Finset.mem_singleton, not_or] using ⟨h1.ne, (h1.trans h2).ne⟩

theorem trio_injOn : Set.InjOn trio (triples n : Set (Fin n × Fin n × Fin n)) := by
  rintro ⟨a, b, c⟩ hp ⟨a', b', c'⟩ hq h
  have hp : a < b ∧ b < c := (Finset.mem_filter.mp hp).2
  have hq : a' < b' ∧ b' < c' := (Finset.mem_filter.mp hq).2
  have hmem : ∀ x : Fin n, x = a ∨ x = b ∨ x = c ↔ x = a' ∨ x = b' ∨ x = c' := fun x => by
    simpa only [trio, Finset.mem_insert, Finset.mem_singleton] using Finset.ext_iff.mp h x
  have ha := (hmem a).mp (Or.inl rfl)
  have hb := (hmem b).mp (Or.inr (Or.inl rfl))
  have hc := (hmem c).mp (Or.inr (Or.inr rfl))
  have habc : a = a' ∧ b = b' ∧ c = c' := by omega
  obtain ⟨rfl, rfl, rfl⟩ := habc
  rfl

theorem image_trio (n : Nat) : (triples n).image trio = Finset.powersetCard 3 Finset.univ := by
  ext S
  constructor
  · intro h
    obtain ⟨p, hp, rfl⟩ := Finset.mem_image.mp h
    refine Finset.mem_powersetCard.mpr ⟨Finset.subset_univ _, ?_⟩
    rw [Finset.card, trio_val hp]
    rfl
  · intro h
    have hcard := (Finset.mem_powersetCard.mp h).2
    let e := S.orderEmbOfFin hcard
    have hS : trio (e 0, e 1, e 2) = S := by
      have huniv : (Finset.univ : Finset (Fin 3)) = {0, 1, 2} := rfl
      rw [← Finset.image_orderEmbOfFin_univ S hcard, huniv, Finset.image_insert, Finset.image_insert,
        Finset.image_singleton, trio]
    have hlt : e 0 < e 1 ∧ e 1 < e 2 := ⟨e.strictMono (by decide), e.strictMono (by decide)⟩
    exact Finset.mem_image.mpr ⟨_, Finset.mem_filter.mpr ⟨Finset.mem_univ _, hlt⟩, hS⟩

/-- The values at three increasing positions are the choices of three elements. -/
theorem map_triples (l : List α) :
    (triples l.length).val.map (fun p => ({l.get p.1, l.get p.2.1, l.get p.2.2} : Multiset α)) =
      powersetCard 3 (l : Multiset α) := by
  have hl : (Finset.univ : Finset (Fin l.length)).val.map l.get = (l : Multiset α) := by
    rw [Finset.val_univ_fin, map_coe, List.map_get_finRange]
  have hvals : ((triples l.length).val.map trio).map Finset.val = powersetCard 3 Finset.univ.val := by
    rw [← Finset.image_val_of_injOn trio_injOn, image_trio, Finset.map_val_val_powersetCard]
  rw [← hl, powersetCard_map, ← hvals, map_map, map_map]
  refine map_congr rfl fun p hp => ?_
  rw [Function.comp_apply, Function.comp_apply, trio_val hp]
  rfl

end Triples

end C11AndC.Library
