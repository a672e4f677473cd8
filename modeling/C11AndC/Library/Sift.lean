import Mathlib.Logic.Equiv.Basic
import Mathlib.Order.Lattice
import Mathlib.Data.List.Perm.Basic
import Mathlib.Data.List.Nodup

namespace C11AndC.Library

variable {α β : Type} [DecidableEq α] [LinearOrder β] {E : α → α → Prop} {key : α → β} {y z : α}

/-- Keys that grow along the edges, but for the edge into `y`, which may be passed over. -/
structure Sifted (E : α → α → Prop) (key : α → β) (y : α) : Prop where
  edge : ∀ p c, E p c → c ≠ y → key p ≤ key c
  pass : ∀ p c, E p y → E y c → key p ≤ key c

omit [DecidableEq α] in
theorem sifted_done (h : Sifted E key y) (hy : ∀ p, E p y → key p ≤ key y) (p c : α) (hpc : E p c) :
    key p ≤ key c := by
  by_cases hc : c = y
  · subst hc
    exact hy p hpc
  · exact h.edge p c hpc hc

/-- A node changes its key with the one above it, if that is greater. -/
theorem sifted_swap {rank : α → Nat} (hrank : ∀ p c, E p c → rank c < rank p)
    (hE : ∀ p q c, E p c → E q c → p = q) (h : Sifted E key y) (hzy : E z y) (hlt : key y < key z) :
    Sifted E (key ∘ Equiv.swap y z) z := by
  have hzy' := hrank z y hzy
  have hne : y ≠ z := by
    rintro rfl
    omega
  refine ⟨fun p c hpc hc => ?_, fun p c hpz hzc => ?_⟩
  · have hpc' := hrank p c hpc
    by_cases hcy : c = y
    · subst hcy
      rw [hE p z c hpc hzy, Function.comp_apply, Function.comp_apply, Equiv.swap_apply_left,
        Equiv.swap_apply_right]
      exact le_of_lt hlt
    · rw [Function.comp_apply, Function.comp_apply, Equiv.swap_apply_of_ne_of_ne hcy hc]
      by_cases hpz : p = z
      · subst hpz
        rw [Equiv.swap_apply_right]
        exact le_trans (le_of_lt hlt) (h.edge p c hpc hcy)
      · by_cases hpy : p = y
        · subst hpy
          rw [Equiv.swap_apply_left]
          exact h.pass z c hzy hpc
        · rw [Equiv.swap_apply_of_ne_of_ne hpy hpz]
          exact h.edge p c hpc hcy
  · have hpz' := hrank p z hpz
    have hzc' := hrank z c hzc
    have hpy : p ≠ y := by
      rintro rfl
      omega
    have hpne : p ≠ z := by
      rintro rfl
      omega
    have hcz : c ≠ z := by
      rintro rfl
      omega
    have hle := h.edge p z hpz hne.symm
    rw [Function.comp_apply, Function.comp_apply, Equiv.swap_apply_of_ne_of_ne hpy hpne]
    by_cases hcy : c = y
    · subst hcy
      rw [Equiv.swap_apply_left]
      exact hle
    · rw [Equiv.swap_apply_of_ne_of_ne hcy hcz]
      exact le_trans hle (h.edge z c hzc hcy)

omit [LinearOrder β] in
/-- Two entries of a list without repetitions change their keys. -/
theorem map_swap_perm {l : List α} (hl : l.Nodup) (hy : y ∈ l) (hz : z ∈ l) :
    (l.map (key ∘ Equiv.swap y z)).Perm (l.map key) := by
  have hperm : (l.map (Equiv.swap y z)).Perm l := by
    apply (List.perm_ext_iff_of_nodup (hl.map (Equiv.swap y z).injective) hl).mpr
    intro a
    constructor
    · intro ha
      obtain ⟨b, hb, rfl⟩ := List.mem_map.mp ha
      obtain rfl | hby := eq_or_ne b y
      · rwa [Equiv.swap_apply_left]
      · obtain rfl | hbz := eq_or_ne b z
        · rwa [Equiv.swap_apply_right]
        · rwa [Equiv.swap_apply_of_ne_of_ne hby hbz]
    · intro ha
      obtain rfl | hay := eq_or_ne a y
      · exact List.mem_map.mpr ⟨z, hz, Equiv.swap_apply_right ..⟩
      · obtain rfl | haz := eq_or_ne a z
        · exact List.mem_map.mpr ⟨y, hy, Equiv.swap_apply_left ..⟩
        · exact List.mem_map.mpr ⟨a, ha, Equiv.swap_apply_of_ne_of_ne hay haz⟩
  have hmap := hperm.map key
  rwa [List.map_map] at hmap

end C11AndC.Library
