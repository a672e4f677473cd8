import C11AndC.Cyclic.Inverse

namespace C11AndC.Cyclic

/-- An array of `n` numbers below `n`. -/
structure IsMap (n : Nat) (f : List Nat) : Prop where
  length : f.length = n
  below : ∀ x ∈ f, x < n

instance (n : Nat) (f : List Nat) : Decidable (IsMap n f) :=
  decidable_of_iff (f.length = n ∧ ∀ x ∈ f, x < n) ⟨fun h => ⟨h.1, h.2⟩, fun h => ⟨h.length, h.below⟩⟩

section Maps

variable {n : Nat} {f g : List Nat}

/-- The array as a function. -/
def IsMap.apply (h : IsMap n f) (i : Fin n) : Fin n :=
  ⟨f.get (i.cast h.length.symm), h.below _ (List.get_mem f _)⟩

theorem IsMap.getElem?_apply (h : IsMap n f) (i : Fin n) : f[i.1]? = some (h.apply i).1 :=
  List.getElem?_eq_getElem (h.length ▸ i.2)

/-- The loop checks one of the two compositions. -/
theorem isInverse_iff_leftInverse (hf : IsMap n f) (hg : IsMap n g) :
    isInverse f g n = true ↔ Function.LeftInverse hf.apply hg.apply := by
  rw [isInverse_iff]
  constructor
  · intro h k
    obtain ⟨i, hi, hk⟩ := h k.1 k.2
    rw [hg.getElem?_apply k] at hi
    cases hi
    rw [hf.getElem?_apply] at hk
    exact Fin.ext (Option.some.inj hk)
  · intro h k hk
    refine ⟨_, hg.getElem?_apply ⟨k, hk⟩, ?_⟩
    rw [hf.getElem?_apply, h ⟨k, hk⟩]

/-- No value comes twice, so that by the pigeonhole principle every value comes. -/
theorem IsMap.perm (h : IsMap n f) (hinj : Function.Injective h.apply) : f.Perm (List.range n) := by
  have hnodup : f.Nodup := by
    rw [List.nodup_iff_injective_get]
    intro i j hij
    have hi := h.getElem?_apply ⟨i.1, h.length ▸ i.2⟩
    have hj := h.getElem?_apply ⟨j.1, h.length ▸ j.2⟩
    rw [List.getElem?_eq_getElem i.2] at hi
    rw [List.getElem?_eq_getElem j.2] at hj
    have heq := (Option.some.inj hi).symm.trans (hij.trans (Option.some.inj hj))
    exact Fin.ext (Fin.mk.inj (hinj (Fin.ext heq)))
  have hsub : f.Subperm (List.range n) :=
    List.subperm_of_subset hnodup fun x hx => List.mem_range.mpr (h.below x hx)
  refine hsub.perm_of_length_le ?_
  rw [List.length_range, h.length]

/-- An inverse on one side is an inverse on the other side. -/
theorem isInverse_swap (hf : IsMap n f) (hg : IsMap n g) (h : isInverse f g n = true) :
    isInverse g f n = true := by
  rw [isInverse_iff_leftInverse hf hg] at h
  rw [isInverse_iff_leftInverse hg hf]
  have hsurj : Function.Surjective hg.apply := Finite.injective_iff_surjective.mp h.injective
  exact h.rightInverse_of_surjective hsurj

end Maps

/-- It does not matter for `is_inverse` which of the two arrays comes first, and both are permutations
where it answers `true`. -/
theorem isInverse_comm (n : Nat) (f g : List Nat) (hf : IsMap n f) (hg : IsMap n g) :
    isInverse f g n = isInverse g f n ∧
      (isInverse f g n = true → f.Perm (List.range n) ∧ g.Perm (List.range n)) := by
  refine ⟨Bool.eq_iff_iff.mpr ⟨isInverse_swap hf hg, isInverse_swap hg hf⟩, fun h => ?_⟩
  have hgf := (isInverse_iff_leftInverse hg hf).mp (isInverse_swap hf hg h)
  exact ⟨hf.perm hgf.injective, hg.perm ((isInverse_iff_leftInverse hf hg).mp h).injective⟩

theorem isInverse_comm_cycle : isInverse [3, 0, 1, 2] [1, 2, 3, 0] 4 = isInverse [1, 2, 3, 0] [3, 0, 1, 2] 4 ∧
    (isInverse [3, 0, 1, 2] [1, 2, 3, 0] 4 = true →
      [3, 0, 1, 2].Perm (List.range 4) ∧ [1, 2, 3, 0].Perm (List.range 4)) :=
  isInverse_comm 4 [3, 0, 1, 2] [1, 2, 3, 0] (by decide) (by decide)

end C11AndC.Cyclic
