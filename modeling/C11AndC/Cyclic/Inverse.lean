import C11AndC.Cyclic.Model
import C11AndC.Library.Lists
import Mathlib.GroupTheory.Perm.Cycle.Basic

namespace C11AndC.Cyclic

open C11AndC.Library

/-- `make_inverse` leaves the inverse, and a second call brings the permutation back. -/
def Inverts (f : List Nat) : Prop :=
  ∃ N, ∀ steps, N ≤ steps → ∃ g tags, makeInverse steps f f.length (cleared f.length) = some (g, tags) ∧
    isInverse f g f.length = true ∧
    ∃ tags', makeInverse steps g f.length (cleared f.length) = some (f, tags')

/-- Before round `k` the elements below `k` are tagged. -/
def Tagged (n k : Nat) (tp : List Nat) : Prop :=
  tp.length = n ∧ ∀ j < n, tp[j]? = some (if j < k then 1 else 0)

/-- The array leads from no place with the property to one without it, nor back. -/
def Respects (P : Nat → Prop) (f : List Nat) : Prop := ∀ i v, f[i]? = some v → (P v ↔ P i)

section Rounds

variable {steps n k i g : Nat} {f f' tp : List Nat} {s t : List Nat × List Nat} {P : Nat → Prop}

theorem assign_some : assign f i k = some f' ↔ i < f.length ∧ f.set i k = f' := by
  simp [assign]

theorem tagged_cleared (n : Nat) : Tagged n 0 (cleared n) := by
  refine ⟨List.length_replicate, fun j hj => ?_⟩
  simp [cleared, hj]

theorem tagged_set (h : Tagged n k tp) : Tagged n (k + 1) (tp.set k 1) := by
  refine ⟨by rw [List.length_set, h.1], fun j hj => ?_⟩
  by_cases hjk : j = k
  · subst hjk
    rw [List.getElem?_set_self (by rw [h.1]; exact hj), if_pos (Nat.lt_succ_self j)]
  · rw [List.getElem?_set_ne (Ne.symm hjk), h.2 j hj]
    have hlt : j < k ↔ j < k + 1 := by omega
    simp only [hlt]

/-- What a change of the array keeps that stays on one side. -/
structure Kept (P : Nat → Prop) (g : Nat) (f f' : List Nat) : Prop where
  respects : Respects P f'
  length : f'.length = f.length
  same : ∀ j, ¬ (P j ↔ P g) → f'[j]? = f[j]?

theorem kept_set (hf : Respects P f) (hg : P i ↔ P g) : Kept P g f (f.set g i) := by
  refine ⟨fun j v hj => ?_, List.length_set, fun j hj => ?_⟩
  · by_cases hgj : g = j
    · subst hgj
      have hlt : g < f.length := by
        have hlt := (List.getElem?_eq_some_iff.mp hj).1
        rwa [List.length_set] at hlt
      rw [List.getElem?_set_self hlt] at hj
      cases hj
      exact hg
    · rw [List.getElem?_set_ne hgj] at hj
      exact hf j v hj
  · apply List.getElem?_set_ne
    rintro rfl
    exact hj Iff.rfl

/-- The inner loop stays on its side. -/
theorem invertCycle_kept (hf : Respects P f) (hg : P i ↔ P g)
    (h : invertCycle steps tp f i g = some f') : Kept P g f f' := by
  induction steps generalizing f i g with
  | zero => cases h
  | succ steps ih =>
    obtain ⟨tag, -, h⟩ := Option.bind_eq_some_iff.mp h
    split_ifs at h with htag
    · obtain ⟨-, rfl⟩ := assign_some.mp h
      exact kept_set hf hg
    · obtain ⟨t, ht, h⟩ := Option.bind_eq_some_iff.mp h
      obtain ⟨f₁, hf₁, h⟩ := Option.bind_eq_some_iff.mp h
      obtain ⟨-, rfl⟩ := assign_some.mp hf₁
      have hgt := hf g t ht
      have hset := kept_set hf hg
      have hrest := ih hset.respects hgt.symm h
      refine ⟨hrest.respects, hrest.length.trans hset.length, fun j hj => ?_⟩
      have hjt : ¬ (P j ↔ P t) := fun he => hj (he.trans hgt)
      exact (hrest.same j hjt).trans (hset.same j hj)

/-- What one round does. -/
theorem invertRound_some (ht : Tagged n k tp) (hk : k < n) (h : invertRound steps (f, tp) k = some t) :
    Tagged n (k + 1) t.2 ∧ t.2 = tp.set k 1 ∧
      ∃ g, f[k]? = some g ∧ invertCycle steps (tp.set k 1) f k g = some t.1 := by
  have htag : tp[k]? = some 0 := by
    rw [ht.2 k hk, if_neg (Nat.lt_irrefl k)]
  have hassign : assign tp k 1 = some (tp.set k 1) := assign_some.mpr ⟨by rw [ht.1]; exact hk, rfl⟩
  simp only [invertRound, htag, hassign, Option.bind_eq_bind, Option.bind_some, Nat.zero_ne_one,
    ↓reduceIte] at h
  obtain ⟨g, hg, h⟩ := Option.bind_eq_some_iff.mp h
  obtain ⟨f', hf', h⟩ := Option.bind_eq_some_iff.mp h
  cases h
  exact ⟨tagged_set ht, rfl, g, hg, hf'⟩

theorem lt_of_invertCycle (h : invertCycle steps tp f i g = some f') : g < tp.length := by
  cases steps with
  | zero => cases h
  | succ steps =>
    obtain ⟨tag, htag, -⟩ := Option.bind_eq_some_iff.mp h
    exact (List.getElem?_eq_some_iff.mp htag).1

/-- A tagged successor gets the start of the walk. -/
theorem invertCycle_tagged (htag : tp[g]? = some 1) (h : invertCycle steps tp f i g = some f') :
    g < f.length ∧ f.set g i = f' := by
  cases steps with
  | zero => cases h
  | succ steps =>
    simp only [invertCycle, htag, Option.bind_eq_bind, Option.bind_some, ↓reduceIte] at h
    exact assign_some.mp h

/-- What holds after `k` rounds when no element with the property comes after `m`. -/
structure Rounded (P : Nat → Prop) (n m k : Nat) (s : List Nat × List Nat) : Prop where
  length : s.1.length = n
  respects : Respects P s.1
  tagged : Tagged n k s.2
  swapped : m < k → ∃ v, s.1[m]? = some v ∧ s.1[v]? = some m

theorem rounded_step {m : Nat} (hPm : P m) (hmax : ∀ j < n, P j → j ≤ m) (hk : k < n)
    (h : Rounded P n m k s) (hs : invertRound steps s k = some t) : Rounded P n m (k + 1) t := by
  obtain ⟨f, tp⟩ := s
  obtain ⟨ht, htp, g, hg, hcycle⟩ := invertRound_some h.tagged hk hs
  have hgk : P g ↔ P k := h.respects k g hg
  have hkept := invertCycle_kept h.respects hgk.symm hcycle
  refine ⟨hkept.length.trans h.length, hkept.respects, ht, fun hmk => ?_⟩
  obtain rfl | hlt := Nat.eq_or_lt_of_le (Nat.le_of_lt_succ hmk)
  · have hgn : g < n := by
      have hlt := lt_of_invertCycle hcycle
      rwa [List.length_set, h.tagged.1] at hlt
    have hgm := hmax g hgn (hgk.mpr hPm)
    have htag : (tp.set m 1)[g]? = some 1 := by
      rw [← htp, ht.2 g hgn, if_pos (Nat.lt_succ_of_le hgm)]
    obtain ⟨hgl, hset⟩ := invertCycle_tagged htag hcycle
    rw [← hset]
    by_cases hgm' : g = m
    · subst hgm'
      exact ⟨g, List.getElem?_set_self hgl, List.getElem?_set_self hgl⟩
    · exact ⟨g, (List.getElem?_set_ne hgm').trans hg, List.getElem?_set_self hgl⟩
  · obtain ⟨v, hv, hvm⟩ := h.swapped hlt
    have hPk : ¬ P k := fun hPk => Nat.not_le_of_lt hlt (hmax k hk hPk)
    have hne : ∀ j, P j → t.1[j]? = f[j]? := fun j hj => hkept.same j (by tauto)
    exact ⟨v, (hne m hPm).trans hv, (hne v ((h.respects m v hv).mpr hPm)).trans hvm⟩

end Rounds

section Inverses

variable {f g : List Nat} {n : Nat}

theorem isInverse_iff : isInverse f g n = true ↔ ∀ k < n, ∃ i, g[k]? = some i ∧ f[i]? = some k := by
  simp [isInverse, Option.bind_eq_some_iff]

/-- The permutation that an array of numbers is. -/
theorem exists_perm (h : f.Perm (List.range f.length)) :
    ∃ σ : Equiv.Perm (Fin f.length), ∀ i : Fin f.length, f[i]? = some (σ i).1 := by
  have hlt : ∀ i : Fin f.length, f[i] < f.length := fun i =>
    List.mem_range.mp (h.mem_iff.mp (List.getElem_mem i.2))
  have hnd : f.Nodup := h.nodup_iff.mpr List.nodup_range
  have hinj : Function.Injective fun i : Fin f.length => (⟨f[i], hlt i⟩ : Fin f.length) := by
    intro i j hij
    exact Fin.ext ((List.Nodup.getElem_inj_iff hnd).mp (congrArg Fin.val hij))
  refine ⟨Equiv.ofBijective _ (Finite.injective_iff_bijective.mp hinj), fun i => ?_⟩
  simp

/-- Where `make_inverse` leaves the inverse, the permutation undoes itself. -/
theorem apply_apply_of_inverse {σ : Equiv.Perm (Fin f.length)} (hσ : ∀ i : Fin f.length, f[i]? = some (σ i).1)
    {steps : Nat} {tags : List Nat} (h : makeInverse steps f f.length (cleared f.length) = some (g, tags))
    (hg : isInverse f g f.length = true) (k : Fin f.length) : σ (σ k) = k := by
  classical
  obtain ⟨m, hm, hmax⟩ := Finset.exists_max_image (Finset.univ.filter (σ.SameCycle k)) id
    ⟨k, by simp [Equiv.Perm.SameCycle.refl]⟩
  simp only [Finset.mem_filter, Finset.mem_univ, true_and, id] at hm hmax
  let P : Nat → Prop := fun i => ∃ hi : i < f.length, σ.SameCycle k ⟨i, hi⟩
  have hrespects : Respects P f := by
    intro i v hv
    have hi := (List.getElem?_eq_some_iff.mp hv).1
    have hvi := (hσ ⟨i, hi⟩).symm.trans hv
    cases hvi
    constructor
    · rintro ⟨hj, hs⟩
      exact ⟨hi, Equiv.Perm.sameCycle_apply_right.mp hs⟩
    · rintro ⟨hj, hs⟩
      exact ⟨(σ ⟨i, hi⟩).2, Equiv.Perm.sameCycle_apply_right.mpr hs⟩
  have hround : Rounded P f.length m f.length (g, tags) := by
    refine foldlM_range (I := Rounded P f.length m) (fun j hj s t hs ht => ?_) ?_ h
    · refine rounded_step ⟨m.2, hm⟩ ?_ hj hs ht
      rintro i hi ⟨hi', hPi⟩
      exact hmax ⟨i, hi⟩ hPi
    · exact ⟨rfl, hrespects, tagged_cleared _, fun h => absurd h (Nat.not_lt_zero _)⟩
  obtain ⟨v, hv, hvm⟩ := hround.swapped m.2
  have hv' : v < f.length := by
    have hlt := (List.getElem?_eq_some_iff.mp hvm).1
    rwa [hround.length] at hlt
  have hinv := isInverse_iff.mp hg
  have hfv : (σ m).1 = v := by
    obtain ⟨i, hi, hfi⟩ := hinv v hv'
    cases hi.symm.trans hvm
    exact Option.some.inj ((hσ m).symm.trans hfi)
  have hfm : (σ ⟨v, hv'⟩).1 = m := by
    obtain ⟨i, hi, hfi⟩ := hinv m m.2
    cases hi.symm.trans hv
    exact Option.some.inj ((hσ ⟨v, hv'⟩).symm.trans hfi)
  have hmm : σ (σ m) = m := by
    have he : σ m = ⟨v, hv'⟩ := Fin.ext hfv
    rw [he]
    exact Fin.ext hfm
  obtain ⟨j, rfl⟩ := hm
  have hcomm : ∀ x, σ ((σ ^ j) x) = (σ ^ j) (σ x) := fun x => σ.zpow_apply_comm 1 j
  rw [hcomm, hcomm] at hmm
  exact (σ ^ j).injective hmm

/-- A permutation that undoes itself stays as it is in every round. -/
theorem invertRound_same (h : isInverse f f f.length = true) {steps k : Nat} (hk : k < f.length)
    {tp : List Nat} (ht : Tagged f.length k tp) :
    ∃ tp', invertRound (steps + 2) (f, tp) k = some (f, tp') ∧ Tagged f.length (k + 1) tp' := by
  have hinv := isInverse_iff.mp h
  obtain ⟨g, hg, hgk⟩ := hinv k hk
  have hgl : g < f.length := (List.getElem?_eq_some_iff.mp hgk).1
  have hset : ∀ {i v : Nat}, f[i]? = some v → f.set i v = f := by
    intro i v hi
    obtain ⟨hlt, rfl⟩ := List.getElem?_eq_some_iff.mp hi
    exact List.set_getElem_self hlt
  have htag := tagged_set ht
  have htagk : (tp.set k 1)[k]? = some 1 := by
    rw [htag.2 k hk, if_pos (Nat.lt_succ_self k)]
  refine ⟨tp.set k 1, ?_, htag⟩
  have hcycle : invertCycle (steps + 2) (tp.set k 1) f k g = some f := by
    simp only [invertCycle, htag.2 g hgl, hgk, assign, hgl, hk, hset hgk, hset hg, htagk,
      Option.bind_eq_bind, Option.bind_some, ↓reduceIte]
    split_ifs <;> rfl
  have hassign : assign tp k 1 = some (tp.set k 1) := assign_some.mpr ⟨by rw [ht.1]; exact hk, rfl⟩
  simp only [invertRound, ht.2 k hk, Nat.lt_irrefl, hassign, hg, hcycle, Option.bind_eq_bind,
    Option.bind_some, ↓reduceIte, Nat.zero_ne_one]
  rfl

theorem makeInverse_same (h : isInverse f f f.length = true) (steps : Nat) :
    ∃ tags, makeInverse (steps + 2) f f.length (cleared f.length) = some (f, tags) := by
  have hround : ∀ k < f.length, ∀ s : List Nat × List Nat, s.1 = f ∧ Tagged f.length k s.2 →
      ∃ t, invertRound (steps + 2) s k = some t ∧ t.1 = f ∧ Tagged f.length (k + 1) t.2 := by
    rintro k hk ⟨_, tp⟩ ⟨rfl, ht⟩
    obtain ⟨tp', hround, ht'⟩ := invertRound_same h hk ht
    exact ⟨_, hround, rfl, ht'⟩
  have hstart : (f, cleared f.length).1 = f ∧ Tagged f.length 0 (f, cleared f.length).2 :=
    ⟨rfl, tagged_cleared _⟩
  obtain ⟨⟨_, tags⟩, hrun, rfl, -⟩ := foldlM_range_some hround hstart
  exact ⟨tags, hrun⟩

theorem self_of_inverts (h : f.Perm (List.range f.length)) (hi : Inverts f) :
    isInverse f f f.length = true := by
  obtain ⟨N, hN⟩ := hi
  obtain ⟨g, tags, hrun, hg, -⟩ := hN N (Nat.le_refl N)
  obtain ⟨σ, hσ⟩ := exists_perm h
  refine isInverse_iff.mpr fun k hk => ⟨σ ⟨k, hk⟩, hσ ⟨k, hk⟩, ?_⟩
  have happly := apply_apply_of_inverse hσ hrun hg ⟨k, hk⟩
  refine (hσ (σ ⟨k, hk⟩)).trans ?_
  rw [happly]

end Inverses

/-- `make_inverse` works where no cycle is longer than two, that is, where the permutation is its
own inverse already. -/
theorem make_inverse_iff (f : List Nat) (h : f.Perm (List.range f.length)) :
    Inverts f ↔ isInverse f f f.length = true := by
  constructor
  · exact self_of_inverts h
  · intro hself
    refine ⟨2, fun steps hsteps => ?_⟩
    obtain ⟨steps, rfl⟩ : ∃ j, steps = j + 2 := ⟨steps - 2, by omega⟩
    obtain ⟨tags, hrun⟩ := makeInverse_same hself steps
    exact ⟨f, tags, hrun, hself, tags, hrun⟩

theorem make_inverse_iff_swap : Inverts [1, 0, 2] ↔ isInverse [1, 0, 2] [1, 0, 2] 3 = true :=
  make_inverse_iff [1, 0, 2] (by decide)

/-- In a cycle of three the second element is taken for an unprocessed one, as the walk from the
first one did not tag it. -/
theorem make_inverse_wrong : ¬ Inverts [1, 2, 0] := by
  intro h
  have hself := self_of_inverts (by decide) h
  exact absurd hself (by decide)

end C11AndC.Cyclic
