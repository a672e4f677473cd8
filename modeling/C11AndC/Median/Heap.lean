import C11AndC.Median.Model
import C11AndC.Library.Sift

namespace C11AndC.Median

open C11AndC.Library

/-- The comparators as one order, with the top of the heap at its lower end. -/
def Comp.ord : Comp → Int → Int
  | .greater, a => -a
  | .smaller, a => a

/-- `c` is one of the `n` places of a heap, and a child of `p`. -/
def Child (n p c : Nat) : Prop := 0 < c ∧ (c - 1) / 2 = p ∧ c < n

def Ordered (h : Heap) : Prop := ∀ p c, Child h.count p c → h.comp.ord (h.A p) ≤ h.comp.ord (h.A c)

def elements (h : Heap) : List Int := (List.range h.count).map h.A

instance (n p c : Nat) : Decidable (Child n p c) := inferInstanceAs (Decidable (_ ∧ _ ∧ _))

/-- The last element may take the place of the root: either no child of the root comes before it,
or its parent is a child of the root that does, and `heapify` puts the two right. -/
def Keeps (h : Heap) : Prop :=
  let last := h.count - 1
  let x := h.A last
  let p := (last - 1) / 2
  (∀ c < last, Child last 0 c → h.comp.holds (h.A c) x = false) ∨
    (p = 1 ∨ p = 2) ∧ h.comp.holds (h.A p) x = true ∧
      (∀ c < last, Child last 0 c → h.comp.holds (h.A c) (h.A p) = false) ∧
      ∀ c < last, Child last p c → h.comp.holds (h.A c) x = false

instance (h : Heap) : Decidable (Keeps h) := inferInstanceAs (Decidable (_ ∨ _))

section Heaps

variable {h h' : Heap} {i j n p c : Nat} {x : Int}

theorem holds_iff (k : Comp) (a b : Int) : k.holds a b = true ↔ k.ord a < k.ord b := by
  cases k <;> simp [Comp.holds, Comp.ord]

theorem not_holds_iff (k : Comp) (a b : Int) : k.holds a b = false ↔ k.ord b ≤ k.ord a := by
  rw [← Bool.not_eq_true, holds_iff, not_lt]

theorem parent_eq_some : parent i = some p ↔ i ≠ 0 ∧ (i - 1) / 2 = p := by
  unfold parent
  split_ifs with hi <;> simp [hi]

theorem child_lt (hc : Child n p c) : p < c := by
  obtain ⟨hpos, rfl, -⟩ := hc
  omega

theorem exch_eq (h : Heap) (i j : Nat) : (exch h i j).A = h.A ∘ Equiv.swap i j := by
  funext k
  simp only [exch, Function.comp_apply]
  by_cases hj : k = j
  · rw [hj, Function.update_self, Equiv.swap_apply_right]
  · by_cases hi : k = i
    · rw [hi, Function.update_of_ne (hi ▸ hj), Function.update_self, Equiv.swap_apply_left]
    · rw [Function.update_of_ne hj, Function.update_of_ne hi, Equiv.swap_apply_of_ne_of_ne hi hj]

theorem exch_elements (hi : i < h.count) (hj : j < h.count) : (elements (exch h i j)).Perm (elements h) := by
  rw [elements, exch_eq]
  exact map_swap_perm List.nodup_range (List.mem_range.mpr hi) (List.mem_range.mpr hj)

/-- What `heapify` leaves as it is. -/
structure Kept (h h' : Heap) : Prop where
  comp : h'.comp = h.comp
  count : h'.count = h.count
  elements : (elements h').Perm (elements h)

theorem heapifyRounds_kept (hi : i < h.count) : Kept h (heapifyRounds n i h) := by
  induction n generalizing i h with
  | zero => exact ⟨rfl, rfl, List.Perm.refl _⟩
  | succ n ih =>
    rw [heapifyRounds]
    cases hp : parent i with
    | none => exact ⟨rfl, rfl, List.Perm.refl _⟩
    | some p =>
      obtain ⟨hne, rfl⟩ := parent_eq_some.mp hp
      dsimp only
      split_ifs
      · have hlt : (i - 1) / 2 < h.count := by omega
        obtain ⟨hcomp, hcount, helements⟩ := ih (h := exch h i ((i - 1) / 2)) hlt
        exact ⟨hcomp, hcount, helements.trans (exch_elements hi hlt)⟩
      · exact ⟨rfl, rfl, List.Perm.refl _⟩

theorem heapifyRounds_zero (n : Nat) (h : Heap) : heapifyRounds n 0 h = h := by
  cases n <;> rfl

/-- `heapify` does nothing below an edge that is in order. -/
theorem heapify_of_not (hp : parent i = some p) (hnot : h.comp.holds (h.A i) (h.A p) = false) :
    heapify i h = h := by
  obtain ⟨hne, -⟩ := parent_eq_some.mp hp
  obtain ⟨n, rfl⟩ := Nat.exists_eq_succ_of_ne_zero hne
  rw [heapify, heapifyRounds, hp]
  simp [hnot]

theorem heapify_below_root (hp : parent i = some 0) (hholds : h.comp.holds (h.A i) (h.A 0) = true) :
    heapify i h = exch h i 0 := by
  obtain ⟨hne, -⟩ := parent_eq_some.mp hp
  obtain ⟨n, rfl⟩ := Nat.exists_eq_succ_of_ne_zero hne
  rw [heapify, heapifyRounds, hp]
  simp [hholds, heapifyRounds_zero]

/-- The order of the heap, but for the edge into `i`. -/
def SiftedAt (h : Heap) (i : Nat) : Prop := Sifted (Child h.count) (fun k => h.comp.ord (h.A k)) i

theorem ordered_of_sifted (hs : SiftedAt h i)
    (hi : ∀ p, parent i = some p → h.comp.holds (h.A i) (h.A p) = false) : Ordered h := by
  refine fun q c hqc => sifted_done hs (fun p hp => (not_holds_iff ..).mp (hi p ?_)) q c hqc
  exact parent_eq_some.mpr ⟨Nat.ne_of_gt hp.1, hp.2.1⟩

theorem exch_sifted (hs : SiftedAt h i) (hchild : Child h.count p i)
    (hcomp : h.comp.holds (h.A i) (h.A p) = true) : SiftedAt (exch h i p) p := by
  have hrank : ∀ p c, Child h.count p c → h.count - c < h.count - p := by
    intro p c hpc
    have hlt := child_lt hpc
    have hc := hpc.2.2
    omega
  have hswap := sifted_swap hrank (fun p q c hp hq => hp.2.1.symm.trans hq.2.1) hs hchild
    ((holds_iff ..).mp hcomp)
  have hkey : (fun k => h.comp.ord ((exch h i p).A k)) = (fun k => h.comp.ord (h.A k)) ∘ Equiv.swap i p := by
    rw [exch_eq]
    rfl
  rw [← hkey] at hswap
  exact hswap

theorem heapifyRounds_ordered (hin : i ≤ n) (hi : i < h.count) (hs : SiftedAt h i) :
    Ordered (heapifyRounds n i h) := by
  induction n generalizing i h with
  | zero =>
    obtain rfl := Nat.le_zero.mp hin
    exact ordered_of_sifted hs (fun p hp => absurd rfl (parent_eq_some.mp hp).1)
  | succ n ih =>
    rw [heapifyRounds]
    cases hp : parent i with
    | none => exact ordered_of_sifted hs (by simp [hp])
    | some p =>
      obtain ⟨hne, hpi⟩ := parent_eq_some.mp hp
      have hchild : Child h.count p i := ⟨Nat.pos_of_ne_zero hne, hpi, hi⟩
      have hlt : p < i := child_lt hchild
      dsimp only
      split_ifs with hcomp
      · exact ih (Nat.le_of_lt_succ (Nat.lt_of_lt_of_le hlt hin)) (hlt.trans hi) (exch_sifted hs hchild hcomp)
      · refine ordered_of_sifted hs fun q hq => ?_
        obtain rfl := Option.some.inj (hp.symm.trans hq)
        exact Bool.eq_false_iff.mpr hcomp

theorem top_le (hord : Ordered h) (hx : x ∈ elements h) : h.comp.ord (top h) ≤ h.comp.ord x := by
  obtain ⟨k, hk, rfl⟩ := List.mem_map.mp hx
  clear hx
  rw [List.mem_range] at hk
  rw [top, if_neg (by omega)]
  induction k using Nat.strong_induction_on with
  | _ k ih =>
    by_cases hzero : k = 0
    · rw [hzero]
    · have hlt : (k - 1) / 2 < k := by omega
      exact (ih _ hlt (hlt.trans hk)).trans (hord _ k ⟨by omega, rfl, hk⟩)

theorem top_mem (hcount : h.count ≠ 0) : top h ∈ elements h := by
  rw [top, if_neg hcount]
  exact List.mem_map_of_mem (List.mem_range.mpr (Nat.pos_of_ne_zero hcount))

end Heaps

/-- A heap with one more element. -/
structure Inserted (x : Int) (h h' : Heap) : Prop where
  comp : h'.comp = h.comp
  count : h'.count = h.count + 1
  elements : (elements h').Perm (x :: elements h)
  ordered : Ordered h → Ordered h'

/-- A heap without its top; the order is kept where `Keeps` says so. -/
structure Extracted (x : Int) (h h' : Heap) : Prop where
  comp : h'.comp = h.comp
  count : h.count = h'.count + 1
  elements : (elements h).Perm (x :: elements h')
  ordered : Ordered h → Keeps h → Ordered h'

section Operations

variable {h : Heap} {x : Int}

theorem insertHelper_spec (hcount : h.count < MAX_HEAP_SIZE) (x : Int) :
    ∃ h', insertHelper h x = some h' ∧ Inserted x h h' := by
  refine ⟨_, by rw [insertHelper, if_pos hcount.le, if_pos hcount], ?_⟩
  let g : Heap := { h with A := Function.update h.A h.count x, count := h.count + 1 }
  have hold : ∀ k < h.count, g.A k = h.A k := fun k hk => Function.update_of_ne hk.ne ..
  obtain ⟨hcomp, hcount', helements⟩ := heapifyRounds_kept (n := h.count) (h := g) (i := h.count)
    (Nat.lt_succ_self _)
  refine ⟨hcomp, hcount', helements.trans ?_, fun hord => ?_⟩
  · have hmap : (List.range h.count).map g.A = elements h :=
      List.map_congr_left fun k hk => hold k (List.mem_range.mp hk)
    have hnew : g.A h.count = x := Function.update_self ..
    have hg : elements g = elements h ++ [x] := by
      rw [← hmap, ← hnew]
      exact (congrArg (List.map g.A) List.range_succ).trans List.map_append
    rw [hg]
    exact List.perm_append_singleton x _
  · refine heapifyRounds_ordered (Nat.le_refl _) (Nat.lt_succ_self _) ⟨fun p c hpc hc => ?_, fun p c _ hc => ?_⟩
    · have hlt := child_lt hpc
      have hcount := hpc.2.2
      have hlast : c < h.count := Nat.lt_of_le_of_ne (Nat.le_of_lt_succ hcount) hc
      have hold' := hord p c ⟨hpc.1, hpc.2.1, hlast⟩
      rw [← hold p (hlt.trans hlast), ← hold c hlast] at hold'
      exact hold'
    · exact absurd hc.2.2 (Nat.not_lt.mpr (child_lt hc))

/-- The root goes, and the last element takes its place. -/
def replaceTop (h : Heap) : Heap := { exch h 0 (h.count - 1) with count := h.count - 1 }

theorem replaceTop_perm (hcount : h.count ≠ 0) : (elements h).Perm (top h :: elements (replaceTop h)) := by
  have hperm := exch_elements (h := h) (i := 0) (j := h.count - 1) (by omega) (by omega)
  have hlast : (exch h 0 (h.count - 1)).A (h.count - 1) = top h := by
    rw [top, if_neg hcount]
    exact Function.update_self ..
  have hrange : List.range h.count = List.range (h.count - 1) ++ [h.count - 1] := by
    rw [← List.range_succ]
    congr 1
    omega
  have hg : elements (exch h 0 (h.count - 1)) = elements (replaceTop h) ++ [top h] := by
    rw [← hlast]
    exact (congrArg _ hrange).trans List.map_append
  rw [hg] at hperm
  exact hperm.symm.trans (List.perm_append_singleton ..)

theorem replaceTop_zero (h : Heap) : (replaceTop h).A 0 = h.A (h.count - 1) := by
  by_cases hlast : h.count - 1 = 0
  · simp [replaceTop, exch, hlast]
  · simp [replaceTop, exch, Ne.symm hlast]

theorem replaceTop_of_ne {k : Nat} (hk : k ≠ 0) (hlt : k < h.count - 1) : (replaceTop h).A k = h.A k := by
  simp [replaceTop, exch, hk, hlt.ne]

theorem deleteTop_eq (hcount : h.count ≠ 0) :
    deleteTop h = (top h, (parent (h.count - 1)).elim (replaceTop h) fun p => heapify p (replaceTop h)) := by
  rw [deleteTop, if_neg hcount, top, if_neg hcount]
  dsimp only
  cases parent (h.count - 1) <;> rfl

theorem old_edge (hord : Ordered h) {p c : Nat} (hpc : Child (h.count - 1) p c) :
    h.comp.ord (h.A p) ≤ h.comp.ord (h.A c) := by
  have hlt := hpc.2.2
  exact hord p c ⟨hpc.1, hpc.2.1, by omega⟩

theorem replaceTop_ordered (hord : Ordered h)
    (hx : ∀ c, Child (h.count - 1) 0 c → h.comp.holds (h.A c) (h.A (h.count - 1)) = false) :
    Ordered (replaceTop h) := by
  intro q c hqc
  have hc : (replaceTop h).A c = h.A c := replaceTop_of_ne hqc.1.ne' hqc.2.2
  by_cases hq : q = 0
  · subst hq
    rw [hc, replaceTop_zero]
    exact (not_holds_iff ..).mp (hx c hqc)
  · rw [hc, replaceTop_of_ne hq ((child_lt hqc).trans hqc.2.2)]
    exact old_edge hord hqc

theorem sifted_of_ordered (hord : Ordered h) (i : Nat) : SiftedAt h i :=
  ⟨fun p c hpc _ => hord p c hpc, fun p c hp hc => (hord p i hp).trans (hord i c hc)⟩

theorem exch_replaceTop_of_ne {p k : Nat} (hk : k ≠ 0) (hkp : k ≠ p) (hlt : k < h.count - 1) :
    (exch (replaceTop h) p 0).A k = h.A k := by
  rw [← replaceTop_of_ne hk hlt]
  simp [exch, hk, hkp]

section Below

variable {p : Nat} (hp : p ≠ 0)
include hp

theorem exch_replaceTop_zero (hlt : p < h.count - 1) : (exch (replaceTop h) p 0).A 0 = h.A p := by
  rw [← replaceTop_of_ne hp hlt]
  simp [exch]

theorem exch_replaceTop_self : (exch (replaceTop h) p 0).A p = h.A (h.count - 1) := by
  rw [← replaceTop_zero]
  simp [exch, hp]

end Below

theorem exch_ordered (hord : Ordered h) {p : Nat} (hlt : p < h.count - 1) (hparent : parent p = some 0)
    (hbefore : h.comp.holds (h.A p) (h.A (h.count - 1)) = true)
    (hroot : ∀ c, Child (h.count - 1) 0 c → h.comp.holds (h.A c) (h.A p) = false)
    (hbelow : ∀ c, Child (h.count - 1) p c → h.comp.holds (h.A c) (h.A (h.count - 1)) = false) :
    Ordered (exch (replaceTop h) p 0) := by
  obtain ⟨hp, hpzero⟩ := parent_eq_some.mp hparent
  have hzero := exch_replaceTop_zero hp hlt
  have hself := exch_replaceTop_self (h := h) hp
  intro q c hqc
  change h.comp.ord ((exch (replaceTop h) p 0).A q) ≤ h.comp.ord ((exch (replaceTop h) p 0).A c)
  have hlt' := hqc.2.2
  by_cases hq : q = 0
  · subst hq
    rw [hzero]
    by_cases hc : c = p
    · rw [hc, hself]
      exact ((holds_iff ..).mp hbefore).le
    · rw [exch_replaceTop_of_ne hqc.1.ne' hc hlt']
      exact (not_holds_iff ..).mp (hroot c hqc)
  · have hcp : c ≠ p := by
      rintro rfl
      exact hq (hqc.2.1.symm.trans hpzero)
    rw [exch_replaceTop_of_ne hqc.1.ne' hcp hlt']
    by_cases hqp : q = p
    · subst hqp
      rw [hself]
      exact (not_holds_iff ..).mp (hbelow c hqc)
    · rw [exch_replaceTop_of_ne hq hqp ((child_lt hqc).trans hlt')]
      exact old_edge hord hqc

theorem deleteTop_spec (hcount : h.count ≠ 0) :
    ∃ h', deleteTop h = (top h, h') ∧ Extracted (top h) h h' := by
  refine ⟨_, deleteTop_eq hcount, ?_⟩
  have hperm := replaceTop_perm hcount
  have hreplaced : h.count = (replaceTop h).count + 1 := by
    simp only [replaceTop]
    omega
  cases hparent : parent (h.count - 1) with
  | none =>
    refine ⟨rfl, hreplaced, hperm, fun hord _ => ?_⟩
    intro p c hpc
    have hlast : h.count - 1 = 0 := by
      by_contra hne
      simp [parent, hne] at hparent
    exact absurd hpc.2.2 (by simp [replaceTop, hlast])
  | some p =>
    obtain ⟨hlast, hp⟩ := parent_eq_some.mp hparent
    have hlt : p < (replaceTop h).count := by
      simp only [replaceTop]
      omega
    obtain ⟨hcomp, hcount', helements⟩ := heapifyRounds_kept (n := p) hlt
    refine ⟨hcomp, hreplaced.trans (by rw [Option.elim, heapify, hcount']),
      hperm.trans (helements.symm.cons _), fun hord hkeeps => ?_⟩
    obtain hx | ⟨hpos, hbefore, hroot', hbelow⟩ := hkeeps
    · have hreplace := replaceTop_ordered hord fun c hc => hx c hc.2.2 hc
      exact heapifyRounds_ordered (Nat.le_refl p) hlt (sifted_of_ordered hreplace p)
    · rw [hp] at hpos hbefore hroot' hbelow
      have hroot : parent p = some 0 := by
        obtain rfl | rfl := hpos <;> rfl
      have hne := (parent_eq_some.mp hroot).1
      have hholds : (replaceTop h).comp.holds ((replaceTop h).A p) ((replaceTop h).A 0) = true := by
        rw [replaceTop_of_ne hne hlt, replaceTop_zero]
        exact hbefore
      rw [Option.elim, heapify_below_root hroot hholds]
      exact exch_ordered hord hlt hroot hbefore (fun c hc => hroot' c hc.2.2 hc) fun c hc => hbelow c hc.2.2 hc

end Operations

end C11AndC.Median
