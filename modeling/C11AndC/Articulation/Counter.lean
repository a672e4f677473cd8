import C11AndC.Articulation.Search
import Mathlib.Data.Fintype.Card

namespace C11AndC.Articulation

open C11AndC.Library

variable {V : Nat}

def unvisited (s : Search V) : Nat := (Finset.univ.filter fun x => s.visited x = false).card

/-- Every visit has raised the counter by one, as far as it is an `int`. -/
structure Counts (s s' : Search V) : Prop where
  mono : ∀ x, s.visited x = true → s'.visited x = true
  sum : s'.time + unvisited s' = s.time + unvisited s
  isInt : IsInt s.time → IsInt s'.time

/-- The visits that are still to come fit into the counter. -/
def Room (s : Search V) : Prop := IsInt s.time ∧ s.time + unvisited s ≤ INT_MAX

section Counts

variable {g : Graph V} {u v : Fin V} {s s' t : Search V} {n : Nat}

theorem Counts.refl (s : Search V) : Counts s s := ⟨fun _ hx => hx, rfl, fun h => h⟩

theorem Counts.trans (h : Counts s t) (h' : Counts t s') : Counts s s' :=
  ⟨fun x hx => h'.mono x (h.mono x hx), h'.sum.trans h.sum, fun hs => h'.isInt (h.isInt hs)⟩

theorem Counts.of_eq (hv : t.visited = s.visited) (ht : t.time = s.time) : Counts s t := by
  refine ⟨fun x hx => hv ▸ hx, ?_, fun h => ht ▸ h⟩
  rw [ht, unvisited, hv]
  rfl

theorem counts_touched (h : Touched u s t) : Counts s t := .of_eq h.visited h.time

theorem Room.counts (h : Room s) (hc : Counts s s') : Room s' := ⟨hc.isInt h.1, by rw [hc.sum]; exact h.2⟩

theorem unvisited_stamp (time : Int) (hu : s.visited u = false) :
    unvisited (stamp u time s) + 1 = unvisited s := by
  have herase : (Finset.univ.filter fun x => (stamp u time s).visited x = false) =
      (Finset.univ.filter fun x => s.visited x = false).erase u := by
    ext x
    rw [Finset.mem_erase, Finset.mem_filter, Finset.mem_filter]
    by_cases hx : x = u
    · simp [stamp, hx]
    · simp [stamp, hx]
  have hmem : u ∈ Finset.univ.filter fun x => s.visited x = false := by simp [hu]
  rw [unvisited, herase, Finset.card_erase_add_one hmem, unvisited]

theorem unvisited_pos (hu : s.visited u = false) : 0 < unvisited s := by
  rw [← unvisited_stamp 0 hu]
  exact Nat.succ_pos _

theorem enter_counts (hu : s.visited u = false) (h : enter u s = some s') :
    Counts s s' ∧ s'.visited u = true := by
  obtain ⟨time, htime, hs'⟩ := Option.bind_eq_some_iff.mp h
  obtain ⟨hint, rfl⟩ := checked_eq_some.mp htime
  cases hs'
  refine ⟨⟨fun x hx => ?_, ?_, fun _ => hint⟩, Function.update_self ..⟩
  · simp [stamp, ne_of_visited hu hx, hx]
  · have hless := unvisited_stamp (s.time + 1) hu
    rw [← hless, Int.natCast_add, Int.natCast_one]
    show s.time + 1 + _ = _
    omega

/-- Where there is room for a vertex, it is entered. -/
theorem enter_room (h : Room s) (hu : s.visited u = false) : enter u s = some (stamp u (s.time + 1) s) := by
  obtain ⟨⟨hmin, -⟩, hmax⟩ := h
  have hpos := unvisited_pos hu
  have hint : IsInt (s.time + 1) := ⟨by omega, by omega⟩
  rw [enter, checked_of_isInt hint]
  rfl

theorem apLoop_counts {call : Fin V → Search V → Option (Search V)}
    (hcall : ∀ v s s', s.visited v = false → call v s = some s' → Counts s s' ∧ s'.visited v = true)
    {vs : List (Fin V)} {children : Nat} (h : apLoop call u vs children s = some s') : Counts s s' := by
  induction vs generalizing s children with
  | nil =>
    cases h
    exact .refl _
  | cons v vs ih =>
    rw [apLoop] at h
    split_ifs at h with hv hp
    · obtain ⟨t, ht, h⟩ := Option.bind_eq_some_iff.mp h
      have hset : Counts s (setParent v u s) := .of_eq rfl rfl
      obtain ⟨hchild, -⟩ := hcall v (setParent v u s) t hv ht
      exact (hset.trans hchild).trans ((counts_touched (touched_judge ..)).trans (ih h))
    · exact (counts_touched (touched_lower ..)).trans (ih h)
    · exact ih h

theorem apUtil_counts (hu : s.visited u = false) (h : apUtil g n u s = some s') :
    Counts s s' ∧ s'.visited u = true := by
  induction n generalizing u s s' with
  | zero => cases h
  | succ n ih =>
    obtain ⟨t, ht, h⟩ := Option.bind_eq_some_iff.mp h
    obtain ⟨henter, hself⟩ := enter_counts hu ht
    have hloop := apLoop_counts (fun v s s' hv hs => ih hv hs) h
    exact ⟨henter.trans hloop, hloop.mono u hself⟩

theorem apRoots_counts {is : List (Fin V)} (h : apRoots g n is s = some s') :
    Counts s s' ∧ ∀ i, i ∈ is → s'.visited i = true := by
  induction is generalizing s with
  | nil =>
    cases h
    exact ⟨.refl _, fun i hi => absurd hi List.not_mem_nil⟩
  | cons i is ih =>
    rw [apRoots] at h
    split_ifs at h with hi
    · obtain ⟨t, ht, h⟩ := Option.bind_eq_some_iff.mp h
      obtain ⟨hroot, hself⟩ := apUtil_counts hi ht
      obtain ⟨hrest, hall⟩ := ih h
      exact ⟨hroot.trans hrest, List.forall_mem_cons.mpr ⟨hrest.mono i hself, hall⟩⟩
    · obtain ⟨hrest, hall⟩ := ih h
      exact ⟨hrest, List.forall_mem_cons.mpr ⟨hrest.mono i (by simpa using hi), hall⟩⟩

theorem unvisited_start (time : Int) (disc low : Fin V → Int) : unvisited (start time disc low) = V := by
  simp [unvisited, start]

/-- Each vertex is visited, so that a call of `ap` raises the counter by their number. -/
theorem ap_time {time t : Int} {disc low : Fin V → Int} {out : List (Fin V)} (htime : IsInt time)
    (h : ap g n time disc low = some (out, t)) : t = time + V ∧ IsInt t := by
  obtain ⟨s, hs, h⟩ := Option.bind_eq_some_iff.mp h
  cases h
  obtain ⟨hcounts, hall⟩ := apRoots_counts hs
  have hzero : unvisited s = 0 := by
    rw [unvisited, Finset.card_eq_zero, Finset.filter_eq_empty_iff]
    intro i _
    simp [hall i (List.mem_finRange i)]
  have hsum := hcounts.sum
  rw [hzero, unvisited_start, Int.natCast_zero, Int.add_zero] at hsum
  exact ⟨hsum, hcounts.isInt htime⟩

end Counts

end C11AndC.Articulation
