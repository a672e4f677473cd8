import C11AndC.Library.Orbit
import Mathlib.Data.Finset.Card
import Mathlib.Data.Set.Finite.Basic
import Mathlib.Tactic.Ring.RingNF

namespace C11AndC.Library

variable {K J : Type}

/-- Two tables in one, and the key that is to be put into the table `side`. -/
structure Walk (K J : Type) where
  table : Bool × J → K
  hand : K
  side : Bool

variable [DecidableEq J] (h : Bool → K → J) (free : K)

def cell (w : Walk K J) : Bool × J := (w.side, h w.side w.hand)

/-- The key takes its cell, and the key that was there goes to the other table. -/
def evict (w : Walk K J) : Walk K J :=
  ⟨Function.update w.table (cell h w) w.hand, w.table (cell h w), !w.side⟩

/-- The other cell of the key in a cell. -/
def nextCell (T : Bool × J → K) (y : Bool × J) : Bool × J := (!y.1, h (!y.1) (T y))

/-- Evictions one after the other, each from an occupied cell. -/
inductive Moves : Walk K J → Nat → Walk K J → Prop where
  | stay (w : Walk K J) : Moves w 0 w
  | move {w w' : Walk K J} {m : Nat} (hfull : w.table (cell h w) ≠ free) (hrest : Moves (evict h w) m w') :
      Moves w (m + 1) w'

def Homed (T : Bool × J → K) : Prop := ∀ y, T y ≠ free → h y.1 (T y) = y.2

variable {h free} {w w' w'' : Walk K J} {m n t c d : Nat}

theorem evict_table_self (w : Walk K J) : (evict h w).table (cell h w) = w.hand := Function.update_self ..

theorem evict_table_of_ne {y : Bool × J} (hy : y ≠ cell h w) : (evict h w).table y = w.table y :=
  Function.update_of_ne hy ..

theorem evict_eq {y : Bool × J} {k : K} (hcell : cell h w = y) (hk : w.table y = k) :
    evict h w = ⟨Function.update w.table y w.hand, k, !w.side⟩ := by
  subst hcell hk
  rfl

theorem moves_trans (hw : Moves h free w m w') (hw' : Moves h free w' n w'') : Moves h free w (m + n) w'' := by
  induction hw with
  | stay w => rwa [Nat.zero_add]
  | @move w _ m hfull _ ih =>
    rw [Nat.add_right_comm]
    exact .move hfull (ih hw')

theorem moves_snoc (hw : Moves h free w m w') (hfull : w'.table (cell h w') ≠ free) :
    Moves h free w (m + 1) (evict h w') :=
  moves_trans hw (.move hfull (.stay _))

theorem homed_evict (hhome : Homed h free w.table) : Homed h free (evict h w).table := by
  intro y hy
  by_cases hc : y = cell h w
  · rw [hc, evict_table_self]
    rfl
  · rw [evict_table_of_ne hc] at hy ⊢
    exact hhome y hy

/-- The walk as long as it comes to new cells. -/
theorem moves_forward (hgo : ∀ i < m, w.table ((nextCell h w.table)^[i] (cell h w)) ≠ free)
    (hinj : ∀ i < m, ∀ j < m, (nextCell h w.table)^[i] (cell h w) = (nextCell h w.table)^[j] (cell h w) → i = j) :
    ∃ w', Moves h free w m w' ∧ cell h w' = (nextCell h w.table)^[m] (cell h w) ∧
      (∀ y, (∀ j < m, y ≠ (nextCell h w.table)^[j] (cell h w)) → w'.table y = w.table y) ∧
      (0 < m → w'.table (cell h w) = w.hand) := by
  induction m with
  | zero => exact ⟨w, .stay w, rfl, fun _ _ => rfl, fun hm => absurd hm (Nat.lt_irrefl 0)⟩
  | succ m ih =>
    obtain ⟨w', hmoves, hcell, hsame, hfirst⟩ := ih (fun i hi => hgo i (Nat.lt_succ_of_lt hi))
      fun i hi j hj => hinj i (Nat.lt_succ_of_lt hi) j (Nat.lt_succ_of_lt hj)
    have hnew : w'.table (cell h w') = w.table (cell h w') := by
      refine hsame _ fun j hj he => ?_
      rw [hcell] at he
      exact absurd (hinj m (Nat.lt_succ_self m) j (Nat.lt_succ_of_lt hj) he) hj.ne'
    refine ⟨evict h w', moves_snoc hmoves ?_, ?_, fun y hy => ?_, fun _ => ?_⟩
    · rw [hnew, hcell]
      exact hgo m (Nat.lt_succ_self m)
    · have hnext : cell h (evict h w') = nextCell h w'.table (cell h w') := rfl
      rw [Function.iterate_succ_apply', ← hcell, hnext, nextCell, nextCell, hnew]
    · have hne : y ≠ cell h w' := hcell ▸ hy m (Nat.lt_succ_self m)
      rw [evict_table_of_ne hne]
      exact hsame y fun j hj => hy j (Nat.lt_succ_of_lt hj)
    · cases m with
      | zero =>
        cases hmoves
        exact evict_table_self w
      | succ m =>
        have hne : cell h w ≠ cell h w' := by
          rw [hcell]
          intro he
          exact absurd (hinj 0 (Nat.succ_pos _) (m + 1) (Nat.lt_succ_self _) he) (Nat.succ_ne_zero m).symm
        rw [evict_table_of_ne hne]
        exact hfirst (Nat.succ_pos m)

/-- The walk to an empty cell. -/
theorem moves_settle (hl : Leads (nextCell h w.table) (fun y => w.table y = free) (cell h w) d) :
    ∃ w', Moves h free w d w' ∧ w'.table (cell h w') = free := by
  have hinj := leads_inj hl
  obtain ⟨w', hmoves, hcell, hsame, -⟩ := moves_forward hl.2
    fun i hi j hj => hinj i hi.le j hj.le
  refine ⟨w', hmoves, ?_⟩
  rw [hcell, hsame _ fun j hj he => absurd (hinj d (Nat.le_refl d) j hj.le he) hj.ne']
  exact hl.1

/-- The walk down a path, around a cycle and back: the first key is in the hand again, for its
other cell. -/
theorem moves_rounds (hhome : Homed h free w.table) (hhand : w.hand ≠ free)
    (hr : Rounds (nextCell h w.table) (cell h w) t c)
    (hgo : ∀ j, w.table ((nextCell h w.table)^[j] (cell h w)) ≠ free) :
    ∃ T, Moves h free w (2 * t + c + 1) ⟨T, w.hand, !w.side⟩ ∧
      ∀ y, (∀ j, y ≠ (nextCell h w.table)^[j] (cell h w)) → T y = w.table y := by
  induction t generalizing w with
  | zero =>
    have hinj := hr.inj
    rw [Nat.zero_add] at hinj
    obtain ⟨w', hmoves, hcell, hsame, hfirst⟩ := moves_forward (fun i _ => hgo i) hinj
    have hclose := hr.close
    rw [Nat.zero_add] at hclose
    rw [hclose] at hcell
    have hback : w'.table (cell h w') = w.hand := by
      rw [hcell]
      exact hfirst hr.pos
    have hside : w'.side = w.side := congrArg Prod.fst hcell
    refine ⟨Function.update w'.table (cell h w') w'.hand, ?_, fun y hy => ?_⟩
    · rw [Nat.mul_zero, Nat.zero_add, ← hside, ← evict_eq rfl hback]
      exact moves_snoc hmoves (by rwa [hback])
    · rw [Function.update_of_ne (hcell ▸ hy 0)]
      exact hsame y fun j _ => hy j
  | succ t ih =>
    let p := fun j => (nextCell h w.table)^[j] (cell h (evict h w))
    have hne : ∀ j, p j ≠ cell h w := rounds_ne hr
    have hold : ∀ j, (evict h w).table (p j) = w.table (p j) := fun j => evict_table_of_ne (hne j)
    have hnext : ∀ j, nextCell h (evict h w).table (p j) = nextCell h w.table (p j) := by
      intro j
      rw [nextCell, nextCell, hold]
    have hpath : ∀ j, (nextCell h (evict h w).table)^[j] (cell h (evict h w)) = p j :=
      fun j => iterate_congr fun i _ => hnext i
    obtain ⟨T, hmoves, hsame⟩ := ih (w := evict h w) (homed_evict hhome) (hgo 0) (rounds_congr (rounds_step hr) hnext)
      fun j => by
        rw [hpath, hold]
        exact hgo (j + 1)
    have hfirst : T (cell h w) = w.hand := by
      rw [hsame (cell h w) fun j => (hpath j).symm ▸ (hne j).symm]
      exact evict_table_self w
    have hside : (!(evict h w).side) = w.side := Bool.not_not _
    rw [hside] at hmoves
    have hcell : cell h ⟨T, (evict h w).hand, w.side⟩ = cell h w := Prod.ext rfl (hhome _ (hgo 0))
    refine ⟨Function.update T (cell h w) (evict h w).hand, ?_, fun y hy => ?_⟩
    · have hcount : 2 * (t + 1) + c + 1 = 2 * t + c + 1 + 1 + 1 := by ring
      rw [hcount, ← evict_eq (w := ⟨T, (evict h w).hand, w.side⟩) hcell hfirst]
      refine moves_snoc (.move (hgo 0) hmoves) ?_
      rw [hcell]
      exact hfirst.trans_ne hhand
    · have hy0 : y ≠ cell h w := hy 0
      rw [Function.update_of_ne hy0, hsame y fun j => hpath j ▸ hy (j + 1)]
      exact evict_table_of_ne hy0

/-- The walk that comes back to the first key and finds an empty cell from the other side. -/
theorem moves_turn (hhome : Homed h free w.table) (hhand : w.hand ≠ free)
    (hr : Rounds (nextCell h w.table) (cell h w) t c)
    (hgo : ∀ j, w.table ((nextCell h w.table)^[j] (cell h w)) ≠ free)
    (hl : Leads (nextCell h w.table) (fun y => w.table y = free) (!w.side, h (!w.side) w.hand) d) :
    ∃ w', Moves h free w (2 * t + c + 1 + d) w' ∧ w'.table (cell h w') = free := by
  obtain ⟨T, hmoves, hsame⟩ := moves_rounds hhome hhand hr hgo
  have hold : ∀ i ≤ d, T ((nextCell h w.table)^[i] (!w.side, h (!w.side) w.hand)) =
      w.table ((nextCell h w.table)^[i] (!w.side, h (!w.side) w.hand)) := by
    refine fun i hi => hsame _ fun j he => hgo (d - i + j) ?_
    rw [Function.iterate_add_apply, ← he, ← Function.iterate_add_apply, Nat.sub_add_cancel hi]
    exact hl.1
  have hl' : Leads (nextCell h T) (fun y => T y = free) (!w.side, h (!w.side) w.hand) d := by
    refine leads_congr hl (fun j hj => ?_) fun j hj => ?_
    · rw [nextCell, nextCell, hold j hj.le]
    · rw [hold j hj]
  obtain ⟨w', hmoves', hfree⟩ := moves_settle (h := h) (w := ⟨T, w.hand, !w.side⟩) hl'
  exact ⟨w', moves_trans hmoves hmoves', hfree⟩

omit [DecidableEq J] in
/-- The key and the keys that are met from its two cells are too many for these cells. -/
theorem no_assignment (hhome : Homed h free w.table)
    (hinj : ∀ y z, w.table y ≠ free → w.table y = w.table z → y = z) (hfresh : ∀ y, w.table y ≠ w.hand)
    (hfin : {y | w.table y ≠ free}.Finite)
    (hgo : ∀ b j, w.table ((nextCell h w.table)^[j] (b, h b w.hand)) ≠ free) (σ : K → Bool) :
    ∃ k k', (k = w.hand ∨ ∃ y, w.table y = k ∧ k ≠ free) ∧ (k' = w.hand ∨ ∃ y, w.table y = k' ∧ k' ≠ free) ∧
      k ≠ k' ∧ (σ k, h (σ k) k) = (σ k', h (σ k') k') := by
  classical
  let met := fun y => ∃ b j, y = (nextCell h w.table)^[j] (b, h b w.hand)
  let A := hfin.toFinset.filter met
  have hA : ∀ y, y ∈ A ↔ met y := by
    intro y
    rw [Finset.mem_filter, Set.Finite.mem_toFinset, and_iff_right_iff_imp]
    rintro ⟨b, j, rfl⟩
    exact hgo b j
  have hfull : ∀ y ∈ A, w.table y ≠ free := by
    intro y hy
    obtain ⟨b, j, rfl⟩ := (hA y).mp hy
    exact hgo b j
  have hnot : w.hand ∉ A.image w.table := by
    rw [Finset.mem_image]
    rintro ⟨y, -, he⟩
    exact hfresh y he
  have hcard : A.card < (insert w.hand (A.image w.table)).card := by
    rw [Finset.card_insert_of_notMem hnot, Finset.card_image_of_injOn]
    · exact Nat.lt_succ_self _
    · exact fun y hy z _ he => hinj y z (hfull y hy) he
  have hmaps : ∀ k ∈ insert w.hand (A.image w.table), (σ k, h (σ k) k) ∈ A := by
    intro k hk
    rw [hA]
    obtain rfl | hk := Finset.mem_insert.mp hk
    · exact ⟨σ w.hand, 0, rfl⟩
    · obtain ⟨y, hy, rfl⟩ := Finset.mem_image.mp hk
      obtain ⟨b, j, he⟩ := (hA y).mp hy
      by_cases hs : σ (w.table y) = y.1
      · refine ⟨b, j, ?_⟩
        rw [← he, hs]
        exact Prod.ext rfl (hhome y (hfull y hy))
      · refine ⟨b, j + 1, ?_⟩
        rw [Function.iterate_succ_apply', ← he, Bool.eq_not_of_ne hs]
        rfl
  obtain ⟨k, hk, k', hk', hne, he⟩ := Finset.exists_ne_map_eq_of_card_lt_of_maps_to hcard hmaps
  have hkey : ∀ k ∈ insert w.hand (A.image w.table), k = w.hand ∨ ∃ y, w.table y = k ∧ k ≠ free := by
    intro k hk
    obtain rfl | hk := Finset.mem_insert.mp hk
    · exact .inl rfl
    · obtain ⟨y, hy, rfl⟩ := Finset.mem_image.mp hk
      exact .inr ⟨y, rfl, hfull y hy⟩
  exact ⟨k, k', hkey k hk, hkey k' hk', hne, he⟩

end C11AndC.Library
