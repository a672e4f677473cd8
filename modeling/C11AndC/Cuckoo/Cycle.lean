import C11AndC.Cuckoo.Placement
import C11AndC.Library.Eviction
import Mathlib.Order.Interval.Finset.Nat
import Mathlib.Data.Int.Interval
import Mathlib.Data.Finite.Prod

namespace C11AndC.Cuckoo

open C11AndC.Library

/-- The state before `keys[i]` is placed. -/
def after (keys : List Int) (s : State) (i : Nat) : State :=
  (keys.take i).foldl (fun s key => place keys.length key 0 s) (initTable s)

/-- The first key is reported while `keys[i]` is placed. -/
def FirstReport (keys : List Int) (s : State) (i : Nat) : Prop :=
  (after keys s i).printed = s.printed ∧ (after keys s (i + 1)).printed ≠ s.printed

instance (keys : List Int) (s : State) (i : Nat) : Decidable (FirstReport keys s i) :=
  inferInstanceAs (Decidable (_ ∧ _))

/-- Each key has a cell of its own among its two. -/
def Assignable (keys : List Int) : Prop :=
  ∃ table : Int → Nat, (∀ k ∈ keys, table k < ver) ∧
    ∀ k ∈ keys, ∀ k' ∈ keys, table k = table k' → hash (table k + 1) k = hash (table k' + 1) k' → k = k'

def ReportsOnlyCycles (keys : List Int) (s : State) : Prop :=
  ∀ i, FirstReport keys s i → ¬ Assignable (keys.take (i + 1))

def home (b : Bool) (key : Int) : Int := hash (b.toNat + 1) key

/-- The tables as one, with no key outside of them. -/
def tables (s : State) (y : Bool × Int) : Int :=
  if 0 ≤ y.2 ∧ y.2 < MAXN then s.hashtable y.1.toNat y.2 else empty

/-- If the occupied cells from the first cell of the key on run into a cycle, with `t` cells before
it and `c` on it, and `d` occupied cells lie between its second cell and an empty one, then the
recursion may be that deep. -/
def Fits (n : Nat) (s : State) (key : Int) : Prop :=
  ∀ t c d, Rounds (nextCell home (tables s)) (false, home false key) t c →
    (∀ j, tables s ((nextCell home (tables s))^[j] (false, home false key)) ≠ empty) →
    Leads (nextCell home (tables s)) (fun y => tables s y = empty) (true, home true key) d →
    2 * t + c + d + 2 ≤ n

/-- The walk with a key that is to be placed, at the state of the program. -/
structure Stands (inputs : List Int) (s : State) (w : Walk Int Int) : Prop where
  placed : Tables inputs s.hashtable
  hand : w.hand ∈ inputs
  fresh : ∀ y, w.table y ≠ w.hand
  table : w.table = tables s

section Walks

variable {s : State} {inputs : List Int} {key : Int} {w w' : Walk Int Int} {n m d i : Nat}

theorem toNat_lt (b : Bool) : b.toNat < ver := by
  cases b <;> decide

theorem toNat_inj {b b' : Bool} (h : b.toNat = b'.toNat) : b = b' := by
  cases b <;> cases b' <;> first | rfl | cases h

theorem toNat_not (b : Bool) : (b.toNat + 1) % ver = (!b).toNat := by
  cases b <;> rfl

theorem cell_of_tables {y : Bool × Int} (hy : tables s y ≠ empty) :
    Cell s.hashtable y.1.toNat y.2 (tables s y) := by
  unfold tables at hy ⊢
  split_ifs at hy ⊢ with hrange
  · exact ⟨toNat_lt y.1, hrange.1, hrange.2, rfl, hy⟩
  · exact absurd rfl hy

theorem homed (h : Tables inputs s.hashtable) : Homed home empty (tables s) :=
  fun _ hy => h.home (cell_of_tables hy)

theorem tables_once (h : Tables inputs s.hashtable) {y z : Bool × Int} (hy : tables s y ≠ empty)
    (he : tables s y = tables s z) : y = z := by
  have hcell := cell_of_tables hy
  rw [he] at hy hcell
  obtain ⟨hside, hcolumn⟩ := h.once hcell (cell_of_tables hy)
  exact Prod.ext (toNat_inj hside) hcolumn

theorem tables_home (hk : 0 ≤ key) (b : Bool) : tables s (b, home b key) = s.hashtable b.toNat (home b key) :=
  if_pos (hash_range _ hk)

theorem tables_fill_eq (hk : 0 ≤ key) (b : Bool) (pos : Nat → Int) :
    tables (fill { s with pos := pos } b.toNat (home b key) key) =
      Function.update (tables s) (b, home b key) key := by
  funext y
  by_cases hy : y = (b, home b key)
  · rw [hy, Function.update_self, tables_home hk]
    exact fill_self ..
  · rw [Function.update_of_ne hy]
    have hne : ¬ (y.1.toNat = b.toNat ∧ y.2 = home b key) := by
      rintro ⟨h1, h2⟩
      exact hy (Prod.ext (toNat_inj h1) h2)
    unfold tables
    rw [fill_other _ key hne]

section Steps

variable (hpos : ∀ k ∈ inputs, 0 ≤ k)
include hpos

theorem absent (hw : Stands inputs s w) (i : Nat) (hi : i < ver) : s.hashtable i (hash (i + 1) w.hand) ≠ w.hand := by
  obtain ⟨b, rfl⟩ : ∃ b : Bool, b.toNat = i := by
    obtain rfl | rfl : i = 0 ∨ i = 1 := by
      simp only [ver] at hi
      omega
    · exact ⟨false, rfl⟩
    · exact ⟨true, rfl⟩
  have hfresh := hw.fresh (b, home b w.hand)
  rwa [hw.table, tables_home (hpos _ hw.hand)] at hfresh

/-- One call of `place`. -/
theorem place_step (hw : Stands inputs s w) (n : Nat) :
    ∃ t, tables t = (evict home w).table ∧ Tables inputs t.hashtable ∧ t.printed = s.printed ∧
      place (n + 1) w.hand w.side.toNat s =
        if w.table (cell home w) ≠ empty then place n (evict home w).hand (evict home w).side.toNat t else t := by
  obtain ⟨found, pos, hfound, htrue, hfalse⟩ := positions_spec w.hand s
  have hk := hpos _ hw.hand
  cases found with
  | true =>
    obtain ⟨i, hi, hholds⟩ := htrue rfl
    exact absurd hholds (absent hpos hw i hi)
  | false =>
    obtain ⟨hp, -⟩ := hfalse rfl w.side.toNat (toNat_lt w.side)
    refine ⟨fill { s with pos := pos } w.side.toNat (home w.side w.hand) w.hand, ?_,
      tables_fill (s := { s with pos := pos }) hw.placed hw.hand fun i hi => absent hpos hw i hi, rfl, ?_⟩
    · rw [tables_fill_eq hk, evict, hw.table]
      rfl
    · have hdis : w.table (cell home w) = s.hashtable w.side.toNat (hash (w.side.toNat + 1) w.hand) := by
        rw [hw.table]
        exact tables_home hk w.side
      rw [place, hfound, hdis]
      simp only [hp, toNat_not, evict, hdis]
      rfl

omit hpos in
theorem stands_evict {t : State} (hw : Stands inputs s w) (hfull : w.table (cell home w) ≠ empty)
    (ht : tables t = (evict home w).table) (htables : Tables inputs t.hashtable) :
    Stands inputs t (evict home w) := by
  refine ⟨htables, ?_, fun y hy => ?_, ht.symm⟩
  · rw [hw.table] at hfull
    rw [evict, hw.table]
    exact hw.placed.input (cell_of_tables hfull)
  · by_cases hc : y = cell home w
    · rw [hc, evict_table_self] at hy
      exact hw.fresh _ hy.symm
    · rw [evict_table_of_ne hc] at hy
      rw [hw.table] at hy hfull
      exact hc (tables_once hw.placed hfull ((congrFun hw.table _).symm.trans hy.symm)).symm

/-- Where the walk evicts `m` keys and more, `m` recursive calls are not enough. -/
theorem place_reports (hm : Moves home empty w m w') (hw : Stands inputs s w) (hn : n ≤ m) :
    (place n w.hand w.side.toNat s).printed ≠ s.printed := by
  induction hm generalizing s n with
  | stay w =>
    obtain rfl := Nat.le_zero.mp hn
    simp [place]
  | @move w w' m hfull _ ih =>
    cases n with
    | zero => simp [place]
    | succ n =>
      obtain ⟨t, htable, htables, hprinted, hplace⟩ := place_step hpos hw n
      rw [hplace, if_pos hfull, ← hprinted]
      exact ih (stands_evict hw hfull htable htables) (Nat.le_of_succ_le_succ hn)

/-- Where it comes to an empty cell after `m` evictions, more calls are enough. -/
theorem place_settles (hm : Moves home empty w m w') (hw : Stands inputs s w)
    (hfree : w'.table (cell home w') = empty) (hn : m < n) :
    (place n w.hand w.side.toNat s).printed = s.printed := by
  induction hm generalizing s n with
  | stay w =>
    obtain ⟨n, rfl⟩ := Nat.exists_eq_succ_of_ne_zero (Nat.ne_of_gt hn)
    obtain ⟨t, -, -, hprinted, hplace⟩ := place_step hpos hw n
    rw [hplace, if_neg (not_not.mpr hfree), hprinted]
  | @move w w' m hfull _ ih =>
    obtain ⟨n, rfl⟩ := Nat.exists_eq_succ_of_ne_zero (Nat.ne_of_gt (Nat.zero_lt_of_lt hn))
    obtain ⟨t, htable, htables, hprinted, hplace⟩ := place_step hpos hw n
    rw [hplace, if_pos hfull, ← hprinted]
    exact ih (stands_evict hw hfull htable htables) hfree (Nat.lt_of_succ_lt_succ hn)

end Steps

theorem tables_finite (s : State) : {y | tables s y ≠ empty}.Finite := by
  refine ((Set.finite_univ : (Set.univ : Set Bool).Finite).prod (Set.finite_Ico 0 MAXN)).subset fun y hy => ?_
  have hcell := cell_of_tables hy
  exact ⟨Set.mem_univ _, hcell.low, hcell.high⟩

/-- The cells on the way to an empty one hold keys of their own. -/
theorem leads_lt {b : Bool} (hw : Stands inputs s ⟨tables s, key, b⟩)
    (hl : Leads (nextCell home (tables s)) (fun y => tables s y = empty) (b, home b key) d) : d < inputs.length := by
  let p := fun j => (nextCell home (tables s))^[j] (b, home b key)
  have hinj : Set.InjOn (fun j => tables s (p j)) (Finset.range d) := by
    intro i hi j hj he
    rw [Finset.coe_range, Set.mem_Iio] at hi hj
    exact leads_inj hl i hi.le j hj.le (tables_once hw.placed (hl.2 i hi) he)
  have hnot : key ∉ (Finset.range d).image fun j => tables s (p j) := by
    rw [Finset.mem_image]
    rintro ⟨j, -, he⟩
    exact hw.fresh (p j) he
  have hsub : insert key ((Finset.range d).image fun j => tables s (p j)) ⊆ inputs.toFinset := by
    refine Finset.insert_subset (List.mem_toFinset.mpr hw.hand) fun k hk => ?_
    obtain ⟨j, hj, rfl⟩ := Finset.mem_image.mp hk
    exact List.mem_toFinset.mpr (hw.placed.input (cell_of_tables (hl.2 j (Finset.mem_range.mp hj))))
  have hcard := (Finset.card_le_card hsub).trans (List.toFinset_card_le inputs)
  rwa [Finset.card_insert_of_notMem hnot, Finset.card_image_of_injOn hinj, Finset.card_range] at hcard

theorem some_cell_leads (hassign : Assignable inputs) (hw : Stands inputs s ⟨tables s, key, false⟩) :
    ∃ b d, Leads (nextCell home (tables s)) (fun y => tables s y = empty) (b, home b key) d := by
  by_contra hnot
  obtain ⟨table, hver, hdistinct⟩ := hassign
  have hgo : ∀ b j, tables s ((nextCell home (tables s))^[j] (b, home b key)) ≠ empty := by
    intro b
    obtain ⟨d, hl⟩ | ⟨-, hgo⟩ := leads_or_rounds (f := nextCell home (tables s)) (tables_finite s) (b, home b key)
    · exact absurd ⟨b, d, hl⟩ hnot
    · exact hgo
  have hin : ∀ k, (k = key ∨ ∃ y, tables s y = k ∧ k ≠ empty) → k ∈ inputs := by
    rintro k (rfl | ⟨y, rfl, hy⟩)
    · exact hw.hand
    · exact hw.placed.input (cell_of_tables hy)
  obtain ⟨k, k', hk, hk', hne, he⟩ := no_assignment (w := ⟨tables s, key, false⟩) (homed hw.placed)
    (fun y z hy => tables_once hw.placed hy) hw.fresh (tables_finite s) hgo fun k => decide (table k = 1)
  have hside : ∀ k ∈ inputs, (decide (table k = 1)).toNat = table k := by
    intro k hk
    obtain h0 | h1 : table k = 0 ∨ table k = 1 := by
      have hlt := hver k hk
      simp only [ver] at hlt
      omega
    · simp [h0]
    · simp [h1]
  obtain ⟨hs, hj⟩ := Prod.mk.inj he
  have htable := congrArg Bool.toNat hs
  rw [hside k (hin k hk), hside k' (hin k' hk')] at htable
  rw [home, home, hside k (hin k hk), hside k' (hin k' hk')] at hj
  exact hne (hdistinct k (hin k hk) k' (hin k' hk') htable hj)

/-- The recursion is deep enough exactly when it is for a walk that comes back. -/
theorem place_iff (hpos : ∀ k ∈ inputs, 0 ≤ k) (hassign : Assignable inputs)
    (hw : Stands inputs s ⟨tables s, key, false⟩) (hlen : inputs.length ≤ n) :
    (place n key 0 s).printed = s.printed ↔ Fits n s key := by
  have hhand := ne_empty (hpos key hw.hand)
  constructor
  · intro hprinted t c d hr hgo hl
    obtain ⟨w', hm, -⟩ := moves_turn (w := ⟨tables s, key, false⟩) (homed hw.placed) hhand hr hgo hl
    by_contra hlt
    exact place_reports hpos hm hw (by omega) hprinted
  · intro hfits
    obtain ⟨d, hl⟩ | ⟨⟨t, c, hr⟩, hgo⟩ := leads_or_rounds (f := nextCell home (tables s)) (tables_finite s)
      (false, home false key)
    · obtain ⟨w', hm, hfree⟩ := moves_settle (w := ⟨tables s, key, false⟩) hl
      exact place_settles hpos hm hw hfree ((leads_lt hw hl).trans_le hlen)
    · obtain ⟨b, d, hl⟩ := some_cell_leads hassign hw
      cases b with
      | false => exact absurd hl.1 (hgo d)
      | true =>
        obtain ⟨w', hm, hfree⟩ := moves_turn (w := ⟨tables s, key, false⟩) (homed hw.placed) hhand hr hgo hl
        have hbound := hfits t c d hr hgo hl
        exact place_settles hpos hm hw hfree (by omega)

end Walks

section Runs

variable {keys : List Int} {s : State} {i : Nat}

theorem after_succ (hi : i < keys.length) (s : State) :
    after keys s (i + 1) = place keys.length keys[i] 0 (after keys s i) := by
  rw [after, List.take_succ_eq_append_getElem hi, List.foldl_append]
  rfl

theorem assignable_mono {keys keys' : List Int} (h : Assignable keys') (hsub : ∀ k ∈ keys, k ∈ keys') :
    Assignable keys := by
  obtain ⟨table, hver, hdistinct⟩ := h
  exact ⟨table, fun k hk => hver k (hsub k hk), fun k hk k' hk' => hdistinct k (hsub k hk) k' (hsub k' hk')⟩

theorem after_iff (hnodup : keys.Nodup) (hpos : ∀ k ∈ keys, 0 ≤ k) (hi : i < keys.length)
    (hassign : Assignable (keys.take (i + 1))) :
    (after keys s (i + 1)).printed = (after keys s i).printed ↔ Fits keys.length (after keys s i) keys[i] := by
  have hposTake : ∀ j, ∀ k ∈ keys.take j, 0 ≤ k := fun j k hk => hpos k (List.mem_of_mem_take hk)
  obtain ⟨htables, -⟩ := places_spec (hposTake i) (fun _ hk => hk) (initTable_tables _ s) keys.length
  have htake := List.take_succ_eq_append_getElem hi
  have hnew : keys[i] ∉ keys.take i := by
    have hnodup' := hnodup.sublist (List.take_sublist (i + 1) keys)
    rw [htake] at hnodup'
    exact fun hmem => (List.disjoint_of_nodup_append hnodup') hmem (List.mem_singleton_self _)
  rw [after_succ hi]
  refine place_iff (hposTake (i + 1)) hassign ⟨?_, ?_, fun y hy => ?_, rfl⟩ (List.length_take_le' ..)
  · exact ⟨htables.home, htables.once, fun hc => htake ▸ List.mem_append_left _ (htables.input hc)⟩
  · rw [htake]
    exact List.mem_append_right _ (List.mem_singleton_self _)
  · change tables (after keys s i) y = keys[i] at hy
    have hfull : tables (after keys s i) y ≠ empty := by
      rw [hy]
      exact ne_empty (hpos _ (List.getElem_mem hi))
    exact hnew (hy ▸ htables.input (cell_of_tables hfull))

theorem after_eq_of_le (hi : keys.length ≤ i) (s : State) : after keys s (i + 1) = after keys s i := by
  rw [after, after, List.take_of_length_le hi, List.take_of_length_le (Nat.le_succ_of_le hi)]

/-- As long as the keys can be assigned, `cuckoo` that reports only cycles has reported nothing. -/
theorem silent (h : ReportsOnlyCycles keys s) (hassign : Assignable (keys.take i)) {j : Nat} (hj : j ≤ i) :
    (after keys s j).printed = s.printed := by
  induction j with
  | zero => rfl
  | succ j ih =>
    by_contra hne
    refine h j ⟨ih (Nat.le_of_succ_le hj), hne⟩ (assignable_mono hassign fun k hk => ?_)
    exact (List.take_subset_take_left keys hj) hk

end Runs

section Short

variable {n : Nat} {s : State} {key : Int}

theorem fits_of_empty (j : Nat) (h : tables s ((nextCell home (tables s))^[j] (false, home false key)) = empty) :
    Fits n s key :=
  fun _ _ _ _ hfull _ => absurd h (hfull j)

/-- Two keys that take turns in their cells, while the other cell of the new key is free. -/
theorem fits_of_return
    (hne : nextCell home (tables s) (false, home false key) ≠ (false, home false key))
    (hback : (nextCell home (tables s))^[2] (false, home false key) = (false, home false key))
    (hfree : tables s (true, home true key) = empty) (hn : 4 ≤ n) : Fits n s key := by
  intro t c d hr _ hd
  have hzero : d = 0 := by
    by_contra hpos
    exact hd.2 0 (by omega) hfree
  have hle : t + c ≤ 2 := by
    by_contra hgt
    exact absurd (hr.inj 0 (by omega) 2 (by omega) hback.symm) (by decide)
  have hpos := hr.pos
  have ht : t = 0 := by
    by_contra hone
    obtain ⟨rfl, rfl⟩ : t = 1 ∧ c = 1 := by omega
    exact hne (hr.close.symm.trans hback)
  omega

end Short

/-- No key is reported without a cycle exactly when the recursion is deep enough for each key that
can still be placed. -/
theorem cuckoo_reports_iff (keys : List Int) (hnodup : keys.Nodup) (hpos : ∀ k ∈ keys, 0 ≤ k) (s : State) :
    ReportsOnlyCycles keys s ↔ ∀ i (hi : i < keys.length), Assignable (keys.take (i + 1)) →
      Fits keys.length (after keys s i) keys[i] := by
  constructor
  · intro h i hi hassign
    refine (after_iff hnodup hpos hi hassign).mp ?_
    rw [silent h hassign (Nat.le_refl _), silent h hassign (Nat.le_succ i)]
  · rintro hfits i ⟨hbefore, hafter⟩ hassign
    obtain hi | hi := Nat.lt_or_ge i keys.length
    · exact hafter (((after_iff hnodup hpos hi hassign).mpr (hfits i hi hassign)).trans hbefore)
    · exact hafter ((congrArg State.printed (after_eq_of_le hi s)).trans hbefore)

/-- The second key takes the cell of the first one. The third one goes round with both and comes into the
hand again, for which there is time as there is a fourth key. -/
theorem cuckoo_reports_iff_evicting : ReportsOnlyCycles [0, 121, 11, 5] start := by
  have hfirst : Fits 4 (after [0, 121, 11, 5] start 0) 0 := fits_of_empty 0 (by decide +kernel)
  have hsecond : Fits 4 (after [0, 121, 11, 5] start 1) 121 := fits_of_empty 1 (by decide +kernel)
  have hthird : Fits 4 (after [0, 121, 11, 5] start 2) 11 :=
    fits_of_return (by decide +kernel) (by decide +kernel) (by decide +kernel) (by decide)
  have hfourth : Fits 4 (after [0, 121, 11, 5] start 3) 5 := fits_of_empty 0 (by decide +kernel)
  refine (cuckoo_reports_iff [0, 121, 11, 5] (by decide) (by decide) start).mpr fun i hi _ => ?_
  simp only [List.length_cons, List.length_nil] at hi
  obtain rfl | rfl | rfl | rfl : i = 0 ∨ i = 1 ∨ i = 2 ∨ i = 3 := by omega
  · exact hfirst
  · exact hsecond
  · exact hthird
  · exact hfourth

/-- The keys 0 and 121 have the same two cells, and 11 has one of them and a free one: it comes into
the hand again after three moves, which are all that three keys may take. -/
theorem cuckoo_reports_wrong : ¬ ReportsOnlyCycles [0, 121, 11] start := by
  intro h
  have hfirst : FirstReport [0, 121, 11] start 2 := by decide +kernel
  refine h 2 hfirst ⟨fun k => if k = 0 then 0 else 1, ?_, ?_⟩
  · decide
  · decide

end C11AndC.Cuckoo
