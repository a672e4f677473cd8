import C11AndC.Cuckoo.Model
import Mathlib.Tactic.SplitIfs

namespace C11AndC.Cuckoo

/-- The cell `j` of table `i` holds the key. -/
structure Cell (table : Nat → Int → Int) (i : Nat) (j key : Int) : Prop where
  number : i < ver
  low : 0 ≤ j
  high : j < MAXN
  holds : table i j = key
  occupied : key ≠ empty

/-- The tables, as far as each cell is concerned. -/
structure Tables (inputs : List Int) (table : Nat → Int → Int) : Prop where
  home : ∀ {i j key}, Cell table i j key → hash (i + 1) key = j
  once : ∀ {i j i' j' key}, Cell table i j key → Cell table i' j' key → i = i' ∧ j = j'
  input : ∀ {i j key}, Cell table i j key → key ∈ inputs

def Has (table : Nat → Int → Int) (key : Int) : Prop := ∃ i, Cell table i (hash (i + 1) key) key

/-- What is to be shown of the tables after `cuckoo`, which printed the keys `printed`. -/
structure Placement (keys printed : List Int) (s : State) : Prop where
  tables : Tables keys s.hashtable
  kept : ∀ key ∈ keys, Has s.hashtable key ∨ key ∈ printed

section Place

variable {s : State} {inputs : List Int} {i tableID left : Nat} {j key : Int}

theorem hash_range (i : Nat) (hk : 0 ≤ key) : 0 ≤ hash i key ∧ hash i key < MAXN := by
  have hbound : ∀ x : Int, 0 ≤ x → 0 ≤ x.tmod MAXN ∧ x.tmod MAXN < MAXN := fun x hx =>
    ⟨Int.tmod_nonneg _ hx, Int.tmod_lt_of_pos _ (by decide)⟩
  unfold hash
  split
  · exact hbound key hk
  · exact hbound _ (Int.tdiv_nonneg hk (by decide))

theorem ne_empty (hk : 0 ≤ key) : key ≠ empty := by
  rintro rfl
  exact absurd hk (by decide)

/-- What the loop of `place` finds out. -/
theorem positions_spec (key : Int) (s : State) :
    ∃ b pos, positions key (List.range ver) s = (b, { s with pos := pos }) ∧
      (b = true → ∃ i < ver, s.hashtable i (hash (i + 1) key) = key) ∧
      (b = false → ∀ i < ver, pos i = hash (i + 1) key ∧ s.hashtable i (hash (i + 1) key) ≠ key) := by
  have hrange : List.range ver = [0, 1] := rfl
  simp only [hrange, positions, Function.update_self]
  split_ifs with h0 h1
  · exact ⟨true, _, rfl, fun _ => ⟨0, by decide, h0⟩, fun h => Bool.noConfusion h⟩
  · exact ⟨true, _, rfl, fun _ => ⟨1, by decide, h1⟩, fun h => Bool.noConfusion h⟩
  · refine ⟨false, _, rfl, fun h => Bool.noConfusion h, fun _ i hi => ?_⟩
    obtain rfl | rfl : i = 0 ∨ i = 1 := by simp only [ver] at hi; omega
    · exact ⟨rfl, h0⟩
    · exact ⟨Function.update_self .., h1⟩

theorem fill_self (s : State) (i : Nat) (j key : Int) : (fill s i j key).hashtable i j = key := by
  simp [fill]

theorem fill_other (s : State) {i i' : Nat} {j j' : Int} (key : Int) (h : ¬ (i' = i ∧ j' = j)) :
    (fill s i j key).hashtable i' j' = s.hashtable i' j' := by
  by_cases hi : i' = i
  · subst hi
    have hj : j' ≠ j := fun hj => h ⟨rfl, hj⟩
    simp [fill, Function.update_of_ne hj]
  · simp [fill, Function.update_of_ne hi]

/-- The cells after a key is put into one of them. -/
theorem cell_fill {i' : Nat} {j' k : Int} (h : Cell (fill s i j key).hashtable i' j' k) :
    (i' = i ∧ j' = j ∧ k = key) ∨ (¬ (i' = i ∧ j' = j) ∧ Cell s.hashtable i' j' k) := by
  by_cases hij : i' = i ∧ j' = j
  · obtain ⟨rfl, rfl⟩ := hij
    exact .inl ⟨rfl, rfl, h.holds.symm.trans (fill_self s i' j' key)⟩
  · exact .inr ⟨hij, h.number, h.low, h.high, (fill_other s key hij).symm.trans h.holds, h.occupied⟩

theorem has_fill (i : Nat) (key : Int) {k : Int} (h : Has s.hashtable k) :
    Has (fill s i (hash (i + 1) key) key).hashtable k ∨ k = s.hashtable i (hash (i + 1) key) := by
  obtain ⟨i', hc⟩ := h
  by_cases hij : i' = i ∧ hash (i' + 1) k = hash (i + 1) key
  · obtain ⟨rfl, hj⟩ := hij
    exact .inr (hj ▸ hc.holds.symm)
  · exact .inl ⟨i', hc.number, hc.low, hc.high, (fill_other s key hij).trans hc.holds, hc.occupied⟩

/-- A key that is in neither of its cells is put into one of them. -/
theorem tables_fill (h : Tables inputs s.hashtable) (hin : key ∈ inputs)
    (hnew : ∀ i < ver, s.hashtable i (hash (i + 1) key) ≠ key) :
    Tables inputs (fill s i (hash (i + 1) key) key).hashtable := by
  have hnot : ∀ {i' j'}, ¬ Cell s.hashtable i' j' key := by
    intro i' j' hc
    have hhome := h.home hc
    subst hhome
    exact hnew i' hc.number hc.holds
  refine ⟨fun hc => ?_, fun hc hc' => ?_, fun hc => ?_⟩
  · obtain ⟨rfl, rfl, rfl⟩ | ⟨-, hold⟩ := cell_fill hc
    · rfl
    · exact h.home hold
  · obtain ⟨hi, hj, hk⟩ | ⟨-, hold⟩ := cell_fill hc
    · obtain ⟨hi', hj', -⟩ | ⟨-, hold'⟩ := cell_fill hc'
      · exact ⟨hi.trans hi'.symm, hj.trans hj'.symm⟩
      · exact absurd (hk ▸ hold') hnot
    · obtain ⟨-, -, hk⟩ | ⟨-, hold'⟩ := cell_fill hc'
      · exact absurd (hk ▸ hold) hnot
      · exact h.once hold hold'
  · obtain ⟨-, -, rfl⟩ | ⟨-, hold⟩ := cell_fill hc
    · exact hin
    · exact h.input hold

theorem initTable_tables (inputs : List Int) (s : State) : Tables inputs (initTable s).hashtable := by
  have hempty : ∀ {i j key}, ¬ Cell (initTable s).hashtable i j key := by
    intro i j key hc
    have hholds := hc.holds
    simp only [initTable, hc.number, hc.low, hc.high, and_self, ↓reduceIte] at hholds
    exact hc.occupied hholds.symm
  exact ⟨fun hc => absurd hc hempty, fun hc => absurd hc hempty, fun hc => absurd hc hempty⟩

/-- What `place` makes of the tables; `left` keys may still be evicted. -/
structure Placed (inputs : List Int) (s : State) (key : Int) (t : State) : Prop where
  tables : Tables inputs t.hashtable
  printed : ∃ new, t.printed = s.printed ++ new ∧
    ∀ k, Has s.hashtable k ∨ k = key → Has t.hashtable k ∨ k ∈ new

theorem place_spec (left : Nat) (hpos : ∀ k ∈ inputs, 0 ≤ k) (h : Tables inputs s.hashtable) (hin : key ∈ inputs)
    (hi : tableID < ver) : Placed inputs s key (place left key tableID s) := by
  induction left generalizing s key tableID with
  | zero =>
    refine ⟨h, [key], rfl, ?_⟩
    rintro k (hk | rfl)
    · exact .inl hk
    · exact .inr (List.mem_singleton.mpr rfl)
  | succ left ih =>
    obtain ⟨b, pos, hb, htrue, hfalse⟩ := positions_spec key s
    rw [place, hb]
    cases b with
    | true =>
      obtain ⟨i, hiv, hcell⟩ := htrue rfl
      obtain ⟨hlow, hhigh⟩ := hash_range (i + 1) (hpos key hin)
      refine ⟨h, [], (List.append_nil _).symm, ?_⟩
      rintro k (hk | rfl)
      · exact .inl hk
      · exact .inl ⟨i, hiv, hlow, hhigh, hcell, ne_empty (hpos k hin)⟩
    | false =>
      obtain ⟨hp, -⟩ := hfalse rfl tableID hi
      obtain ⟨hlow, hhigh⟩ := hash_range (tableID + 1) (hpos key hin)
      have hnew := tables_fill (i := tableID) h hin fun i hiv => (hfalse rfl i hiv).2
      have hkey : Has (fill s tableID (hash (tableID + 1) key) key).hashtable key :=
        ⟨tableID, hi, hlow, hhigh, fill_self .., ne_empty (hpos key hin)⟩
      have hkeep := fun k (hk : Has s.hashtable k) => has_fill tableID key hk
      simp only [hp]
      split_ifs with hdis
      · have hcell : Cell s.hashtable tableID (hash (tableID + 1) key)
            (s.hashtable tableID (hash (tableID + 1) key)) :=
          ⟨hi, hlow, hhigh, rfl, hdis⟩
        obtain ⟨htables, new, hprinted, hrest⟩ :=
          ih (s := fill { s with pos := pos } tableID (hash (tableID + 1) key) key) hnew (h.input hcell)
            (Nat.mod_lt (tableID + 1) (by decide))
        refine ⟨htables, new, hprinted, ?_⟩
        rintro k (hk | rfl)
        · exact hrest k (hkeep k hk)
        · exact hrest k (.inl hkey)
      · refine ⟨hnew, [], (List.append_nil _).symm, ?_⟩
        rintro k (hk | rfl)
        · obtain hk' | rfl := hkeep k hk
          · exact .inl hk'
          · obtain ⟨i, hc⟩ := hk
            exact absurd (not_not.mp hdis) hc.occupied
        · exact .inl hkey

/-- The loop of `cuckoo`. -/
theorem places_spec (hpos : ∀ k ∈ inputs, 0 ≤ k) {keys : List Int} (hin : ∀ k ∈ keys, k ∈ inputs)
    (h : Tables inputs s.hashtable) (n : Nat) :
    let t := keys.foldl (fun s key => place n key 0 s) s
    Tables inputs t.hashtable ∧ ∃ new, t.printed = s.printed ++ new ∧
      ∀ k, Has s.hashtable k ∨ k ∈ keys → Has t.hashtable k ∨ k ∈ new := by
  induction keys generalizing s with
  | nil => exact ⟨h, [], (List.append_nil _).symm, by simp⟩
  | cons key keys ih =>
    obtain ⟨hkey, hkeys⟩ := List.forall_mem_cons.mp hin
    obtain ⟨htables, new, hprinted, hrest⟩ := place_spec n hpos h hkey (by decide : 0 < ver)
    obtain ⟨htables', new', hprinted', hrest'⟩ := ih hkeys htables
    refine ⟨htables', new ++ new', ?_, fun k hk => ?_⟩
    · rw [List.foldl_cons, hprinted', hprinted, List.append_assoc]
    · have hk' : (Has s.hashtable k ∨ k = key) ∨ k ∈ keys := by
        rwa [List.mem_cons, ← or_assoc] at hk
      simp only [List.foldl_cons, List.mem_append]
      obtain hk | hk := hk'
      · obtain hk | hk := hrest k hk
        · obtain hk | hk := hrest' k (.inl hk)
          · exact .inl hk
          · exact .inr (.inr hk)
        · exact .inr (.inl hk)
      · obtain hk | hk := hrest' k (.inr hk)
        · exact .inl hk
        · exact .inr (.inr hk)

end Place

/-- `cuckoo` loses no key: what is in no cell has been printed. -/
theorem cuckoo_placement (keys : List Int) (hpos : ∀ k ∈ keys, 0 ≤ k) (s : State) :
    ∃ printed, (cuckoo keys s).printed = s.printed ++ printed ∧ Placement keys printed (cuckoo keys s) := by
  obtain ⟨htables, printed, hprinted, hkept⟩ :=
    places_spec hpos (fun _ hk => hk) (initTable_tables keys s) keys.length
  exact ⟨printed, hprinted, htables, fun key hk => hkept key (.inr hk)⟩

/-- The global variables of a program that starts. -/
def start : State := ⟨fun _ _ => 0, fun _ => 0, []⟩

/-- The keys of the second example of `main`, where the chain of evictions from key 6 does not end. -/
theorem cuckoo_placement_cycle :
    ∃ printed, (cuckoo [20, 50, 53, 75, 100, 67, 105, 3, 36, 39, 6] start).printed = [] ++ printed ∧
      Placement [20, 50, 53, 75, 100, 67, 105, 3, 36, 39, 6] printed
        (cuckoo [20, 50, 53, 75, 100, 67, 105, 3, 36, 39, 6] start) :=
  cuckoo_placement _ (by decide) start

end C11AndC.Cuckoo
