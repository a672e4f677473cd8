import C11AndC.Coins.Game
import C11AndC.Library.Grid
import C11AndC.Library.Wrap
import Mathlib.Data.List.Sublists

namespace C11AndC.Coins

open C11AndC.Library

def max (a b : Int) : Int := if a > b then a else b

def min (a b : Int) : Int := if a < b then a else b

/-- An entry that is not written yet is `none`. -/
abbrev Table := Grid (Option Int)

/-- An entry, which must be there and be written. -/
def readEntry (table : Table) (i j : Nat) : Option Int := do
  let entry ← getAt table i j
  entry

/-- `c ? table[i][j] : 0` -/
def entryIf (c : Prop) [Decidable c] (table : Table) (i j : Nat) : Option Int :=
  if c then readEntry table i j else some 0

/-- The body of the inner loop. -/
def fillEntry (arr : List Int) (i j : Nat) (table : Table) : Option Table := do
  let x ← entryIf ((i : Int) + 2 ≤ j) table (i + 2) j
  let y ← entryIf ((i : Int) + 1 ≤ j - 1) table (i + 1) (j - 1)
  let z ← entryIf ((i : Int) ≤ j - 2) table i (j - 2)
  let a ← arr[i]?
  let b ← arr[j]?
  putAt table i j (some (max (wrap (a + min x y)) (wrap (b + min y z))))

/-- The inner loop, with `j = i + gap`. -/
def fillDiagonal (arr : List Int) (n gap : Nat) (table : Table) : Option Table :=
  (List.range (n - gap)).foldlM (fun table i => fillEntry arr i (i + gap) table) table

/-- With a table of the given dimension, which is not initialised. -/
def optimalStrategyOfGame (dim : Nat) (arr : List Int) (n : Nat) : Option Int := do
  let table ← (List.range n).foldlM (fun table gap => fillDiagonal arr n gap table) (uniform dim none)
  readEntry table 0 (n - 1)

section Rows

variable {arr coins : List Int} {i gap : Nat} {x y : Int}

theorem max_eq (a b : Int) : max a b = Max.max a b := by
  rw [max]
  split_ifs <;> omega

theorem min_eq (a b : Int) : min a b = Min.min a b := by
  rw [min]
  split_ifs <;> omega

/-- `k` coins from the `i`-th one on. -/
def row (arr : List Int) (i k : Nat) : List Int := (arr.drop i).take k

theorem row_sublist (arr : List Int) (i k : Nat) : (row arr i k).Sublist arr :=
  (List.take_sublist ..).trans (List.drop_sublist ..)

theorem length_row (h : i + gap < arr.length) : (row arr i (gap + 1)).length = gap + 1 := by
  rw [row, List.length_take, List.length_drop]
  omega

theorem rest_first (h : i + gap < arr.length) : rest .first (row arr i (gap + 1)) = row arr (i + 1) gap := by
  rw [rest, row, row, List.drop_eq_getElem_cons (by omega), List.take_succ_cons, List.tail_cons]

theorem rest_last (h : i + gap < arr.length) : rest .last (row arr i (gap + 1)) = row arr i gap := by
  rw [rest, List.dropLast_eq_take, length_row h, row, List.take_take, row]
  congr 1
  omega

theorem coin_first (h : i + gap < arr.length) : coin .first (row arr i (gap + 1)) = arr[i] := by
  rw [coin, row, List.drop_eq_getElem_cons (by omega), List.take_succ_cons, List.headD_cons]

theorem coin_last (h : i + gap < arr.length) : coin .last (row arr i (gap + 1)) = arr[i + gap] := by
  have hget : (row arr i (gap + 1))[gap]? = some arr[i + gap] := by
    rw [row, List.getElem?_take_of_lt (Nat.lt_succ_self gap), List.getElem?_drop, List.getElem?_eq_getElem h]
  rw [coin, List.getLastD_eq_getLast?, List.getLast?_eq_getElem?, length_row h, Nat.add_sub_cancel, hget]
  rfl

theorem reply_row (h : i + gap ≤ arr.length) : (row arr i gap).sum - best (row arr i gap) =
    Min.min (best (row arr (i + 1) (gap - 1))) (best (row arr i (gap - 1))) := by
  cases gap with
  | zero => simp [row, best_nil]
  | succ gap => rw [reply_eq, rest_first h, rest_last h, Nat.add_sub_cancel]

theorem gain_first (h : i + gap < arr.length) : gain (row arr i (gap + 1)) .first =
    arr[i] + Min.min (best (row arr (i + 2) (gap - 1))) (best (row arr (i + 1) (gap - 1))) := by
  rw [gain, coin_first h, rest_first h, reply_row (by omega)]

theorem gain_last (h : i + gap < arr.length) : gain (row arr i (gap + 1)) .last =
    arr[i + gap] + Min.min (best (row arr (i + 1) (gap - 1))) (best (row arr i (gap - 1))) := by
  rw [gain, coin_last h, rest_last h, reply_row (by omega)]

theorem row_ne_nil (h : i + gap < arr.length) : row arr i (gap + 1) ≠ [] := by
  intro hnil
  have hlen := length_row h
  rw [hnil] at hlen
  simp at hlen

/-- The sum of some of the coins. -/
def Selected (coins : List Int) (x : Int) : Prop := ∃ s : List Int, s.Sublist coins ∧ s.sum = x

theorem selected_coin (hne : coins ≠ []) (e : End) (h : Selected (rest e coins) x) :
    Selected coins (coin e coins + x) := by
  obtain ⟨s, hs, rfl⟩ := h
  cases e with
  | first =>
    obtain ⟨c, cs, rfl⟩ := List.exists_cons_of_ne_nil hne
    exact ⟨c :: s, hs.cons_cons c, rfl⟩
  | last =>
    obtain ⟨cs, c, rfl⟩ := (List.eq_nil_or_concat coins).resolve_left hne
    refine ⟨s ++ [c], ?_, by simp [coin, Int.add_comm]⟩
    simp only [rest, List.concat_eq_append, List.dropLast_concat] at hs ⊢
    exact hs.append_right [c]

theorem selected_rest (e : End) (h : Selected (rest e coins) x) : Selected coins x := by
  obtain ⟨s, hs, hx⟩ := h
  refine ⟨s, hs.trans ?_, hx⟩
  cases e with
  | first => exact List.tail_sublist coins
  | last => exact List.dropLast_sublist coins

/-- Both players collect some of the coins. -/
theorem best_selected (coins : List Int) :
    Selected coins (best coins) ∧ Selected coins (coins.sum - best coins) := by
  induction coins using coins_induction with
  | nil => exact ⟨⟨[], List.Sublist.slnil, by rw [best_nil]; rfl⟩, ⟨[], List.Sublist.slnil, by simp [best_nil]⟩⟩
  | step coins hne ih =>
    obtain ⟨e, he⟩ : ∃ e, gain coins e = best coins := ⟨_, gain_wise hne []⟩
    have hsum := sum_rest hne e
    constructor
    · rw [← he, gain]
      exact selected_coin hne e (ih e).2
    · have hbest : coins.sum - best coins = best (rest e coins) := by
        rw [← he, gain]
        omega
      rw [hbest]
      exact selected_rest e (ih e).1

theorem gain_selected (hne : coins ≠ []) (e : End) : Selected coins (gain coins e) :=
  selected_coin hne e (best_selected _).2

end Rows

section Filling

variable {arr : List Int} {table : Table} {dim gap bound i j : Nat} {c : Prop} [Decidable c]

/-- The diagonals before `gap`, and the first `bound` entries of the next one. -/
structure Filled (arr : List Int) (dim gap bound : Nat) (table : Table) : Prop where
  square : Square dim table
  entry : ∀ i k, i + k < arr.length → k < gap ∨ k = gap ∧ i < bound →
    readEntry table i (i + k) = some (best (row arr i (k + 1)))

theorem entryIf_eq (h : Filled arr dim gap bound table) (hc : c ↔ 2 ≤ gap)
    (hj : 2 ≤ gap → j = i + (gap - 2) ∧ j < arr.length) :
    entryIf c table i j = some (best (row arr i (gap - 1))) := by
  by_cases hgap : 2 ≤ gap
  · obtain ⟨rfl, hlt⟩ := hj hgap
    have hk : gap - 2 + 1 = gap - 1 := by omega
    rw [entryIf, if_pos (hc.mpr hgap), h.entry i (gap - 2) hlt (.inl (by omega)), hk]
  · have hk : gap - 1 = 0 := by omega
    rw [entryIf, if_neg fun h => hgap (hc.mp h), hk, row, List.take_zero, best_nil]

theorem readEntry_eq {x : Int} (h : getAt table i j = some (some x)) : readEntry table i j = some x := by
  simp only [readEntry, h, Option.bind_eq_bind, Option.bind_some]

theorem fillEntry_spec (hint : ∀ s : List Int, s.Sublist arr → IsInt s.sum) (hdim : arr.length ≤ dim)
    (h : Filled arr dim gap bound table) (hlt : bound + gap < arr.length) :
    ∃ table', fillEntry arr bound (bound + gap) table = some table' ∧
      Filled arr dim gap (bound + 1) table' := by
  have hwrap : ∀ e, wrap (gain (row arr bound (gap + 1)) e) = gain (row arr bound (gap + 1)) e := by
    intro e
    obtain ⟨s, hs, hsum⟩ := gain_selected (row_ne_nil hlt) e
    rw [← hsum]
    exact wrap_eq (hint s (hs.trans (row_sublist arr _ _)))
  have hfirst := hwrap .first
  have hlast := hwrap .last
  rw [gain_first hlt] at hfirst
  rw [gain_last hlt] at hlast
  obtain ⟨table', hput, hsquare, hself, hother⟩ := putAt_spec h.square (i := bound) (j := bound + gap) (by omega)
    (by omega) (some (best (row arr bound (gap + 1))))
  refine ⟨table', ?_, hsquare, fun i k hik hk => ?_⟩
  · have hx := entryIf_eq (c := (bound : Int) + 2 ≤ (bound + gap : Nat)) (i := bound + 2) (j := bound + gap) h
      (by omega) (by omega)
    have hy := entryIf_eq (c := (bound : Int) + 1 ≤ (bound + gap : Nat) - 1) (i := bound + 1)
      (j := bound + gap - 1) h (by omega) (by omega)
    have hz := entryIf_eq (c := (bound : Int) ≤ (bound + gap : Nat) - 2) (i := bound) (j := bound + gap - 2) h
      (by omega) (by omega)
    have hbest := best_eq (row_ne_nil hlt)
    rw [gain_first hlt, gain_last hlt] at hbest
    rw [← hput, hbest]
    simp only [fillEntry, hx, hy, hz, List.getElem?_eq_getElem hlt,
      List.getElem?_eq_getElem (show bound < arr.length by omega), Option.bind_eq_bind, Option.bind_some,
      max_eq, min_eq, hfirst, hlast]
  · by_cases he : i = bound ∧ i + k = bound + gap
    · obtain ⟨rfl, hk'⟩ := he
      obtain rfl : k = gap := by omega
      exact readEntry_eq hself
    · have hold := h.entry i k hik (by omega)
      rwa [readEntry, ← hother i (i + k) he] at hold

theorem fillDiagonal_spec (hint : ∀ s : List Int, s.Sublist arr → IsInt s.sum) (hdim : arr.length ≤ dim)
    (h : Filled arr dim gap 0 table) (hgap : gap < arr.length) :
    ∃ table', fillDiagonal arr arr.length gap table = some table' ∧ Filled arr dim (gap + 1) 0 table' := by
  obtain ⟨table', htable, hfilled⟩ := foldlM_range_some (n := arr.length - gap)
    (fun k hk t ht => fillEntry_spec hint hdim ht (by omega)) h
  exact ⟨table', htable, hfilled.square, fun i k hik hk => hfilled.entry i k hik (by omega)⟩

theorem optimalStrategyOfGame_eq (hint : ∀ s : List Int, s.Sublist arr → IsInt s.sum)
    (hdim : arr.length ≤ dim) (hne : arr ≠ []) :
    optimalStrategyOfGame dim arr arr.length = some (best arr) := by
  have hpos := List.length_pos_iff.mpr hne
  have hempty : Filled arr dim 0 0 (uniform dim none) :=
    ⟨square_uniform dim none, fun i k _ hk => absurd hk (by omega)⟩
  obtain ⟨table, htable, hfilled⟩ : ∃ table, (List.range arr.length).foldlM
      (fun table gap => fillDiagonal arr arr.length gap table) (uniform dim none) = some table ∧
      Filled arr dim arr.length 0 table :=
    foldlM_range_some (I := fun gap table => Filled arr dim gap 0 table)
      (fun k hk t ht => fillDiagonal_spec hint hdim ht hk) hempty
  have hresult := hfilled.entry 0 (arr.length - 1) (by omega) (.inl (by omega))
  have hrow : row arr 0 (arr.length - 1 + 1) = arr := by
    rw [row, List.drop_zero, Nat.sub_add_cancel hpos, List.take_length]
  rw [Nat.zero_add, hrow] at hresult
  rw [optimalStrategyOfGame, htable]
  exact hresult

/-- The answer is what the first player collects under optimal play by both, in any dimension that is
large enough; no entry is read before it is written. -/
theorem optimalStrategyOfGame_value (arr : List Int) (dim : Nat) (hne : arr ≠ []) (hdim : arr.length ≤ dim)
    (hint : ∀ s : List Int, s.Sublist arr → IsInt s.sum) :
    ∃ v, optimalStrategyOfGame dim arr arr.length = some v ∧
      (∃ σ τ, Optimal (first arr) (second arr) σ τ) ∧
      ∀ σ τ, Optimal (first arr) (second arr) σ τ → first arr σ τ = v := by
  have hsum : ∀ σ τ, first arr σ τ + second arr σ τ = arr.sum := fun σ τ => play_sum σ τ [] arr
  have hmax : ∀ τ, best arr ≤ first arr wise τ := fun τ => (play_wise arr τ []).1
  have hmin : ∀ σ, first arr σ wise ≤ best arr := fun σ => (play_wise arr σ []).2
  exact ⟨best arr, optimalStrategyOfGame_eq hint hdim hne, ⟨wise, wise, optimal_of_secure hsum hmax hmin⟩,
    fun σ τ h => eq_of_optimal hsum hmax hmin h⟩

/-- The coins of the driver, in the table that is declared. -/
theorem optimalStrategyOfGame_driver :
    ∃ v, optimalStrategyOfGame 4 [8, 15, 3, 7] 4 = some v ∧
      (∃ σ τ, Optimal (first [8, 15, 3, 7]) (second [8, 15, 3, 7]) σ τ) ∧
      ∀ σ τ, Optimal (first [8, 15, 3, 7]) (second [8, 15, 3, 7]) σ τ → first [8, 15, 3, 7] σ τ = v := by
  refine optimalStrategyOfGame_value [8, 15, 3, 7] 4 (by decide) (by decide) fun s hs => ?_
  have hall : ∀ s ∈ [8, 15, 3, 7].sublists', IsInt s.sum := by decide
  exact hall s (List.mem_sublists'.mpr hs)

example : optimalStrategyOfGame 4 [8, 15, 3, 7] 4 = some 22 := by decide

end Filling

end C11AndC.Coins
