import C11AndC.Library.Equilibrium
import Mathlib.Algebra.BigOperators.Group.List.Basic
import Mathlib.Algebra.Order.Ring.Int

namespace C11AndC.Coins

open C11AndC.Library

/-- The end of the row from which a coin is taken. -/
inductive End where
  | first
  | last
  deriving DecidableEq, Repr

def coin : End → List Int → Int
  | .first, coins => coins.headD 0
  | .last, coins => coins.getLastD 0

def rest : End → List Int → List Int
  | .first, coins => coins.tail
  | .last, coins => coins.dropLast

/-- A player sees all that has been taken so far and the coins that are left. -/
abbrev Strategy := List End → List Int → End

theorem length_rest {coins : List Int} (h : coins ≠ []) (e : End) : (rest e coins).length + 1 = coins.length := by
  have hpos := List.length_pos_iff.mpr h
  cases e with
  | first => rw [rest, List.length_tail]; omega
  | last => rw [rest, List.length_dropLast]; omega

/-- What the player to move collects in the end, and what the other one does. -/
def play (mover other : Strategy) (moves : List End) : List Int → Int × Int
  | [] => (0, 0)
  | c :: cs =>
    let e := mover moves (c :: cs)
    let (others, own) := play other mover (moves ++ [e]) (rest e (c :: cs))
    (coin e (c :: cs) + own, others)
  termination_by coins => coins.length
  decreasing_by exact Nat.lt_of_succ_le (Nat.le_of_eq (length_rest (List.cons_ne_nil c cs) _))

/-- What the first player collects, and what the second one does. -/
def first (coins : List Int) (σ τ : Strategy) : Int := (play σ τ [] coins).1

def second (coins : List Int) (σ τ : Strategy) : Int := (play σ τ [] coins).2

/-- What the player to move can be sure of: the other one is left with the best of the rest. -/
def best : List Int → Int
  | [] => 0
  | c :: cs =>
    max (coin .first (c :: cs) + ((rest .first (c :: cs)).sum - best (rest .first (c :: cs))))
      (coin .last (c :: cs) + ((rest .last (c :: cs)).sum - best (rest .last (c :: cs))))
  termination_by coins => coins.length
  decreasing_by
    · exact Nat.lt_of_succ_le (Nat.le_of_eq (length_rest (List.cons_ne_nil c cs) _))
    · exact Nat.lt_of_succ_le (Nat.le_of_eq (length_rest (List.cons_ne_nil c cs) _))

/-- What is sure with a coin from one end. -/
def gain (coins : List Int) (e : End) : Int := coin e coins + ((rest e coins).sum - best (rest e coins))

/-- Take the coin with which more is sure. -/
def wise : Strategy := fun _ coins => if gain coins .last ≤ gain coins .first then .first else .last

section Play

variable {coins : List Int} {σ τ : Strategy} {moves : List End}

theorem play_nil : play σ τ moves [] = (0, 0) := by
  rw [play]

theorem play_cons (h : coins ≠ []) : play σ τ moves coins =
    (coin (σ moves coins) coins + (play τ σ (moves ++ [σ moves coins]) (rest (σ moves coins) coins)).2,
      (play τ σ (moves ++ [σ moves coins]) (rest (σ moves coins) coins)).1) := by
  obtain ⟨c, cs, rfl⟩ := List.exists_cons_of_ne_nil h
  rw [play]

theorem best_nil : best [] = 0 := by
  rw [best]

theorem best_eq (h : coins ≠ []) : best coins = max (gain coins .first) (gain coins .last) := by
  obtain ⟨c, cs, rfl⟩ := List.exists_cons_of_ne_nil h
  rw [best, gain, gain]

theorem sum_rest (h : coins ≠ []) (e : End) : coin e coins + (rest e coins).sum = coins.sum := by
  cases e with
  | first =>
    obtain ⟨c, cs, rfl⟩ := List.exists_cons_of_ne_nil h
    rfl
  | last =>
    obtain ⟨cs, c, rfl⟩ := (List.eq_nil_or_concat coins).resolve_left h
    simp [coin, rest, Int.add_comm]

theorem coins_induction {P : List Int → Prop} (nil : P [])
    (step : ∀ coins, coins ≠ [] → (∀ e, P (rest e coins)) → P coins) (coins : List Int) : P coins := by
  induction hn : coins.length generalizing coins with
  | zero =>
    obtain rfl := List.length_eq_zero_iff.mp hn
    exact nil
  | succ n ih =>
    have hne : coins ≠ [] := by
      rintro rfl
      simp at hn
    refine step coins hne fun e => ih _ ?_
    have hlen := length_rest hne e
    omega

theorem play_sum (σ τ : Strategy) (moves : List End) (coins : List Int) :
    (play σ τ moves coins).1 + (play σ τ moves coins).2 = coins.sum := by
  induction coins using coins_induction generalizing σ τ moves with
  | nil => simp [play_nil]
  | step coins hne ih =>
    have hrest := ih (σ moves coins) τ σ (moves ++ [σ moves coins])
    have hsum := sum_rest hne (σ moves coins)
    rw [play_cons hne]
    omega

theorem gain_le (h : coins ≠ []) (e : End) : gain coins e ≤ best coins := by
  rw [best_eq h]
  cases e with
  | first => exact Int.le_max_left ..
  | last => exact Int.le_max_right ..

theorem gain_wise (h : coins ≠ []) (moves : List End) : gain coins (wise moves coins) = best coins := by
  rw [best_eq h, wise]
  split_ifs with hle
  · exact (Int.max_eq_left hle).symm
  · exact (Int.max_eq_right (Int.le_of_lt (Int.not_le.mp hle))).symm

/-- Playing wisely secures `best` to the player to move, and does not leave him more. -/
theorem play_wise (coins : List Int) : ∀ (τ : Strategy) (moves : List End),
    best coins ≤ (play wise τ moves coins).1 ∧ (play τ wise moves coins).1 ≤ best coins := by
  induction coins using coins_induction with
  | nil => simp [play_nil, best_nil]
  | step coins hne ih =>
    intro τ moves
    constructor
    · have hw := gain_wise hne moves
      have hsum := play_sum τ wise (moves ++ [wise moves coins]) (rest (wise moves coins) coins)
      have hle := (ih (wise moves coins) τ (moves ++ [wise moves coins])).2
      rw [play_cons hne]
      rw [gain] at hw
      omega
    · have hg := gain_le hne (τ moves coins)
      have hsum := play_sum wise τ (moves ++ [τ moves coins]) (rest (τ moves coins) coins)
      have hle := (ih (τ moves coins) τ (moves ++ [τ moves coins])).1
      rw [play_cons hne]
      rw [gain] at hg
      omega

/-- What is left to the other player is the lesser of two smaller rows. -/
theorem reply_eq (coins : List Int) :
    coins.sum - best coins = min (best (rest .first coins)) (best (rest .last coins)) := by
  by_cases h : coins = []
  · subst h
    simp [rest, best_nil]
  · have hf := sum_rest h .first
    have hl := sum_rest h .last
    rw [best_eq h, gain, gain]
    omega

end Play

end C11AndC.Coins
