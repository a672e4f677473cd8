import C11AndC.Avl.Model
import Mathlib.Tactic.SplitIfs

namespace C11AndC.Avl

open C11AndC.Library

def trueHeight : Node → Int
  | .null => 0
  | .node _ l r _ => max (trueHeight l) (trueHeight r) + 1

/-- Every stored height is the true one and every node is balanced. -/
def Balanced : Node → Prop
  | .null => True
  | .node k l r h => Balanced l ∧ Balanced r ∧ h = trueHeight (.node k l r h) ∧
      trueHeight l - trueHeight r ≤ 1 ∧ trueHeight r - trueHeight l ≤ 1

/-- Whether a balanced tree becomes higher by an insertion: on the whole way down
to the new leaf both subtrees have to be of the same height. -/
def grows : Node → Int → Bool
  | .null, _ => true
  | .node k l r _, key =>
      (if key < k then grows l key else grows r key) && trueHeight l == trueHeight r

/-- The insertion tips no node over to the left, and over to the right only where
the right child has another key than the inserted one. -/
def Safe : Node → Int → Prop
  | .null, _ => True
  | .node k l r _, key =>
      if key < k then
        Safe l key ∧ ¬ (grows l key = true ∧ trueHeight r < trueHeight l)
      else
        Safe r key ∧ (grows r key = true → trueHeight l < trueHeight r → getKey r ≠ some key)

/-- Every insertion of a run is safe in the tree it meets. -/
def SafeRun : Node → List Int → Prop
  | _, [] => True
  | t, key :: keys => Safe t key ∧ ∀ t', t' ∈ insert t key → SafeRun t' keys

instance decidableBalanced : (t : Node) → Decidable (Balanced t)
  | .null => .isTrue trivial
  | .node k l r h =>
      have := decidableBalanced l
      have := decidableBalanced r
      inferInstanceAs (Decidable (Balanced l ∧ Balanced r ∧ h = trueHeight (.node k l r h) ∧
        trueHeight l - trueHeight r ≤ 1 ∧ trueHeight r - trueHeight l ≤ 1))

instance decidableSafe : (t : Node) → (key : Int) → Decidable (Safe t key)
  | .null, _ => .isTrue trivial
  | .node k l r _, key =>
      have := decidableSafe l key
      have := decidableSafe r key
      inferInstanceAs (Decidable (if key < k then
        Safe l key ∧ ¬ (grows l key = true ∧ trueHeight r < trueHeight l)
      else
        Safe r key ∧ (grows r key = true → trueHeight l < trueHeight r → getKey r ≠ some key)))

instance decidableSafeRun : (t : Node) → (keys : List Int) → Decidable (SafeRun t keys)
  | _, [] => .isTrue trivial
  | t, key :: keys =>
      have := fun t' => decidableSafeRun t' keys
      inferInstanceAs (Decidable (Safe t key ∧ ∀ t', t' ∈ insert t key → SafeRun t' keys))

theorem trueHeight_nonneg (t : Node) : 0 ≤ trueHeight t := by
  induction t with
  | null => exact Int.le_refl 0
  | node k l r h ihl ihr =>
    simp only [trueHeight]
    omega

theorem height_of_balanced {t : Node} (h : Balanced t) : height t = trueHeight t := by
  cases t with
  | null => rfl
  | node k l r h' => exact h.2.2.1

/-- A node with its height computed from the heights its children store. -/
def withHeight (k : Int) (l r : Node) : Node := .node k l r (max (height l) (height r) + 1)

theorem trueHeight_withHeight (k : Int) (l r : Node) :
    trueHeight (withHeight k l r) = max (trueHeight l) (trueHeight r) + 1 := rfl

theorem balanced_withHeight {k : Int} {l r : Node} (hl : Balanced l) (hr : Balanced r)
    (h₁ : trueHeight l - trueHeight r ≤ 1) (h₂ : trueHeight r - trueHeight l ≤ 1) :
    Balanced (withHeight k l r) := by
  refine ⟨hl, hr, ?_, h₁, h₂⟩
  rw [height_of_balanced hl, height_of_balanced hr]
  rfl

theorem balanced_newNode (key : Int) : Balanced (newNode key) :=
  ⟨trivial, trivial, rfl, Int.le_of_lt Int.zero_lt_one, Int.le_of_lt Int.zero_lt_one⟩

/-- No case applies where the subtrees are close enough. -/
theorem rebalance_close {key k : Int} {l r : Node} (hl : Balanced l) (hr : Balanced r)
    (h₁ : trueHeight l - trueHeight r ≤ 1) (h₂ : trueHeight r - trueHeight l ≤ 1) :
    rebalance key k l r = some (withHeight k l r) := by
  have hnl : ¬ height l - height r > 1 := by
    rw [height_of_balanced hl, height_of_balanced hr]
    omega
  have hnr : ¬ height l - height r < -1 := by
    rw [height_of_balanced hl, height_of_balanced hr]
    omega
  simp only [rebalance, getBalance_node, hnl, hnr, ↓reduceIte]
  rfl

/-- Right right: one rotation to the left restores the heights. -/
theorem rebalance_rightRight {key k rk rh : Int} {l rl rr : Node} (h : height l - rh < -1)
    (hk : key > rk) :
    rebalance key k l (.node rk rl rr rh) = some (withHeight rk (withHeight k l rl) rr) := by
  have hn : ¬ height l - rh > 1 := by omega
  simp only [rebalance, getBalance_node, height_node, getKey_node, hn, h, hk, ↓reduceIte,
    Option.bind_eq_bind, Option.bind_some]
  rfl

/-- Right left: the height that the rotation to the right leaves wrong is put right
by the rotation to the left that follows. -/
theorem rebalance_rightLeft {key k rk rh xk xh : Int} {l xl xr rr : Node}
    (h : height l - rh < -1) (hk : key < rk) :
    rebalance key k l (.node rk (.node xk xl xr xh) rr rh) =
      some (withHeight xk (withHeight k l xl) (withHeight rk xr rr)) := by
  have hn : ¬ height l - rh > 1 := by omega
  have hng : ¬ key > rk := by omega
  simp only [rebalance, getBalance_node, height_node, getKey_node, hn, h, hk, hng, ↓reduceIte,
    Option.bind_eq_bind, Option.bind_some, rightRotate]
  rfl

/-- A subtree that grows does so without a rotation, below its old root. -/
theorem insert_grows {key k h : Int} {l r : Node} (hb : Balanced (.node k l r h))
    (hg : grows (.node k l r h) key = true)
    (ih : ∀ c, c = l ∨ c = r → grows c key = true → ∃ c', insert c key = some c' ∧ Balanced c' ∧
      trueHeight c' = trueHeight c + 1) :
    (key < k ∧ ∃ l', insert (.node k l r h) key = some (withHeight k l' r) ∧ Balanced l' ∧
      trueHeight l' = trueHeight r + 1) ∨
    (k ≤ key ∧ ∃ r', insert (.node k l r h) key = some (withHeight k l r') ∧ Balanced r' ∧
      trueHeight r' = trueHeight l + 1) := by
  obtain ⟨hl, hr, -, -, -⟩ := hb
  simp only [grows, Bool.and_eq_true, beq_iff_eq] at hg
  obtain ⟨hg, heq⟩ := hg
  by_cases hk : key < k
  · rw [if_pos hk] at hg
    obtain ⟨l', hi, hl', hh⟩ := ih l (.inl rfl) hg
    refine .inl ⟨hk, l', ?_, hl', by omega⟩
    rw [insert, if_pos hk, hi, Option.bind_some]
    exact rebalance_close hl' hr (by omega) (by omega)
  · rw [if_neg hk] at hg
    obtain ⟨r', hi, hr', hh⟩ := ih r (.inr rfl) hg
    refine .inr ⟨by omega, r', ?_, hr', by omega⟩
    rw [insert, if_neg hk, hi, Option.bind_some]
    exact rebalance_close hl hr' (by omega) (by omega)

theorem insert_of_grows {key : Int} {t : Node} (hb : Balanced t) (hg : grows t key = true) :
    ∃ t', insert t key = some t' ∧ Balanced t' ∧ trueHeight t' = trueHeight t + 1 := by
  induction t with
  | null => exact ⟨newNode key, rfl, balanced_newNode key, rfl⟩
  | node k l r h ihl ihr =>
    have heq : trueHeight l = trueHeight r := by simp_all [grows]
    have ih : ∀ c, c = l ∨ c = r → grows c key = true → ∃ c', insert c key = some c' ∧
        Balanced c' ∧ trueHeight c' = trueHeight c + 1 := by
      intro c hc
      rcases hc with rfl | rfl
      · exact ihl hb.1
      · exact ihr hb.2.1
    rcases insert_grows hb hg ih with ⟨-, l', hi, hl', hh⟩ | ⟨-, r', hi, hr', hh⟩
    · refine ⟨_, hi, balanced_withHeight hl' hb.2.1 (by omega) (by omega), ?_⟩
      simp only [trueHeight_withHeight, trueHeight]
      omega
    · refine ⟨_, hi, balanced_withHeight hb.1 hr' (by omega) (by omega), ?_⟩
      simp only [trueHeight_withHeight, trueHeight]
      omega

/-- A node tips over to the right and is put upright again by one of the two
cases that end in a rotation to the left. -/
theorem insert_tips {key k h : Int} {l r : Node} (hb : Balanced (.node k l r h)) (hk : k ≤ key)
    (hg : grows r key = true) (hlt : trueHeight l < trueHeight r) (hne : getKey r ≠ some key) :
    ∃ t, insert (.node k l r h) key = some t ∧ Balanced t ∧ trueHeight t = trueHeight r + 1 := by
  obtain ⟨hl, hr, -, -, hd⟩ := hb
  have hpos := trueHeight_nonneg l
  cases r with
  | null =>
    simp only [trueHeight] at hlt
    omega
  | node rk rl rr rh =>
    have heq : trueHeight rl = trueHeight rr := by simp_all [grows]
    have hrh : trueHeight (.node rk rl rr rh) = trueHeight rr + 1 := by
      simp only [trueHeight]
      omega
    have hch : ∀ c, c = rl ∨ c = rr → grows c key = true → ∃ c', insert c key = some c' ∧
        Balanced c' ∧ trueHeight c' = trueHeight c + 1 := by
      intro c hc
      rcases hc with rfl | rfl
      · exact insert_of_grows hr.1
      · exact insert_of_grows hr.2.1
    rw [insert, if_neg (Int.not_lt.mpr hk)]
    rcases insert_grows hr hg hch with ⟨hlt', x, hi, hx, hh⟩ | ⟨hle, rr', hi, hrr', hh⟩
    · cases x with
      | null =>
        have := trueHeight_nonneg rr
        simp only [trueHeight] at hh
        omega
      | node xk xl xr xh =>
        obtain ⟨hxl, hxr, hxh, hx₁, hx₂⟩ := hx
        simp only [trueHeight] at hh hxh
        have hbal : height l - (max xh (height rr) + 1) < -1 := by
          rw [height_of_balanced hl, height_of_balanced hr.2.1]
          omega
        rw [hi, Option.bind_some]
        refine ⟨_, rebalance_rightLeft hbal hlt', ?_, ?_⟩
        · apply balanced_withHeight
          · exact balanced_withHeight hl hxl (by omega) (by omega)
          · exact balanced_withHeight hxr hr.2.1 (by omega) (by omega)
          · simp only [trueHeight_withHeight]
            omega
          · simp only [trueHeight_withHeight]
            omega
        · simp only [trueHeight_withHeight]
          omega
    · have hgt : key > rk := by
        have : rk ≠ key := fun he => hne (by rw [getKey_node, he])
        omega
      have hbal : height l - (max (height rl) (height rr') + 1) < -1 := by
        rw [height_of_balanced hl, height_of_balanced hr.1, height_of_balanced hrr']
        omega
      rw [hi, Option.bind_some]
      refine ⟨_, rebalance_rightRight hbal hgt, ?_, ?_⟩
      · apply balanced_withHeight _ hrr'
        · simp only [trueHeight_withHeight]
          omega
        · simp only [trueHeight_withHeight]
          omega
        · exact balanced_withHeight hl hr.1 (by omega) (by omega)
      · simp only [trueHeight_withHeight]
        omega

/-- A node that does not tip over keeps its place above the subtree that changed. -/
theorem balanced_above {k : Int} {l r l' r' : Node} {g : Bool} (hl : Balanced l') (hr : Balanced r')
    (h₁ : trueHeight l - trueHeight r ≤ 1) (h₂ : trueHeight r - trueHeight l ≤ 1)
    (hh : (trueHeight l' = trueHeight l + (if g then 1 else 0) ∧ trueHeight r' = trueHeight r ∧
        ¬ (g = true ∧ trueHeight r < trueHeight l)) ∨
      (trueHeight r' = trueHeight r + (if g then 1 else 0) ∧ trueHeight l' = trueHeight l ∧
        ¬ (g = true ∧ trueHeight l < trueHeight r))) (key : Int) :
    rebalance key k l' r' = some (withHeight k l' r') ∧ Balanced (withHeight k l' r') ∧
      trueHeight (withHeight k l' r') = max (trueHeight l) (trueHeight r) + 1 +
        (if (g && trueHeight l == trueHeight r) = true then 1 else 0) := by
  have hc : trueHeight l' - trueHeight r' ≤ 1 ∧ trueHeight r' - trueHeight l' ≤ 1 := by
    cases g <;> simp at hh <;> omega
  refine ⟨rebalance_close hl hr hc.1 hc.2, balanced_withHeight hl hr hc.1 hc.2, ?_⟩
  rw [trueHeight_withHeight]
  by_cases he : trueHeight l = trueHeight r
  · cases g <;> simp [he] at hh ⊢ <;> omega
  · cases g <;> simp [he] at hh ⊢ <;> omega

/-- One insertion that meets the condition keeps heights and balance right. -/
theorem insert_balanced {t : Node} {key : Int} (hb : Balanced t) (hs : Safe t key) :
    ∃ t', insert t key = some t' ∧ Balanced t' ∧
      trueHeight t' = trueHeight t + (if grows t key then 1 else 0) := by
  induction t with
  | null => exact ⟨newNode key, rfl, balanced_newNode key, rfl⟩
  | node k l r h ihl ihr =>
    obtain ⟨hl, hr, hh, h₁, h₂⟩ := hb
    by_cases hk : key < k
    · simp only [Safe, if_pos hk] at hs
      obtain ⟨l', hi, hl', hht⟩ := ihl hl hs.1
      obtain ⟨he, hb, ht⟩ := balanced_above hl' hr h₁ h₂ (.inl ⟨hht, rfl, hs.2⟩) key
      refine ⟨_, ?_, hb, ?_⟩
      · rw [insert, if_pos hk, hi, Option.bind_some, he]
      · rw [ht, trueHeight, grows, if_pos hk]
    · simp only [Safe, if_neg hk] at hs
      by_cases ht : grows r key = true ∧ trueHeight l < trueHeight r
      · obtain ⟨t, hi, hbt, hht⟩ := insert_tips ⟨hl, hr, hh, h₁, h₂⟩ (Int.not_lt.mp hk) ht.1 ht.2
          (hs.2 ht.1 ht.2)
        have hne : trueHeight l ≠ trueHeight r := Int.ne_of_lt ht.2
        refine ⟨t, hi, hbt, ?_⟩
        simp only [hht, trueHeight, grows, if_neg hk, hne, beq_iff_eq, Bool.and_eq_true, and_false,
          ↓reduceIte]
        omega
      · obtain ⟨r', hi, hr', hht⟩ := ihr hr hs.1
        obtain ⟨he, hb, ht'⟩ := balanced_above hl hr' h₁ h₂ (.inr ⟨hht, rfl, ht⟩) key
        refine ⟨_, ?_, hb, ?_⟩
        · rw [insert, if_neg hk, hi, Option.bind_some, he]
        · rw [ht', trueHeight, grows, if_neg hk]

theorem run_balanced {t : Node} {keys : List Int} (hb : Balanced t) (hs : SafeRun t keys) :
    (run insert t keys).isSome ∧ Always insert Balanced t keys := by
  induction keys generalizing t with
  | nil => exact ⟨rfl, hb⟩
  | cons key keys ih =>
    obtain ⟨t', hi, hb', -⟩ := insert_balanced hb hs.1
    obtain ⟨hr, ha⟩ := ih hb' (hs.2 t' hi)
    refine ⟨?_, hb, ?_⟩
    · rw [run, hi, Option.bind_some]
      exact hr
    · intro u hu
      rw [hi] at hu
      cases hu
      exact ha

/-- In a run of safe insertions no null pointer is followed, and every tree on the
way is balanced with the right heights in its nodes. -/
theorem insert_run_balanced (keys : List Int) (hs : SafeRun .null keys) :
    (run insert .null keys).isSome ∧ Always insert Balanced .null keys :=
  run_balanced trivial hs

theorem insert_run_balanced_bothCases :
    (run insert .null [10, 30, 20, 40, 50]).isSome ∧
      Always insert Balanced .null [10, 30, 20, 40, 50] :=
  insert_run_balanced _ (by decide)

/-- The root of the tree after `3, 2, 1` stores the height `4`, and after three
times the same key nothing has been rotated. -/
theorem insert_run_unbalanced :
    (∃ t, run insert .null [3, 2, 1] = some t ∧ height t = 4 ∧ trueHeight t = 2) ∧
      (∃ t, run insert .null [1, 1, 1] = some t ∧ getBalance t = -2) ∧
      ¬ (∀ keys t, run insert .null keys = some t → Balanced t) := by
  refine ⟨⟨_, rfl, by decide, by decide⟩, ⟨_, rfl, by decide⟩, fun h => ?_⟩
  exact absurd (h [3, 2, 1] _ rfl) (by decide)

end C11AndC.Avl
