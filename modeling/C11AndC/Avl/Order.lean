import C11AndC.Avl.Balance
import Mathlib.Data.List.Sort
import Mathlib.Algebra.Ring.Nat
import Mathlib.Tactic.SplitIfs

namespace C11AndC.Avl

open C11AndC.Library

def inorder : Node → List Int
  | .null => []
  | .node k l r _ => inorder l ++ k :: inorder r

/-- Every node stores a greater height than its children do. The heights need not be the true ones. -/
def Rising : Node → Prop
  | .null => True
  | .node _ l r h => Rising l ∧ Rising r ∧ height l < h ∧ height r < h

def getLeft : Node → Node
  | .null => .null
  | .node _ l _ _ => l

def getRight : Node → Node
  | .null => .null
  | .node _ _ r _ => r

/-- The heights in the children call for a rotation on the side the key did not go to,
and there the inner grandchild that is to come up is missing. -/
def Astray (key k : Int) (l r : Node) : Prop :=
  (key < k ∧ height l - height r < -1 ∧ getLeft r = .null) ∨
    (k ≤ key ∧ height l - height r > 1 ∧ getKey l ≠ some key ∧ getRight l = .null)

/-- No node that the insertion comes back to on its way up is astray. -/
def Tame : Node → Int → Prop
  | .null, _ => True
  | .node k l r _, key =>
      if key < k then
        Tame l key ∧ ∀ l', l' ∈ insert l key → ¬ Astray key k l' r
      else
        Tame r key ∧ ∀ r', r' ∈ insert r key → ¬ Astray key k l r'

/-- Whether the second subtree, once a key has been added to it, can be lower by two than the first one:
a tree of the height `h` has less than `2 ^ h` nodes. -/
def Towers (t t' : Node) : Prop := (inorder t').length + 1 < 2 ^ (height t - 2).toNat

instance (t t' : Node) : Decidable (Towers t t') :=
  inferInstanceAs (Decidable ((inorder t').length + 1 < 2 ^ (height t - 2).toNat))

/-- On the way down no node is passed whose other child towers above the subtree that is entered, but has no
inner child that could come up in its place. A left child with the inserted key is never turned. -/
def Sound : Node → Int → Prop
  | .null, _ => True
  | .node k l r _, key =>
      if key < k then
        Sound l key ∧ ¬ (Towers r l ∧ getLeft r = .null)
      else
        Sound r key ∧ ¬ (Towers l r ∧ getKey l ≠ some key ∧ getRight l = .null)

/-- Every insertion of a run is sound in the tree it meets. -/
def SoundRun : Node → List Int → Prop
  | _, [] => True
  | t, key :: keys => Sound t key ∧ ∀ t', t' ∈ insert t key → SoundRun t' keys

instance decidableSound : (t : Node) → (key : Int) → Decidable (Sound t key)
  | .null, _ => .isTrue trivial
  | .node k l r _, key =>
      have := decidableSound l key
      have := decidableSound r key
      inferInstanceAs (Decidable (if key < k then
        Sound l key ∧ ¬ (Towers r l ∧ getLeft r = .null)
      else
        Sound r key ∧ ¬ (Towers l r ∧ getKey l ≠ some key ∧ getRight l = .null)))

instance decidableSoundRun : (t : Node) → (keys : List Int) → Decidable (SoundRun t keys)
  | _, [] => .isTrue trivial
  | t, key :: keys =>
      have := fun t' => decidableSoundRun t' keys
      inferInstanceAs (Decidable (Sound t key ∧ ∀ t', t' ∈ insert t key → SoundRun t' keys))

/-- What every tree of a run is like. -/
structure Ordered (t : Node) : Prop where
  sorted : (inorder t).Pairwise (· ≤ ·)
  rising : Rising t

theorem height_nonneg {t : Node} (h : Rising t) : 0 ≤ height t := by
  induction t with
  | null => exact Int.le_refl 0
  | node k l r h' ihl ihr => exact Int.le_of_lt (Int.lt_of_le_of_lt (ihl h.1) h.2.2.1)

theorem height_getRight_le {t : Node} (h : Rising t) : height (getRight t) ≤ height t := by
  cases t with
  | null => exact Int.le_refl 0
  | node k l r h' => exact Int.le_of_lt h.2.2.2

/-- The stored height may be too large, but not too small. -/
theorem length_lt {t : Node} (h : Rising t) : (inorder t).length < 2 ^ (height t).toNat := by
  induction t with
  | null => exact Nat.zero_lt_one
  | node k l r h' ihl ihr =>
    obtain ⟨hl, hr, hlh, hrh⟩ := h
    have hnl := height_nonneg hl
    have hnr := height_nonneg hr
    have hleft : 2 ^ (height l).toNat ≤ 2 ^ (h' - 1).toNat := Nat.pow_le_pow_right Nat.two_pos (by omega)
    have hright : 2 ^ (height r).toNat ≤ 2 ^ (h' - 1).toNat := Nat.pow_le_pow_right Nat.two_pos (by omega)
    have hpow : 2 ^ h'.toNat = 2 ^ (h' - 1).toNat * 2 := by
      rw [← Nat.pow_succ]
      congr 1
      omega
    have hltl := ihl hl
    have hltr := ihr hr
    rw [inorder, List.length_append, List.length_cons, height_node]
    omega

section Rotations

variable {key k : Int} {t u l r : Node}

theorem inorder_rightRotate (h : rightRotate t = some u) : inorder u = inorder t := by
  match t, h with
  | .node zk (.node yk yl yr yh) zr zh, h =>
    cases h
    simp [inorder]

theorem inorder_leftRotate (h : leftRotate t = some u) : inorder u = inorder t := by
  match t, h with
  | .node zk zl (.node yk yl yr yh) zh, h =>
    cases h
    simp [inorder]

/-- The new root takes its height from the old one of `z`, which must not be too small for this. -/
theorem rising_rightRotate {zh : Int} (h : rightRotate (.node k l r zh) = some u) (hl : Rising l)
    (hr : Rising r) (hlz : height (getRight l) < zh) (hrz : height r < zh) : Rising u := by
  match l, hl, hlz, h with
  | .node yk yl yr yh, ⟨hyl, hyr, _, _⟩, hlz, h =>
    cases h
    rw [getRight] at hlz
    refine ⟨hyl, ⟨hyr, hr, ?_, ?_⟩, ?_, ?_⟩
    · exact Int.lt_add_one_of_le (Int.le_max_left _ _)
    · exact Int.lt_add_one_of_le (Int.le_max_right _ _)
    · exact Int.lt_add_one_of_le (Int.le_max_left _ _)
    · simp only [height_node]
      omega

theorem rising_leftRotate {zh : Int} (h : leftRotate (.node k l r zh) = some u) (hl : Rising l)
    (hr : Rising r) : Rising u := by
  match r, hr, h with
  | .node yk yl yr yh, ⟨hyl, hyr, _, _⟩, h =>
    cases h
    refine ⟨⟨hl, hyl, ?_, ?_⟩, hyr, ?_, ?_⟩
    · exact Int.lt_add_one_of_le (Int.le_max_left _ _)
    · exact Int.lt_add_one_of_le (Int.le_max_right _ _)
    · exact Int.lt_add_one_of_le (Int.le_max_left _ _)
    · exact Int.lt_add_one_of_le (Int.le_max_right _ _)

/-- What comes up on the right has been deeper before. -/
theorem leftRotate_rising (h : leftRotate t = some u) (ht : Rising t) :
    Rising u ∧ height (getRight u) ≤ height t := by
  match t, ht, h with
  | .node zk zl (.node yk yl yr yh) zh, ⟨hzl, hy, _, hyz⟩, h =>
    refine ⟨rising_leftRotate h hzl hy, ?_⟩
    cases h
    obtain ⟨-, -, -, hyr⟩ := hy
    rw [height_node] at hyz
    rw [getRight, height_node]
    omega

theorem rightRotate_rising (h : rightRotate t = some u) (ht : Rising t) : Rising u := by
  match t, ht, h with
  | .node zk zl zr zh, ⟨hzl, hzr, hlz, hrz⟩, h =>
    have hle := height_getRight_le hzl
    exact rising_rightRotate h hzl hzr (by omega) hrz

end Rotations

section Rebalance

variable {key k : Int} {l r t u : Node}

/-- The keys stay in their order, whatever is rotated. -/
theorem rebalance_keeps (hl : Rising l) (hr : Rising r) (h : rebalance key k l r = some u) :
    inorder u = inorder l ++ k :: inorder r ∧ Rising u := by
  have hlz : height l < max (height l) (height r) + 1 := Int.lt_add_one_of_le (Int.le_max_left _ _)
  have hrz : height r < max (height l) (height r) + 1 := Int.lt_add_one_of_le (Int.le_max_right _ _)
  simp only [rebalance, getBalance_node, Option.bind_eq_bind] at h
  split_ifs at h with hb₁ hb₂
  · obtain ⟨lk, hlk, h⟩ := Option.bind_eq_some_iff.mp h
    split_ifs at h with hk₁ hk₂
    · exact ⟨inorder_rightRotate h, rightRotate_rising h ⟨hl, hr, hlz, hrz⟩⟩
    · obtain ⟨l', hl', h⟩ := Option.bind_eq_some_iff.mp h
      obtain ⟨hrising, hle⟩ := leftRotate_rising hl' hl
      refine ⟨?_, rising_rightRotate h hrising hr (Int.lt_of_le_of_lt hle hlz) hrz⟩
      rw [inorder_rightRotate h, inorder, inorder_leftRotate hl']
    · cases h
      exact ⟨rfl, hl, hr, hlz, hrz⟩
  · obtain ⟨rk, hrk, h⟩ := Option.bind_eq_some_iff.mp h
    split_ifs at h with hk₁ hk₂
    · exact ⟨inorder_leftRotate h, rising_leftRotate h hl hr⟩
    · obtain ⟨r', hr', h⟩ := Option.bind_eq_some_iff.mp h
      refine ⟨?_, rising_leftRotate h hl (rightRotate_rising hr' hr)⟩
      rw [inorder_leftRotate h, inorder, inorder_rightRotate hr']
    · cases h
      exact ⟨rfl, hl, hr, hlz, hrz⟩
  · cases h
    exact ⟨rfl, hl, hr, hlz, hrz⟩

/-- What the four cases need in order not to follow a null pointer. -/
def Ready (key : Int) (l r : Node) : Prop :=
  (height l - height r > 1 → ∃ lk, getKey l = some lk ∧ (lk < key → getRight l ≠ .null)) ∧
    (height l - height r < -1 → ∃ rk, getKey r = some rk ∧ (key < rk → getLeft r ≠ .null))

theorem rebalance_left (h : height l - height r > 1) : (∃ u, rebalance key k l r = some u) ↔
    ∃ lk, getKey l = some lk ∧ (lk < key → getRight l ≠ .null) := by
  simp only [rebalance, getBalance_node, if_pos h, Option.bind_eq_bind]
  cases l with
  | null => simp [getKey]
  | node lk ll lr lh =>
    simp only [getKey_node, Option.bind_some, Option.some.injEq, exists_eq_left', getRight]
    split_ifs with hk₁ hk₂
    · exact ⟨fun _ hk => absurd hk (by omega), fun _ => ⟨_, rfl⟩⟩
    · cases lr with
      | null => simp [leftRotate, hk₂]
      | node yk yl yr yh => exact ⟨fun _ _ => Node.noConfusion, fun _ => ⟨_, rfl⟩⟩
    · exact ⟨fun _ hk => absurd hk hk₂, fun _ => ⟨_, rfl⟩⟩

theorem rebalance_right (h : height l - height r < -1) : (∃ u, rebalance key k l r = some u) ↔
    ∃ rk, getKey r = some rk ∧ (key < rk → getLeft r ≠ .null) := by
  have hn : ¬ height l - height r > 1 := by omega
  simp only [rebalance, getBalance_node, if_neg hn, if_pos h, Option.bind_eq_bind]
  cases r with
  | null => simp [getKey]
  | node rk rl rr rh =>
    simp only [getKey_node, Option.bind_some, Option.some.injEq, exists_eq_left', getLeft]
    split_ifs with hk₁ hk₂
    · exact ⟨fun _ hk => absurd hk (by omega), fun _ => ⟨_, rfl⟩⟩
    · cases rl with
      | null => simp [rightRotate, hk₂]
      | node yk yl yr yh => exact ⟨fun _ _ => Node.noConfusion, fun _ => ⟨_, rfl⟩⟩
    · exact ⟨fun _ hk => absurd hk hk₂, fun _ => ⟨_, rfl⟩⟩

theorem rebalance_some_iff : (∃ u, rebalance key k l r = some u) ↔ Ready key l r := by
  by_cases h₁ : height l - height r > 1
  · have h₂ : ¬ height l - height r < -1 := by omega
    simp [rebalance_left h₁, Ready, h₁, h₂]
  · by_cases h₂ : height l - height r < -1
    · simp [rebalance_right h₂, Ready, h₁, h₂]
    · simp [rebalance, Ready, h₁, h₂]

end Rebalance

section Sides

variable {key k : Int} {l r : Node}

theorem exists_key (hh : 0 < height l) : ∃ lk, getKey l = some lk := by
  cases l with
  | null => exact absurd hh (Int.lt_irrefl 0)
  | node lk ll lr lh => exact ⟨lk, rfl⟩

theorem getKey_mem {lk : Int} (h : getKey l = some lk) : lk ∈ inorder l := by
  cases l with
  | null => cases h
  | node k' ll lr lh =>
    cases h
    simp [inorder]

/-- A key that is greater than that of the root is on its right side. -/
theorem getRight_ne_null {lk : Int} (hs : (inorder l).Pairwise (· ≤ ·)) (hm : key ∈ inorder l)
    (hk : getKey l = some lk) (hlt : lk < key) : getRight l ≠ .null := by
  cases l with
  | null => cases hk
  | node k' ll lr lh =>
    cases hk
    intro hnull
    rw [getRight] at hnull
    subst hnull
    rw [inorder, List.pairwise_append] at hs
    rw [inorder, List.mem_append] at hm
    rcases hm with hm | hm
    · have hle := hs.2.2 key hm lk (List.mem_cons_self ..)
      omega
    · simp [inorder] at hm
      omega

theorem getLeft_ne_null {rk : Int} (hs : (inorder r).Pairwise (· ≤ ·)) (hm : key ∈ inorder r)
    (hk : getKey r = some rk) (hlt : key < rk) : getLeft r ≠ .null := by
  cases r with
  | null => cases hk
  | node k' rl rr rh =>
    cases hk
    intro hnull
    rw [getLeft] at hnull
    subst hnull
    simp only [inorder, List.nil_append, List.mem_cons, List.pairwise_cons] at hm hs
    rcases hm with hm | hm
    · omega
    · have hle := hs.1 key hm
      omega

/-- After an insertion on the left the cases are safe unless the node is astray. -/
theorem ready_left (hs : (inorder l ++ k :: inorder r).Pairwise (· ≤ ·)) (hl : Rising l)
    (hr : Rising r) (hlt : key < k) (hm : key ∈ inorder l) :
    Ready key l r ↔ ¬ Astray key k l r := by
  have hnl := height_nonneg hl
  have hnr := height_nonneg hr
  rw [List.pairwise_append, List.pairwise_cons] at hs
  refine ⟨fun h => ?_, fun h => ⟨fun hb => ?_, fun hb => ?_⟩⟩
  · rintro (⟨-, hb, hnull⟩ | ⟨hle, -⟩)
    · obtain ⟨rk, hrk, hn⟩ := h.2 hb
      have hkr := hs.2.1.1 rk (getKey_mem hrk)
      exact hn (by omega) hnull
    · omega
  · obtain ⟨lk, hlk⟩ := exists_key (l := l) (by omega)
    exact ⟨lk, hlk, getRight_ne_null hs.1 hm hlk⟩
  · obtain ⟨rk, hrk⟩ := exists_key (l := r) (by omega)
    exact ⟨rk, hrk, fun _ hnull => h (.inl ⟨hlt, hb, hnull⟩)⟩

theorem ready_right (hs : (inorder l ++ k :: inorder r).Pairwise (· ≤ ·)) (hl : Rising l)
    (hr : Rising r) (hle : k ≤ key) (hm : key ∈ inorder r) :
    Ready key l r ↔ ¬ Astray key k l r := by
  have hnl := height_nonneg hl
  have hnr := height_nonneg hr
  rw [List.pairwise_append, List.pairwise_cons] at hs
  refine ⟨fun h => ?_, fun h => ⟨fun hb => ?_, fun hb => ?_⟩⟩
  · rintro (⟨hlt, -⟩ | ⟨-, hb, hne, hnull⟩)
    · omega
    · obtain ⟨lk, hlk, hn⟩ := h.1 hb
      have hkl := hs.2.2 lk (getKey_mem hlk) k (List.mem_cons_self ..)
      have hlk' : lk ≠ key := fun he => hne (by rw [hlk, he])
      exact hn (by omega) hnull
  · obtain ⟨lk, hlk⟩ := exists_key (l := l) (by omega)
    refine ⟨lk, hlk, fun hlt hnull => h (.inr ⟨hle, hb, ?_, hnull⟩)⟩
    rw [hlk]
    simpa using Int.ne_of_lt hlt
  · obtain ⟨rk, hrk⟩ := exists_key (l := r) (by omega)
    exact ⟨rk, hrk, getLeft_ne_null hs.2.1.2 hm hrk⟩

end Sides

section Insert

variable {key k h : Int} {l l' r r' t t' : Node}

theorem sorted_left (hs : (inorder (.node k l r h)).Pairwise (· ≤ ·)) (hlt : key < k)
    (hl : (inorder l').Pairwise (· ≤ ·)) (hp : (inorder l').Perm (key :: inorder l)) :
    (inorder l' ++ k :: inorder r).Pairwise (· ≤ ·) := by
  rw [inorder, List.pairwise_append] at hs
  rw [List.pairwise_append]
  refine ⟨hl, hs.2.1, fun x hx y hy => ?_⟩
  rcases List.mem_cons.mp (hp.subset hx) with rfl | hx
  · rcases List.mem_cons.mp hy with rfl | hy
    · exact Int.le_of_lt hlt
    · exact Int.le_trans (Int.le_of_lt hlt) (List.rel_of_pairwise_cons hs.2.1 hy)
  · exact hs.2.2 x hx y hy

theorem sorted_right (hs : (inorder (.node k l r h)).Pairwise (· ≤ ·)) (hle : k ≤ key)
    (hr : (inorder r').Pairwise (· ≤ ·)) (hp : (inorder r').Perm (key :: inorder r)) :
    (inorder l ++ k :: inorder r').Pairwise (· ≤ ·) := by
  rw [inorder, List.pairwise_append, List.pairwise_cons] at hs
  rw [List.pairwise_append, List.pairwise_cons]
  refine ⟨hs.1, ⟨fun x hx => ?_, hr⟩, fun x hx y hy => ?_⟩
  · rcases List.mem_cons.mp (hp.subset hx) with rfl | hx
    · exact hle
    · exact hs.2.1.1 x hx
  · rcases List.mem_cons.mp hy with rfl | hy
    · exact hs.2.2 x hx _ (List.mem_cons_self ..)
    · rcases List.mem_cons.mp (hp.subset hy) with rfl | hy
      · exact Int.le_trans (hs.2.2 x hx k (List.mem_cons_self ..)) hle
      · exact hs.2.2 x hx y (List.mem_cons_of_mem _ hy)

theorem ordered_left (ht : Ordered (.node k l r h)) : Ordered l :=
  ⟨(List.pairwise_append.mp ht.sorted).1, ht.rising.1⟩

theorem ordered_right (ht : Ordered (.node k l r h)) : Ordered r :=
  ⟨(List.pairwise_cons.mp (List.pairwise_append.mp ht.sorted).2.1).2, ht.rising.2.1⟩

/-- An insertion that returns puts the key in its place. -/
theorem insert_keeps (ht : Ordered t) (hi : insert t key = some t') :
    Ordered t' ∧ (inorder t').Perm (key :: inorder t) := by
  induction t generalizing t' with
  | null =>
    cases hi
    exact ⟨⟨List.pairwise_singleton _ _, trivial, trivial, Int.zero_lt_one, Int.zero_lt_one⟩, .refl _⟩
  | node k l r h ihl ihr =>
    rw [insert] at hi
    split_ifs at hi with hk
    · obtain ⟨l', hl', hb⟩ := Option.bind_eq_some_iff.mp hi
      obtain ⟨ho, hp⟩ := ihl (ordered_left ht) hl'
      obtain ⟨heq, hpos⟩ := rebalance_keeps ho.rising ht.rising.2.1 hb
      refine ⟨⟨?_, hpos⟩, ?_⟩
      · rw [heq]
        exact sorted_left ht.sorted hk ho.sorted hp
      · rw [heq]
        exact hp.append_right _
    · obtain ⟨r', hr', hb⟩ := Option.bind_eq_some_iff.mp hi
      obtain ⟨ho, hp⟩ := ihr (ordered_right ht) hr'
      obtain ⟨heq, hpos⟩ := rebalance_keeps ht.rising.1 ho.rising hb
      refine ⟨⟨?_, hpos⟩, ?_⟩
      · rw [heq]
        exact sorted_right ht.sorted (Int.not_lt.mp hk) ho.sorted hp
      · rw [heq, inorder]
        calc inorder l ++ k :: inorder r'
            _ |>.Perm (inorder l ++ k :: key :: inorder r) := (hp.cons k).append_left _
            _ |>.Perm (inorder l ++ key :: k :: inorder r) := (List.Perm.swap ..).append_left _
            _ |>.Perm (key :: (inorder l ++ k :: inorder r)) := List.perm_middle

theorem insert_some_iff (ht : Ordered t) : (∃ t', insert t key = some t') ↔ Tame t key := by
  induction t with
  | null => exact ⟨fun _ => trivial, fun _ => ⟨_, rfl⟩⟩
  | node k l r h ihl ihr =>
    have hl := ordered_left ht
    have hr := ordered_right ht
    by_cases hk : key < k
    · have hready : ∀ l', insert l key = some l' → (Ready key l' r ↔ ¬ Astray key k l' r) := by
        intro l' hl'
        obtain ⟨ho, hp⟩ := insert_keeps hl hl'
        exact ready_left (sorted_left ht.sorted hk ho.sorted hp) ho.rising hr.rising hk
          (hp.symm.subset (List.mem_cons_self ..))
      simp only [insert, Tame, if_pos hk, ← ihl hl, Option.bind_eq_some_iff]
      refine ⟨?_, ?_⟩
      · rintro ⟨t', l', hl', hb⟩
        refine ⟨⟨l', hl'⟩, fun u hu => ?_⟩
        cases hl'.symm.trans hu
        exact (hready l' hl').mp (rebalance_some_iff.mp ⟨t', hb⟩)
      · rintro ⟨⟨l', hl'⟩, hn⟩
        obtain ⟨t', ht'⟩ := rebalance_some_iff.mpr ((hready l' hl').mpr (hn l' hl'))
        exact ⟨t', l', hl', ht'⟩
    · have hready : ∀ r', insert r key = some r' → (Ready key l r' ↔ ¬ Astray key k l r') := by
        intro r' hr'
        obtain ⟨ho, hp⟩ := insert_keeps hr hr'
        exact ready_right (sorted_right ht.sorted (Int.not_lt.mp hk) ho.sorted hp) hl.rising
          ho.rising (Int.not_lt.mp hk) (hp.symm.subset (List.mem_cons_self ..))
      simp only [insert, Tame, if_neg hk, ← ihr hr, Option.bind_eq_some_iff]
      refine ⟨?_, ?_⟩
      · rintro ⟨t', r', hr', hb⟩
        refine ⟨⟨r', hr'⟩, fun u hu => ?_⟩
        cases hr'.symm.trans hu
        exact (hready r' hr').mp (rebalance_some_iff.mp ⟨t', hb⟩)
      · rintro ⟨⟨r', hr'⟩, hn⟩
        obtain ⟨t', ht'⟩ := rebalance_some_iff.mpr ((hready r' hr').mpr (hn r' hr'))
        exact ⟨t', r', hr', ht'⟩

end Insert

section Sound

variable {key : Int} {t : Node}

/-- What is to be turned towers above the subtree that the key went to. -/
theorem towers_of_higher {c c' o : Node} (hc : Ordered c) (hi : insert c key = some c')
    (hb : height o - height c' > 1) : Towers o c := by
  obtain ⟨ho, hp⟩ := insert_keeps hc hi
  have hlen := length_lt ho.rising
  rw [hp.length_eq, List.length_cons] at hlen
  have hnonneg := height_nonneg ho.rising
  exact Nat.lt_of_lt_of_le hlen (Nat.pow_le_pow_right Nat.two_pos (by omega))

theorem tame_of_sound (ht : Ordered t) (h : Sound t key) : Tame t key := by
  induction t with
  | null => trivial
  | node k l r h' ihl ihr =>
    rw [Sound] at h
    rw [Tame]
    split_ifs at h ⊢ with hk
    · refine ⟨ihl (ordered_left ht) h.1, fun l' hl' => ?_⟩
      rintro (⟨-, hb, hnull⟩ | ⟨hle, -⟩)
      · exact h.2 ⟨towers_of_higher (ordered_left ht) hl' (by omega), hnull⟩
      · omega
    · refine ⟨ihr (ordered_right ht) h.1, fun r' hr' => ?_⟩
      rintro (⟨hlt, -⟩ | ⟨-, hb, hne, hnull⟩)
      · omega
      · exact h.2 ⟨towers_of_higher (ordered_right ht) hr' hb, hne, hnull⟩

/-- What towers above a subtree stores a height of three at least. -/
theorem height_of_towers {c o : Node} (h : Towers o c) : 3 ≤ height o := by
  by_contra hlt
  have hzero : (height o - 2).toNat = 0 := by omega
  rw [Towers, hzero] at h
  omega

theorem children_of_high (h : Balanced t) (hh : 3 ≤ height t) : getLeft t ≠ .null ∧ getRight t ≠ .null := by
  cases t with
  | null => exact absurd hh (by decide)
  | node k l r h' =>
    obtain ⟨-, -, hstored, hd₁, hd₂⟩ := h
    simp only [height_node, trueHeight] at hh hstored
    refine ⟨fun hnull => ?_, fun hnull => ?_⟩
    · rw [getLeft] at hnull
      subst hnull
      simp only [trueHeight] at hstored hd₂
      omega
    · rw [getRight] at hnull
      subst hnull
      simp only [trueHeight] at hstored hd₁
      omega

/-- In a balanced tree every insertion is sound. -/
theorem sound_of_balanced (h : Balanced t) : Sound t key := by
  induction t with
  | null => trivial
  | node k l r h' ihl ihr =>
    obtain ⟨hl, hr, -, -, -⟩ := h
    rw [Sound]
    split_ifs with hk
    · exact ⟨ihl hl, fun ho => (children_of_high hr (height_of_towers ho.1)).1 ho.2⟩
    · exact ⟨ihr hr, fun ho => (children_of_high hl (height_of_towers ho.1)).2 ho.2.2⟩

/-- A run that keeps the tree balanced is sound. -/
theorem soundRun_of_safeRun {keys : List Int} (hb : Balanced t) (hs : SafeRun t keys) : SoundRun t keys := by
  induction keys generalizing t with
  | nil => trivial
  | cons key keys ih =>
    obtain ⟨t', hi, hb', -⟩ := insert_balanced hb hs.1
    refine ⟨sound_of_balanced hb, fun u hu => ?_⟩
    cases hi.symm.trans hu
    exact ih hb' (hs.2 t' hi)

/-- What a run of sound insertions leaves: the inserted keys beside the old ones. -/
theorem run_of_sound {keys : List Int} (ht : Ordered t) (hs : SoundRun t keys) :
    ∃ u, run insert t keys = some u ∧ Ordered u ∧ (inorder u).Perm (keys ++ inorder t) := by
  induction keys generalizing t with
  | nil => exact ⟨t, rfl, ht, .refl _⟩
  | cons key keys ih =>
    obtain ⟨t', ht'⟩ := (insert_some_iff ht).mpr (tame_of_sound ht hs.1)
    obtain ⟨ho', hp'⟩ := insert_keeps ht ht'
    obtain ⟨u, hu, ho, hp⟩ := ih ho' (hs.2 t' ht')
    refine ⟨u, run_cons.mpr ⟨t', ht', hu⟩, ho, ?_⟩
    exact hp.trans ((hp'.append_left keys).trans List.perm_middle)

end Sound

/-- A run of sound insertions follows no null pointer, has the keys in order all the time, and ends with
those that were inserted. -/
theorem insert_run_sorted (keys : List Int) (hs : SoundRun .null keys) :
    (∃ t, run insert .null keys = some t ∧ (inorder t).Pairwise (· ≤ ·) ∧ (inorder t).Perm keys) ∧
      Always insert (fun t => (inorder t).Pairwise (· ≤ ·)) .null keys := by
  have ho : Ordered .null := ⟨List.Pairwise.nil, trivial⟩
  obtain ⟨t, ht, ht', hp⟩ := run_of_sound ho hs
  rw [inorder, List.append_nil] at hp
  refine ⟨⟨t, ht, ht'.sorted, hp⟩, ?_⟩
  exact always_of_each Ordered (fun t key t' h _ hi => (insert_keeps h hi).1) (fun t h => h.sorted) ho
    (each_of_forall (C := fun _ => True) fun _ _ => trivial)

/-- Rotations in all directions, wrong heights after those to the right, and a key that is there. -/
theorem insert_run_sorted_ten :
    (∃ t, run insert .null [10, 20, 30, 40, 50, 25, 5, 4, 3, 3] = some t ∧ (inorder t).Pairwise (· ≤ ·) ∧
      (inorder t).Perm [10, 20, 30, 40, 50, 25, 5, 4, 3, 3]) ∧
      Always insert (fun t => (inorder t).Pairwise (· ≤ ·)) .null [10, 20, 30, 40, 50, 25, 5, 4, 3, 3] :=
  insert_run_sorted [10, 20, 30, 40, 50, 25, 5, 4, 3, 3] (by decide)

/-- Equal keys hang on the right of each other; a smaller key after them lets the root
turn to the right a child that has nothing on its left. -/
theorem insert_run_fault : run insert .null [1, 1, 1, 1, 0] = none ∧
    ¬ (∀ keys, ∃ t, run insert .null keys = some t ∧ (inorder t).Pairwise (· ≤ ·) ∧
      (inorder t).Perm keys) := by
  refine ⟨by decide, fun h => ?_⟩
  obtain ⟨t, ht, -⟩ := h [1, 1, 1, 1, 0]
  have hn : run insert .null [1, 1, 1, 1, 0] = none := by decide
  rw [hn] at ht
  cases ht

end C11AndC.Avl
