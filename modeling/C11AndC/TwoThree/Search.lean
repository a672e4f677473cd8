import C11AndC.TwoThree.Rules
import Mathlib.Order.Basic

namespace C11AndC.TwoThree

open C11AndC.Library

variable {K : Type}

/-- The subtrees beside a place have the height `n` that is needed in the place. -/
inductive FrameOk (n : Nat) : Frame K → Prop
  | twoLeft {a : Nat} {k u : K} {r : Tree K} (hr : Valid n r) :
      FrameOk n ⟨.left, a, .two k u, .nil, r⟩
  | twoRight {a : Nat} {k u : K} {l : Tree K} (hl : Valid n l) :
      FrameOk n ⟨.right, a, .two k u, l, .nil⟩
  | three {d : Direction} {a : Nat} {k₁ k₂ : K} {x y : Tree K} (hx : Valid n x) (hy : Valid n y) :
      FrameOk n ⟨d, a, .three k₁ k₂, x, y⟩

def AboveOk : Nat → List (Frame K) → Prop
  | _, [] => True
  | n, f :: fs => FrameOk n f ∧ AboveOk (n + 1) fs

theorem valid_frame {n : Nat} {f : Frame K} {t : Tree K} (hf : FrameOk n f) (ht : Valid n t) :
    Valid (n + 1) (f.plug t) := by
  cases hf with
  | twoLeft hr => exact .two ht hr
  | twoRight hl => exact .two hl ht
  | @three d a k₁ k₂ x y hx hy =>
    cases d with
    | left => exact .three ht hx hy
    | middle => exact .three hx ht hy
    | right => exact .three hx hy ht

theorem valid_plug {n : Nat} {fs : List (Frame K)} {t : Tree K} (hf : AboveOk n fs)
    (ht : Valid n t) : Valid (n + fs.length) (plug fs t) := by
  induction fs generalizing n t with
  | nil => exact ht
  | cons f fs ih =>
    rw [List.length_cons, Nat.add_comm fs.length, ← Nat.add_assoc]
    exact ih hf.2 (valid_frame hf.1 ht)

theorem valid_height {n h : Nat} {t : Tree K} (hn : Valid n t) (hh : Valid h t) : n = h := by
  induction hn generalizing h with
  | nil =>
    cases hh
    rfl
  | two hl _ ih _ =>
    cases hh with
    | two hl' _ => rw [ih hl']
  | three hl _ _ ih _ _ =>
    cases hh with
    | three hl' _ _ => rw [ih hl']

/-- The keys before and after a place in the whole tree. -/
def before : List (Frame K) → List K
  | [] => []
  | f :: fs => before fs ++ f.before

def after : List (Frame K) → List K
  | [] => []
  | f :: fs => f.after ++ after fs

theorem keys_plug (fs : List (Frame K)) (t : Tree K) :
    (plug fs t).keys = before fs ++ t.keys ++ after fs := by
  induction fs generalizing t with
  | nil => simp [plug, before, after]
  | cons f fs ih => simp [plug, ih, Frame.keys_plug, before, after]

theorem plug_append (fs gs : List (Frame K)) (t : Tree K) :
    plug (fs ++ gs) t = plug gs (plug fs t) := by
  induction fs generalizing t with
  | nil => rfl
  | cons f fs ih => exact ih (f.plug t)

theorem root_eq_zero {m : Memory (CNode K)} {par : Nat} {t : Tree K} (hs : Shape m par t) :
    t.root = 0 ↔ t.isNil = true := by
  cases t with
  | nil => simp [Tree.isNil]
  | node a v l u r => simp [Tree.isNil, Memory.ne_zero_of_cell hs.1]

theorem nil_of_valid_zero {t : Tree K} (h : Valid 0 t) : t = .nil := by
  cases h
  rfl

theorem leaf_of_valid {t : Tree K} (h : Valid 1 t) : ∃ a v, t = .node a v .nil .nil .nil := by
  cases h with
  | two hl hr =>
    cases nil_of_valid_zero hl
    cases nil_of_valid_zero hr
    exact ⟨_, _, rfl⟩
  | three hl hm hr =>
    cases nil_of_valid_zero hl
    cases nil_of_valid_zero hm
    cases nil_of_valid_zero hr
    exact ⟨_, _, rfl⟩

theorem valid_isNil {n : Nat} {t : Tree K} (h : Valid n t) : t.isNil = true ↔ n = 0 := by
  cases h <;> simp [Tree.isNil]

variable [LinearOrder K]

theorem tCompare_eq {a b : K} : tCompare a b = .eq ↔ a = b := by
  unfold tCompare
  split_ifs with h₁ h₂
  · simp [ne_of_lt h₁]
  · simp [ne_of_gt h₂]
  · simp [le_antisymm (not_lt.mp h₂) (not_lt.mp h₁)]

theorem tCompare_lt {a b : K} : tCompare a b = .lt ↔ a < b := by
  unfold tCompare
  split_ifs with h₁ h₂ <;> simp [h₁]

theorem tCompare_gt {a b : K} : tCompare a b = .gt ↔ b < a := by
  unfold tCompare
  split_ifs with h₁ h₂
  · simp [le_of_lt h₁]
  · simp [h₂]
  · simp [h₂]

/-- The place where the search for a key ends: the nodes above it, and the tree there. -/
def locate (key : K) : List (Frame K) → Tree K → List (Frame K) × Tree K
  | fs, .nil => (fs, .nil)
  | fs, .node a v l m r =>
      if hasKey key v then (fs, .node a v l m r)
      else
        match searchDirection key v with
        | .left =>
            if l.isNil then (fs, .node a v l m r)
            else locate key (⟨.left, a, v, m, r⟩ :: fs) l
        | .middle =>
            if m.isNil then (fs, .node a v l m r)
            else locate key (⟨.middle, a, v, l, r⟩ :: fs) m
        | .right =>
            if r.isNil then (fs, .node a v l m r)
            else locate key (⟨.right, a, v, l, m⟩ :: fs) r

def found (key : K) : Tree K → Bool
  | .nil => false
  | .node _ v _ _ _ => hasKey key v

/-- All keys before the place are smaller, and all after it are greater. -/
def Between (key : K) (fs : List (Frame K)) : Prop :=
  (∀ x, x ∈ before fs → x < key) ∧ ∀ x, x ∈ after fs → key < x

theorem between_cons {key : K} {f : Frame K} {fs : List (Frame K)} :
    Between key (f :: fs) ↔ Between key fs ∧ (∀ x, x ∈ f.before → x < key) ∧
      ∀ x, x ∈ f.after → key < x := by
  simp only [Between, before, after, List.mem_append]
  constructor
  · rintro ⟨h₁, h₂⟩
    exact ⟨⟨fun x hx => h₁ x (.inl hx), fun x hx => h₂ x (.inr hx)⟩, fun x hx => h₁ x (.inr hx),
      fun x hx => h₂ x (.inl hx)⟩
  · rintro ⟨⟨h₁, h₂⟩, h₃, h₄⟩
    exact ⟨fun x hx => hx.elim (h₁ x) (h₃ x), fun x hx => hx.elim (h₄ x) (h₂ x)⟩

theorem between_of_sorted {key : K} {fs : List (Frame K)} {ks : List K}
    (hs : (before fs ++ ks ++ after fs).Pairwise (· < ·)) (hk : key ∈ ks) : Between key fs := by
  obtain ⟨hfront, -, hafter⟩ := List.pairwise_append.mp hs
  obtain ⟨-, -, hbefore⟩ := List.pairwise_append.mp hfront
  exact ⟨fun x hx => hbefore x hx key hk, fun x hx => hafter key (List.mem_append_right _ hk) x hx⟩

/-- One round of the search goes one step along the way to the place. -/
theorem wp_searchLoop_node {s : Store (CNode K) Nat} {key : K} {v : Keys K} {l m r : Tree K}
    {par a n : Nat} {fs : List (Frame K)} (hs : Shape s.mem par (.node a v l m r))
    (ih : ∀ c, c = l ∨ c = m ∨ c = r → ¬ c.isNil = true → ∀ gs, wp (loop (searchStep key) n c.root)
      (fun r s' => s' = s ∧ r = ((locate key gs c).2.root, found key (locate key gs c).2)) s) :
    wp (loop (searchStep key) (n + 1) a) (fun x s' => s' = s ∧
      x = ((locate key fs (.node a v l m r)).2.root,
        found key (locate key fs (.node a v l m r)).2)) s := by
  simp only [loop, searchStep, wp_bind, wp_load, hs.1, Option.some.injEq, exists_eq_left']
  by_cases hk : hasKey key v = true
  · simp [hk, locate, found]
  · simp only [hk, Bool.false_eq_true, ↓reduceIte, locate]
    cases hd : searchDirection key v with
    | left =>
      by_cases hc : l.isNil = true
      · simp [CNode.getChild, (root_eq_zero hs.2.1).mpr hc, hc, found, hk]
      · have hr := mt (root_eq_zero hs.2.1).mp hc
        simpa [CNode.getChild, hr, hc] using ih l (.inl rfl) hc _
    | middle =>
      by_cases hc : m.isNil = true
      · simp [CNode.getChild, (root_eq_zero hs.2.2.1).mpr hc, hc, found, hk]
      · have hr := mt (root_eq_zero hs.2.2.1).mp hc
        simpa [CNode.getChild, hr, hc] using ih m (.inr (.inl rfl)) hc _
    | right =>
      by_cases hc : r.isNil = true
      · simp [CNode.getChild, (root_eq_zero hs.2.2.2).mpr hc, hc, found, hk]
      · have hr := mt (root_eq_zero hs.2.2.2).mp hc
        simpa [CNode.getChild, hr, hc] using ih r (.inr (.inr rfl)) hc _

theorem wp_searchLoop {s : Store (CNode K) Nat} {key : K} {t : Tree K} {par h n : Nat}
    (hs : Shape s.mem par t) (hv : Valid h t) (hn : h ≤ n) (hne : ¬ t.isNil = true)
    (fs : List (Frame K)) :
    wp (loop (searchStep key) n t.root) (fun r s' => s' = s ∧
      r = ((locate key fs t).2.root, found key (locate key fs t).2)) s := by
  induction hv generalizing par n fs with
  | nil => exact absurd rfl hne
  | two hl hr ihl ihr =>
    obtain ⟨n, rfl⟩ := Nat.exists_eq_add_of_le' (Nat.le_trans (Nat.le_add_left 1 _) hn)
    refine wp_searchLoop_node hs ?_
    rintro c (rfl | rfl | rfl) hc gs
    · exact ihl hs.2.1 (by omega) hc gs
    · exact absurd rfl hc
    · exact ihr hs.2.2.2 (by omega) hc gs
  | three hl hm hr ihl ihm ihr =>
    obtain ⟨n, rfl⟩ := Nat.exists_eq_add_of_le' (Nat.le_trans (Nat.le_add_left 1 _) hn)
    refine wp_searchLoop_node hs ?_
    rintro c (rfl | rfl | rfl) hc gs
    · exact ihl hs.2.1 (by omega) hc gs
    · exact ihm hs.2.2.1 (by omega) hc gs
    · exact ihr hs.2.2.2 (by omega) hc gs

/-- The tree where the search ends hangs at its place in the whole tree, with the key
between the keys on both sides. It has the key, or it is a leaf where the key is missing. -/
structure Located (key : K) (t : Tree K) (fs : List (Frame K)) (u : Tree K) : Prop where
  plugged : plug fs u = t
  between : Between key fs
  place : ∃ n, AboveOk (n + 1) fs ∧ Valid (n + 1) u ∧ (found key u = true ∨ n = 0)

theorem hasKey_two {key k u : K} : hasKey key (.two k u) = true ↔ key = k := by
  simp [hasKey, Keys.two, Keys.getSize, tCompare_eq]

theorem hasKey_three {key k₁ k₂ : K} : hasKey key (.three k₁ k₂) = true ↔ key = k₁ ∨ key = k₂ := by
  simp [hasKey, Keys.three, Keys.getSize, tCompare_eq]

theorem searchDirection_two {key k u : K} (h : ¬ hasKey key (.two k u) = true) :
    (searchDirection key (.two k u) = .left ∧ key < k) ∨
      (searchDirection key (.two k u) = .right ∧ k < key) := by
  obtain hlt | hgt := lt_or_gt_of_ne (mt hasKey_two.mpr h)
  · refine .inl ⟨?_, hlt⟩
    simp [searchDirection, Keys.two, tCompare_lt, hlt]
  · refine .inr ⟨?_, hgt⟩
    simp [searchDirection, Keys.two, Keys.getSize, tCompare_lt, tCompare_gt, hgt, not_lt_of_gt hgt]

theorem searchDirection_three {key k₁ k₂ : K} (h : ¬ hasKey key (.three k₁ k₂) = true) :
    (searchDirection key (.three k₁ k₂) = .left ∧ key < k₁) ∨
      (searchDirection key (.three k₁ k₂) = .middle ∧ k₁ < key ∧ key < k₂) ∨
      (searchDirection key (.three k₁ k₂) = .right ∧ k₁ < key ∧ k₂ < key) := by
  rw [hasKey_three, not_or] at h
  obtain hlt | hgt := lt_or_gt_of_ne h.1
  · refine .inl ⟨?_, hlt⟩
    simp [searchDirection, Keys.three, tCompare_lt, hlt]
  · obtain hlt₂ | hgt₂ := lt_or_gt_of_ne h.2
    · refine .inr (.inl ⟨?_, hgt, hlt₂⟩)
      simp [searchDirection, Keys.three, Keys.getSize, tCompare_lt, tCompare_gt,
        not_lt_of_gt hgt, not_lt_of_gt hlt₂]
    · refine .inr (.inr ⟨?_, hgt, hgt₂⟩)
      simp [searchDirection, Keys.three, Keys.getSize, tCompare_lt, tCompare_gt, hgt₂,
        not_lt_of_gt hgt]

/-- One step down, unless the subtree is empty. -/
theorem located_step {key : K} {n : Nat} {f : Frame K} {fs : List (Frame K)} {c : Tree K}
    (ih : ∀ {j : Nat} (gs : List (Frame K)), Valid (j + 1) c → c.keys.Pairwise (· < ·) →
      AboveOk (j + 1) gs → Between key gs →
      Located key (plug gs c) (locate key gs c).1 (locate key gs c).2)
    (hc : Valid n c) (hs : c.keys.Pairwise (· < ·)) (hf : FrameOk n f) (hfs : AboveOk (n + 1) fs)
    (hb : Between key fs) (hb₁ : ∀ x, x ∈ f.before → x < key) (hb₂ : ∀ x, x ∈ f.after → key < x) :
    Located key (plug fs (f.plug c)) (if c.isNil then (fs, f.plug c) else locate key (f :: fs) c).1
      (if c.isNil then (fs, f.plug c) else locate key (f :: fs) c).2 := by
  by_cases hn : c.isNil = true
  · rw [if_pos hn]
    exact ⟨rfl, hb, n, hfs, valid_frame hf hc, .inr ((valid_isNil hc).mp hn)⟩
  · rw [if_neg hn]
    obtain ⟨j, rfl⟩ := Nat.exists_eq_succ_of_ne_zero (mt (valid_isNil hc).mpr hn)
    exact ih (f :: fs) hc hs ⟨hf, hfs⟩ (between_cons.mpr ⟨hb, hb₁, hb₂⟩)

/-- What a search in a whole tree keeps true of the place it has come to. -/
theorem locate_spec {key : K} {t : Tree K} {n : Nat} (fs : List (Frame K)) (hv : Valid (n + 1) t)
    (hs : t.keys.Pairwise (· < ·)) (hf : AboveOk (n + 1) fs) (hb : Between key fs) :
    Located key (plug fs t) (locate key fs t).1 (locate key fs t).2 := by
  induction t generalizing n fs with
  | nil => cases hv
  | node a v l m r ihl ihm ihr =>
    by_cases hk : hasKey key v = true
    · simp only [locate, hk, ↓reduceIte]
      exact ⟨rfl, hb, n, hf, hv, .inl hk⟩
    · cases hv with
      | @two _ _ k u _ _ hl hr =>
        simp only [Tree.keys, Keys.smallList_two, Keys.bigList_two, List.append_nil,
          List.append_assoc, List.cons_append, List.nil_append, List.pairwise_append,
          List.pairwise_cons, List.mem_cons] at hs
        obtain ⟨hsl, ⟨hkr, hsr⟩, hlk⟩ := hs
        simp only [locate, hk, Bool.false_eq_true, ↓reduceIte]
        obtain ⟨hd, hlt⟩ | ⟨hd, hgt⟩ := searchDirection_two hk
        · rw [hd]
          refine located_step (f := ⟨.left, a, .two k u, .nil, r⟩) ihl hl hsl (.twoLeft hr) hf hb
            ?_ ?_
          · simp [Frame.before]
          · simp only [Frame.after, Tree.keys, Keys.smallList_two, Keys.bigList_two,
              List.append_nil, List.cons_append, List.nil_append, List.mem_cons]
            rintro x (rfl | hx)
            · exact hlt
            · exact lt_trans hlt (hkr x hx)
        · rw [hd]
          refine located_step (f := ⟨.right, a, .two k u, l, .nil⟩) ihr hr hsr (.twoRight hl) hf hb
            ?_ ?_
          · simp only [Frame.before, Tree.keys, Keys.smallList_two, Keys.bigList_two,
              List.append_nil, List.mem_append, List.mem_singleton]
            rintro x (hx | rfl)
            · exact lt_trans (hlk x hx k (.inl rfl)) hgt
            · exact hgt
          · simp [Frame.after]
      | @three _ _ k₁ k₂ _ _ _ hl hm hr =>
        simp only [Tree.keys, Keys.smallList_three, Keys.bigList_three,
          List.append_assoc, List.cons_append, List.nil_append, List.pairwise_append,
          List.pairwise_cons, List.mem_cons, List.mem_append] at hs
        obtain ⟨hsl, ⟨hk₁, hsm, ⟨hk₂, hsr⟩, hmk⟩, hlk⟩ := hs
        simp only [locate, hk, Bool.false_eq_true, ↓reduceIte]
        obtain ⟨hd, hlt⟩ | ⟨hd, hgt, hlt⟩ | ⟨hd, hgt₁, hgt₂⟩ := searchDirection_three hk
        · rw [hd]
          refine located_step (f := ⟨.left, a, .three k₁ k₂, m, r⟩) ihl hl hsl (.three hm hr) hf hb
            ?_ ?_
          · simp [Frame.before]
          · simp only [Frame.after, Keys.smallList_three, Keys.bigList_three, List.append_assoc,
              List.cons_append, List.nil_append, List.mem_cons, List.mem_append]
            rintro x (rfl | hx)
            · exact hlt
            · exact lt_trans hlt (hk₁ x hx)
        · rw [hd]
          refine located_step (f := ⟨.middle, a, .three k₁ k₂, l, r⟩) ihm hm hsm (.three hl hr) hf
            hb ?_ ?_
          · simp only [Frame.before, Keys.smallList_three, List.mem_append, List.mem_singleton]
            rintro x (hx | rfl)
            · exact lt_trans (hlk x hx k₁ (.inl rfl)) hgt
            · exact hgt
          · simp only [Frame.after, Keys.bigList_three, List.cons_append, List.nil_append,
              List.mem_cons]
            rintro x (rfl | hx)
            · exact hlt
            · exact lt_trans hlt (hk₂ x hx)
        · rw [hd]
          refine located_step (f := ⟨.right, a, .three k₁ k₂, l, m⟩) ihr hr hsr (.three hl hm) hf
            hb ?_ ?_
          · simp only [Frame.before, Keys.smallList_three, Keys.bigList_three, List.mem_append,
              List.mem_singleton]
            rintro x (((hx | rfl) | hx) | rfl)
            · exact lt_trans (hlk x hx k₁ (.inl rfl)) hgt₁
            · exact hgt₁
            · exact lt_trans (hmk x hx k₂ (.inl rfl)) hgt₂
            · exact hgt₂
          · simp [Frame.after]

end C11AndC.TwoThree
