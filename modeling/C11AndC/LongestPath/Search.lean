import C11AndC.Library.Longest
import C11AndC.LongestPath.Model

namespace C11AndC.LongestPath

open C11AndC.Library

abbrev Cell := Nat × Nat

/-- One step to the right or left, or one step up or down. -/
def Adjacent (a b : Cell) : Prop :=
  a.1 = b.1 ∧ (b.2 = a.2 + 1 ∨ a.2 = b.2 + 1) ∨ a.2 = b.2 ∧ (b.1 = a.1 + 1 ∨ a.1 = b.1 + 1)

/-- The value of the second cell is larger by one. -/
def Rises (mat : Grid Int) (a b : Cell) : Prop :=
  ∃ v, getAt mat a.1 a.2 = some v ∧ getAt mat b.1 b.2 = some (v + 1)

def Next (mat : Grid Int) (a b : Cell) : Prop := Adjacent a b ∧ Rises mat a b

/-- No value is in two cells. -/
def Distinct (mat : Grid Int) : Prop :=
  ∀ i j k l v, getAt mat i j = some v → getAt mat k l = some v → i = k ∧ j = l

/-- A sequence of cells in which each next one is beside the one before and larger by one. -/
structure Path (n : Nat) (mat : Grid Int) (cs : List Cell) : Prop where
  nonempty : cs ≠ []
  inside : ∀ c ∈ cs, c.1 < n ∧ c.2 < n
  chain : cs.IsChain (Next mat)

/-- The entries, their successors where they are compared, and the lengths are of type `int`. -/
structure Fits (n : Nat) (mat : Grid Int) : Prop where
  entry : ∀ i j v, getAt mat i j = some v → IsInt v
  next : 1 < n → ∀ i j v, getAt mat i j = some v → v ≠ INT_MAX
  length : ∀ cs, Path n mat cs → (cs.length : Int) ≤ INT_MAX

/-- Every entry that is written is final. -/
structure Memo (n : Nat) (mat dp : Grid Int) : Prop where
  square : Square n dp
  final : ∀ i j x, getAt dp i j = some x → x = -1 ∨ ∃ k : Nat, x = k ∧ Longest (Next mat) (i, j) k

/-- What a search from a cell answers, and what it does to the table. -/
def Found (n : Nat) (mat : Grid Int) (i j : Nat) (dp : Grid Int) (r : Int × Grid Int) : Prop :=
  Memo n mat r.2 ∧ getAt r.2 i j = some r.1 ∧ (∃ k : Nat, r.1 = k ∧ Longest (Next mat) (i, j) k) ∧
    ∀ k l x, x ≠ -1 → getAt dp k l = some x → getAt r.2 k l = some x

section Paths

variable {n : Nat} {mat : Grid Int} {c : Cell} {cs : List Cell}

theorem path_cons_iff (hm : Square n mat) :
    Path n mat (c :: cs) ↔ (c.1 < n ∧ c.2 < n) ∧ (c :: cs).IsChain (Next mat) := by
  constructor
  · exact fun h => ⟨h.inside c (List.mem_cons_self ..), h.chain⟩
  · rintro ⟨hc, h⟩
    refine ⟨List.cons_ne_nil c cs, ?_, h⟩
    induction cs generalizing c with
    | nil => simpa using hc
    | cons d cs ih =>
      obtain ⟨⟨-, v, -, hw⟩, h⟩ := List.isChain_cons_cons.mp h
      rw [List.forall_mem_cons]
      exact ⟨hc, ih (getAt_lt hm hw) h⟩

theorem path_longest (hm : Square n mat) (hc : c.1 < n ∧ c.2 < n) {k : Nat} :
    Longest (Next mat) c k ↔ IsGreatest {k | ∃ cs, Path n mat (c :: cs) ∧ (c :: cs).length = k} k := by
  rw [Longest]
  simp only [path_cons_iff hm, hc, true_and]

theorem Fits.longest (h : Fits n mat) (hm : Square n mat) (hc : c.1 < n ∧ c.2 < n) {k : Nat}
    (hk : Longest (Next mat) c k) : IsInt k := by
  obtain ⟨⟨cs, hpath, hlen⟩, -⟩ := (path_longest hm hc).mp hk
  have hmax := h.length _ hpath
  rw [hlen] at hmax
  refine ⟨?_, hmax⟩
  rw [INT_MIN]
  omega

/-- The values rise by one along a path. -/
theorem chain_bounded {B v : Int} (hB : ∀ i j v, getAt mat i j = some v → v ≤ B)
    (h : (c :: cs).IsChain (Next mat)) (hv : getAt mat c.1 c.2 = some v) : v + cs.length ≤ B := by
  induction cs generalizing c v with
  | nil => simpa using hB _ _ v hv
  | cons d cs ih =>
    obtain ⟨⟨-, w, hw, hw'⟩, h⟩ := List.isChain_cons_cons.mp h
    rw [hv] at hw
    cases hw
    have hrest := ih h hw'
    rw [List.length_cons, Int.natCast_add, Int.natCast_one]
    omega

/-- Positive numbers below the greatest `int` fit. -/
theorem Fits.of_pos (hm : Square n mat) (hpos : ∀ i j v, getAt mat i j = some v → 0 < v ∧ v < INT_MAX) :
    Fits n mat := by
  refine ⟨fun i j v hv => ?_, fun _ i j v hv => (hpos i j v hv).2.ne, fun cs hcs => ?_⟩
  · obtain ⟨hlow, hhigh⟩ := hpos i j v hv
    refine ⟨?_, hhigh.le⟩
    rw [INT_MIN]
    omega
  · obtain ⟨c, cs, rfl⟩ := List.exists_cons_of_ne_nil hcs.nonempty
    obtain ⟨hc, hchain⟩ := (path_cons_iff hm).mp hcs
    obtain ⟨v, hv⟩ := exists_getAt hm hc.1 hc.2
    have hle := chain_bounded (fun i j v hv => (hpos i j v hv).2.le) hchain hv
    obtain ⟨hlow, -⟩ := hpos _ _ v hv
    rw [List.length_cons, Int.natCast_add, Int.natCast_one]
    omega

end Paths

section Search

variable {n i j i' j' : Nat} {mat dp : Grid Int} {v : Int}

theorem Fits.succ (h : Fits n mat) (hn : 1 < n) (hv : getAt mat i j = some v) : IsInt (v + 1) := by
  obtain ⟨hmin, hmax⟩ := h.entry i j v hv
  have hne := h.next hn i j v hv
  exact ⟨by omega, by omega⟩

theorem isNext_spec (guard : Prop) [Decidable guard] (i' j' : Nat) (hm : Square n mat) (hf : Fits n mat)
    (hi : i < n) (hj : j < n) (hg : guard → 1 < n ∧ i' < n ∧ j' < n) :
    ∃ b, isNext guard mat i j i' j' = some b ∧ (b = true ↔ guard ∧ Rises mat (i, j) (i', j')) := by
  by_cases h : guard
  · obtain ⟨hn, hi', hj'⟩ := hg h
    obtain ⟨v, hv⟩ := exists_getAt hm hi hj
    obtain ⟨w, hw⟩ := exists_getAt hm hi' hj'
    refine ⟨decide (v + 1 = w), ?_, ?_⟩
    · simp only [isNext, if_pos h, hv, hw, Option.bind_eq_bind, Option.bind_some,
        checked_of_isInt (hf.succ hn hv)]
      rfl
    · simp [h, Rises, hv, hw, eq_comm]
  · exact ⟨false, if_neg h, by simp [h]⟩

/-- The cells that are tried are all to which a way can go on. -/
theorem next_iff (hm : Square n mat) (hi : i < n) (hj : j < n) {e : Cell} : Next mat (i, j) e ↔
    (j < n - 1 ∧ e = (i, j + 1) ∨ j > 0 ∧ e = (i, j - 1) ∨ i > 0 ∧ e = (i - 1, j) ∨
      i < n - 1 ∧ e = (i + 1, j)) ∧ Rises mat (i, j) e := by
  obtain ⟨k, l⟩ := e
  refine and_congr_left fun ⟨v, hv, hw⟩ => ?_
  obtain ⟨hk, hl⟩ := getAt_lt hm hw
  simp only [Adjacent, Prod.mk.injEq]
  constructor
  · rintro (⟨rfl, rfl | rfl⟩ | ⟨rfl, rfl | rfl⟩) <;> omega
  · rintro (⟨h, rfl, rfl⟩ | ⟨h, rfl, rfl⟩ | ⟨h, rfl, rfl⟩ | ⟨h, rfl, rfl⟩) <;> omega

theorem next_unique (hd : Distinct mat) {c d e : Cell} (h : Next mat c d) (h' : Next mat c e) : e = d := by
  obtain ⟨-, v, hv, hw⟩ := h
  obtain ⟨-, v', hv', hw'⟩ := h'
  rw [hv] at hv'
  cases hv'
  exact Prod.ext_iff.mpr (hd _ _ _ _ _ hw' hw)

/-- A final entry may be written. -/
theorem Memo.put (h : Memo n mat dp) (hi : i < n) (hj : j < n) {k : Nat}
    (hk : Longest (Next mat) (i, j) k) :
    ∃ dp', putAt dp i j k = some dp' ∧ Found n mat i j dp (k, dp') := by
  obtain ⟨dp', hput, hsquare, hself, hother⟩ := putAt_spec h.square hi hj (k : Int)
  refine ⟨dp', hput, ⟨hsquare, fun i' j' x hx => ?_⟩, hself, ⟨k, rfl, hk⟩, fun i' j' x hne hx => ?_⟩
  · by_cases he : i' = i ∧ j' = j
    · obtain ⟨rfl, rfl⟩ := he
      rw [hself] at hx
      cases hx
      exact .inr ⟨k, rfl, hk⟩
    · rw [hother i' j' he] at hx
      exact h.final i' j' x hx
  · by_cases he : i' = i ∧ j' = j
    · obtain ⟨rfl, rfl⟩ := he
      obtain ⟨l, rfl, hl⟩ := (h.final _ _ x hx).resolve_left hne
      rw [longest_unique hl hk]
      exact hself
    · rwa [hother i' j' he]

theorem Found.memoise {r : Int × Grid Int} (h : Found n mat i' j' dp r) (hm : Square n mat) (hf : Fits n mat)
    (hd : Distinct mat) (hi : i < n) (hj : j < n) (hnext : Next mat (i, j) (i', j')) :
    ∃ r', memoise i j r = some r' ∧ Found n mat i j dp r' := by
  obtain ⟨hmemo, -, ⟨k, hr, hk⟩, hkept⟩ := h
  have hlong := longest_step hnext (fun e he => next_unique hd hnext he) hk
  have hint := hf.longest hm ⟨hi, hj⟩ hlong
  obtain ⟨dp', hput, hmemo', hself, hfinal, hkept'⟩ := hmemo.put hi hj hlong
  rw [Int.natCast_add, Int.natCast_one, ← hr] at hint hput hself hfinal
  refine ⟨(1 + r.1, dp'), ?_, hmemo', hself, hfinal, fun k l x hx h => hkept' k l x hx (hkept k l x hx h)⟩
  simp only [LongestPath.memoise, checked_of_isInt hint, hput, Option.bind_eq_bind, Option.bind_some]
  rfl

/-- A call from a cell without an entry goes on to a next cell, or there is none and it stores `1`. -/
theorem findLongestFromACell_cases (hm : Square n mat) (hf : Fits n mat) (hi : i < n) (hj : j < n)
    (hget : getAt dp i j = some (-1)) (steps : Nat) :
    (∃ i' j', Next mat (i, j) (i', j') ∧ findLongestFromACell n mat (steps + 1) i j dp =
      (findLongestFromACell n mat steps i' j' dp).bind (memoise i j)) ∨
    (∀ e, ¬ Next mat (i, j) e) ∧
      findLongestFromACell n mat (steps + 1) i j dp = (putAt dp i j 1).bind fun dp => some (1, dp) := by
  obtain ⟨right, hright, hr⟩ := isNext_spec (j < n - 1) i (j + 1) hm hf hi hj (by omega)
  obtain ⟨left, hleft, hl⟩ := isNext_spec (j > 0) i (j - 1) hm hf hi hj (by omega)
  obtain ⟨up, hup, hu⟩ := isNext_spec (i > 0) (i - 1) j hm hf hi hj (by omega)
  obtain ⟨down, hdown, hw⟩ := isNext_spec (i < n - 1) (i + 1) j hm hf hi hj (by omega)
  have hnext := fun e => next_iff hm hi hj (e := e)
  rw [findLongestFromACell]
  simp only [hget, hright, hleft, hup, hdown, Option.bind_eq_bind, Option.bind_some]
  rw [if_neg (not_not.mpr rfl)]
  by_cases hrt : right = true
  · obtain ⟨hg, hrise⟩ := hr.mp hrt
    exact .inl ⟨_, _, (hnext _).mpr ⟨.inl ⟨hg, rfl⟩, hrise⟩, if_pos hrt⟩
  rw [if_neg hrt]
  by_cases hlt : left = true
  · obtain ⟨hg, hrise⟩ := hl.mp hlt
    exact .inl ⟨_, _, (hnext _).mpr ⟨.inr (.inl ⟨hg, rfl⟩), hrise⟩, if_pos hlt⟩
  rw [if_neg hlt]
  by_cases hut : up = true
  · obtain ⟨hg, hrise⟩ := hu.mp hut
    exact .inl ⟨_, _, (hnext _).mpr ⟨.inr (.inr (.inl ⟨hg, rfl⟩)), hrise⟩, if_pos hut⟩
  rw [if_neg hut]
  by_cases hwt : down = true
  · obtain ⟨hg, hrise⟩ := hw.mp hwt
    exact .inl ⟨_, _, (hnext _).mpr ⟨.inr (.inr (.inr ⟨hg, rfl⟩)), hrise⟩, if_pos hwt⟩
  refine .inr ⟨fun e he => ?_, if_neg hwt⟩
  obtain ⟨⟨hg, rfl⟩ | ⟨hg, rfl⟩ | ⟨hg, rfl⟩ | ⟨hg, rfl⟩, hrise⟩ := (hnext e).mp he
  · exact hrt (hr.mpr ⟨hg, hrise⟩)
  · exact hlt (hl.mpr ⟨hg, hrise⟩)
  · exact hut (hu.mpr ⟨hg, hrise⟩)
  · exact hwt (hw.mpr ⟨hg, hrise⟩)

theorem findLongestFromACell_known {d : Int} (hget : getAt dp i j = some d) (hne : d ≠ -1) (steps : Nat) :
    findLongestFromACell n mat (steps + 1) i j dp = some (d, dp) := by
  simp only [findLongestFromACell, hget, Option.bind_eq_bind, Option.bind_some]
  exact if_pos hne

/-- The values rise along the calls, so that `B + 1 - v` of them are enough from a cell with the value `v`. -/
theorem findLongestFromACell_spec {B : Int} (hm : Square n mat) (hf : Fits n mat) (hd : Distinct mat)
    (hB : ∀ i j v, getAt mat i j = some v → v ≤ B) (steps : Nat) : ∀ i j v dp, getAt mat i j = some v →
      (B - v).toNat < steps → Memo n mat dp →
      ∃ r, findLongestFromACell n mat steps i j dp = some r ∧ Found n mat i j dp r := by
  induction steps with
  | zero => exact fun i j v dp hv h => absurd h (Nat.not_lt_zero _)
  | succ steps ih =>
    intro i j v dp hv hsteps hmemo
    obtain ⟨hi, hj⟩ := getAt_lt hm hv
    obtain ⟨d, hget⟩ := exists_getAt hmemo.square hi hj
    by_cases hdone : d = -1
    · subst hdone
      obtain ⟨i', j', hnext, heq⟩ | ⟨hstop, heq⟩ := findLongestFromACell_cases hm hf hi hj hget steps
      · obtain ⟨-, w, hw, hw'⟩ := id hnext
        rw [hv] at hw
        cases hw
        have hle := hB _ _ _ hw'
        obtain ⟨r, hr, hfound⟩ := ih i' j' (v + 1) dp hw' (by omega) hmemo
        obtain ⟨r', hr', hfound'⟩ := hfound.memoise hm hf hd hi hj hnext
        exact ⟨r', by rw [heq, hr, Option.bind_some, hr'], hfound'⟩
      · obtain ⟨dp', hput, hfound⟩ := hmemo.put hi hj (longest_stop hstop)
        exact ⟨(1, dp'), heq.trans (Option.bind_eq_some_iff.mpr ⟨dp', hput, rfl⟩), hfound⟩
    · have hknown := (hmemo.final i j d hget).resolve_left hdone
      exact ⟨(d, dp), findLongestFromACell_known hget hdone steps, hmemo, hget, hknown, fun _ _ _ _ h => h⟩

/-- The state of the loops before cell `(i, j)`: the cells before it are done, and `result` is the
greatest of their entries. -/
structure Progress (n : Nat) (mat : Grid Int) (i j : Nat) (s : Int × Grid Int) : Prop where
  memo : Memo n mat s.2
  pos : 1 ≤ s.1
  done : ∀ k l, k < n → l < n → k < i ∨ k = i ∧ l < j → ∃ x, getAt s.2 k l = some x ∧ x ≠ -1 ∧ x ≤ s.1
  attained : s.1 = 1 ∨ ∃ k l, getAt s.2 k l = some s.1

theorem search_spec {B : Int} (hm : Square n mat) (hf : Fits n mat) (hd : Distinct mat)
    (hB : ∀ i j v, getAt mat i j = some v → v ≤ B) {steps : Nat} (hv : getAt mat i j = some v)
    (hsteps : (B - v).toNat < steps) (hmemo : Memo n mat dp) : ∃ dp', search n mat steps i j dp = some dp' ∧
      Memo n mat dp' ∧ (∃ x, getAt dp' i j = some x ∧ x ≠ -1) ∧
      ∀ k l x, x ≠ -1 → getAt dp k l = some x → getAt dp' k l = some x := by
  obtain ⟨hi, hj⟩ := getAt_lt hm hv
  obtain ⟨d, hget⟩ := exists_getAt hmemo.square hi hj
  simp only [search, hget, Option.bind_eq_bind, Option.bind_some]
  by_cases hdone : d = -1
  · obtain ⟨r, hr, hmemo', hself, ⟨k, hk, -⟩, hkept⟩ :=
      findLongestFromACell_spec hm hf hd hB steps i j v dp hv hsteps hmemo
    exact ⟨r.2, by rw [if_pos hdone, hr]; rfl, hmemo', ⟨r.1, hself, by omega⟩, hkept⟩
  · exact ⟨dp, if_neg hdone, hmemo, ⟨d, hget, hdone⟩, fun _ _ _ _ h => h⟩

theorem visit_spec {B : Int} (hm : Square n mat) (hf : Fits n mat) (hd : Distinct mat)
    (hB : ∀ i j v, getAt mat i j = some v → v ≤ B) {steps : Nat} {s : Int × Grid Int}
    (hv : getAt mat i j = some v) (hsteps : (B - v).toNat < steps) (h : Progress n mat i j s) :
    ∃ s', visit n mat steps i j s = some s' ∧ Progress n mat i (j + 1) s' := by
  obtain ⟨dp', hsearch, hmemo, ⟨x, hx, hne⟩, hkept⟩ := search_spec hm hf hd hB hv hsteps h.memo
  refine ⟨(max s.1 x, dp'), ?_, hmemo, h.pos.trans (Int.le_max_left ..), fun k l hk hl hkl => ?_, ?_⟩
  · simp only [visit, hsearch, hx, Option.bind_eq_bind, Option.bind_some]
    rfl
  · by_cases he : k = i ∧ l = j
    · obtain ⟨rfl, rfl⟩ := he
      exact ⟨x, hx, hne, Int.le_max_right ..⟩
    · obtain ⟨y, hy, hyne, hle⟩ := h.done k l hk hl (by omega)
      exact ⟨y, hkept k l y hyne hy, hyne, hle.trans (Int.le_max_left ..)⟩
  · obtain hle | hle := Int.le_total x s.1
    · rw [Int.max_eq_left hle]
      obtain h1 | ⟨k, l, hkl⟩ := h.attained
      · exact .inl h1
      · have hpos := h.pos
        exact .inr ⟨k, l, hkept k l s.1 (by omega) hkl⟩
    · rw [Int.max_eq_right hle]
      exact .inr ⟨i, j, hx⟩

theorem exists_bounds (l : List Int) : ∃ A B, ∀ v ∈ l, A ≤ v ∧ v ≤ B := by
  induction l with
  | nil => exact ⟨0, 0, by simp⟩
  | cons x l ih =>
    obtain ⟨A, B, h⟩ := ih
    refine ⟨min x A, max x B, fun v hv => ?_⟩
    obtain rfl | hv := List.mem_cons.mp hv
    · exact ⟨Int.min_le_left .., Int.le_max_left ..⟩
    · obtain ⟨hA, hB⟩ := h v hv
      omega

theorem mem_flatten_of_getAt (h : getAt mat i j = some v) : v ∈ mat.flatten := by
  obtain ⟨row, hrow, hv⟩ := Option.bind_eq_some_iff.mp h
  exact List.mem_flatten.mpr ⟨row, List.mem_of_getElem? hrow, List.mem_of_getElem? hv⟩

theorem finLongestOverAll_progress {A B : Int} (hm : Square n mat) (hf : Fits n mat) (hd : Distinct mat)
    (hAB : ∀ i j v, getAt mat i j = some v → A ≤ v ∧ v ≤ B) {steps : Nat} (hsteps : (B - A).toNat < steps) :
    ∃ s, finLongestOverAll n mat steps = some s ∧ Progress n mat n 0 s := by
  have hcell : ∀ i < n, ∀ j < n, ∀ s, Progress n mat i j s →
      ∃ s', visit n mat steps i j s = some s' ∧ Progress n mat i (j + 1) s' := by
    intro i hi j hj s h
    obtain ⟨v, hv⟩ := exists_getAt hm hi hj
    obtain ⟨hA, -⟩ := hAB i j v hv
    exact visit_spec hm hf hd (fun i j v hv => (hAB i j v hv).2) hv (by omega) h
  have hrow : ∀ i < n, ∀ s, Progress n mat i 0 s →
      ∃ s', (List.range n).foldlM (fun s j => visit n mat steps i j s) s = some s' ∧
        Progress n mat (i + 1) 0 s' := by
    intro i hi s h
    obtain ⟨s', hs', hmemo, hpos, hdone, hattained⟩ := foldlM_range_some (I := fun j s => Progress n mat i j s)
      (fun j hj s h => hcell i hi j hj s h) h
    exact ⟨s', hs', hmemo, hpos, fun k l hk hl hkl => hdone k l hk hl (by omega), hattained⟩
  have hstart : Progress n mat 0 0 (1, uniform n (-1)) := by
    refine ⟨⟨square_uniform n _, fun i j x hx => .inl ?_⟩, Int.le_refl 1, fun k l _ _ h => ?_, .inl rfl⟩
    · obtain ⟨hi, hj⟩ := getAt_lt (square_uniform n _) hx
      rw [getAt_uniform hi hj] at hx
      exact (Option.some.inj hx).symm
    · omega
  exact foldlM_range_some (I := fun i s => Progress n mat i 0 s) hrow hstart

end Search

section Result

variable {n : Nat} {mat : Grid Int} {c : Cell} {cs : List Cell}

/-- The answer is the greatest length of a path, and each entry of `dp` the greatest length of a path
from its cell; the calls end and all indices are in range. -/
theorem finLongestOverAll_greatest (n : Nat) (mat : Grid Int) (hn : 1 ≤ n) (hm : Square n mat)
    (hd : Distinct mat) (hf : Fits n mat) : ∃ N, ∀ steps, N ≤ steps → ∃ result dp,
      finLongestOverAll n mat steps = some (result, dp) ∧
      IsGreatest {k : Int | ∃ cs, Path n mat cs ∧ cs.length = k} result ∧
      ∀ i j, i < n → j < n → ∃ k : Nat, getAt dp i j = some k ∧
        IsGreatest {k | ∃ cs, Path n mat ((i, j) :: cs) ∧ ((i, j) :: cs).length = k} k := by
  obtain ⟨A, B, hAB⟩ := exists_bounds mat.flatten
  refine ⟨(B - A).toNat + 1, fun steps hsteps => ?_⟩
  obtain ⟨⟨result, dp⟩, hrun, hmemo, hpos, hdone, hattained⟩ := finLongestOverAll_progress hm hf hd
    (fun i j v hv => hAB v (mem_flatten_of_getAt hv)) hsteps
  have hentry : ∀ i j, i < n → j < n → ∃ k : Nat, getAt dp i j = some k ∧ (k : Int) ≤ result ∧
      Longest (Next mat) (i, j) k := by
    intro i j hi hj
    obtain ⟨x, hx, hne, hle⟩ := hdone i j hi hj (.inl hi)
    obtain ⟨k, rfl, hk⟩ := (hmemo.final i j x hx).resolve_left hne
    exact ⟨k, hx, hle, hk⟩
  refine ⟨result, dp, hrun, ⟨?_, ?_⟩, fun i j hi hj => ?_⟩
  · obtain h1 | ⟨i, j, hij⟩ := hattained
    · refine ⟨[(0, 0)], (path_cons_iff hm).mpr ⟨⟨hn, hn⟩, .singleton _⟩, ?_⟩
      exact h1.symm
    · obtain ⟨hi, hj⟩ := getAt_lt hmemo.square hij
      obtain ⟨k, hk, -, ⟨cs, hcs, hlen⟩, -⟩ := hentry i j hi hj
      rw [hk] at hij
      refine ⟨_, (path_cons_iff hm).mpr ⟨⟨hi, hj⟩, hcs⟩, ?_⟩
      rw [hlen]
      exact Option.some.inj hij
  · rintro _ ⟨cs, hcs, rfl⟩
    obtain ⟨c, cs, rfl⟩ := List.exists_cons_of_ne_nil hcs.nonempty
    obtain ⟨hc, hchain⟩ := (path_cons_iff hm).mp hcs
    obtain ⟨k, -, hle, hlong⟩ := hentry c.1 c.2 hc.1 hc.2
    have hlen := hlong.2 ⟨cs, hchain, rfl⟩
    exact Int.le_trans (Int.ofNat_le.mpr hlen) hle
  · obtain ⟨k, hk, -, hlong⟩ := hentry i j hi hj
    exact ⟨k, hk, (path_longest hm ⟨hi, hj⟩).mp hlong⟩

theorem distinct_of_square (hm : Square n mat) (h : ∀ i < n, ∀ j < n, ∀ k < n, ∀ l < n,
    getAt mat i j = getAt mat k l → i = k ∧ j = l) : Distinct mat := by
  intro i j k l v hv hv'
  obtain ⟨hi, hj⟩ := getAt_lt hm hv
  obtain ⟨hk, hl⟩ := getAt_lt hm hv'
  exact h i hi j hj k hk l hl (hv.trans hv'.symm)

/-- The matrix of the driver. -/
def driver : Grid Int := [[1, 2, 9], [5, 3, 8], [4, 6, 7]]

theorem driver_square : Square 3 driver := ⟨rfl, by decide⟩

set_option synthInstance.maxSize 400 in
theorem driver_distinct : Distinct driver := distinct_of_square driver_square (by decide)

theorem driver_fits : Fits 3 driver := by
  have hall : ∀ i < 3, ∀ j < 3, ∀ v ∈ getAt driver i j, 0 < v ∧ v < INT_MAX := by decide
  refine Fits.of_pos driver_square fun i j v hv => ?_
  obtain ⟨hi, hj⟩ := getAt_lt driver_square hv
  exact hall i hi j hj v hv

theorem finLongestOverAll_driver : ∃ N, ∀ steps, N ≤ steps → ∃ result dp,
    finLongestOverAll 3 driver steps = some (result, dp) ∧
    IsGreatest {k : Int | ∃ cs, Path 3 driver cs ∧ cs.length = k} result ∧
    ∀ i j, i < 3 → j < 3 → ∃ k : Nat, getAt dp i j = some k ∧
      IsGreatest {k | ∃ cs, Path 3 driver ((i, j) :: cs) ∧ ((i, j) :: cs).length = k} k :=
  finLongestOverAll_greatest 3 driver (by decide) driver_square driver_distinct driver_fits

example : (finLongestOverAll 3 driver 10).map Prod.fst = some 4 := by decide

/-- The successor of the first entry is compared with the entry beside it. -/
def extremes : Grid Int := [[INT_MAX, INT_MIN], [10, 20]]

theorem extremes_square : Square 2 extremes := ⟨rfl, by decide⟩

set_option synthInstance.maxSize 400 in
theorem extremes_distinct : Distinct extremes := distinct_of_square extremes_square (by decide)

theorem finLongestOverAll_overflow : Square 2 extremes ∧ Distinct extremes ∧
    (∀ v ∈ extremes.flatten, IsInt v) ∧ ∀ steps, finLongestOverAll 2 extremes steps = none := by
  refine ⟨extremes_square, extremes_distinct, by decide, fun steps => ?_⟩
  cases steps with
  | zero => rfl
  | succ steps => rfl

end Result

end C11AndC.LongestPath
