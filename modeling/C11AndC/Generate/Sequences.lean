import C11AndC.Library.Alternation
import C11AndC.Library.Lists

namespace C11AndC.Generate

open C11AndC.Library

/-- The output array and the lines that are printed. -/
structure Output where
  C : List Int
  printed : List (List Int)

def printArr (n : Nat) (s : Output) : Option Output := do
  let line ← (List.range n).mapM (fun i => s.C[i]?)
  return { s with printed := s.printed ++ [line] }

/-- `C[i] = x`. -/
def putC (i : Nat) (x : Int) (s : Output) : Option Output := do
  return { s with C := ← put s.C i x }

/-- `for (; k < m; k++)`. -/
def loopFrom (body : Nat → Output → Option Output) (m k : Nat) (s : Output) : Option Output :=
  if k < m then do
    loopFrom body m (k + 1) (← body k s)
  else some s
  termination_by m - k

/-- Include `A[k]`; `recur` stands for the call with a place of `A` and `len`. -/
def includeA (recur : Nat → Nat → Output → Option Output) (A : List Int) (len k : Nat) (s : Output) :
    Option Output := do
  let a ← A[k]?
  if len = 0 then
    recur (k + 1) len (← putC len a s)
  else
    let c ← s.C[len]?
    if c < a then
      recur (k + 1) (len + 1) (← putC (len + 1) a s)
    else
      return s

/-- Include `B[l]`. -/
def includeB (recur : Nat → Nat → Output → Option Output) (B : List Int) (len l : Nat) (s : Output) :
    Option Output := do
  let b ← B[l]?
  let c ← s.C[len]?
  if c < b then
    recur (l + 1) (len + 1) (← putC (len + 1) b s)
  else
    return s

/-- Print what is in front of the next element of `A`, if there is a `B` in it. -/
def printLine (len : Nat) (s : Output) : Option Output := if len ≠ 0 then printArr (len + 1) s else some s

def generateUtil (A B : List Int) (m n : Nat) : Nat → Nat → Nat → Nat → Bool → Output → Option Output
  | 0, _, _, _, _, _ => none
  | steps + 1, i, j, len, true, s => do
    let s ← printLine len s
    loopFrom (includeA (fun i len => generateUtil A B m n steps i j len false) A len) m i s
  | steps + 1, i, j, len, false, s =>
    loopFrom (includeB (fun j len => generateUtil A B m n steps i j len true) B len) n j s

/-- The wrapper, for an output array `C`. -/
def generate (C : List Int) (steps : Nat) (A B : List Int) (m n : Nat) : Option Output :=
  generateUtil A B m n steps 0 0 0 true ⟨C, []⟩

/-- The sequences `a₁ < b₁ < ... < aₖ < bₖ` with `1 ≤ k`. -/
structure Sequence (A B s : List Int) : Prop where
  nonempty : s ≠ []
  even : s.length % 2 = 0
  turns : Alternates A B s
  increasing : s.Pairwise (· < ·)

/-- The sequences that begin with `p` and go on with elements of `X` and `Y` in turn. -/
def Continues (X Y p t : List Int) : Prop :=
  ∃ w, t = p ++ w ∧ Alternates X Y w ∧ t ≠ [] ∧ t.length % 2 = 0 ∧ t.Pairwise (· < ·)

section Sequences

variable {X Y Y' p t : List Int} {x y : Int} {i k : Nat}

theorem continues_iff : Continues X Y p t ↔
    (t = p ∧ p ≠ [] ∧ p.length % 2 = 0 ∧ p.Pairwise (· < ·)) ∨ ∃ x ∈ X, Continues Y X (p ++ [x]) t := by
  constructor
  · rintro ⟨w, rfl, hw, ht⟩
    cases hw with
    | nil => exact Or.inl ⟨List.append_nil p, by simpa only [List.append_nil] using ht⟩
    | @cons _ _ w x hx hw => exact Or.inr ⟨x, hx, w, by rw [List.append_assoc, List.singleton_append], hw, ht⟩
  · rintro (⟨rfl, ht⟩ | ⟨x, hx, w, rfl, hw, ht⟩)
    · exact ⟨[], (List.append_nil t).symm, .nil X Y, ht⟩
    · exact ⟨x :: w, by rw [List.append_assoc, List.singleton_append], .cons hx hw, ht⟩

/-- Only what is behind the last element of `p` can follow. -/
theorem continues_congr (h : ∀ z, x < z → (z ∈ Y ↔ z ∈ Y')) :
    Continues X Y (p ++ [x]) t ↔ Continues X Y' (p ++ [x]) t := by
  refine exists_congr fun w => and_congr_right ?_
  rintro rfl
  refine and_congr_left fun ht => alternates_congr (fun _ _ => Iff.rfl) fun z hz => h z ?_
  exact (List.pairwise_append.mp ht.2.2).2.2 x (List.mem_append_right _ (List.mem_singleton_self x)) z hz

theorem continues_unique (hx : Continues X Y (p ++ [x]) t) (hy : Continues X Y (p ++ [y]) t) : x = y := by
  obtain ⟨v, rfl, -⟩ := hx
  obtain ⟨w, he, -⟩ := hy
  rw [List.append_assoc, List.append_assoc, List.append_cancel_left_eq] at he
  exact (List.cons.inj he).1

theorem not_continues_self : ¬ Continues X Y (p ++ [x]) p := by
  rintro ⟨w, he, -⟩
  have := congrArg List.length he
  rw [List.length_append, List.length_append, List.length_singleton] at this
  omega

theorem mem_drop_of_lt (hX : X.Pairwise (· < ·)) (hi : i ≤ k) (hk : X[k]? = some x) (z : Int) (hz : x < z) :
    z ∈ X.drop (k + 1) ↔ z ∈ X.drop i := by
  obtain ⟨hlt, rfl⟩ := List.getElem?_eq_some_iff.mp hk
  rw [List.mem_drop_iff_getElem, List.mem_drop_iff_getElem]
  constructor
  · rintro ⟨j, hj, rfl⟩
    exact ⟨k + 1 + j - i, by omega, by congr 1; omega⟩
  · rintro ⟨j, hj, rfl⟩
    have hlt : k < i + j := by
      by_contra hle
      rcases Nat.eq_or_lt_of_le (Nat.not_lt.mp hle) with he | hlt
      · simp only [he] at hz
        exact Int.lt_irrefl _ hz
      · exact Int.lt_asymm hz (List.pairwise_iff_getElem.mp hX (i + j) k (by omega) (by omega) hlt)
    exact ⟨i + j - (k + 1), by omega, by congr 1; omega⟩

theorem increasing_snoc (hp : (p ++ [y]).Pairwise (· < ·)) : (p ++ [y] ++ [x]).Pairwise (· < ·) ↔ y < x := by
  rw [List.pairwise_append]
  constructor
  · exact fun h => h.2.2 y (List.mem_append_right _ (List.mem_singleton_self y)) x (List.mem_singleton_self x)
  · refine fun h => ⟨hp, List.pairwise_singleton _ _, fun z hz w hw => ?_⟩
    rw [List.mem_singleton.mp hw]
    rcases List.mem_append.mp hz with hz | hz
    · exact Int.lt_trans ((List.pairwise_append.mp hp).2.2 z hz y (List.mem_singleton_self y)) h
    · rwa [List.mem_singleton.mp hz]

end Sequences

/-- The output array has `c` places and begins with `p`. -/
def Stored (c : Nat) (p : List Int) (s : Output) : Prop := p <+: s.C ∧ s.C.length = c

/-- The search behind `p` prints what satisfies `P`, and `p` stays in the array. -/
def Prints (c : Nat) (p : List Int) (P : List Int → Prop) (s : Output) (r : Option Output) : Prop :=
  ∃ s' lines, r = some s' ∧ Stored c p s' ∧ s'.printed = s.printed ++ lines ∧ Enumerates lines P

section Searches

variable {c i k n : Nat} {p q X : List Int} {x : Int} {P Q : List Int → Prop} {s : Output} {r : Option Output}

theorem prints_nothing (hs : Stored c p s) (h : ∀ t, ¬ P t) : Prints c p P s (some s) :=
  ⟨s, [], rfl, hs, (List.append_nil _).symm, enumerates_nil h⟩

theorem prints_congr (h : ∀ t, P t ↔ Q t) (hp : Prints c p P s r) : Prints c p Q s r := by
  obtain ⟨s', lines, hr, hs, hl, he⟩ := hp
  exact ⟨s', lines, hr, hs, hl, enumerates_congr h he⟩

theorem prints_prefix (hp : Prints c (p ++ q) P s r) : Prints c p P s r := by
  obtain ⟨s', lines, hr, hs, hl, he⟩ := hp
  exact ⟨s', lines, hr, ⟨(List.prefix_append p q).trans hs.1, hs.2⟩, hl, he⟩

/-- One search after the other, for different lines. -/
theorem prints_bind {f : Output → Option Output} (hp : Prints c p P s r)
    (hf : ∀ s', Stored c p s' → Prints c p Q s' (f s')) (h : ∀ t, P t → ¬ Q t) :
    Prints c p (fun t => P t ∨ Q t) s (r >>= f) := by
  obtain ⟨s', lines, rfl, hs, hl, he⟩ := hp
  obtain ⟨s'', lines', hr, hs', hl', he'⟩ := hf s' hs
  refine ⟨s'', lines ++ lines', hr, hs', ?_, enumerates_append he he' h⟩
  rw [hl', hl, List.append_assoc]

/-- The loop over the elements of `X` from place `k` on. -/
theorem prints_loop {P : Int → List Int → Prop} {body : Nat → Output → Option Output} (hX : X.Nodup)
    (hP : ∀ x y t, P x t → P y t → x = y)
    (hbody : ∀ j x s, k ≤ j → X[j]? = some x → Stored c p s → Prints c p (P x) s (body j s)) (hs : Stored c p s) :
    Prints c p (fun t => ∃ x ∈ X.drop k, P x t) s (loopFrom body X.length k s) := by
  induction hd : X.length - k generalizing k s with
  | zero =>
    rw [loopFrom, if_neg (by omega)]
    refine prints_nothing hs ?_
    rw [List.drop_eq_nil_of_le (by omega)]
    rintro t ⟨x, hx, -⟩
    exact List.not_mem_nil hx
  | succ d ih =>
    have hk : k < X.length := by omega
    have hdrop := List.drop_eq_getElem_cons hk
    have hnot : X[k] ∉ X.drop (k + 1) := by
      have hn := (List.drop_sublist k X).nodup hX
      rw [hdrop] at hn
      exact (List.nodup_cons.mp hn).1
    rw [loopFrom, if_pos hk]
    refine prints_congr (fun t => ?_) (prints_bind (hbody k X[k] s (Nat.le_refl k) (List.getElem?_eq_getElem hk) hs)
      (fun s' hs' => ih (fun j x s hj => hbody j x s (by omega)) hs' (by omega)) ?_)
    · rw [hdrop]
      simp only [List.mem_cons, exists_eq_or_imp]
    · rintro t ht ⟨x, hx, hx'⟩
      exact hnot (hP _ _ t ht hx' ▸ hx)

theorem stored_putC (hs : Stored c p s) (hp : p.length < c) :
    ∃ s', putC p.length x s = some s' ∧ Stored c (p ++ [x]) s' ∧ s'.printed = s.printed := by
  obtain ⟨⟨rest, hC⟩, hc⟩ := hs
  have hrest : 0 < rest.length := by
    rw [← hC, List.length_append] at hc
    omega
  refine ⟨{ s with C := p ++ [x] ++ rest.drop 1 }, ?_, ⟨List.prefix_append _ _, ?_⟩, rfl⟩
  · rw [putC, ← hC, put_append rfl hrest]
    rfl
  · rw [← hc, ← hC]
    simp only [List.length_append, List.length_singleton, List.length_drop]
    omega

theorem stored_last {y : Int} (hs : Stored c (p ++ [y]) s) : s.C[p.length]? = some y := by
  obtain ⟨⟨rest, hC⟩, -⟩ := hs
  rw [← hC, List.append_assoc, List.getElem?_append_right (Nat.le_refl _), Nat.sub_self]
  rfl

/-- The line of `p` is printed, if there is one. -/
theorem prints_printLine (hs : Stored c p s) (hp : p.length % 2 = 0) :
    Prints c p (fun t => t = p ∧ p ≠ []) s (printLine (p.length - 1) s) := by
  rw [printLine]
  by_cases hnil : p = []
  · rw [if_neg (by simp [hnil])]
    exact prints_nothing hs fun t ht => ht.2 hnil
  · have hlen := List.length_pos_iff.mpr hnil
    have hle : p.length ≤ s.C.length := hs.1.length_le
    rw [if_pos (by omega), Nat.sub_add_cancel hlen, printArr, mapM_getElem? hle, ← List.prefix_iff_eq_take.mp hs.1]
    exact ⟨_, [p], rfl, hs, rfl, enumerates_congr (fun t => (and_iff_left hnil).symm) (enumerates_singleton p)⟩

/-- An element is tried behind `p`: the search goes on with it if the sequence still increases. -/
def Tries (recur : Nat → Nat → Output → Option Output) (c : Nat) (p : List Int) (x : Int) (k : Nat) (s : Output)
    (r : Option Output) : Prop :=
  ((p ++ [x]).Pairwise (· < ·) ∧
    ∃ s', Stored c (p ++ [x]) s' ∧ s'.printed = s.printed ∧ r = recur (k + 1) p.length s') ∨
  (¬ (p ++ [x]).Pairwise (· < ·) ∧ r = some s)

theorem prints_tries {recur : Nat → Nat → Output → Option Output} {Y : List Int} (h : Tries recur c p x k s r)
    (hs : Stored c p s)
    (hrecur : ∀ s', (p ++ [x]).Pairwise (· < ·) → Stored c (p ++ [x]) s' →
      Prints c (p ++ [x]) (Continues X Y (p ++ [x])) s' (recur (k + 1) p.length s')) :
    Prints c p (Continues X Y (p ++ [x])) s r := by
  rcases h with ⟨hlt, s', hs', hl, rfl⟩ | ⟨hlt, rfl⟩
  · obtain ⟨s'', lines, hr, hp, hl', he⟩ := prints_prefix (hrecur s' hlt hs')
    exact ⟨s'', lines, hr, hp, hl ▸ hl', he⟩
  · refine prints_nothing hs ?_
    rintro t ⟨w, rfl, -, -, -, hw⟩
    exact hlt (List.pairwise_append.mp hw).1

variable {recur : Nat → Nat → Output → Option Output}

theorem tries_includeB (hx : X[k]? = some x) (hp : p.Pairwise (· < ·)) (hne : p ≠ []) (hs : Stored c p s)
    (hfit : (p ++ [x]).Pairwise (· < ·) → p.length < c) :
    Tries recur c p x k s (includeB recur X (p.length - 1) k s) := by
  obtain ⟨q, y, rfl⟩ := (List.eq_nil_or_concat' p).resolve_left hne
  have hlen : (q ++ [y]).length - 1 = q.length := by simp
  rw [includeB, hx, hlen, stored_last hs]
  simp only [Option.bind_eq_bind, Option.bind_some]
  by_cases hlt : y < x
  · have hinc := (increasing_snoc hp).mpr hlt
    obtain ⟨s', hput, hs', hl⟩ := stored_putC (x := x) hs (hfit hinc)
    refine Or.inl ⟨hinc, s', hs', hl, ?_⟩
    rw [List.length_append, List.length_singleton] at hput ⊢
    rw [if_pos hlt, hput]
    rfl
  · exact Or.inr ⟨fun h => hlt ((increasing_snoc hp).mp h), if_neg hlt⟩

theorem tries_includeA (hx : X[k]? = some x) (hp : p.Pairwise (· < ·)) (heven : p.length % 2 = 0) (hs : Stored c p s)
    (hfit : (p ++ [x]).Pairwise (· < ·) → p.length < c) :
    Tries recur c p x k s (includeA recur X (p.length - 1) k s) := by
  by_cases hne : p = []
  · subst hne
    have hlt : ([] ++ [x]).Pairwise (· < ·) := List.pairwise_singleton _ _
    obtain ⟨s', hput, hs', hl⟩ := stored_putC (x := x) hs (hfit hlt)
    refine Or.inl ⟨hlt, s', hs', hl, ?_⟩
    rw [List.length_nil] at hput
    simp [includeA, hx, hput]
  · have hlen := List.length_pos_iff.mpr hne
    have hb : Tries recur c p x k s (includeB recur X (p.length - 1) k s) := tries_includeB hx hp hne hs hfit
    rw [includeB] at hb
    rw [includeA]
    simpa only [if_neg (show ¬ p.length - 1 = 0 by omega)] using hb

end Searches

/-- The output array has room for every increasing sequence with elements of `A` and `B` in turn. -/
def Room (A B C : List Int) : Prop := ∀ s, Alternates A B s → s.Pairwise (· < ·) → s.length ≤ C.length

theorem room_of_length {A B C : List Int} (h : A.length + B.length ≤ C.length) : Room A B C := by
  intro s hs hlt
  exact Nat.le_trans (alternates_length hs (hlt.imp Int.ne_of_lt)) h

section Calls

variable {A B C : List Int} {steps i j : Nat} {p : List Int} {s : Output}

/-- What a call prints, for a sequence `p` that is in the output array: the next element is from `A` if `p` has
an even length, and from `B` otherwise. -/
structure Spec (A B C : List Int) (steps i j : Nat) (p : List Int) (s : Output) : Prop where
  even : p.length % 2 = 0 → Prints C.length p (Continues (A.drop i) (B.drop j) p) s
    (generateUtil A B A.length B.length steps i j (p.length - 1) true s)
  odd : p.length % 2 ≠ 0 → Prints C.length p (Continues (B.drop j) (A.drop i) p) s
    (generateUtil A B A.length B.length steps i j (p.length - 1) false s)

theorem generateUtil_spec (hA : A.Pairwise (· < ·)) (hB : B.Pairwise (· < ·)) (hroom : Room A B C)
    (hp : p.Pairwise (· < ·)) (halt : Alternates A B p) (hs : Stored C.length p s)
    (hn : (A.length - i) + (B.length - j) < steps) : Spec A B C steps i j p s := by
  induction steps generalizing i j p s with
  | zero => omega
  | succ steps ih =>
    have hfit : ∀ x, Alternates A B (p ++ [x]) → (p ++ [x]).Pairwise (· < ·) → p.length < C.length := by
      intro x hx hlt
      have := hroom _ hx hlt
      rwa [List.length_append, List.length_singleton] at this
    have hlen : ∀ x : Int, (p ++ [x]).length = p.length + 1 := fun x => by simp
    constructor
    · intro heven
      rw [generateUtil]
      refine prints_congr (fun t => ?_) (prints_bind (prints_printLine hs heven) (fun t ht =>
        prints_loop (P := fun x => Continues (B.drop j) (A.drop i) (p ++ [x])) (hA.imp Int.ne_of_lt)
          (fun x y t => continues_unique) ?_ ht) ?_)
      · rw [continues_iff, and_iff_left (a := p ≠ []) ⟨heven, hp⟩]
      · intro k x t hk hx ht
        obtain ⟨hlt, rfl⟩ := List.getElem?_eq_some_iff.mp hx
        have hx' : Alternates A B (p ++ [A[k]]) :=
          alternates_snoc halt (fun _ => List.getElem_mem hlt) fun hodd => absurd heven hodd
        refine prints_tries (tries_includeA hx hp heven ht (hfit _ hx')) ht fun u hlt' hu => ?_
        have hcall := (ih (i := k + 1) (j := j) hlt' hx' hu (by omega)).odd (by rw [hlen]; omega)
        rw [hlen, Nat.add_sub_cancel] at hcall
        exact prints_congr (fun t => continues_congr (mem_drop_of_lt hA hk hx)) hcall
      · rintro t ⟨rfl, -⟩ ⟨x, -, ht⟩
        exact not_continues_self ht
    · intro hodd
      rw [generateUtil]
      have hne : p ≠ [] := by
        rintro rfl
        exact hodd rfl
      refine prints_congr (fun t => ?_) (prints_loop
        (P := fun x => Continues (A.drop i) (B.drop j) (p ++ [x])) (hB.imp Int.ne_of_lt)
          (fun x y t => continues_unique) ?_ hs)
      · rw [continues_iff, or_iff_right (fun h => hodd h.2.2.1)]
      · intro k x t hk hx ht
        obtain ⟨hlt, rfl⟩ := List.getElem?_eq_some_iff.mp hx
        have hx' : Alternates A B (p ++ [B[k]]) :=
          alternates_snoc halt (fun heven => absurd heven hodd) fun _ => List.getElem_mem hlt
        refine prints_tries (tries_includeB hx hp hne ht (hfit _ hx')) ht fun u hlt' hu => ?_
        have hcall := (ih (i := i) (j := k + 1) hlt' hx' hu (by omega)).even (by rw [hlen]; omega)
        rw [hlen, Nat.add_sub_cancel] at hcall
        exact prints_congr (fun t => continues_congr (mem_drop_of_lt hB hk hx)) hcall

end Calls

/-- The sequences are printed, each of them once. -/
theorem generate_enumerates (A B C : List Int) (hA : A.Pairwise (· < ·)) (hB : B.Pairwise (· < ·))
    (hroom : Room A B C) : ∃ enough, ∀ steps, enough ≤ steps →
      ∃ s, generate C steps A B A.length B.length = some s ∧ Enumerates s.printed (Sequence A B) := by
  refine ⟨A.length + B.length + 1, fun steps hsteps => ?_⟩
  have hspec : Spec A B C steps 0 0 [] ⟨C, []⟩ :=
    generateUtil_spec hA hB hroom List.Pairwise.nil (.nil A B) ⟨List.nil_prefix, rfl⟩ (by omega)
  obtain ⟨s, lines, hr, -, hl, he⟩ := hspec.even rfl
  refine ⟨s, hr, hl ▸ enumerates_congr (fun t => ?_) he⟩
  constructor
  · rintro ⟨w, rfl, hw, hne, heven, hlt⟩
    exact ⟨hne, heven, hw, hlt⟩
  · exact fun h => ⟨t, rfl, h.turns, h.nonempty, h.even, h.increasing⟩

/-- The arrays of the driver, and the output array of the wrapper. -/
theorem generate_enumerates_driver : ∃ enough, ∀ steps, enough ≤ steps →
    ∃ s, generate (List.replicate 6 0) steps [10, 15, 25] [5, 20, 30] 3 3 = some s ∧
      Enumerates s.printed (Sequence [10, 15, 25] [5, 20, 30]) :=
  generate_enumerates [10, 15, 25] [5, 20, 30] (List.replicate 6 0) (by decide) (by decide)
    (room_of_length (by decide))

end C11AndC.Generate
