import Mathlib.Algebra.Order.Ring.Int
import Mathlib.Tactic.Ring
import Mathlib.Tactic.Linarith
import C11AndC.LinkedList.Node

namespace C11AndC.LinkedList

open C11AndC.Library

/-- What `malloc` returns is not written yet; `raw` stands for it. -/
def push (raw : Node) (data : Int) : Prog Unit := do
  let node ← new raw
  store node (fun n => { n with data := data })
  let head ← getReg
  store node (fun n => { n with next := head })
  setReg (fun _ => node)

/-- One round of counting. -/
def getSizeStep (x : Nat × Int) : Prog ((Nat × Int) ⊕ Int) := do
  if x.1 = 0 then
    return .inr x.2
  else
    return .inl ((← load x.1).next, x.2 + 1)

/-- The size is a number: a memory with addresses of 32 bits has fewer nodes than `int` has values. -/
def getSize (steps head : Nat) : Prog Int := loop getSizeStep steps (head, 0)

/-- Add two lists of the same length; the second result is the carry. -/
def addSameSize (raw : Node) : Nat → Nat → Nat → Int → Prog (Nat × Int)
  | 0, _, _, _ => outOfSteps
  | steps + 1, head1, head2, carry => do
    if head1 = 0 then
      return (0, carry)
    else
      let result ← new raw
      let rest ← addSameSize raw steps (← load head1).next (← load head2).next carry
      store result (fun n => { n with next := rest.1 })
      let sum := (← load head1).data + (← load head2).data + rest.2
      store result (fun n => { n with data := sum.tmod 10 })
      return (result, sum.tdiv 10)

/-- Add the carry to the nodes in front of `cur`. -/
def addCarryToRemaining (raw : Node) : Nat → Nat → Nat → Int → Prog Int
  | 0, _, _, _ => outOfSteps
  | steps + 1, head1, cur, carry => do
    if head1 = cur then
      return carry
    else
      let carry ← addCarryToRemaining raw steps (← load head1).next cur carry
      let sum := (← load head1).data + carry
      push raw (sum.tmod 10)
      return sum.tdiv 10

/-- The sum of lists of the same length; the result is the carry. -/
def addEqual (raw : Node) (steps head1 head2 : Nat) : Prog Int := do
  let result ← addSameSize raw steps head1 head2 0
  setReg (fun _ => result.1)
  return result.2

/-- The sum of lists of which the first has `diff` nodes more. -/
def addLonger (raw : Node) (steps diff head1 head2 : Nat) : Prog Int := do
  let cur ← advance diff head1
  let carry ← addEqual raw steps cur head2
  addCarryToRemaining raw steps head1 cur carry

def addSized (raw : Node) (steps head1 head2 : Nat) (size1 size2 : Int) : Prog Int :=
  if size1 = size2 then
    addEqual raw steps head1 head2
  else if size1 < size2 then
    addLonger raw steps (size1 - size2).natAbs head2 head1
  else
    addLonger raw steps (size1 - size2).natAbs head1 head2

def addList (raw : Node) (steps head1 head2 : Nat) : Prog Unit := do
  if head1 = 0 then
    setReg (fun _ => head2)
  else if head2 = 0 then
    setReg (fun _ => head1)
  else
    let carry ← addSized raw steps head1 head2 (← getSize steps head1) (← getSize steps head2)
    if carry = 0 then
      return
    else
      push raw carry

def digits (l : List (Nat × Int)) : List Int := l.map Prod.snd

@[simp] theorem digits_cons (x : Nat × Int) (l : List (Nat × Int)) : digits (x :: l) = x.2 :: digits l := rfl

@[simp] theorem digits_append (xs ys : List (Nat × Int)) : digits (xs ++ ys) = digits xs ++ digits ys :=
  List.map_append

@[simp] theorem length_digits (l : List (Nat × Int)) : (digits l).length = l.length := List.length_map _

/-- The number that a list of digits stands for. -/
def value (l : List Int) : Int := l.foldl (fun v d => 10 * v + d) 0

def IsDigits (l : List Int) : Prop := ∀ d ∈ l, 0 ≤ d ∧ d ≤ 9

/-- Digits that stand for a number, with a carry in front of them. -/
structure IsSum (zs : List Int) (carry : Int) (len : Nat) (total : Int) : Prop where
  length : zs.length = len
  digits : IsDigits zs
  bit : 0 ≤ carry ∧ carry ≤ 1
  sum : value zs + carry * 10 ^ len = total

section Values

variable {a d carry total : Int} {len : Nat} {xs ys zs : List Int}

theorem foldl_value (v : Int) (xs : List Int) :
    xs.foldl (fun v d => 10 * v + d) v = v * 10 ^ xs.length + value xs := by
  induction xs generalizing v with
  | nil => simp [value]
  | cons d xs ih =>
    have h := ih d
    rw [value, List.foldl_cons, List.foldl_cons, ih, mul_zero, zero_add, h, List.length_cons]
    ring

theorem value_cons (d : Int) (xs : List Int) : value (d :: xs) = d * 10 ^ xs.length + value xs := by
  rw [value, List.foldl_cons, mul_zero, zero_add, foldl_value]

theorem value_append (xs ys : List Int) : value (xs ++ ys) = value xs * 10 ^ ys.length + value ys := by
  rw [value, List.foldl_append, foldl_value]
  rfl

theorem isDigits_cons : IsDigits (d :: xs) ↔ (0 ≤ d ∧ d ≤ 9) ∧ IsDigits xs := List.forall_mem_cons

theorem isDigits_append : IsDigits (xs ++ ys) ↔ IsDigits xs ∧ IsDigits ys := List.forall_mem_append

/-- A list of digits stays below the next power of ten. -/
theorem value_bounds (h : IsDigits xs) : 0 ≤ value xs ∧ value xs < 10 ^ xs.length := by
  induction xs with
  | nil => decide
  | cons d xs ih =>
    obtain ⟨hd, hxs⟩ := isDigits_cons.mp h
    obtain ⟨hle, hlt⟩ := ih hxs
    rw [value_cons, List.length_cons, pow_succ]
    constructor
    · have := mul_nonneg hd.1 (pow_nonneg (by decide : (0 : Int) ≤ 10) xs.length)
      omega
    · have := mul_le_mul_of_nonneg_right hd.2 (pow_nonneg (by decide : (0 : Int) ≤ 10) xs.length)
      omega

theorem isSum_nil : IsSum [] 0 0 0 := ⟨rfl, fun _ h => absurd h List.not_mem_nil, by decide, rfl⟩

/-- One column of an addition. -/
theorem isSum_column (h : IsSum zs carry len total) (ha : 0 ≤ a ∧ a ≤ 18) :
    IsSum ((a + carry).tmod 10 :: zs) ((a + carry).tdiv 10) (len + 1) (a * 10 ^ len + total) := by
  have hc := h.bit
  have hsum : 0 ≤ a + carry := by omega
  rw [Int.tmod_eq_emod_of_nonneg hsum, Int.tdiv_eq_ediv_of_nonneg hsum]
  refine ⟨congrArg (· + 1) h.length, isDigits_cons.mpr ⟨by omega, h.digits⟩, by omega, ?_⟩
  have hcol : (a + carry) % 10 + 10 * ((a + carry) / 10) = a + carry := Int.emod_add_mul_ediv ..
  calc value ((a + carry) % 10 :: zs) + (a + carry) / 10 * 10 ^ (len + 1)
      = ((a + carry) % 10 + 10 * ((a + carry) / 10)) * 10 ^ len + value zs := by
        rw [value_cons, h.length, pow_succ]
        ring
    _ = a * 10 ^ len + total := by
        rw [hcol, ← h.sum]
        ring

end Values

section Specs

variable {s : Store Node Nat} {raw : Node} {p q steps : Nat} {xs ys zs : List (Nat × Int)} {carry : Int}

theorem wp_push {Q : Unit → Store Node Nat → Prop} (h : ∀ m, Memory.Kept s.mem m →
    m.cell s.mem.next = some ⟨carry, s.reg⟩ → Q () ⟨m, s.mem.next⟩) : wp (push raw carry) Q s := by
  simp only [push, wp_bind, wp_new, wp_store, wp_getReg, wp_setReg, Memory.cell_alloc_self, Memory.cell_modify_self,
    Option.map_some, Option.isSome_some, true_and]
  have hnew : s.mem.cell s.mem.next = none := s.mem.cell_fresh _ le_rfl
  refine h _ ?_ (by simp)
  exact Memory.kept_modify (Memory.kept_modify (Memory.kept_alloc _ _) hnew _) hnew _

theorem wp_getSize (h : Holds s.mem p xs) (n : Int) (hn : xs.length < steps) :
    wp (loop getSizeStep steps (p, n)) (fun r t => r = n + xs.length ∧ t = s) s := by
  induction steps generalizing p xs n with
  | zero => omega
  | succ steps ih =>
    rw [wp_loop_succ]
    cases xs with
    | nil =>
      cases h
      simp [getSizeStep]
    | cons x xs =>
      obtain ⟨rfl, next, hc, hs⟩ := h
      simp only [getSizeStep, if_neg (Memory.ne_zero_of_cell hc), wp_bind, wp_load, hc, Option.some.injEq,
        exists_eq_left', wp_pure]
      refine wp_mono (ih hs (n + 1) (by simpa using hn)) ?_
      rintro r t ⟨rfl, rfl⟩
      refine ⟨?_, rfl⟩
      rw [List.length_cons]
      omega

theorem wp_advance (h : Holds s.mem p (xs ++ ys)) :
    wp (advance xs.length p) (fun r t => t = s ∧ Segment s.mem r p xs ∧ Holds s.mem r ys) s := by
  induction xs generalizing p with
  | nil =>
    rw [List.length_nil, advance, wp_pure]
    exact ⟨rfl, rfl, h⟩
  | cons x xs ih =>
    obtain ⟨rfl, next, hc, hs⟩ := h
    simp only [List.length_cons, advance, wp_bind, wp_load, hc, Option.some.injEq, exists_eq_left']
    refine wp_mono (ih hs) ?_
    rintro r t ⟨rfl, h1, h2⟩
    exact ⟨rfl, ⟨rfl, next, hc, h1⟩, h2⟩

/-- A node from `malloc` is filled and put in front of a list of nodes that came after it. -/
theorem holds_filled {m m' : Memory Node} {rest : Nat} {d : Int} (hk : Memory.Kept (m.alloc raw) m')
    (hz : Holds m' rest zs) (hfresh : ∀ a ∈ addrs zs, m.next + 1 ≤ a) :
    Holds ((m'.modify m.next (fun n => { n with next := rest })).modify m.next (fun n => { n with data := d }))
      m.next ((m.next, d) :: zs) := by
  have hself : m'.cell m.next = some raw := hk _ _ (Memory.cell_alloc_self ..)
  have hnew : m.next ∉ addrs zs := fun hin => absurd (hfresh _ hin) (Nat.not_succ_le_self _)
  exact ⟨rfl, rest, by simp [hself], segment_modify hnew (segment_modify hnew hz)⟩

theorem value_column {x y : Nat × Int} (hlen : xs.length = ys.length) :
    (x.2 + y.2) * 10 ^ xs.length + (value (digits xs) + value (digits ys)) =
      value (digits (x :: xs)) + value (digits (y :: ys)) := by
  rw [digits_cons, digits_cons, value_cons, value_cons, length_digits, length_digits, hlen]
  ring

/-- The lists stay, and the sum is in nodes of its own. -/
theorem wp_addSameSize (hx : Holds s.mem p xs) (hy : Holds s.mem q ys) (hlen : xs.length = ys.length)
    (hdx : IsDigits (digits xs)) (hdy : IsDigits (digits ys)) (hn : xs.length < steps) :
    wp (addSameSize raw steps p q 0) (fun r t => t.reg = s.reg ∧ Memory.Kept s.mem t.mem ∧
      s.mem.next ≤ t.mem.next ∧ ∃ zs, Holds t.mem r.1 zs ∧ (∀ a ∈ addrs zs, s.mem.next ≤ a) ∧
      IsSum (digits zs) r.2 xs.length (value (digits xs) + value (digits ys))) s := by
  induction steps generalizing s p q xs ys with
  | zero => omega
  | succ steps ih =>
    rw [addSameSize]
    cases xs with
    | nil =>
      cases ys with
      | cons => cases hlen
      | nil =>
        rw [if_pos ((holds_eq_zero hx).mpr rfl), wp_pure]
        exact ⟨rfl, Memory.kept_refl _, le_rfl, [], rfl, fun _ h => absurd h List.not_mem_nil, isSum_nil⟩
    | cons x xs =>
      cases ys with
      | nil => cases hlen
      | cons y ys =>
        obtain ⟨rfl, nx, hcx, hx⟩ := hx
        obtain ⟨rfl, ny, hcy, hy⟩ := hy
        have hkept := Memory.kept_alloc s.mem raw
        have hlen := Nat.succ.inj hlen
        obtain ⟨hdx, hdxs⟩ := isDigits_cons.mp hdx
        obtain ⟨hdy, hdys⟩ := isDigits_cons.mp hdy
        simp only [if_neg (Memory.ne_zero_of_cell hcx), wp_bind, wp_new, wp_load, hkept _ _ hcx, hkept _ _ hcy,
          Option.some.injEq, exists_eq_left']
        refine wp_mono (ih (segment_kept hkept hx) (segment_kept hkept hy) hlen hdxs hdys
          (Nat.lt_of_succ_lt_succ hn)) ?_
        rintro ⟨rest, carry⟩ ⟨m, reg⟩ ⟨hreg, hk, hnext, zs, hz, hfresh, hsum⟩
        have hnew : s.mem.cell s.mem.next = none := s.mem.cell_fresh _ le_rfl
        have hself : m.cell s.mem.next = some raw := hk _ _ (Memory.cell_alloc_self ..)
        have hk1 := Memory.kept_modify (Memory.kept_trans hkept hk) hnew (fun n => { n with next := rest })
        have hk2 := Memory.kept_modify hk1 hnew (fun n => { n with data := (x.2 + y.2 + carry).tmod 10 })
        simp only [wp_store, hself, Option.isSome_some, true_and, hk1 _ _ hcx, hk1 _ _ hcy, Option.some.injEq,
          exists_eq_left', Memory.cell_modify_self, Option.map_some, wp_pure]
        refine ⟨hreg, hk2, Nat.le_of_succ_le hnext, _, holds_filled hk hz hfresh, ?_, ?_⟩
        · exact List.forall_mem_cons.mpr ⟨le_rfl, fun b hb => Nat.le_of_succ_le (hfresh b hb)⟩
        · rw [← value_column hlen]
          exact isSum_column hsum (by omega)

theorem wp_addCarryToRemaining {cur : Nat} {total : Int} {len : Nat} (hx : Segment s.mem cur p xs)
    (hcur : cur ∉ addrs xs) (hdx : IsDigits (digits xs)) (hz : Holds s.mem s.reg zs)
    (hsum : IsSum (digits zs) carry len total) (hn : xs.length < steps) :
    wp (addCarryToRemaining raw steps p cur carry) (fun r t => ∃ out, Holds t.mem t.reg out ∧
      IsSum (digits out) r (xs.length + len) (value (digits xs) * 10 ^ len + total) ∧
      Memory.Kept s.mem t.mem) s := by
  induction steps generalizing p xs with
  | zero => omega
  | succ steps ih =>
    rw [addCarryToRemaining]
    cases xs with
    | nil =>
      have hp : p = cur := hx
      rw [if_pos hp, wp_pure]
      refine ⟨zs, hz, ?_, Memory.kept_refl _⟩
      simpa [digits, value] using hsum
    | cons x xs =>
      obtain ⟨rfl, next, hc, hs⟩ := hx
      obtain ⟨hd, hds⟩ := isDigits_cons.mp hdx
      have hne : x.1 ≠ cur := fun h => hcur (h ▸ List.mem_cons_self)
      simp only [if_neg hne, wp_bind, wp_load, hc, Option.some.injEq, exists_eq_left']
      refine wp_mono (ih hs (fun h => hcur (List.mem_cons_of_mem _ h)) hds (Nat.lt_of_succ_lt_succ hn)) ?_
      rintro c ⟨m, reg⟩ ⟨out, hout, hsum, hk⟩
      refine ⟨_, hk _ _ hc, wp_push fun m' hk' hcell => ?_⟩
      rw [wp_pure]
      refine ⟨(m.next, (x.2 + c).tmod 10) :: out, ⟨rfl, reg, hcell, segment_kept hk' hout⟩, ?_,
        Memory.kept_trans hk hk'⟩
      have hcol := isSum_column hsum (a := x.2) (by omega)
      have hlen : xs.length + len + 1 = (x :: xs).length + len := by
        rw [List.length_cons]
        omega
      have htotal : x.2 * 10 ^ (xs.length + len) + (value (digits xs) * 10 ^ len + total) =
          value (digits (x :: xs)) * 10 ^ len + total := by
        rw [digits_cons, value_cons, length_digits, pow_add]
        ring
      rw [← htotal, ← hlen]
      exact hcol

theorem wp_addEqual (hx : Holds s.mem p xs) (hy : Holds s.mem q ys) (hlen : xs.length = ys.length)
    (hdx : IsDigits (digits xs)) (hdy : IsDigits (digits ys)) (hn : xs.length < steps) :
    wp (addEqual raw steps p q) (fun r t => (∃ out, Holds t.mem t.reg out ∧
      IsSum (digits out) r xs.length (value (digits xs) + value (digits ys))) ∧ Memory.Kept s.mem t.mem) s := by
  simp only [addEqual, wp_bind, wp_setReg, wp_pure]
  refine wp_mono (wp_addSameSize hx hy hlen hdx hdy hn) ?_
  rintro r t ⟨-, hk, -, zs, hz, -, hsum⟩
  exact ⟨⟨zs, hz, hsum⟩, hk⟩

theorem wp_addLonger (hx : Holds s.mem p xs) (hy : Holds s.mem q ys) (hlt : ys.length < xs.length)
    (hdx : IsDigits (digits xs)) (hdy : IsDigits (digits ys)) (hn : xs.length < steps) :
    wp (addLonger raw steps (xs.length - ys.length) p q) (fun r t => ∃ out, Holds t.mem t.reg out ∧
      IsSum (digits out) r xs.length (value (digits xs) + value (digits ys))) s := by
  obtain ⟨us, zs, rfl, hus⟩ : ∃ us zs, xs = us ++ zs ∧ us.length = xs.length - ys.length :=
    ⟨_, _, (List.take_append_drop (xs.length - ys.length) xs).symm, by simp⟩
  have hlen : zs.length = ys.length := by
    rw [List.length_append] at hus hlt
    omega
  rw [digits_append] at hdx ⊢
  obtain ⟨hdu, hdz⟩ := isDigits_append.mp hdx
  rw [← hus, List.length_append]
  rw [List.length_append] at hn
  simp only [addLonger, wp_bind]
  refine wp_mono (wp_advance hx) ?_
  rintro cur t ⟨rfl, hseg, hz⟩
  refine wp_mono (wp_addEqual hz hy hlen hdz hdy (by omega)) ?_
  rintro c t' ⟨⟨out, hout, hsum⟩, hk⟩
  refine wp_mono (wp_addCarryToRemaining (segment_kept hk hseg) (end_not_mem hseg hz) hdu hout hsum (by omega)) ?_
  rintro r u ⟨out', hout', hsum', -⟩
  refine ⟨out', hout', ?_⟩
  rw [value_append, length_digits, add_assoc]
  exact hsum'

theorem wp_addSized (hx : Holds s.mem p xs) (hy : Holds s.mem q ys) (hdx : IsDigits (digits xs))
    (hdy : IsDigits (digits ys)) (hnx : xs.length < steps) (hny : ys.length < steps) :
    wp (addSized raw steps p q xs.length ys.length) (fun r t => ∃ out, Holds t.mem t.reg out ∧
      IsSum (digits out) r (max xs.length ys.length) (value (digits xs) + value (digits ys))) s := by
  rcases lt_trichotomy xs.length ys.length with hlt | heq | hgt
  · have hdiff : ((xs.length : Int) - ys.length).natAbs = ys.length - xs.length := by omega
    rw [addSized, if_neg (by omega), if_pos (by omega), hdiff, max_eq_right hlt.le, add_comm (value _)]
    exact wp_addLonger hy hx hlt hdy hdx hny
  · rw [addSized, if_pos (by omega), heq, max_self, ← heq]
    exact wp_mono (wp_addEqual hx hy heq hdx hdy hnx) fun _ _ h => h.1
  · have hdiff : ((xs.length : Int) - ys.length).natAbs = xs.length - ys.length := by omega
    rw [addSized, if_neg (by omega), if_neg (by omega), hdiff, max_eq_left hgt.le]
    exact wp_addLonger hx hy hgt hdx hdy hnx

/-- A sum with its carry written out in front. -/
theorem isSum_carry {total : Int} {len : Nat} {ds : List Int} (h : IsSum ds carry len total) :
    (carry = 0 → total < 10 ^ len ∧ value ds = total) ∧
      (carry ≠ 0 → 10 ^ len ≤ total ∧ IsDigits (carry :: ds) ∧ value (carry :: ds) = total) := by
  have hb := h.bit
  have hv := value_bounds h.digits
  have hs := h.sum
  rw [h.length] at hv
  constructor
  · rintro rfl
    constructor <;> omega
  · intro hc
    have h1 : carry = 1 := by omega
    rw [h1, one_mul] at hs
    refine ⟨by omega, isDigits_cons.mpr ⟨by omega, h.digits⟩, ?_⟩
    rw [value_cons, h.length, h1, one_mul]
    omega

/-- A list of digits for a number, over `len` columns and one more exactly when it does not fit them. -/
def IsTotal (ds : List Int) (len : Nat) (total : Int) : Prop :=
  IsDigits ds ∧ value ds = total ∧ ds.length = len + if 10 ^ len ≤ total then 1 else 0

theorem wp_addCarry {total : Int} {len : Nat} (hz : Holds s.mem s.reg zs) (hsum : IsSum (digits zs) carry len total) :
    wp (if carry = 0 then pure () else push raw carry)
      (fun _ t => ∃ zs, Holds t.mem t.reg zs ∧ IsTotal (digits zs) len total) s := by
  obtain ⟨hzero, hone⟩ := isSum_carry hsum
  by_cases hc : carry = 0
  · obtain ⟨hlt, hval⟩ := hzero hc
    rw [if_pos hc, wp_pure]
    exact ⟨zs, hz, hsum.digits, hval, by rw [if_neg (by omega), hsum.length, add_zero]⟩
  · obtain ⟨hle, hds, hval⟩ := hone hc
    rw [if_neg hc]
    refine wp_push fun m hk hcell => ⟨(s.mem.next, carry) :: zs, ⟨rfl, _, hcell, segment_kept hk hz⟩, hds, hval, ?_⟩
    rw [if_pos hle, digits_cons, List.length_cons, hsum.length]

/-- The digits of one list stand for the sum where the other list is empty. -/
theorem isTotal_digits (hd : IsDigits (digits xs)) : IsTotal (digits xs) xs.length (value (digits xs)) := by
  have hv := value_bounds hd
  rw [length_digits] at hv
  exact ⟨hd, rfl, by rw [if_neg (by omega), length_digits, add_zero]⟩

end Specs

/-- The sum of two lists of digits, for lists of any lengths. -/
theorem addList_adds (s : Store Node Nat) (raw : Node) (head1 head2 : Nat) (xs ys : List (Nat × Int))
    (hx : Holds s.mem head1 xs) (hy : Holds s.mem head2 ys) (hdx : IsDigits (digits xs))
    (hdy : IsDigits (digits ys)) :
    ∃ enough, ∀ steps, enough ≤ steps → wp (addList raw steps head1 head2) (fun _ t => ∃ zs, Holds t.mem t.reg zs ∧
      IsDigits (digits zs) ∧ value (digits zs) = value (digits xs) + value (digits ys) ∧
      zs.length = max xs.length ys.length +
        if 10 ^ max xs.length ys.length ≤ value (digits xs) + value (digits ys) then 1 else 0) s := by
  refine ⟨xs.length + ys.length + 1, fun steps hsteps => ?_⟩
  suffices h : wp (addList raw steps head1 head2) (fun _ t => ∃ zs, Holds t.mem t.reg zs ∧
      IsTotal (digits zs) (max xs.length ys.length) (value (digits xs) + value (digits ys))) s by
    simpa only [IsTotal, length_digits] using h
  have hnil : value (digits []) = 0 := rfl
  by_cases h1 : head1 = 0
  · obtain rfl := (holds_eq_zero hx).mp h1
    rw [addList, if_pos h1, wp_setReg, List.length_nil, Nat.zero_max, hnil, zero_add]
    exact ⟨ys, hy, isTotal_digits hdy⟩
  by_cases h2 : head2 = 0
  · obtain rfl := (holds_eq_zero hy).mp h2
    rw [addList, if_neg h1, if_pos h2, wp_setReg, List.length_nil, Nat.max_zero, hnil, add_zero]
    exact ⟨xs, hx, isTotal_digits hdx⟩
  rw [addList, if_neg h1, if_neg h2]
  simp only [wp_bind, getSize]
  refine wp_mono (wp_getSize hx 0 (by omega)) ?_
  rintro _ s ⟨rfl, rfl⟩
  refine wp_mono (wp_getSize hy 0 (by omega)) ?_
  rintro _ s ⟨rfl, rfl⟩
  rw [zero_add, zero_add]
  refine wp_mono (wp_addSized hx hy hdx hdy (by omega) (by omega)) ?_
  rintro carry t ⟨out, hout, hsum⟩
  exact wp_addCarry hout hsum

/-- The lists of `99` and `1`. -/
def carriedMemory : Memory Node := ((Memory.empty.alloc ⟨9, 2⟩).alloc ⟨9, 0⟩).alloc ⟨1, 0⟩

theorem addList_adds_carried : ∃ enough, ∀ steps, enough ≤ steps →
    wp (addList ⟨7, 7⟩ steps 1 3) (fun _ t => ∃ zs, Holds t.mem t.reg zs ∧ IsDigits (digits zs) ∧
      value (digits zs) = 99 + 1 ∧ zs.length = 2 + if (10 : Int) ^ 2 ≤ 99 + 1 then 1 else 0) ⟨carriedMemory, 0⟩ :=
  addList_adds ⟨carriedMemory, 0⟩ ⟨7, 7⟩ 1 3 [(1, 9), (2, 9)] [(3, 1)] ⟨rfl, 2, rfl, rfl, 0, rfl, rfl⟩
    ⟨rfl, 0, rfl, rfl⟩ (by simp [IsDigits, digits]) (by simp [IsDigits, digits])

end C11AndC.LinkedList
