import Mathlib.Algebra.Ring.Nat
import Mathlib.Data.List.Nodup
import Mathlib.Logic.Function.Iterate
import C11AndC.LinkedList.Node

namespace C11AndC.LinkedList.Weave

open C11AndC.Library

/-- One round of `merge`, with the pointers `p_curr` and `q_curr`. -/
def mergeStep (x : Nat × Nat) : Prog ((Nat × Nat) ⊕ Nat) := do
  let (pCurr, qCurr) := x
  if pCurr ≠ 0 ∧ qCurr ≠ 0 then
    let pNext := (← load pCurr).next
    let qNext := (← load qCurr).next
    store qCurr (fun v => { v with next := pNext })
    store pCurr (fun v => { v with next := qCurr })
    return .inl (pNext, qNext)
  else
    return .inr qCurr

/-- The pointer `q` of the caller is the variable of the store. -/
def merge (steps p : Nat) : Prog Unit := do
  let qCurr ← loop mergeStep steps (p, ← getReg)
  setReg (fun _ => qCurr)

/-- Calls of `merge` one after the other, each with what the last one has left of the second list. -/
def merges (steps p : Nat) : Nat → Prog Unit
  | 0 => return ()
  | calls + 1 => do
    merge steps p
    merges steps p calls

section Lists

variable {α : Type}

/-- The elements of both lists in turn, as long as the first list has any. -/
def weave : List α → List α → List α
  | [], _ => []
  | xs, [] => xs
  | x :: xs, y :: ys => x :: y :: weave xs ys

/-- A call on both lists: the second one keeps what has found no place. -/
def insert (l : List α × List α) : List α × List α := (weave l.1 l.2, l.2.drop l.1.length)

theorem weave_perm (xs ys : List α) : (weave xs ys).Perm (xs ++ ys.take xs.length) := by
  fun_induction weave xs ys with
  | case1 => simp
  | case2 => simp
  | case3 x xs y ys ih =>
    rw [List.length_cons, List.take_succ_cons, List.cons_append]
    exact ((ih.cons y).trans List.perm_middle.symm).cons x

theorem sublist_weave (xs ys : List α) : xs.Sublist (weave xs ys) := by
  fun_induction weave xs ys with
  | case1 => exact List.Sublist.refl _
  | case2 xs => exact List.Sublist.refl xs
  | case3 x xs y ys ih => exact (ih.cons y).cons_cons x

/-- So far `k` elements of `ys` have been asked for, and have moved as far as there are as many. -/
structure Inserted (xs ys : List α) (k : Nat) (l : List α × List α) : Prop where
  left : l.2 = ys.drop k
  perm : l.1.Perm (xs ++ ys.take k)
  order : xs.Sublist l.1

variable {xs ys : List α} {l : List α × List α} {k : Nat}

theorem Inserted.length (h : Inserted xs ys k l) : l.1.length = xs.length + min k ys.length := by
  rw [h.perm.length_eq, List.length_append, List.length_take]

theorem inserted_insert (h : Inserted xs ys k l) : Inserted xs ys (k + l.1.length) (insert l) := by
  obtain ⟨as, bs⟩ := l
  obtain ⟨rfl, hperm, horder⟩ := h
  constructor
  case left => exact List.drop_drop
  case perm =>
    apply (weave_perm as (ys.drop k)).trans
    rw [List.take_add, ← List.append_assoc]
    exact hperm.append_right _
  case order => exact horder.trans (sublist_weave as _)

theorem inserted_congr {k' : Nat} (hk : min k ys.length = min k' ys.length) (h : Inserted xs ys k l) :
    Inserted xs ys k' l := by
  have htake : ys.take k' = ys.take k := by rw [List.take_eq_take_min, ← hk, ← List.take_eq_take_min]
  have hdrop : ys.drop k' = ys.drop k := by
    obtain hle | hle := Nat.le_total k ys.length
    · obtain hle' | hle' := Nat.le_total k' ys.length
      · rw [Nat.min_eq_left hle, Nat.min_eq_left hle'] at hk
        rw [hk]
      · rw [List.drop_eq_nil_of_le hle', List.drop_eq_nil_of_le (by omega)]
    · rw [List.drop_eq_nil_of_le hle, List.drop_eq_nil_of_le (by omega)]
  constructor
  case left => exact h.left.trans hdrop.symm
  case perm => exact htake ▸ h.perm
  case order => exact h.order

/-- Each call doubles the first list while the second one lasts. -/
theorem inserted_iterate (xs ys : List α) (calls : Nat) :
    Inserted xs ys ((2 ^ calls - 1) * xs.length) (insert^[calls] (xs, ys)) := by
  induction calls with
  | zero =>
    constructor
    case left => simp
    case perm => simp
    case order => exact List.Sublist.refl xs
  | succ calls ih =>
    rw [Function.iterate_succ_apply']
    have hone := Nat.one_le_two_pow (n := calls)
    have hnext : (2 ^ (calls + 1) - 1) * xs.length = 2 * ((2 ^ calls - 1) * xs.length) + xs.length := by
      rw [← Nat.mul_assoc, ← Nat.succ_mul, Nat.pow_succ]
      congr 1
      omega
    apply inserted_congr _ (inserted_insert ih)
    rw [ih.length, hnext]
    omega

end Lists

variable {m m' : Memory Node} {s : Store Node Nat} {p q steps : Nat} {x y : Nat × Int} {xs ys : List (Nat × Int)}

/-- The first list is `xs`, the second one `ys`, and they share no node. -/
structure Apart (m : Memory Node) (p q : Nat) (xs ys : List (Nat × Int)) : Prop where
  first : Holds m p xs
  second : Holds m q ys
  apart : (addrs xs).Disjoint (addrs ys)

theorem addrs_insert (xs ys : List (Nat × Int)) :
    (addrs (insert (xs, ys)).1 ++ addrs (insert (xs, ys)).2).Perm (addrs xs ++ addrs ys) := by
  rw [← addrs_append, ← addrs_append]
  apply List.Perm.map
  apply ((weave_perm xs ys).append_right _).trans
  rw [insert, List.append_assoc, List.take_append_drop]

/-- What a call leaves are two lists apart again. -/
theorem apart_insert (h : Apart m p q xs ys) {p' q' : Nat} (hp : Holds m' p' (weave xs ys))
    (hq : Holds m' q' (ys.drop xs.length)) : Apart m' p' q' (weave xs ys) (ys.drop xs.length) := by
  constructor
  case first => exact hp
  case second => exact hq
  case apart =>
    have hnodup := List.nodup_append'.mpr ⟨holds_nodup h.first, holds_nodup h.second, h.apart⟩
    exact (List.nodup_append'.mp ((addrs_insert xs ys).nodup_iff.mpr hnodup)).2.2

/-- The front nodes of both lists, and what is left of the lists whatever is written to these. -/
theorem apart_fronts (h : Apart m p q (x :: xs) (y :: ys)) : ∃ pNext qNext,
    m.cell p = some ⟨x.2, pNext⟩ ∧ m.cell q = some ⟨y.2, qNext⟩ ∧ q ≠ p ∧
      p ∉ addrs xs ++ addrs ys ∧ q ∉ addrs xs ++ addrs ys ∧
      ∀ f g : Node → Node, Apart ((m.modify q f).modify p g) pNext qNext xs ys := by
  have hx := (List.nodup_cons.mp (holds_nodup h.first)).1
  have hy := (List.nodup_cons.mp (holds_nodup h.second)).1
  obtain ⟨⟨rfl, pNext, hcx, hxs⟩, ⟨rfl, qNext, hcy, hys⟩, hapart⟩ := h
  obtain ⟨hxys, hapart⟩ := List.disjoint_cons_left.mp hapart
  obtain ⟨hyxs, hapart⟩ := List.disjoint_cons_right.mp hapart
  obtain ⟨hne, hxys⟩ := not_or.mp (fun h => hxys (List.mem_cons.mpr h))
  refine ⟨pNext, qNext, hcx, hcy, Ne.symm hne, ?_, ?_, fun f g => ?_⟩
  · exact fun ha => (List.mem_append.mp ha).elim hx hxys
  · exact fun ha => (List.mem_append.mp ha).elim hyxs hy
  · constructor
    case first => exact segment_modify hx (segment_modify hyxs hxs)
    case second => exact segment_modify hxys (segment_modify hy hys)
    case apart => exact hapart

/-- The loop, with both pointers at the fronts of what is left of the lists. -/
theorem wp_mergeLoop (h : Apart s.mem p q xs ys) (hsteps : ys.length < steps) :
    wp (loop mergeStep steps (p, q)) (fun r t => t.reg = s.reg ∧
      Holds t.mem p (weave xs ys) ∧ Holds t.mem r (ys.drop xs.length) ∧
      Memory.SameExcept (addrs xs ++ addrs ys) s.mem t.mem) s := by
  induction steps generalizing s p q xs ys with
  | zero => omega
  | succ steps ih =>
    rw [wp_loop_succ]
    cases xs with
    | nil =>
      cases h.first
      simp only [mergeStep, ne_eq, not_true_eq_false, false_and, if_false, wp_pure]
      exact ⟨trivial, rfl, h.second, Memory.sameExcept_refl _ _⟩
    | cons x xs =>
      cases ys with
      | nil =>
        cases h.second
        simp only [mergeStep, ne_eq, not_true_eq_false, and_false, if_false, wp_pure]
        exact ⟨trivial, h.first, rfl, Memory.sameExcept_refl _ _⟩
      | cons y ys =>
        obtain ⟨rfl, -⟩ := h.first
        obtain ⟨rfl, -⟩ := h.second
        obtain ⟨pNext, qNext, hcx, hcy, hne, hx, hy, htail⟩ := apart_fronts h
        have hcx' : (s.mem.modify y.1 (fun v => { v with next := pNext })).cell x.1 = some ⟨x.2, pNext⟩ :=
          (Memory.cell_modify_ne _ (Ne.symm hne) _).trans hcx
        simp only [mergeStep, Memory.ne_zero_of_cell hcx, Memory.ne_zero_of_cell hcy, ne_eq, not_false_eq_true,
          and_self, if_true, wp_bind, wp_load, hcx, hcy, Option.some.injEq, exists_eq_left', wp_store,
          Option.isSome_some, true_and, hcx', wp_pure]
        apply wp_mono (ih (htail _ _) (Nat.lt_of_succ_lt_succ hsteps))
        rintro r t ⟨hreg, hp, hq, hframe⟩
        refine ⟨hreg, ⟨rfl, y.1, ?_, rfl, pNext, ?_, hp⟩, hq, ?_⟩
        · rw [hframe x.1 hx, Memory.cell_modify_self, hcx']
          rfl
        · rw [hframe y.1 hy, Memory.cell_modify_ne _ hne, Memory.cell_modify_self, hcy]
          rfl
        · have hsub : addrs xs ++ addrs ys ⊆ addrs (x :: xs) ++ addrs (y :: ys) := by
            apply List.append_subset.mpr
            exact ⟨fun a ha => List.mem_append_left _ (List.mem_cons_of_mem _ ha),
              fun a ha => List.mem_append_right _ (List.mem_cons_of_mem _ ha)⟩
          have hfirst := Memory.sameExcept_modify
            (List.mem_append_right (addrs (x :: xs)) (List.mem_cons_self (a := y.1) (l := addrs ys))) s.mem
            (fun v : Node => { v with next := pNext })
          have hsecond := Memory.sameExcept_modify
            (List.mem_append_left (addrs (y :: ys)) (List.mem_cons_self (a := x.1) (l := addrs xs)))
            (s.mem.modify y.1 (fun v => { v with next := pNext })) (fun v : Node => { v with next := y.1 })
          exact Memory.sameExcept_trans (Memory.sameExcept_trans hfirst hsecond) (Memory.sameExcept_mono hsub hframe)

theorem wp_merge (h : Apart s.mem p s.reg xs ys) (hsteps : ys.length < steps) :
    wp (merge steps p) (fun _ t => Apart t.mem p t.reg (insert (xs, ys)).1 (insert (xs, ys)).2 ∧
      Memory.SameExcept (addrs xs ++ addrs ys) s.mem t.mem) s := by
  rw [merge, wp_bind, wp_getReg, wp_bind]
  apply wp_mono (wp_mergeLoop h hsteps)
  rintro r t ⟨-, hp, hq, hframe⟩
  rw [wp_setReg]
  exact ⟨apart_insert h hp hq, hframe⟩

theorem wp_merges (calls : Nat) (h : Apart s.mem p s.reg xs ys) (hsteps : ys.length < steps) :
    wp (merges steps p calls) (fun _ t =>
      Apart t.mem p t.reg (insert^[calls] (xs, ys)).1 (insert^[calls] (xs, ys)).2 ∧
      Memory.SameExcept (addrs xs ++ addrs ys) s.mem t.mem) s := by
  induction calls generalizing s xs ys with
  | zero =>
    rw [merges, wp_pure]
    exact ⟨h, Memory.sameExcept_refl _ _⟩
  | succ calls ih =>
    rw [merges, wp_bind]
    apply wp_mono (wp_merge h hsteps)
    rintro _ t ⟨hlists, hframe⟩
    have hlen : (ys.drop xs.length).length < steps := by
      rw [List.length_drop]
      omega
    apply wp_mono (ih hlists hlen)
    rintro _ u ⟨hlists', hframe'⟩
    exact ⟨hlists', Memory.sameExcept_trans hframe
      (Memory.sameExcept_mono (addrs_insert xs ys).subset hframe')⟩

/-- Any number of calls on two lists that share no node. None of them follows a pointer that leads nowhere, each
doubles the first list as long as the second one lasts, the nodes of the first list keep their order, and nothing
but the links of the nodes of both lists is written. -/
theorem merges_weave (s : Store Node Nat) (p : Nat) (xs ys : List (Nat × Int)) (steps calls : Nat)
    (h : Apart s.mem p s.reg xs ys) (hsteps : ys.length < steps) :
    wp (merges steps p calls) (fun _ t =>
      Apart t.mem p t.reg (insert^[calls] (xs, ys)).1 (insert^[calls] (xs, ys)).2 ∧
      Inserted xs ys ((2 ^ calls - 1) * xs.length) (insert^[calls] (xs, ys)) ∧
      Memory.SameExcept (addrs xs ++ addrs ys) s.mem t.mem) s := by
  apply wp_mono (wp_merges calls h hsteps)
  rintro _ t ⟨hlists, hframe⟩
  exact ⟨hlists, inserted_iterate xs ys calls, hframe⟩

/-- The lists `1 → 2` and `3 → 4 → 5`. -/
def twoLists : Memory Node :=
  ((((Memory.empty.alloc ⟨1, 2⟩).alloc ⟨2, 0⟩).alloc ⟨3, 4⟩).alloc ⟨4, 5⟩).alloc ⟨5, 0⟩

/-- The first call leaves `1 → 3 → 2 → 4` and `5`, the second one `1 → 5 → 3 → 2 → 4` and nothing. -/
theorem merges_weave_two :
    wp (merges 4 1 2) (fun _ t =>
      Apart t.mem 1 t.reg [(1, 1), (5, 5), (3, 3), (2, 2), (4, 4)] [] ∧
      Memory.SameExcept [1, 2, 3, 4, 5] twoLists t.mem) ⟨twoLists, 3⟩ := by
  have hlists : Apart twoLists 1 3 [(1, 1), (2, 2)] [(3, 3), (4, 4), (5, 5)] :=
    ⟨⟨rfl, 2, rfl, rfl, 0, rfl, rfl⟩, ⟨rfl, 4, rfl, rfl, 5, rfl, rfl, 0, rfl, rfl⟩, by simp [addrs]⟩
  apply wp_mono (merges_weave ⟨twoLists, 3⟩ 1 [(1, 1), (2, 2)] [(3, 3), (4, 4), (5, 5)] 4 2 hlists
    (Nat.lt_succ_self 3))
  rintro _ t ⟨h, -, hframe⟩
  exact ⟨h, hframe⟩

end C11AndC.LinkedList.Weave
