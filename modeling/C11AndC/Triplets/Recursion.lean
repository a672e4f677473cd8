import Mathlib.Algebra.Order.Ring.Int
import Mathlib.Data.List.GetD
import C11AndC.Library.Preorder
import C11AndC.Triplets.Checked

namespace C11AndC.Triplets

open C11AndC.Library

def numDigis : Nat := 5

/-- The counter, and the lines that `PrintList` has printed. -/
structure Globals where
  counter : Int
  printed : List (List Int)

/-- A call returns, or the program ends with the line `total count is`. -/
inductive Outcome where
  | returned (b : Bool)
  | exited (total : Int)
  deriving DecidableEq

def printList (currentsolution : List Int) (g : Globals) : Globals :=
  { g with printed := g.printed ++ [currentsolution] }

/-- `counter++; PrintList(currentsolution);` -/
def record (currentsolution : List Int) (g : Globals) : Option Globals := do
  let counter ← checked (g.counter + 1)
  return printList currentsolution { g with counter := counter }

/-- The loop over the places `is`; `recur` stands for the calls. -/
def tryAll (recur : Int → List Int → Nat → Globals → Option (Outcome × Globals)) (elements : List Int) (sum : Int)
    (currentsolution : List Int) : List Nat → Globals → Option (Outcome × Globals)
  | [], g => some (.returned false, g)
  | i :: is, g =>
    if currentsolution.length = numDigis then
      some (.returned false, g)
    else do
      let x ← elements[i]?
      let next ← checked (sum + x)
      let (r, g) ← recur next (currentsolution ++ [x]) (i + 1) g
      match r with
      | .returned false => tryAll recur elements sum currentsolution is g
      | .returned true => return (.exited g.counter, g)
      | .exited total => return (.exited total, g)

def recursiveFindTiplets (elements : List Int) (MaxBound : Int) :
    Nat → Int → List Int → Nat → Globals → Option (Outcome × Globals)
  | 0, _, _, _, _ => none
  | steps + 1, sum, currentsolution, start, g =>
    if currentsolution.length = 3 ∧ sum < MaxBound then do
      let g ← record currentsolution g
      return (.returned false, g)
    else if sum ≥ MaxBound then
      some (.returned true, g)
    else
      tryAll (recursiveFindTiplets elements MaxBound steps) elements sum currentsolution
        (List.range' start (elements.length - start)) g

example : (recursiveFindTiplets [1, 3, 4, 5, 7] 12 4 0 [] 0 ⟨0, []⟩).map (fun x => (x.1, x.2.printed)) =
    some (.exited 4, [[1, 3, 4], [1, 3, 5], [1, 3, 7], [1, 4, 5]]) := by decide

/-- The sum of the elements at the places `w`, added to `sum`. -/
def total (elements : List Int) (sum : Int) (w : List Nat) : Int := sum + (w.map (elements.getD · 0)).sum

/-- The elements at the places `w` behind a solution, which is printed when it has three elements. -/
def line (elements currentsolution : List Int) (w : List Nat) : Option (List Int) :=
  if currentsolution.length + w.length = 3 then some (currentsolution ++ w.map (elements.getD · 0)) else none

/-- The way along the sequences `ws`: a sequence that does not fit is undefined, and one that is not small
the end, which is told by `false`. -/
def walk (fits small : List Nat → Bool) (line : List Nat → Option (List Int)) :
    List (List Nat) → Globals → Option (Bool × Globals)
  | [], g => some (true, g)
  | w :: ws, g =>
    if fits w then
      if small w then
        match line w with
        | none => walk fits small line ws g
        | some l => (record l g).bind (walk fits small line ws)
      else some (false, g)
    else none

section Walk

variable {fits small : List Nat → Bool} {line : List Nat → Option (List Int)} {ws ws' : List (List Nat)}
  {g g' : Globals} {b : Bool}

theorem walk_append (g : Globals) : walk fits small line (ws ++ ws') g =
    (walk fits small line ws g).bind fun r => if r.1 then walk fits small line ws' r.2 else some r := by
  induction ws generalizing g with
  | nil => rfl
  | cons w ws ih =>
    rw [List.cons_append, walk, walk]
    split_ifs with hfits hsmall
    · cases line w with
      | none => exact ih g
      | some l =>
        simp only [ih]
        rw [Option.bind_assoc]
    · rfl
    · rfl

theorem walk_map (f : List Nat → List Nat) (g : Globals) : walk fits small line (ws.map f) g =
    walk (fits ∘ f) (small ∘ f) (line ∘ f) ws g := by
  induction ws generalizing g with
  | nil => rfl
  | cons w ws ih =>
    rw [List.map_cons, walk, walk]
    simp only [Function.comp_apply, funext ih]

/-- What a way of which every sequence that is reached fits has printed and counted. -/
theorem walk_some (hg : IsInt g.counter) (h : walk fits small line ws g = some (b, g')) :
    HoldsTo small fits ws ∧ IsInt g'.counter ∧ g'.printed = g.printed ++ (ws.takeWhile small).filterMap line ∧
      g'.counter = g.counter + ((ws.takeWhile small).filterMap line).length := by
  induction ws generalizing g with
  | nil =>
    cases h
    exact ⟨trivial, hg, (List.append_nil _).symm, (Int.add_zero _).symm⟩
  | cons w ws ih =>
    rw [walk] at h
    split_ifs at h with hfits hsmall
    · rw [List.takeWhile_cons_of_pos hsmall]
      cases hline : line w with
      | none =>
        rw [hline] at h
        obtain ⟨hholds, hrest⟩ := ih hg h
        rw [List.filterMap_cons_none hline]
        exact ⟨⟨hfits, fun _ => hholds⟩, hrest⟩
      | some l =>
        rw [hline] at h
        obtain ⟨g₁, hrecord, h⟩ := Option.bind_eq_some_iff.mp h
        obtain ⟨_, hcounter, heq⟩ := Option.bind_eq_some_iff.mp hrecord
        obtain ⟨hint, rfl⟩ := checked_eq_some.mp hcounter
        cases heq
        obtain ⟨hholds, hint', hprinted, hcount⟩ := ih hint h
        refine ⟨⟨hfits, fun _ => hholds⟩, hint', ?_, ?_⟩
        · rw [hprinted, List.filterMap_cons_some hline, printList, List.append_assoc, List.singleton_append]
        · have hsum : g'.counter = g.counter + 1 + _ := hcount
          rw [hsum, List.filterMap_cons_some hline, List.length_cons, Int.natCast_add, Int.natCast_one]
          omega
    · cases h
      rw [List.takeWhile_cons_of_neg hsmall]
      exact ⟨⟨hfits, fun hs => absurd hs hsmall⟩, hg, (List.append_nil _).symm, (Int.add_zero _).symm⟩

/-- Where everything that is reached fits and the lines can be counted, the way comes to its end. -/
theorem exists_walk (h : HoldsTo small fits ws) (hg : 0 ≤ g.counter)
    (hmax : g.counter + ((ws.takeWhile small).filterMap line).length ≤ INT_MAX) :
    ∃ b g', walk fits small line ws g = some (b, g') := by
  induction ws generalizing g with
  | nil => exact ⟨true, g, rfl⟩
  | cons w ws ih =>
    obtain ⟨hfits, hrest⟩ := h
    rw [walk, if_pos hfits]
    by_cases hsmall : small w
    · rw [List.takeWhile_cons_of_pos hsmall] at hmax
      rw [if_pos hsmall]
      cases hline : line w with
      | none =>
        rw [List.filterMap_cons_none hline] at hmax
        exact ih (hrest hsmall) hg hmax
      | some l =>
        rw [List.filterMap_cons_some hline, List.length_cons, Int.natCast_add, Int.natCast_one] at hmax
        have hint : IsInt (g.counter + 1) := by
          rw [IsInt, INT_MIN]
          omega
        have hrecord : record l g = some (printList l { g with counter := g.counter + 1 }) := by
          rw [record, checked_of_isInt hint]
          rfl
        obtain ⟨b, g', hwalk⟩ := ih (g := printList l { g with counter := g.counter + 1 }) (hrest hsmall)
          (show 0 ≤ g.counter + 1 by omega) (show g.counter + 1 + _ ≤ INT_MAX by omega)
        exact ⟨b, g', by simp only [hrecord, Option.bind_some, hwalk]⟩
    · exact ⟨false, g, if_neg hsmall⟩

end Walk

section Calls

variable {elements cur : List Int} {MaxBound sum : Int} {steps d start : Nat} {g : Globals}
  {recur : Int → List Int → Nat → Globals → Option (Outcome × Globals)}

/-- Whether a call has come to the end of its loop. -/
def answer (r : Outcome × Globals) : Bool × Globals := (decide (r.1 = .returned false), r.2)

/-- The way that a call goes which may still take `d` elements. -/
def walkFrom (elements : List Int) (MaxBound sum : Int) (cur : List Int) (d start : Nat) (g : Globals) :
    Option (Bool × Globals) :=
  walk (fun w => IsInt (total elements sum w)) (fun w => total elements sum w < MaxBound) (line elements cur)
    (preorder elements.length d start) g

theorem total_cons (elements : List Int) (sum : Int) (i : Nat) (w : List Nat) :
    total elements sum (i :: w) = total elements (sum + elements.getD i 0) w := by
  rw [total, total, List.map_cons, List.sum_cons, Int.add_assoc]

theorem line_cons (elements cur : List Int) (i : Nat) (w : List Nat) :
    line elements cur (i :: w) = line elements (cur ++ [elements.getD i 0]) w := by
  simp only [line, List.length_append, List.length_cons, List.length_nil, List.map_cons, List.append_assoc,
    List.singleton_append, Nat.add_assoc, Nat.zero_add, Nat.add_comm 1]

theorem preorder_head (n d start : Nat) : ∃ ws, preorder n d start = [] :: ws := by
  cases d with
  | zero => exact ⟨[], rfl⟩
  | succ d => exact ⟨_, rfl⟩

/-- A call is defined at a sum that fits only. -/
theorem walkFrom_none (h : ¬ IsInt sum) : walkFrom elements MaxBound sum cur d start g = none := by
  obtain ⟨ws, hws⟩ := preorder_head elements.length d start
  rw [walkFrom, hws, walk, if_neg (by simpa [total] using h)]

theorem walk_place (i : Nat) (g : Globals) :
    walk (fun w => IsInt (total elements sum w)) (fun w => total elements sum w < MaxBound) (line elements cur)
      ((preorder elements.length d start).map (i :: ·)) g =
    walkFrom elements MaxBound (sum + elements.getD i 0) (cur ++ [elements.getD i 0]) d start g := by
  rw [walk_map, walkFrom]
  congr 1
  · funext w
    simp only [Function.comp_apply, total_cons]
  · funext w
    simp only [Function.comp_apply, total_cons]
  · funext w
    exact line_cons elements cur i w

theorem tryAll_walk {is : List Nat} (hcur : cur.length < 3) (his : ∀ i ∈ is, i < elements.length)
    (hrec : ∀ i, ∀ hi : i < elements.length, IsInt (sum + elements[i]) → ∀ g : Globals,
      (recur (sum + elements[i]) (cur ++ [elements[i]]) (i + 1) g).map answer =
        walkFrom elements MaxBound (sum + elements[i]) (cur ++ [elements[i]]) d (i + 1) g) :
    (tryAll recur elements sum cur is g).map answer =
      walk (fun w => IsInt (total elements sum w)) (fun w => total elements sum w < MaxBound) (line elements cur)
        (is.flatMap fun i => (preorder elements.length d (i + 1)).map (i :: ·)) g := by
  have hdigis : cur.length ≠ numDigis := by
    rw [numDigis]
    omega
  induction is generalizing g with
  | nil => rfl
  | cons i is ih =>
    obtain ⟨hi, his⟩ := List.forall_mem_cons.mp his
    rw [List.flatMap_cons, walk_append, walk_place, List.getD_eq_getElem _ _ hi, tryAll, if_neg hdigis,
      List.getElem?_eq_getElem hi]
    by_cases hint : IsInt (sum + elements[i])
    · rw [← hrec i hi hint]
      simp only [Option.bind_eq_bind, Option.bind_some, checked_of_isInt hint]
      cases recur (sum + elements[i]) (cur ++ [elements[i]]) (i + 1) g with
      | none => rfl
      | some r =>
        obtain ⟨o, g₁⟩ := r
        match o with
        | .returned false => exact ih his
        | .returned true => rfl
        | .exited total => rfl
    · simp only [walkFrom_none hint, checked, if_neg hint, Option.bind_eq_bind, Option.bind_some, Option.bind_none,
        Option.map_none]

theorem recursiveFindTiplets_walk (hlen : cur.length + d = 3) (hn : d < steps) (hsum : IsInt sum) :
    (recursiveFindTiplets elements MaxBound steps sum cur start g).map answer =
      walkFrom elements MaxBound sum cur d start g := by
  induction steps generalizing sum cur d start g with
  | zero => omega
  | succ steps ih =>
    have hempty : total elements sum [] = sum := Int.add_zero sum
    rw [recursiveFindTiplets, walkFrom]
    by_cases hsmall : sum < MaxBound
    · cases d with
      | zero =>
        have hline : line elements cur [] = some cur := by simp [line, hlen]
        rw [if_pos ⟨hlen, hsmall⟩, preorder, walk, if_pos (by simpa [hempty] using hsum),
          if_pos (by simpa [hempty] using hsmall), hline]
        dsimp only
        cases record cur g with
        | none => rfl
        | some g => rfl
      | succ d =>
        have hline : line elements cur [] = none := if_neg (by simp only [List.length_nil]; omega)
        rw [if_neg (by omega), if_neg (by omega), preorder, walk, if_pos (by simpa [hempty] using hsum),
          if_pos (by simpa [hempty] using hsmall), hline]
        have his : ∀ i ∈ List.range' start (elements.length - start), i < elements.length := by
          intro i hi
          rw [List.mem_range'_1] at hi
          omega
        refine tryAll_walk (by omega) his fun i hi hint g => ?_
        exact ih (by rw [List.length_append, List.length_singleton]; omega) (by omega) hint
    · obtain ⟨ws, hws⟩ := preorder_head elements.length d start
      rw [if_neg (fun h => hsmall h.2), if_pos (Int.not_lt.mp hsmall), hws, walk,
        if_pos (by simpa [hempty] using hsum), if_neg (by simpa [hempty] using hsmall)]
      rfl

end Calls

section Triples

variable {elements : List Int} {MaxBound : Int} {g : Globals}

def places {n : Nat} (p : Fin n × Fin n × Fin n) : List Nat := [p.1, p.2.1, p.2.2]

/-- The elements at the three places. -/
def values (elements : List Int) (p : Fin elements.length × Fin elements.length × Fin elements.length) : List Int :=
  [elements.get p.1, elements.get p.2.1, elements.get p.2.2]

/-- The triples with a sum below the bound are printed, each of them once. -/
def PrintsAll (elements : List Int) (MaxBound : Int) (g : Globals) : Prop :=
  (g.printed : Multiset (List Int)) = (smallTriples elements MaxBound).val.map (values elements)

/-- An increasing sequence of at most three places. -/
def Searched (n : Nat) (q : List Nat) : Prop := q.length ≤ 3 ∧ q.Pairwise (· < ·) ∧ ∀ i ∈ q, i < n

/-- No sequence up to that of the triple, in the order of a dictionary, has a sum that reaches the bound. -/
def Reached (elements : List Int) (MaxBound : Int)
    (p : Fin elements.length × Fin elements.length × Fin elements.length) : Prop :=
  ∀ q, Searched elements.length q → q ≤ places p → total elements 0 q < MaxBound

/-- No sequence in front has a sum that reaches the bound, so that the sum of this one is formed. -/
def Formed (elements : List Int) (MaxBound : Int) (q : List Nat) : Prop :=
  ∀ q', Searched elements.length q' → q' < q → total elements 0 q' < MaxBound

/-- No sum of the search or of the count overflows, every triple with a sum below the bound comes before the
first sum that reaches it, and these triples can be counted. -/
structure NotCutShort (elements : List Int) (MaxBound : Int) : Prop where
  formed : ∀ q, Searched elements.length q → Formed elements MaxBound q → IsInt (total elements 0 q)
  reached : ∀ p ∈ smallTriples elements MaxBound, Reached elements MaxBound p
  sums : Checked.Sums elements
  count : ((smallTriples elements MaxBound).card : Int) ≤ INT_MAX

theorem mem_searched {n : Nat} {q : List Nat} : q ∈ preorder n 3 0 ↔ Searched n q := by
  rw [mem_preorder, Searched]
  simp only [Nat.zero_le, true_and]

instance (p : Fin elements.length × Fin elements.length × Fin elements.length) :
    Decidable (Reached elements MaxBound p) :=
  decidable_of_iff (∀ q ∈ preorder elements.length 3 0, q ≤ places p → total elements 0 q < MaxBound) (by
    simp only [mem_searched]
    rfl)

def reachedTriples (elements : List Int) (MaxBound : Int) :
    Finset (Fin elements.length × Fin elements.length × Fin elements.length) :=
  (triples elements.length).filter (Reached elements MaxBound)

theorem searched_places {n : Nat} {q : List Nat} (h : Searched n q) (hlen : q.length = 3) :
    ∃ p ∈ triples n, places p = q := by
  obtain ⟨-, hlt, hmem⟩ := h
  obtain ⟨a, b, c, rfl⟩ := List.length_eq_three.mp hlen
  simp only [List.pairwise_cons, List.mem_cons, List.not_mem_nil, or_false, forall_eq_or_imp, forall_eq] at hlt hmem
  refine ⟨(⟨a, hmem.1⟩, ⟨b, hmem.2.1⟩, ⟨c, hmem.2.2⟩), ?_, rfl⟩
  rw [triples, Finset.mem_filter]
  exact ⟨Finset.mem_univ _, hlt.1.1, hlt.2.1⟩

theorem places_searched {n : Nat} {p : Fin n × Fin n × Fin n} (h : p ∈ triples n) : Searched n (places p) := by
  obtain ⟨-, hab, hbc⟩ := Finset.mem_filter.mp h
  refine ⟨Nat.le_refl 3, ?_, ?_⟩
  · simp only [places, List.pairwise_cons, List.mem_cons, List.not_mem_nil, or_false, forall_eq_or_imp, forall_eq,
      List.Pairwise.nil, and_true, false_implies, implies_true]
    exact ⟨⟨hab, hab.trans hbc⟩, hbc⟩
  · simp only [places, List.mem_cons, List.not_mem_nil, or_false, forall_eq_or_imp, forall_eq]
    exact ⟨p.1.isLt, p.2.1.isLt, p.2.2.isLt⟩

theorem places_injective {n : Nat} : Function.Injective (places (n := n)) := by
  rintro ⟨a, b, c⟩ ⟨a', b', c'⟩ h
  simp only [places, List.cons.injEq, and_true, Fin.val_inj] at h
  obtain ⟨rfl, rfl, rfl⟩ := h
  rfl

/-- The triples in front of the first stop. -/
theorem visited_places (elements : List Int) (MaxBound : Int) :
    ((((preorder elements.length 3 0).takeWhile fun w => total elements 0 w < MaxBound).filter
      (fun w => w.length = 3) : List (List Nat)) : Multiset (List Nat)) =
      (reachedTriples elements MaxBound).val.map places := by
  have hsorted : (preorder elements.length 3 0).Pairwise (· < ·) := preorder_increasing
  have hnodup : (preorder elements.length 3 0).Nodup := hsorted.imp ne_of_lt
  refine (Multiset.Nodup.ext ?_ ((reachedTriples elements MaxBound).nodup.map places_injective)).mpr fun w => ?_
  · exact Multiset.coe_nodup.mpr (((List.takeWhile_sublist _).nodup hnodup).filter _)
  · rw [Multiset.mem_coe, List.mem_filter, mem_takeWhile hsorted, mem_searched, Multiset.mem_map]
    simp only [mem_searched, decide_eq_true_eq]
    constructor
    · rintro ⟨⟨hw, hall⟩, hlen⟩
      obtain ⟨p, hp, rfl⟩ := searched_places hw hlen
      exact ⟨p, Finset.mem_filter.mpr ⟨hp, hall⟩, rfl⟩
    · rintro ⟨p, hp, rfl⟩
      obtain ⟨hp, hall⟩ := Finset.mem_filter.mp hp
      exact ⟨⟨places_searched hp, hall⟩, rfl⟩

theorem getD_get (i : Fin elements.length) : elements.getD i 0 = elements.get i := List.getD_eq_getElem _ _ i.isLt

theorem values_eq (p : Fin elements.length × Fin elements.length × Fin elements.length) :
    (places p).map (elements.getD · 0) = values elements p := by
  simp only [places, List.map_cons, List.map_nil, getD_get, values]

theorem filterMap_line (elements : List Int) (ws : List (List Nat)) :
    ws.filterMap (line elements []) = (ws.filter (fun w => w.length = 3)).map fun w => w.map (elements.getD · 0) := by
  induction ws with
  | nil => rfl
  | cons w ws ih =>
    by_cases hw : w.length = 3
    · simp [line, hw, ih]
    · simp [line, hw, ih]

/-- What the search prints: the triples that it reaches. -/
theorem lines_reached (elements : List Int) (MaxBound : Int) :
    (((preorder elements.length 3 0).takeWhile fun w => total elements 0 w < MaxBound).filterMap
      (line elements []) : Multiset (List Int)) =
        (reachedTriples elements MaxBound).val.map (values elements) := by
  rw [filterMap_line, ← Multiset.map_coe, visited_places, Multiset.map_map]
  exact Multiset.map_congr rfl fun p _ => values_eq p

theorem printed_reached (h : g.printed = ((preorder elements.length 3 0).takeWhile fun w =>
    total elements 0 w < MaxBound).filterMap (line elements [])) :
    (g.printed : Multiset (List Int)) = (reachedTriples elements MaxBound).val.map (values elements) := by
  rw [h, lines_reached]

theorem mem_smallTriples {p : Fin elements.length × Fin elements.length × Fin elements.length} :
    p ∈ smallTriples elements MaxBound ↔ p ∈ triples elements.length ∧ (values elements p).sum < MaxBound := by
  simp only [smallTriples, triples, Finset.mem_filter, values, List.sum_cons, List.sum_nil, Int.add_zero,
    Int.add_assoc, and_assoc]

theorem total_places (p : Fin elements.length × Fin elements.length × Fin elements.length) :
    total elements 0 (places p) = elements.get p.1 + elements.get p.2.1 + elements.get p.2.2 := by
  simp only [total, places, List.map_cons, List.map_nil, getD_get, List.sum_cons, List.sum_nil, Int.zero_add,
    Int.add_zero, Int.add_assoc]

theorem values_sum (p : Fin elements.length × Fin elements.length × Fin elements.length) :
    (values elements p).sum = total elements 0 (places p) := by
  rw [total, values_eq, Int.zero_add]

/-- A triple that is reached has itself a sum below the bound. -/
theorem reachedTriples_subset (elements : List Int) (MaxBound : Int) :
    reachedTriples elements MaxBound ⊆ smallTriples elements MaxBound := by
  intro p hp
  obtain ⟨hp, hreached⟩ := Finset.mem_filter.mp hp
  rw [mem_smallTriples, values_sum]
  exact ⟨hp, hreached (places p) (places_searched hp) le_rfl⟩

theorem reachedTriples_eq (h : ∀ p ∈ smallTriples elements MaxBound, Reached elements MaxBound p) :
    reachedTriples elements MaxBound = smallTriples elements MaxBound := by
  refine (reachedTriples_subset elements MaxBound).antisymm fun p hp => ?_
  exact Finset.mem_filter.mpr ⟨(mem_smallTriples.mp hp).1, h p hp⟩

theorem printsAll_iff (h : (g.printed : Multiset (List Int)) =
    (reachedTriples elements MaxBound).val.map (values elements)) :
    PrintsAll elements MaxBound g ↔ ∀ p ∈ smallTriples elements MaxBound, Reached elements MaxBound p := by
  rw [PrintsAll, h]
  constructor
  · intro heq
    have hcard := congrArg Multiset.card heq
    rw [Multiset.card_map, Multiset.card_map] at hcard
    have hset := Finset.eq_of_subset_of_card_le (reachedTriples_subset elements MaxBound) hcard.ge
    intro p hp
    rw [← hset] at hp
    exact (Finset.mem_filter.mp hp).2
  · intro hall
    rw [reachedTriples_eq hall]

/-- The first triple is formed by the search or not small, and the last one by the count. -/
theorem sums_of_count {t : Int} (hsorted : elements.Pairwise (· ≤ ·)) (hbound : IsInt MaxBound)
    (hformed : ∀ q, Searched elements.length q → Formed elements MaxBound q → IsInt (total elements 0 q))
    (hreached : ∀ p ∈ smallTriples elements MaxBound, Reached elements MaxBound p)
    (hcount : Checked.countTriplets elements elements.length MaxBound = some t) : Checked.Sums elements := by
  rintro ⟨i, hi⟩ ⟨j, hj⟩ ⟨k, hk⟩ (hij : i < j) (hjk : j < k)
  have hlow : INT_MIN ≤ elements[0] + elements[1] :=
    (Checked.countTriplets_sums hsorted hcount (i := 0) (by omega)).1.1
  obtain ⟨⟨-, hhigh⟩, ⟨-, hlast⟩⟩ :=
    Checked.countTriplets_sums hsorted hcount (i := elements.length - 3) (by omega)
  have hfirst : INT_MIN ≤ elements[0] + elements[1] + elements[2] := by
    let p : Fin elements.length × Fin elements.length × Fin elements.length :=
      (⟨0, by omega⟩, ⟨1, by omega⟩, ⟨2, by omega⟩)
    have hp : p ∈ triples elements.length := Finset.mem_filter.mpr
      ⟨Finset.mem_univ p, Fin.mk_lt_mk.mpr Nat.zero_lt_one, Fin.mk_lt_mk.mpr Nat.one_lt_two⟩
    have htotal : total elements 0 (places p) = elements[0] + elements[1] + elements[2] := total_places p
    by_cases hsmall : total elements 0 (places p) < MaxBound
    · have hq := hreached p (mem_smallTriples.mpr ⟨hp, by rwa [values_sum]⟩)
      obtain ⟨hmin, -⟩ := hformed (places p) (places_searched hp) fun q' hq' hlt => hq q' hq' hlt.le
      rwa [htotal] at hmin
    · rw [htotal] at hsmall
      exact hbound.1.trans (Int.not_lt.mp hsmall)
  have hi' : elements[0] ≤ elements[i] ∧ elements[i] ≤ elements[elements.length - 3] :=
    ⟨getElem_le hsorted (by omega) _, getElem_le hsorted (by omega) _⟩
  have hj' : elements[1] ≤ elements[j] ∧ elements[j] ≤ elements[elements.length - 3 + 1] :=
    ⟨getElem_le hsorted (by omega) _, getElem_le hsorted (by omega) _⟩
  have hk' : elements[2] ≤ elements[k] ∧ elements[k] ≤ elements[elements.length - 1] :=
    ⟨getElem_le hsorted (by omega) _, getElem_le hsorted (by omega) _⟩
  simp only [List.get_eq_getElem]
  exact ⟨⟨by omega, by omega⟩, ⟨by omega, by omega⟩⟩

theorem length_lines (elements : List Int) (MaxBound : Int) :
    (((preorder elements.length 3 0).takeWhile fun w => total elements 0 w < MaxBound).filterMap
      (line elements [])).length = (reachedTriples elements MaxBound).card := by
  have h := congrArg Multiset.card (lines_reached elements MaxBound)
  rwa [Multiset.coe_card, Multiset.card_map] at h

theorem formed_iff : HoldsTo (fun w => total elements 0 w < MaxBound) (fun w => IsInt (total elements 0 w))
    (preorder elements.length 3 0) ↔
      ∀ q, Searched elements.length q → Formed elements MaxBound q → IsInt (total elements 0 q) := by
  rw [holdsTo_iff preorder_increasing]
  simp only [mem_searched, decide_eq_true_eq]
  rfl

end Triples

/-- The search prints every small triple and comes to the count, both without an overflow, exactly if it is
not cut short. -/
theorem recursiveFindTiplets_iff (elements : List Int) (MaxBound : Int) (hsorted : elements.Pairwise (· ≤ ·))
    (hbound : IsInt MaxBound) (steps : Nat) (hsteps : 4 ≤ steps) :
    (∃ r g, recursiveFindTiplets elements MaxBound steps 0 [] 0 ⟨0, []⟩ = some (r, g) ∧
      PrintsAll elements MaxBound g ∧
      Checked.countTriplets elements elements.length MaxBound = some g.counter) ↔
    NotCutShort elements MaxBound := by
  have hwalk : (recursiveFindTiplets elements MaxBound steps 0 [] 0 ⟨0, []⟩).map answer =
      walkFrom elements MaxBound 0 [] 3 0 ⟨0, []⟩ := recursiveFindTiplets_walk rfl hsteps (by decide)
  constructor
  · rintro ⟨r, g, hrun, hprints, hcount⟩
    rw [hrun] at hwalk
    obtain ⟨hholds, hint, hprinted, hcounter⟩ := walk_some (by decide) hwalk.symm
    have hlines := printed_reached (hprinted.trans (List.nil_append _))
    have hreached := (printsAll_iff hlines).mp hprints
    have hformed := formed_iff.mp hholds
    have hcard : g.counter = (smallTriples elements MaxBound).card := by
      rw [hcounter, length_lines, reachedTriples_eq hreached]
      exact Int.zero_add _
    refine ⟨hformed, hreached, sums_of_count hsorted hbound hformed hreached hcount, ?_⟩
    rw [← hcard]
    exact hint.2
  · rintro ⟨hformed, hreached, hsums, hcount⟩
    have hlen : (0 : Int) + (((preorder elements.length 3 0).takeWhile fun w =>
        total elements 0 w < MaxBound).filterMap (line elements [])).length =
        (smallTriples elements MaxBound).card := by
      rw [length_lines, reachedTriples_eq hreached, Int.zero_add]
    obtain ⟨b, g, hrun⟩ := exists_walk (g := ⟨0, []⟩) (formed_iff.mpr hformed) le_rfl (hlen.trans_le hcount)
    obtain ⟨-, -, hprinted, hcounter⟩ := walk_some (by decide) hrun
    rw [walkFrom, hrun, Option.map_eq_some_iff] at hwalk
    obtain ⟨⟨r, g'⟩, hr, heq⟩ := hwalk
    cases heq
    refine ⟨r, g', hr, (printsAll_iff (printed_reached (hprinted.trans (List.nil_append _)))).mpr hreached, ?_⟩
    rw [hcounter]
    exact (Checked.countTriplets_card hsorted hsums hcount).trans (congrArg some hlen.symm)

theorem recursiveFindTiplets_driver : ∃ r g,
    recursiveFindTiplets [1, 3, 4, 5, 7] 12 4 0 [] 0 ⟨0, []⟩ = some (r, g) ∧ PrintsAll [1, 3, 4, 5, 7] 12 g ∧
      Checked.countTriplets [1, 3, 4, 5, 7] 5 12 = some g.counter :=
  (recursiveFindTiplets_iff [1, 3, 4, 5, 7] 12 (by decide) (by decide) 4 le_rfl).mpr
    ⟨formed_iff.mp (by decide), by decide +kernel, by decide, by decide⟩

/-- The sum of `0`, `1` and `10` ends the search before `0`, `2`, `3` and `1`, `2`, `3` are reached. -/
theorem recursiveFindTiplets_cut : [0, 1, 2, 3, 10].Pairwise ((· ≤ ·) : Int → Int → Prop) ∧
    recursiveFindTiplets [0, 1, 2, 3, 10] 7 4 0 [] 0 ⟨0, []⟩ = some (.exited 2, ⟨2, [[0, 1, 2], [0, 1, 3]]⟩) ∧
    ¬ PrintsAll [0, 1, 2, 3, 10] 7 ⟨2, [[0, 1, 2], [0, 1, 3]]⟩ ∧
    Checked.countTriplets [0, 1, 2, 3, 10] 5 7 = some 4 := by
  refine ⟨by decide, rfl, fun h => ?_, ?_⟩
  · have hcard := congrArg Multiset.card h
    rw [Multiset.card_map] at hcard
    exact absurd hcard (by decide)
  · have hsorted : [0, 1, 2, 3, 10].Pairwise ((· ≤ ·) : Int → Int → Prop) := by decide
    have hcard : (smallTriples [0, 1, 2, 3, 10] 7).card = 4 := by decide
    have hle : ((smallTriples [0, 1, 2, 3, 10] 7).card : Int) ≤ INT_MAX := by
      rw [hcard]
      decide
    have hcount := Checked.countTriplets_card hsorted (by decide) hle
    rwa [hcard] at hcount

end C11AndC.Triplets
