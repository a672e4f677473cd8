import C11AndC.Cyclic.Inverse
import C11AndC.Library.Orbit
import Mathlib.Data.List.GetD

namespace C11AndC.Cyclic

open C11AndC.Library

/-- The group that is printed from `i` on, with the tags; `k` is the first element of its cycle. -/
def printCycle : Nat → List Nat → Nat → List Nat → Nat → Option (List Nat × List Nat)
  | 0, _, _, _, _ => none
  | steps + 1, f, k, tb, i => do
    let tb ← assign tb i 1
    let i' ← f[i]?
    if i' ≠ k then
      let (group, tb) ← printCycle steps f k tb i'
      return (i :: group, tb)
    else
      return ([i], tb)

/-- One round of the loop over `k`, with the groups that are printed so far. -/
def printRound (steps : Nat) (f : List Nat) (s : List (List Nat) × List Nat) (k : Nat) :
    Option (List (List Nat) × List Nat) := do
  let (groups, tb) := s
  if (← tb[k]?) = 1 then
    return (groups, tb)
  else
    let (group, tb) ← printCycle steps f k tb k
    return (groups ++ [group], tb)

def printCycles (steps : Nat) (f : List Nat) (n : Nat) (tb : List Nat) : Option (List (List Nat) × List Nat) :=
  (List.range n).foldlM (printRound steps f) ([], tb)

/-- The number of steps from `e` back to the element 0, counted from `k`. -/
def countCycle : Nat → List Nat → Nat → Nat → Option Nat
  | 0, _, _, _ => none
  | steps + 1, f, e, k => do
    let e ← f[e]?
    if e ≠ 0 then countCycle steps f e (k + 1) else return k + 1

def isCyclic (steps : Nat) (f : List Nat) (n : Nat) : Option Bool := do
  if n ≤ 1 then return true
  else return (← countCycle steps f 0 0) = n

def next (f : List Nat) (i : Nat) : Nat := f.getD i 0

/-- The first `c` elements of the walk from `k`. -/
def walk (f : List Nat) (k c : Nat) : List Nat := (List.range c).map fun j => (next f)^[j] k

/-- A cycle that is listed from its least element on. -/
def IsGroup (f : List Nat) (group : List Nat) : Prop :=
  ∃ k c, Rounds (next f) k 0 c ∧ group = walk f k c ∧ ∀ i ∈ group, k ≤ i

/-- The elements of `S` are tagged, and no others. -/
structure Marked (n : Nat) (S tb : List Nat) : Prop where
  length : tb.length = n
  tag : ∀ x < n, tb[x]? = some (if x ∈ S then 1 else 0)

/-- What holds before round `k`. -/
structure Printed (f : List Nat) (k : Nat) (s : List (List Nat) × List Nat) : Prop where
  marked : Marked f.length s.1.flatten s.2
  groups : ∀ g ∈ s.1, IsGroup f g
  heads : ∀ g ∈ s.1, g.headD 0 < k
  nodup : s.1.flatten.Nodup
  seen : ∀ x < k, x ∈ s.1.flatten
  sorted : s.1.Pairwise fun g g' => g.headD 0 < g'.headD 0

section Walks

variable {f tb S : List Nat} {n k c i j m : Nat}

theorem marked_cleared (n : Nat) : Marked n [] (cleared n) := by
  refine ⟨List.length_replicate, fun x hx => ?_⟩
  simp [cleared, hx]

theorem marked_set (h : Marked n S tb) (hk : k < n) : Marked n (k :: S) (tb.set k 1) := by
  refine ⟨by rw [List.length_set, h.length], fun x hx => ?_⟩
  by_cases hxk : x = k
  · subst hxk
    rw [List.getElem?_set_self (by rwa [h.length]), if_pos List.mem_cons_self]
  · rw [List.getElem?_set_ne (Ne.symm hxk), h.tag x hx]
    simp [hxk]

theorem marked_congr {S' : List Nat} (h : Marked n S tb) (hS : ∀ x, x ∈ S ↔ x ∈ S') : Marked n S' tb :=
  ⟨h.length, fun x hx => by simp only [← hS, h.tag x hx]⟩

theorem mem_walk : i ∈ walk f k c ↔ ∃ j < c, (next f)^[j] k = i := by
  simp only [walk, List.mem_map, List.mem_range]

theorem walk_nodup (h : Rounds (next f) k 0 c) : (walk f k c).Nodup := by
  refine List.Nodup.map_on (fun i hi j hj he => ?_) List.nodup_range
  have hinj := h.inj
  rw [Nat.zero_add] at hinj
  exact hinj i (List.mem_range.mp hi) j (List.mem_range.mp hj) he

theorem walk_headD (h : Rounds (next f) k 0 c) : (walk f k c).headD 0 = k := by
  obtain ⟨c, rfl⟩ := Nat.exists_eq_succ_of_ne_zero h.pos.ne'
  rw [walk, List.range_succ_eq_map]
  rfl

/-- The walk stays in the group. -/
theorem iterate_mem_walk (h : Rounds (next f) k 0 c) (hi : i ∈ walk f k c) (m : Nat) :
    (next f)^[m] i ∈ walk f k c := by
  obtain ⟨j, -, rfl⟩ := mem_walk.mp hi
  have hclose := h.close
  rw [Nat.zero_add] at hclose
  obtain ⟨j', hj', he⟩ := iterate_return h.pos hclose (m + j)
  rw [← Function.iterate_add_apply]
  exact mem_walk.mpr ⟨j', hj', he.symm⟩

section Perm

variable (hf : f.Perm (List.range f.length))
include hf

omit hf in
theorem getElem_next (hi : i < f.length) : f[i]? = some (next f i) := by
  rw [next, List.getD_eq_getElem _ _ hi, List.getElem?_eq_getElem hi]

theorem next_lt (hi : i < f.length) : next f i < f.length := by
  rw [next, List.getD_eq_getElem _ _ hi]
  exact List.mem_range.mp (hf.mem_iff.mp (List.getElem_mem hi))

theorem next_inj (hi : i < f.length) (hj : j < f.length) (h : next f i = next f j) : i = j := by
  rw [next, next, List.getD_eq_getElem _ _ hi, List.getD_eq_getElem _ _ hj] at h
  exact (List.Nodup.getElem_inj_iff (hf.nodup_iff.mpr List.nodup_range)).mp h

theorem iterate_lt (hk : k < f.length) (j : Nat) : (next f)^[j] k < f.length := by
  induction j with
  | zero => exact hk
  | succ j ih =>
    rw [Function.iterate_succ_apply']
    exact next_lt hf ih

/-- The walk from an element comes back to it, and within as many steps as there are elements. -/
theorem exists_cycle (hk : k < f.length) : ∃ c ≤ f.length, Rounds (next f) k 0 c := by
  have hlt := iterate_lt hf hk
  have hfin : {y | ¬ f.length ≤ y}.Finite := (Set.finite_lt_nat f.length).subset fun y hy => not_le.mp hy
  obtain ⟨d, hd⟩ | ⟨⟨t, c, hr⟩, -⟩ := leads_or_rounds (f := next f) hfin k
  · exact absurd hd.1 (not_le.mpr (hlt d))
  · obtain rfl := rounds_of_inj (fun i j he => next_inj hf (hlt i) (hlt j) he) hr
    have hsub : walk f k c ⊆ List.range f.length := by
      intro i hi
      obtain ⟨j, -, rfl⟩ := mem_walk.mp hi
      exact List.mem_range.mpr (hlt j)
    have hle := (List.subperm_of_subset (walk_nodup hr) hsub).length_le
    rw [List.length_range, walk, List.length_map, List.length_range] at hle
    exact ⟨c, hle, hr⟩

omit hf in
theorem printCycle_succ (hi : i < f.length) (hS : Marked f.length S tb) (steps k : Nat) :
    printCycle (steps + 1) f k tb i = if next f i ≠ k then
      (printCycle steps f k (tb.set i 1) (next f i)).map fun s => (i :: s.1, s.2) else some ([i], tb.set i 1) := by
  have hassign : assign tb i 1 = some (tb.set i 1) := assign_some.mpr ⟨by rwa [hS.length], rfl⟩
  rw [printCycle, hassign, getElem_next hi]
  split_ifs with h
  · cases hrest : printCycle steps f k (tb.set i 1) (next f i) <;> simp [h, hrest]
  · simp [h]

/-- The loop over a cycle, from its element number `j` on. -/
theorem printCycle_spec (hr : Rounds (next f) k 0 c) (hk : k < f.length) (hc : j + m + 1 = c)
    (hS : Marked f.length S tb) :
    let rest := (List.range' j (m + 1)).map fun j => (next f)^[j] k
    ∃ tb', Marked f.length (rest ++ S) tb' ∧
      ∀ steps, m < steps → printCycle steps f k tb ((next f)^[j] k) = some (rest, tb') := by
  have hj := iterate_lt hf hk j
  have hset := marked_set hS hj
  induction m generalizing j tb S with
  | zero =>
    refine ⟨_, hset, fun steps hsteps => ?_⟩
    obtain ⟨steps, rfl⟩ := Nat.exists_eq_succ_of_ne_zero (Nat.ne_of_gt hsteps)
    have hend : next f ((next f)^[j] k) = k := by
      have hclose := hr.close
      rwa [Nat.zero_add, ← hc, Function.iterate_succ_apply'] at hclose
    rw [Nat.succ_eq_add_one, printCycle_succ hj hS, if_neg (not_not.mpr hend)]
    rfl
  | succ m ih =>
    have hj' := iterate_lt hf hk (j + 1)
    obtain ⟨tb', hmarked, hrun⟩ := ih (by omega) hset hj' (marked_set hset hj')
    refine ⟨tb', marked_congr hmarked fun x => ?_, fun steps hsteps => ?_⟩
    · have hlist : List.range' j (m + 1 + 1) = j :: List.range' (j + 1) (m + 1) := List.range'_succ
      rw [hlist, List.map_cons]
      simp only [List.mem_append, List.mem_cons]
      tauto
    · obtain ⟨steps, rfl⟩ := Nat.exists_eq_succ_of_ne_zero (Nat.ne_of_gt (Nat.zero_lt_of_lt hsteps))
      have hgo : next f ((next f)^[j] k) ≠ k := by
        intro he
        have hzero := hr.inj (j + 1) (by omega) 0 (by omega) ((Function.iterate_succ_apply' ..).trans he)
        exact absurd hzero (Nat.succ_ne_zero j)
      have hrest := hrun steps (Nat.lt_of_succ_lt_succ hsteps)
      rw [Function.iterate_succ_apply'] at hrest
      rw [Nat.succ_eq_add_one, printCycle_succ hj hS, if_pos hgo, hrest]
      rfl

/-- The loop over a whole cycle. -/
theorem printCycle_walk (hr : Rounds (next f) k 0 c) (hk : k < f.length) (hS : Marked f.length S tb) :
    ∃ tb', Marked f.length (walk f k c ++ S) tb' ∧
      ∀ steps, c ≤ steps → printCycle steps f k tb k = some (walk f k c, tb') := by
  obtain ⟨c, rfl⟩ := Nat.exists_eq_succ_of_ne_zero hr.pos.ne'
  have hspec := printCycle_spec hf hr hk (j := 0) (m := c) (by omega) hS
  rw [← List.range_eq_range'] at hspec
  exact hspec

/-- The loop of `is_cyclic` over the cycle of the element 0. -/
theorem countCycle_spec (hr : Rounds (next f) 0 0 c) (h0 : 0 < f.length) (hc : j + m + 1 = c) {steps : Nat}
    (hsteps : m < steps) : countCycle steps f ((next f)^[j] 0) j = some c := by
  induction m generalizing j steps with
  | zero =>
    obtain ⟨steps, rfl⟩ := Nat.exists_eq_succ_of_ne_zero (Nat.ne_of_gt hsteps)
    have hend : next f ((next f)^[j] 0) = 0 := by
      have hclose := hr.close
      rwa [Nat.zero_add, ← hc, Function.iterate_succ_apply'] at hclose
    simp [countCycle, getElem_next (iterate_lt hf h0 j), hend, ← hc]
  | succ m ih =>
    obtain ⟨steps, rfl⟩ := Nat.exists_eq_succ_of_ne_zero (Nat.ne_of_gt (Nat.zero_lt_of_lt hsteps))
    have hgo : next f ((next f)^[j] 0) ≠ 0 := by
      intro he
      have hzero := hr.inj (j + 1) (by omega) 0 (by omega) ((Function.iterate_succ_apply' ..).trans he)
      exact absurd hzero (Nat.succ_ne_zero j)
    have hrest := ih (j := j + 1) (by omega) (Nat.lt_of_succ_lt_succ hsteps)
    rw [Function.iterate_succ_apply'] at hrest
    simpa [countCycle, getElem_next (iterate_lt hf h0 j), hgo] using hrest

end Perm

end Walks

section Rounds

variable {f : List Nat} {k : Nat} {s : List (List Nat) × List Nat}

theorem isGroup_headD {g : List Nat} (hg : IsGroup f g) :
    ∃ c, Rounds (next f) (g.headD 0) 0 c ∧ g = walk f (g.headD 0) c := by
  obtain ⟨k, c, hr, rfl, -⟩ := hg
  rw [walk_headD hr]
  exact ⟨c, hr, rfl⟩

/-- What leads into a group is in it. -/
theorem mem_of_iterate {g : List Nat} {c j : Nat} (hg : IsGroup f g) (hr : Rounds (next f) k 0 c) (hj : j < c)
    (hmem : (next f)^[j] k ∈ g) : k ∈ g := by
  obtain ⟨k', c', hr', rfl, -⟩ := hg
  have hback := iterate_mem_walk hr' hmem (c - j)
  have hclose := hr.close
  rw [← Function.iterate_add_apply, Nat.sub_add_cancel hj.le] at hback
  rw [Nat.zero_add] at hclose
  rwa [hclose] at hback

theorem printed_start (f : List Nat) : Printed f 0 ([], cleared f.length) := by
  refine ⟨marked_cleared _, ?_, ?_, List.nodup_nil, ?_, List.Pairwise.nil⟩ <;> simp

/-- One round of `print_cycles`. -/
theorem printRound_spec (hf : f.Perm (List.range f.length)) (hk : k < f.length) (h : Printed f k s) :
    ∃ t, (∀ steps, f.length ≤ steps → printRound steps f s k = some t) ∧ Printed f (k + 1) t := by
  obtain ⟨groups, tb⟩ := s
  have htag := h.marked.tag k hk
  by_cases hmem : k ∈ groups.flatten
  · rw [if_pos hmem] at htag
    refine ⟨(groups, tb), fun steps _ => by simp [printRound, htag], h.marked, h.groups, ?_, h.nodup, ?_, h.sorted⟩
    · exact fun g hg => Nat.lt_succ_of_lt (h.heads g hg)
    · intro x hx
      obtain hlt | rfl := Nat.lt_or_eq_of_le (Nat.le_of_lt_succ hx)
      · exact h.seen x hlt
      · exact hmem
  · rw [if_neg hmem] at htag
    obtain ⟨c, hc, hr⟩ := exists_cycle hf hk
    obtain ⟨tb', hmarked, hrun⟩ := printCycle_walk hf hr hk h.marked
    have hfresh : ∀ x ∈ walk f k c, x ∉ groups.flatten := by
      intro x hx hx'
      obtain ⟨j, hj, rfl⟩ := mem_walk.mp hx
      obtain ⟨g, hg, hxg⟩ := List.mem_flatten.mp hx'
      exact hmem (List.mem_flatten.mpr ⟨g, hg, mem_of_iterate (h.groups g hg) hr hj hxg⟩)
    have hleast : ∀ x ∈ walk f k c, k ≤ x := fun x hx => not_lt.mp fun hlt => hfresh x hx (h.seen x hlt)
    have hflat : (groups ++ [walk f k c]).flatten = groups.flatten ++ walk f k c := by simp
    refine ⟨(groups ++ [walk f k c], tb'), fun steps hsteps => ?_, marked_congr hmarked fun x => ?_, ?_, ?_, ?_, ?_,
      ?_⟩
    · simp [printRound, htag, hrun steps (hc.trans hsteps)]
    · rw [hflat, List.mem_append, List.mem_append, or_comm]
    · intro g hg
      obtain hg | hg := List.mem_append.mp hg
      · exact h.groups g hg
      · rw [List.mem_singleton.mp hg]
        exact ⟨k, c, hr, rfl, hleast⟩
    · intro g hg
      obtain hg | hg := List.mem_append.mp hg
      · exact Nat.lt_succ_of_lt (h.heads g hg)
      · rw [List.mem_singleton.mp hg, walk_headD hr]
        exact Nat.lt_succ_self k
    · rw [hflat]
      exact List.nodup_append'.mpr ⟨h.nodup, walk_nodup hr, fun x hx hx' => hfresh x hx' hx⟩
    · intro x hx
      rw [hflat, List.mem_append]
      obtain hlt | rfl := Nat.lt_or_eq_of_le (Nat.le_of_lt_succ hx)
      · exact .inl (h.seen x hlt)
      · exact .inr (mem_walk.mpr ⟨0, hr.pos, rfl⟩)
    · refine List.pairwise_append.mpr ⟨h.sorted, List.pairwise_singleton _ _, fun g hg g' hg' => ?_⟩
      rw [List.mem_singleton.mp hg', walk_headD hr]
      exact h.heads g hg

/-- There is one group exactly if the cycle of the element 0 has all the elements. -/
theorem single_group {groups : List (List Nat)} {c : Nat}
    (hperm : groups.flatten.Perm (List.range f.length)) (hgroups : ∀ g ∈ groups, IsGroup f g)
    (h0 : 0 < f.length) (hr : Rounds (next f) 0 0 c) : groups.length = 1 ↔ c = f.length := by
  obtain ⟨g, hg, h0g⟩ := List.mem_flatten.mp (hperm.mem_iff.mpr (List.mem_range.mpr h0))
  have hlen := hperm.length_eq
  rw [List.length_range] at hlen
  have hg' : g = walk f 0 c := by
    obtain ⟨k, c', hr', rfl, hleast⟩ := hgroups g hg
    obtain rfl := Nat.le_zero.mp (hleast 0 h0g)
    rw [rounds_unique hr hr']
  have hgc : g.length = c := by rw [hg', walk, List.length_map, List.length_range]
  have hne : ∀ g ∈ groups, 0 < g.length := by
    intro g hg
    obtain ⟨k, c', hr', rfl, -⟩ := hgroups g hg
    rw [walk, List.length_map, List.length_range]
    exact hr'.pos
  obtain ⟨l₁, l₂, rfl⟩ := List.append_of_mem hg
  simp only [List.flatten_append, List.flatten_cons, List.length_append] at hlen
  rw [List.length_append, List.length_cons]
  constructor
  · intro h
    obtain rfl := List.length_eq_zero_iff.mp (by omega : l₁.length = 0)
    obtain rfl := List.length_eq_zero_iff.mp (by omega : l₂.length = 0)
    simpa [hgc] using hlen
  · intro h
    have hnil : ∀ l : List (List Nat), (∀ g ∈ l, 0 < g.length) → l.flatten.length = 0 → l.length = 0 := by
      intro l hl hzero
      cases l with
      | nil => rfl
      | cons g l =>
        rw [List.flatten_cons, List.length_append] at hzero
        exact absurd (hl g List.mem_cons_self) (by omega)
    have h1 := hnil l₁ (fun g hg => hne g (List.mem_append_left _ hg)) (by omega)
    have h2 := hnil l₂ (fun g hg => hne g (List.mem_append_right _ (List.mem_cons_of_mem _ hg))) (by omega)
    rw [h1, h2]

end Rounds

/-- `print_cycles` prints the cycles, each from its least element on and in the order of these, and
`is_cyclic` tells whether it prints one. -/
theorem cycles_agree (f : List Nat) (hf : f.Perm (List.range f.length)) (hn : 1 ≤ f.length) :
    ∃ groups tags, groups.flatten.Perm (List.range f.length) ∧ (∀ g ∈ groups, IsGroup f g) ∧
      groups.Pairwise (fun g g' => g.headD 0 < g'.headD 0) ∧
      ∀ steps, f.length ≤ steps → printCycles steps f f.length (cleared f.length) = some (groups, tags) ∧
        isCyclic steps f f.length = some (decide (groups.length = 1)) := by
  obtain ⟨⟨groups, tags⟩, hrun, hprinted⟩ := foldlM_range_uniform (P := fun steps => f.length ≤ steps)
    (I := Printed f) (fun k hk s hs => printRound_spec hf hk hs) (printed_start f)
  have hperm : groups.flatten.Perm (List.range f.length) := by
    refine (List.perm_ext_iff_of_nodup hprinted.nodup List.nodup_range).mpr fun x => ?_
    rw [List.mem_range]
    constructor
    · intro hx
      obtain ⟨g, hg, hxg⟩ := List.mem_flatten.mp hx
      obtain ⟨c, -, hwalk⟩ := isGroup_headD (hprinted.groups g hg)
      rw [hwalk] at hxg
      obtain ⟨j, -, rfl⟩ := mem_walk.mp hxg
      exact iterate_lt hf (hprinted.heads g hg) j
    · exact hprinted.seen x
  refine ⟨groups, tags, hperm, hprinted.groups, hprinted.sorted, fun steps hsteps => ⟨hrun steps hsteps, ?_⟩⟩
  obtain ⟨c, hc, hr⟩ := exists_cycle hf hn
  have hsingle := single_group hperm hprinted.groups hn hr
  by_cases hone : f.length ≤ 1
  · have hgroup : groups.length = 1 := hsingle.mpr (by have hpos := hr.pos; omega)
    rw [isCyclic, if_pos hone, decide_eq_true hgroup]
    rfl
  · obtain ⟨m, rfl⟩ := Nat.exists_eq_succ_of_ne_zero hr.pos.ne'
    have hcount := countCycle_spec hf hr hn (j := 0) (m := m) (by omega) (hc.trans hsteps)
    rw [Function.iterate_zero, id] at hcount
    simp [isCyclic, hone, hcount, hsingle]

theorem cycles_agree_swap :
    ∃ groups tags, groups.flatten.Perm (List.range 3) ∧ (∀ g ∈ groups, IsGroup [1, 0, 2] g) ∧
      groups.Pairwise (fun g g' => g.headD 0 < g'.headD 0) ∧
      ∀ steps, 3 ≤ steps → printCycles steps [1, 0, 2] 3 (cleared 3) = some (groups, tags) ∧
        isCyclic steps [1, 0, 2] 3 = some (decide (groups.length = 1)) :=
  cycles_agree [1, 0, 2] (by decide) (by decide)

end C11AndC.Cyclic
