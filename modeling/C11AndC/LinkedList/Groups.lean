import C11AndC.Library.Groups
import C11AndC.LinkedList.Node

namespace C11AndC.LinkedList.Groups

open C11AndC.Library

/-- Programs on the nodes of lists; the text that is printed outlives a call. -/
abbrev GroupProg := Program Node String

def say (text : String) : GroupProg Unit := setReg (fun out => out ++ text)

/-- The local variables of `reverse`. -/
structure Cursor where
  current : Nat
  next : Nat
  prev : Nat
  count : Int

/-- One round of the loop: a node is turned round. -/
def reverseStep (k : Int) (x : Cursor) : GroupProg (Cursor ⊕ Cursor) := do
  if x.current = 0 then
    return .inr x
  else if x.count < k then
    let node ← load x.current
    say ("current is " ++ toString node.data ++ "\n")
    store x.current (fun n => { n with next := x.prev })
    return .inl ⟨node.next, node.next, x.current, x.count + 1⟩
  else
    return .inr x

def sayNext (next : Nat) : GroupProg Unit := do
  if next ≠ 0 then
    say ("head next is " ++ toString (← load next).data)
  else
    return ()

/-- Hang the rest of the list on its old head. -/
def linkHead (head rest : Nat) : GroupProg Unit := do
  store head (fun n => { n with next := rest })
  if head ≠ 0 then
    sayNext (← load head).next
  else
    return ()

/-- What is done if there is a node behind the group; `reversed` stands for the call with it. -/
def linkRest (head next : Nat) (reversed : GroupProg Nat) : GroupProg Unit := do
  if next ≠ 0 then
    say ("head is " ++ toString (← load head).data ++ "\n")
    linkHead head (← reversed)
  else
    return ()

def reverse : Nat → Nat → Int → GroupProg Nat
  | 0, _, _ => outOfSteps
  | steps + 1, head, k => do
    let x ← loop (reverseStep k) (steps + 1) ⟨head, 0, 0, 0⟩
    linkRest head x.next (reverse steps x.next k)
    say (" pre is " ++ toString (← load x.prev).data ++ "\n")
    return x.prev

section Rounds

variable {m m' : Memory Node} {s : Store Node String} {k : Nat} {l xs ys : List (Nat × Int)} {x : Cursor}
  {head p q r v : Nat}

/-- The front of `l` is turned round; the part `ys` is still to come. -/
structure Grouping (m : Memory Node) (k : Nat) (l ys : List (Nat × Int)) (x : Cursor) (m' : Memory Node) : Prop where
  split : ∃ xs, l = xs ++ ys ∧ x.count = xs.length ∧ xs.length ≤ k ∧ Holds m' x.prev xs.reverse ∧
    Memory.SameExcept (addrs xs) m m'
  rest : Holds m' x.current ys
  next : x.next = x.current ∨ ys = l

/-- A round turns the node in front. -/
theorem Grouping.turn {y : Nat × Int} {node : Node} (hl : (addrs l).Nodup) (h : Grouping m k l (y :: ys) x m')
    (hk : x.count < k) (hc : m'.cell x.current = some node) :
    Grouping m k l ys ⟨node.next, node.next, x.current, x.count + 1⟩
      (m'.modify x.current (fun n => { n with next := x.prev })) := by
  obtain ⟨xs, rfl, hcount, hle, hback, hsame⟩ := h.split
  obtain ⟨hcur, next, hc', hrest⟩ := h.rest
  cases hc.symm.trans hc'
  rw [addrs_append, List.nodup_append] at hl
  have hfront : x.current ∉ addrs xs.reverse := by
    rw [addrs_reverse, List.mem_reverse, hcur]
    exact fun hx => hl.2.2 _ hx _ List.mem_cons_self rfl
  have hys : x.current ∉ addrs ys := hcur ▸ (List.nodup_cons.mp hl.2.1).1
  refine ⟨⟨xs ++ [y], by simp, ?_, ?_, ?_, ?_⟩, segment_modify hys hrest, Or.inl rfl⟩
  · rw [List.length_append, List.length_singleton]
    change x.count + 1 = _
    omega
  · rw [List.length_append, List.length_singleton]
    omega
  · rw [List.reverse_append, List.reverse_singleton, List.singleton_append]
    refine ⟨hcur, x.prev, ?_, segment_modify hfront hback⟩
    rw [Memory.cell_modify_self, hc]
    rfl
  · refine Memory.sameExcept_trans (fun a ha => hsame a fun hx => ha ?_) (Memory.sameExcept_modify ?_ _ _)
    · rw [addrs_append]
      exact List.mem_append_left _ hx
    · rw [addrs_append, hcur]
      exact List.mem_append_right _ List.mem_cons_self

/-- What a group leaves: it is turned round, and `next` is the node behind it. -/
structure Grouped (m : Memory Node) (k : Nat) (l : List (Nat × Int)) (x : Cursor) (m' : Memory Node) : Prop where
  back : Holds m' x.prev (l.take k).reverse
  rest : Holds m' x.next (l.drop k)
  apart : Memory.SameExcept (addrs (l.take k)) m m'

theorem Grouping.done (hl : l ≠ []) (hk : 1 ≤ k) (h : Grouping m k l ys x m')
    (hstop : ys = [] ∨ (k : Int) ≤ x.count) : Grouped m k l x m' := by
  obtain ⟨xs, rfl, hcount, hle, hback, hsame⟩ := h.split
  have hcut : (xs ++ ys).take k = xs ∧ (xs ++ ys).drop k = ys := by
    rcases hstop with rfl | hstop
    · rw [List.append_nil]
      exact ⟨List.take_of_length_le hle, List.drop_eq_nil_of_le hle⟩
    · have hlen : xs.length = k := by omega
      exact ⟨List.take_left' hlen, List.drop_left' hlen⟩
  have hnext : x.next = x.current := by
    refine h.next.resolve_right fun hys => ?_
    have hxs : xs = [] := List.self_eq_append_left.mp hys
    subst hxs
    rcases hstop with rfl | hstop
    · exact hl rfl
    · rw [hcount, List.length_nil] at hstop
      omega
  refine ⟨?_, ?_, ?_⟩
  · rwa [hcut.1]
  · rw [hcut.2, hnext]
    exact h.rest
  · rwa [hcut.1]

theorem wp_reverseStep {j : Nat} (hl : (addrs l).Nodup) (hne : l ≠ []) (hk : 1 ≤ k)
    (h : ∃ ys, ys.length = j ∧ Grouping m k l ys x s.mem) :
    wp (reverseStep k x) (fun r t => match r with
      | .inl x' => ∃ i, i < j ∧ ∃ ys, ys.length = i ∧ Grouping m k l ys x' t.mem
      | .inr x' => Grouped m k l x' t.mem) s := by
  obtain ⟨ys, rfl, h⟩ := h
  simp only [reverseStep, wp_ite, wp_pure]
  refine ⟨fun hcur => h.done hne hk (Or.inl ((holds_eq_zero h.rest).mp hcur)),
    fun hcur => ⟨fun hlt => ?_, fun hge => ?_⟩⟩
  · cases ys with
    | nil => exact absurd h.rest hcur
    | cons y ys =>
      obtain ⟨-, next, hc, -⟩ := id h.rest
      simp only [say, wp_bind, wp_load, wp_setReg, wp_store, wp_pure]
      exact ⟨_, hc, Option.isSome_of_mem hc, ys.length, Nat.lt_succ_self _, ys, rfl, h.turn hl hlt hc⟩
  · exact h.done hne hk (Or.inr (Int.not_lt.mp hge))

theorem wp_reverseLoop {steps : Nat} (h : Holds s.mem head l) (hne : l ≠ []) (hk : 1 ≤ k) (hn : l.length < steps) :
    wp (loop (reverseStep k) steps ⟨head, 0, 0, 0⟩) (fun x t => Grouped s.mem k l x t.mem) s := by
  have hstart : Grouping s.mem k l l ⟨head, 0, 0, 0⟩ s.mem :=
    ⟨⟨[], rfl, rfl, Nat.zero_le k, rfl, Memory.sameExcept_refl _ _⟩, h, Or.inr rfl⟩
  refine wp_loop (fun j x t => ∃ ys, ys.length = j ∧ Grouping s.mem k l ys x t.mem) ?_ ⟨l, rfl, hstart⟩ hn
  intro j x t ht
  refine wp_mono (wp_reverseStep (holds_nodup h) hne hk ht) fun r u hr => ?_
  cases r with
  | inl x' => exact hr
  | inr x' => exact hr

/-- The old head is at the end of its group and can be linked on. -/
theorem grouped_head {y : Nat × Int} (h : Grouped m k (y :: l) x m') (hk : 1 ≤ k) :
    ∃ front, ((y :: l).take k).reverse = front ++ [y] ∧ Segment m' y.1 x.prev front ∧
      m'.cell y.1 = some ⟨y.2, 0⟩ := by
  obtain ⟨n, rfl⟩ := Nat.exists_eq_add_of_le' hk
  have hrev : ((y :: l).take (n + 1)).reverse = (l.take n).reverse ++ [y] := by
    rw [List.take_succ_cons, List.reverse_cons]
  refine ⟨_, hrev, ?_⟩
  have hback := h.back
  rw [hrev] at hback
  obtain ⟨r, hfront, rfl, next, hc, rfl⟩ := segment_append.mp hback
  exact ⟨hfront, hc⟩

theorem wp_sayNext {Q : Unit → Store Node String → Prop} (hp : p ≠ 0 → ∃ n, s.mem.cell p = some n)
    (hq : ∀ out, Q () ⟨s.mem, out⟩) : wp (sayNext p) Q s := by
  simp only [sayNext, wp_ite, say, wp_bind, wp_load, wp_setReg, wp_pure]
  refine ⟨fun hne => ?_, fun _ => hq s.reg⟩
  obtain ⟨n, hn⟩ := hp hne
  exact ⟨n, hn, hq _⟩

theorem wp_linkHead {d : Int} {Q : Unit → Store Node String → Prop} (hc : s.mem.cell p = some ⟨d, q⟩)
    (hr : Holds s.mem r l) (hp : p ∉ addrs l)
    (hq : ∀ out, Q () ⟨s.mem.modify p (fun n => { n with next := r }), out⟩) : wp (linkHead p r) Q s := by
  have hc' : (s.mem.modify p (fun n => { n with next := r })).cell p = some ⟨d, r⟩ := by
    rw [Memory.cell_modify_self, hc]
    rfl
  have hr' : Holds (s.mem.modify p (fun n => { n with next := r })) r l := segment_modify hp hr
  simp only [linkHead, wp_bind, wp_store, wp_ite, wp_load, wp_pure]
  refine ⟨Option.isSome_of_mem hc, fun _ => ⟨_, hc', wp_sayNext (fun hne => ?_) hq⟩, fun h0 => ?_⟩
  · cases l with
    | nil => exact absurd hr' hne
    | cons y l =>
      obtain ⟨rfl, next, hy, -⟩ := hr'
      exact ⟨_, hy⟩
  · exact absurd (Memory.ne_zero_of_cell hc) h0

end Rounds

section Calls

variable {s : Store Node String} {k steps : Nat} {l : List (Nat × Int)} {x : Cursor} {head r : Nat}

/-- `r` is the list with each group of `l` turned round; nothing but its nodes is written. -/
structure Reversed (m : Memory Node) (k : Nat) (l : List (Nat × Int)) (r : Nat) (m' : Memory Node) : Prop where
  list : Holds m' r (reverseGroups k l)
  apart : Memory.SameExcept (addrs l) m m'

/-- The groups behind the first are reversed and hung on its old head. -/
theorem wp_linkRest {m : Memory Node} {y : Nat × Int} {p : GroupProg Nat} (hk : 1 ≤ k) (hl : (addrs (y :: l)).Nodup)
    (h : Grouped m k (y :: l) x s.mem)
    (hp : ∀ t : Store Node String, (y :: l).drop k ≠ [] → t.mem = s.mem →
      wp p (fun r u => Reversed t.mem k ((y :: l).drop k) r u.mem) t) :
    wp (linkRest y.1 x.next p) (fun _ t => Reversed m k (y :: l) x.prev t.mem) s := by
  obtain ⟨front, hrev, hfront, hc⟩ := grouped_head h hk
  have hgroups := reverseGroups_eq hk (List.cons_ne_nil y l)
  have htake : addrs ((y :: l).take k) ⊆ addrs (y :: l) := addrs_subset (List.take_subset _ _)
  have hdrop : addrs ((y :: l).drop k) ⊆ addrs (y :: l) := addrs_subset (List.drop_subset _ _)
  have hcut : (addrs ((y :: l).take k)).Disjoint (addrs ((y :: l).drop k)) := by
    rw [← List.take_append_drop k (y :: l), addrs_append] at hl
    exact fun a ha hb => (List.nodup_append.mp hl).2.2 a ha a hb rfl
  simp only [linkRest, wp_ite, say, wp_bind, wp_load, wp_setReg, wp_pure]
  refine ⟨fun hne => ⟨_, hc, ?_⟩, fun h0 => ?_⟩
  · have hrest : (y :: l).drop k ≠ [] := fun hnil => hne ((holds_eq_zero h.rest).mpr hnil)
    refine wp_mono (hp _ hrest rfl) ?_
    rintro r t ⟨hlist, hsame⟩
    have hkeep : ∀ a ∈ addrs (front ++ [y]), t.mem.cell a = s.mem.cell a := by
      intro a ha
      rw [← hrev, addrs_reverse, List.mem_reverse] at ha
      exact hsame a (hcut ha)
    have hy : y.1 ∈ addrs (front ++ [y]) := by
      rw [addrs_append]
      exact List.mem_append_right _ List.mem_cons_self
    have hytake : y.1 ∈ addrs ((y :: l).take k) := by
      rwa [← hrev, addrs_reverse, List.mem_reverse] at hy
    have hend : Holds s.mem y.1 [y] := ⟨rfl, 0, hc, rfl⟩
    have hyfront : y.1 ∉ addrs front := end_not_mem hfront hend
    have hyrest : y.1 ∉ addrs (reverseGroups k ((y :: l).drop k)) :=
      fun hin => hcut hytake (((reverseGroups_perm hk _).map Prod.fst).mem_iff.mp hin)
    refine wp_linkHead ((hkeep _ hy).trans hc) hlist hyrest fun out => ⟨?_, ?_⟩
    · rw [hgroups, hrev, List.append_assoc]
      refine segment_append.mpr
        ⟨y.1, segment_modify hyfront (segment_congr (fun a ha => hkeep a ?_) hfront), rfl, r, ?_, ?_⟩
      · rw [addrs_append]
        exact List.mem_append_left _ ha
      · rw [Memory.cell_modify_self, hkeep _ hy, hc]
        rfl
      · exact segment_modify hyrest hlist
    · have hgroup :=
        Memory.sameExcept_trans (Memory.sameExcept_mono htake h.apart) (Memory.sameExcept_mono hdrop hsame)
      exact Memory.sameExcept_trans hgroup (Memory.sameExcept_modify List.mem_cons_self _ _)
  · have hnil : (y :: l).drop k = [] := (holds_eq_zero h.rest).mp (not_not.mp h0)
    refine ⟨?_, Memory.sameExcept_mono htake h.apart⟩
    rw [hgroups, hnil, reverseGroups_nil, List.append_nil]
    exact h.back

theorem wp_reverse (hk : 1 ≤ k) (hne : l ≠ []) (h : Holds s.mem head l) (hn : l.length < steps) :
    wp (reverse steps head k) (fun r t => Reversed s.mem k l r t.mem) s := by
  induction steps generalizing s l head with
  | zero => omega
  | succ steps ih =>
    rw [reverse, wp_bind]
    refine wp_mono (wp_reverseLoop h hne hk hn) fun x t hx => ?_
    obtain ⟨y, l, rfl⟩ := List.exists_cons_of_ne_nil hne
    obtain ⟨rfl, -⟩ := id h
    rw [wp_bind]
    refine wp_mono (wp_linkRest hk (holds_nodup h) hx fun u hrest hu => ih hrest (hu ▸ hx.rest) ?_) fun _ u hr => ?_
    · rw [List.length_drop]
      rw [List.length_cons] at hn ⊢
      omega
    · have hsome : reverseGroups k (y :: l) ≠ [] := by
        rw [← List.length_pos_iff, (reverseGroups_perm hk _).length_eq]
        exact Nat.succ_pos _
      obtain ⟨z, zs, hz⟩ := List.exists_cons_of_ne_nil hsome
      have hlist := hr.list
      rw [hz] at hlist
      obtain ⟨-, next, hc, -⟩ := hlist
      simp only [say, wp_bind, wp_load, wp_setReg, wp_pure]
      exact ⟨_, hc, hr⟩

end Calls

/-- The groups of a list are turned round over the same nodes; a second call brings the list back. -/
theorem reverse_groups (s : Store Node String) (head : Nat) (k : Int) (l : List (Nat × Int)) (hk : 1 ≤ k)
    (hne : l ≠ []) (h : Holds s.mem head l) : (reverseGroups k.toNat l).Perm l ∧ ∃ enough, ∀ steps, enough ≤ steps →
      wp (reverse steps head k) (fun r t => Holds t.mem r (reverseGroups k.toNat l) ∧
        Memory.SameExcept (addrs l) s.mem t.mem ∧
        wp (reverse steps r k) (fun r' u => Holds u.mem r' l) t) s := by
  obtain ⟨n, rfl⟩ := Int.eq_ofNat_of_zero_le (a := k) (by omega)
  have hn : 1 ≤ n := by omega
  rw [Int.toNat_natCast]
  have hperm := reverseGroups_perm hn l
  have hsome : reverseGroups n l ≠ [] := by
    rwa [← List.length_pos_iff, hperm.length_eq, List.length_pos_iff]
  refine ⟨hperm, l.length + 1, fun steps hsteps => ?_⟩
  refine wp_mono (wp_reverse hn hne h hsteps) fun r t hr => ⟨hr.list, hr.apart, ?_⟩
  refine wp_mono (wp_reverse hn hsome hr.list (hperm.length_eq ▸ hsteps)) fun r' u hu => ?_
  have hlist := hu.list
  rwa [reverseGroups_involutive hn] at hlist

/-- The list `1 → 2 → 3`. -/
def threeNodes : Memory Node := ((Memory.empty.alloc ⟨1, 2⟩).alloc ⟨2, 3⟩).alloc ⟨3, 0⟩

theorem reverse_groups_three :
    (reverseGroups 2 [((1 : Nat), (1 : Int)), (2, 2), (3, 3)]).Perm [(1, 1), (2, 2), (3, 3)] ∧
    ∃ enough, ∀ steps, enough ≤ steps →
      wp (reverse steps 1 2) (fun r t => Holds t.mem r (reverseGroups 2 [(1, 1), (2, 2), (3, 3)]) ∧
        Memory.SameExcept [1, 2, 3] threeNodes t.mem ∧
        wp (reverse steps r 2) (fun r' u => Holds u.mem r' [(1, 1), (2, 2), (3, 3)]) t) ⟨threeNodes, ""⟩ :=
  reverse_groups ⟨threeNodes, ""⟩ 1 2 [(1, 1), (2, 2), (3, 3)] (by decide) (List.cons_ne_nil _ _)
    ⟨rfl, 2, rfl, rfl, 3, rfl, rfl, 0, rfl, rfl⟩

end C11AndC.LinkedList.Groups
