import C11AndC.LinkedList.Node
import C11AndC.Library.Sessions

namespace C11AndC.LinkedList.Deletion

open C11AndC.Library

/-- What `deleteNode` prints when it deletes nothing. -/
inductive Message where
  | onlyOne
  | notPresent
  deriving DecidableEq

/-- One round of the search for the previous node. -/
def findStep (n prev : Nat) : Prog (Nat ⊕ Nat) := do
  let next := (← load prev).next
  if next ≠ 0 ∧ next ≠ n then
    return .inl next
  else
    return .inr prev

def deleteNode (steps head n : Nat) : Prog (Option Message) := do
  if head = n then
    if (← load head).next = 0 then
      return some .onlyOne
    else
      -- The data of the next node are copied, and it is the next node that goes.
      let data := (← load (← load head).next).data
      store head (fun v => { v with data := data })
      let n := (← load head).next
      let next := (← load (← load head).next).next
      store head (fun v => { v with next := next })
      delete n
      return none
  else
    let prev ← loop (findStep n) steps head
    if (← load prev).next = 0 then
      return some .notPresent
    else
      let next := (← load (← load prev).next).next
      store prev (fun v => { v with next := next })
      delete n
      return none

/-- A call with the pointer `head` of the program, which `deleteNode` cannot change. -/
def call (steps n : Nat) : Prog (Option Message) := do deleteNode steps (← getReg) n

/-- The call on a list of addresses and data. -/
def remove (n : Nat) : List (Nat × Int) → Option Message × List (Nat × Int)
  | [] => (none, [])
  | x :: l =>
      if x.1 = n then
        match l with
        | [] => (some .onlyOne, [x])
        | y :: l => (none, (x.1, y.2) :: l)
      else if n ∈ addrs l then (none, x :: l.eraseP (fun y => y.1 = n))
      else (some .notPresent, x :: l)

/-- Of the list `before` the nodes of `after` are left; the others are released, and outside of the list nothing
has changed. -/
structure Shrunk (before after : List (Nat × Int)) (m m' : Memory Node) : Prop where
  within : addrs after ⊆ addrs before
  gone : ∀ a ∈ addrs before, a ∉ addrs after → m'.cell a = none
  kept : Memory.SameExcept (addrs before) m m'

section Lists

variable {m m' m'' : Memory Node} {p n steps : Nat} {x y z : Nat × Int} {l before after xs ys zs : List (Nat × Int)}
  {s : Store Node Nat}

theorem shrunk_refl (l : List (Nat × Int)) (m : Memory Node) : Shrunk l l m m := by
  constructor
  case within => exact List.Subset.refl _
  case gone => exact fun a ha hnot => absurd ha hnot
  case kept => exact Memory.sameExcept_refl _ m

theorem shrunk_trans (h : Shrunk xs ys m m') (h' : Shrunk ys zs m' m'') : Shrunk xs zs m m'' := by
  constructor
  case within => exact List.Subset.trans h'.within h.within
  case gone =>
    intro a ha hnot
    by_cases hy : a ∈ addrs ys
    · exact h'.gone a hy hnot
    · rw [h'.kept a hy]
      exact h.gone a ha hy
  case kept => exact Memory.sameExcept_trans h.kept (Memory.sameExcept_mono h.within h'.kept)

theorem shrunk_modify {a : Nat} (xs ys : List (Nat × Int)) (h : addrs ys = addrs xs)
    (ha : a ∈ addrs xs) (m : Memory Node) (f : Node → Node) : Shrunk xs ys m (m.modify a f) := by
  constructor
  case within => exact h ▸ List.Subset.refl _
  case gone => exact fun b hb hnot => absurd (h ▸ hb) hnot
  case kept => exact Memory.sameExcept_modify ha m f

theorem holds_setData (h : Holds m p (x :: l)) (d : Int) :
    Holds (m.modify p (fun v => { v with data := d })) p ((x.1, d) :: l) := by
  obtain ⟨-, hnot⟩ : x.1 ∈ addrs (x :: l) ∧ x.1 ∉ addrs l :=
    ⟨List.mem_cons_self, (List.nodup_cons.mp (holds_nodup h)).1⟩
  obtain ⟨rfl, next, hc, hs⟩ := h
  refine ⟨rfl, next, ?_, segment_modify hnot hs⟩
  rw [Memory.cell_modify_self, hc]
  rfl

theorem next_ne (h : Holds m p (before ++ y :: z :: after)) : z.1 ≠ y.1 := by
  have hnodup := holds_nodup h
  rw [addrs_append, List.nodup_append] at hnodup
  have hy := (List.nodup_cons.mp hnodup.2.1).1
  exact fun he => hy (he ▸ List.mem_cons_self)

/-- The node behind `y` is unlinked and released. -/
theorem holds_unlink (before : List (Nat × Int)) {v : Node}
    (h : Holds m p (before ++ y :: z :: after)) (hz : m.cell z.1 = some v) :
    Holds ((m.modify y.1 (fun w => { w with next := v.next })).free z.1) p (before ++ y :: after) ∧
      Shrunk (before ++ y :: z :: after) (before ++ y :: after) m
        ((m.modify y.1 (fun w => { w with next := v.next })).free z.1) := by
  have hnodup := holds_nodup h
  rw [addrs_append, List.nodup_append] at hnodup
  obtain ⟨-, htail, happart⟩ := hnodup
  obtain ⟨hy, htail⟩ := List.nodup_cons.mp htail
  obtain ⟨hz', -⟩ := List.nodup_cons.mp htail
  obtain ⟨r, hfront, hrest⟩ := segment_append.mp h
  obtain ⟨rfl, next, hcy, hrest⟩ := hrest
  obtain ⟨rfl, next', hcz, hafter⟩ := hrest
  rw [hz] at hcz
  cases hcz
  have hyz : y.1 ≠ z.1 := (next_ne h).symm
  have hcell : ∀ a, a ≠ y.1 → a ≠ z.1 →
      ((m.modify y.1 (fun w => { w with next := next' })).free z.1).cell a = m.cell a := by
    intro a hay haz
    rw [Memory.cell_free_ne _ haz, Memory.cell_modify_ne _ hay]
  constructor
  · apply segment_append.mpr
    refine ⟨y.1, segment_congr ?_ hfront, rfl, next', ?_, segment_congr ?_ hafter⟩
    · intro a ha
      apply hcell
      · exact happart a ha _ List.mem_cons_self
      · exact happart a ha _ (List.mem_cons_of_mem _ List.mem_cons_self)
    · rw [Memory.cell_free_ne _ hyz, Memory.cell_modify_self, hcy]
      rfl
    · intro a ha
      apply hcell
      · rintro rfl
        exact hy (List.mem_cons_of_mem _ ha)
      · rintro rfl
        exact hz' ha
  · have hperm : (addrs (before ++ y :: z :: after)).Perm (z.1 :: addrs (before ++ y :: after)) :=
      (((List.Perm.swap z y after).append_left before).trans List.perm_middle).map Prod.fst
    constructor
    case within => exact fun a ha => hperm.mem_iff.mpr (List.mem_cons_of_mem _ ha)
    case gone =>
      intro a ha hnot
      rw [(List.mem_cons.mp (hperm.mem_iff.mp ha)).resolve_right hnot, Memory.cell_free_self]
    case kept =>
      intro a ha
      apply hcell
      · rintro rfl
        exact ha (by simp [addrs])
      · rintro rfl
        exact ha (by simp [addrs])

/-- The search ends at the node before `n`, or at the last node. -/
theorem wp_find (h : Holds s.mem p (x :: l)) (hn : l.length < steps) :
    wp (loop (findStep n) steps p) (fun prev t => t = s ∧ ∃ before y front after, x :: front = before ++ [y] ∧
      l = front ++ after ∧ prev = y.1 ∧ n ∉ addrs front ∧ ∀ z ∈ after.head?, z.1 = n) s := by
  induction l generalizing p x steps with
  | nil =>
    cases steps with
    | zero => exact absurd hn (Nat.not_lt_zero _)
    | succ steps =>
      obtain ⟨rfl, next, hc, hs⟩ := h
      cases hs
      simp only [wp_loop_succ, findStep, wp_bind, wp_load, hc, Option.some.injEq, exists_eq_left', ne_eq,
        not_true_eq_false, false_and, if_false, wp_pure]
      exact ⟨trivial, [], x, [], [], rfl, rfl, rfl, List.not_mem_nil, fun z hz => absurd hz (by simp)⟩
  | cons z l ih =>
    cases steps with
    | zero => exact absurd hn (Nat.not_lt_zero _)
    | succ steps =>
      obtain ⟨rfl, next, hc, hs⟩ := h
      have hnext : next = z.1 := hs.1
      have hne : next ≠ 0 := fun hzero => List.cons_ne_nil z l ((holds_eq_zero hs).mp hzero)
      rw [wp_loop_succ]
      simp only [findStep, wp_bind, wp_load, hc, Option.some.injEq, exists_eq_left', wp_ite, wp_pure]
      constructor
      · rintro ⟨-, hother⟩
        apply wp_mono (ih hs (Nat.lt_of_succ_lt_succ hn))
        rintro prev t ⟨rfl, before, y, front, after, hfront, hl, hprev, hnot, hafter⟩
        refine ⟨rfl, x :: before, y, z :: front, after, congrArg (x :: ·) hfront, congrArg (z :: ·) hl, hprev, ?_,
          hafter⟩
        rw [addrs, List.map_cons, List.mem_cons, not_or]
        exact ⟨fun he => hother (hnext.trans he.symm), hnot⟩
      · intro hstop
        refine ⟨trivial, [], x, [], z :: l, rfl, rfl, rfl, List.not_mem_nil, ?_⟩
        rintro w hw
        cases hw
        rw [← hnext]
        exact not_not.mp fun hn => hstop ⟨hne, hn⟩

theorem wp_deleteHead (h : Holds s.mem p (x :: y :: l)) :
    wp (deleteNode steps p p) (fun answer t => answer = none ∧ t.reg = s.reg ∧
      Holds t.mem p ((x.1, y.2) :: l) ∧ Shrunk (x :: y :: l) ((x.1, y.2) :: l) s.mem t.mem) s := by
  have hdata := holds_setData h y.2
  have hne := (List.nodup_cons.mp (holds_nodup h)).1
  obtain ⟨rfl, next, hcx, hs⟩ := h
  obtain ⟨rfl, next', hcy, -⟩ := hs
  have hyx : y.1 ≠ x.1 := fun he => hne (he ▸ List.mem_cons_self)
  have hcy' : (s.mem.modify x.1 (fun v => { v with data := y.2 })).cell y.1 = some ⟨y.2, next'⟩ :=
    (Memory.cell_modify_ne _ hyx _).trans hcy
  obtain ⟨hholds, hshrunk⟩ := holds_unlink [] hdata hcy'
  rw [deleteNode, if_pos rfl]
  simp only [wp_bind, wp_load, hcx, hcy, hcy', Option.some.injEq, exists_eq_left',
    if_neg (Memory.ne_zero_of_cell hcy), wp_store, Memory.cell_modify_self, Option.map_some,
    Option.isSome_some, wp_delete, wp_pure]
  have hcy'' : ((s.mem.modify x.1 (fun v => { v with data := y.2 })).modify x.1
      (fun v => { v with next := next' })).cell y.1 = some ⟨y.2, next'⟩ :=
    (Memory.cell_modify_ne _ hyx _).trans hcy'
  rw [hcy'']
  have hfirst : Shrunk (x :: y :: l) ((x.1, y.2) :: y :: l) s.mem
      (s.mem.modify x.1 (fun v => { v with data := y.2 })) :=
    shrunk_modify (x :: y :: l) ((x.1, y.2) :: y :: l) rfl List.mem_cons_self s.mem _
  exact ⟨trivial, trivial, rfl, trivial, trivial, hholds, shrunk_trans hfirst hshrunk⟩

/-- A node behind the head is found and deleted. -/
theorem wp_deleteOther (h : Holds s.mem p (x :: l)) (hx : p ≠ n) (hmem : n ∈ addrs l) (hn : l.length < steps) :
    wp (deleteNode steps p n) (fun answer t => answer = none ∧ t.reg = s.reg ∧
      Holds t.mem p (x :: l.eraseP (fun y => y.1 = n)) ∧
      Shrunk (x :: l) (x :: l.eraseP (fun y => y.1 = n)) s.mem t.mem) s := by
  rw [deleteNode, if_neg hx, wp_bind]
  apply wp_mono (wp_find h hn)
  rintro _ _ ⟨rfl, before, y, front, after, hfront, rfl, rfl, hnot, hafter⟩
  cases after with
  | nil =>
    rw [List.append_nil] at hmem
    exact absurd hmem hnot
  | cons z after =>
    obtain rfl : z.1 = n := hafter z rfl
    have hlist : x :: (front ++ z :: after) = before ++ y :: z :: after := by
      rw [← List.cons_append, hfront, List.append_assoc, List.singleton_append]
    have herase : x :: (front ++ z :: after).eraseP (fun y => y.1 = z.1) = before ++ y :: after := by
      rw [List.eraseP_append_right, List.eraseP_cons_of_pos (by simp), ← List.cons_append, hfront, List.append_assoc,
        List.singleton_append]
      intro w hw hwz
      exact hnot (List.mem_map.mpr ⟨w, hw, of_decide_eq_true hwz⟩)
    rw [hlist] at h
    rw [herase, hlist]
    obtain ⟨r, -, rfl, next, hcy, rfl, next', hcz, -⟩ := segment_append.mp h
    obtain ⟨hholds, hshrunk⟩ := holds_unlink before h hcz
    simp only [wp_bind, wp_load, hcy, hcz, Option.some.injEq, exists_eq_left', if_neg (Memory.ne_zero_of_cell hcz),
      wp_store, Option.isSome_some, wp_delete, wp_pure]
    refine ⟨trivial, ?_, trivial, trivial, hholds, hshrunk⟩
    rw [Memory.cell_modify_ne _ (next_ne h), hcz]
    rfl

theorem wp_deleteNothing (h : Holds s.mem p (x :: l)) (hx : p ≠ n) (hmem : n ∉ addrs l) (hn : l.length < steps) :
    wp (deleteNode steps p n) (fun answer t => answer = some .notPresent ∧ t = s) s := by
  rw [deleteNode, if_neg hx, wp_bind]
  apply wp_mono (wp_find h hn)
  rintro _ _ ⟨rfl, before, y, front, after, hfront, rfl, rfl, -, hafter⟩
  cases after with
  | cons z after =>
    obtain rfl : z.1 = n := hafter z rfl
    exact absurd (List.mem_map_of_mem (List.mem_append_right _ List.mem_cons_self)) hmem
  | nil =>
    rw [List.append_nil, hfront] at h
    obtain ⟨r, -, rfl, next, hcy, rfl⟩ := segment_append.mp h
    simp only [wp_bind, wp_load, hcy, Option.some.injEq, exists_eq_left', if_true, wp_pure]
    exact ⟨trivial, trivial⟩

/-- What one call does to a list that is not empty. -/
theorem wp_deleteNode (h : Holds s.mem p (x :: l)) (hn : l.length < steps) :
    wp (deleteNode steps p n) (fun answer t => answer = (remove n (x :: l)).1 ∧ t.reg = s.reg ∧
      Holds t.mem p (remove n (x :: l)).2 ∧ Shrunk (x :: l) (remove n (x :: l)).2 s.mem t.mem) s := by
  have hp : p = x.1 := h.1
  by_cases hhead : p = n
  · subst hhead
    cases l with
    | nil =>
      have hremove : remove p [x] = (some .onlyOne, [x]) := if_pos hp.symm
      have hlist := h
      obtain ⟨rfl, next, hc, rfl⟩ := h
      rw [hremove, deleteNode, if_pos rfl]
      simp only [wp_bind, wp_load, hc, Option.some.injEq, exists_eq_left', if_true, wp_pure]
      exact ⟨trivial, trivial, hlist, shrunk_refl [x] s.mem⟩
    | cons y l =>
      have hremove : remove p (x :: y :: l) = (none, (x.1, y.2) :: l) := if_pos hp.symm
      rw [hremove]
      exact wp_deleteHead h
  · have hx : x.1 ≠ n := fun hx => hhead (hp.trans hx)
    by_cases hmem : n ∈ addrs l
    · have hremove : remove n (x :: l) = (none, x :: l.eraseP (fun y => y.1 = n)) :=
        (if_neg hx).trans (if_pos hmem)
      rw [hremove]
      exact wp_deleteOther h hhead hmem hn
    · have hremove : remove n (x :: l) = (some .notPresent, x :: l) := (if_neg hx).trans (if_neg hmem)
      rw [hremove]
      apply wp_mono (wp_deleteNothing h hhead hmem hn)
      rintro answer _ ⟨rfl, rfl⟩
      exact ⟨rfl, rfl, h, shrunk_refl _ _⟩

/-- A call never empties the list and leaves the first node where it is. -/
theorem remove_first (n : Nat) (x : Nat × Int) (l : List (Nat × Int)) :
    ∃ y rest, (remove n (x :: l)).2 = y :: rest ∧ y.1 = x.1 ∧ rest.length ≤ l.length := by
  by_cases hx : x.1 = n
  · cases l with
    | nil => exact ⟨x, [], congrArg Prod.snd (if_pos hx), rfl, Nat.le_refl 0⟩
    | cons y l => exact ⟨(x.1, y.2), l, congrArg Prod.snd (if_pos hx), rfl, Nat.le_succ _⟩
  · by_cases hmem : n ∈ addrs l
    · exact ⟨x, l.eraseP (fun y => y.1 = n), congrArg Prod.snd ((if_neg hx).trans (if_pos hmem)), rfl,
        List.eraseP_sublist.length_le⟩
    · exact ⟨x, l, congrArg Prod.snd ((if_neg hx).trans (if_neg hmem)), rfl, Nat.le_refl _⟩

end Lists

/-- The list `l` of the store `s` has become the list `d` of the store `t`. -/
structure Became (s : Store Node Nat) (l : List (Nat × Int)) (t : Store Node Nat) (d : List (Nat × Int)) : Prop where
  head : t.reg = s.reg
  ne : d ≠ []
  length : d.length ≤ l.length
  holds : Holds t.mem t.reg d
  shrunk : Shrunk l d s.mem t.mem

theorem wp_call {s t : Store Node Nat} {l d : List (Nat × Int)} {steps n : Nat} (h : Became s l t d)
    (hsteps : l.length ≤ steps) :
    wp (call steps n) (fun answer u => answer = (remove n d).1 ∧ Became s l u (remove n d).2) t := by
  cases d with
  | nil => exact absurd rfl h.ne
  | cons x d =>
    have hlen : d.length < steps := Nat.lt_of_lt_of_le h.length hsteps
    rw [call, wp_bind, wp_getReg]
    apply wp_mono (wp_deleteNode h.holds hlen)
    rintro answer u ⟨hanswer, hreg, hholds, hshrunk⟩
    obtain ⟨y, rest, hrest, -, hle⟩ := remove_first n x d
    refine ⟨hanswer, ?_⟩
    constructor
    case head => exact hreg.trans h.head
    case ne =>
      rw [hrest]
      exact List.cons_ne_nil y rest
    case length =>
      rw [hrest]
      exact Nat.le_trans (Nat.succ_le_succ hle) h.length
    case holds =>
      rw [hreg]
      exact hholds
    case shrunk => exact shrunk_trans h.shrunk hshrunk

/-- Whatever pointers are passed one after the other, in or out of the list, the answers are those of the calls on
the list of addresses and data; the list keeps its first node and is never emptied, and of the memory of the list at
the start exactly what is no longer in the list has been released. -/
theorem deletions_refine (s : Store Node Nat) (l : List (Nat × Int)) (pointers : List Nat) (steps : Nat)
    (h : Holds s.mem s.reg l) (hne : l ≠ []) (hsteps : l.length ≤ steps) :
    wp (session (call steps) pointers) (fun answers t =>
      answers = (abstractly remove pointers l).1 ∧ Became s l t (abstractly remove pointers l).2) s := by
  have hstart : Became s l s l := ⟨rfl, hne, Nat.le_refl _, h, shrunk_refl l s.mem⟩
  apply wp_session (C := fun _ _ => True) (R := fun _ => Became s l) _ pointers hstart
  · exact eachCall_of_forall (fun _ _ => True.intro) pointers s
  · exact fun n pointer t d hbecame _ => wp_call hbecame hsteps

/-- The list `12 → 15 → 10`. -/
def shortList : Memory Node := ((Memory.empty.alloc ⟨12, 2⟩).alloc ⟨15, 3⟩).alloc ⟨10, 0⟩

/-- After the first node has been deleted, a pointer to the second one is not in the list. -/
theorem deletions_refine_short :
    wp (session (call 3) [3, 1, 2, 1]) (fun answers t =>
      answers = [none, none, some .notPresent, some .onlyOne] ∧
        Became ⟨shortList, 1⟩ [(1, 12), (2, 15), (3, 10)] t [(1, 15)]) ⟨shortList, 1⟩ :=
  deletions_refine ⟨shortList, 1⟩ [(1, 12), (2, 15), (3, 10)] [3, 1, 2, 1] 3
    ⟨rfl, 2, rfl, rfl, 3, rfl, rfl, 0, rfl, rfl⟩ (List.cons_ne_nil _ _) (Nat.le_refl 3)

end C11AndC.LinkedList.Deletion
