import C11AndC.Library.Parts
import C11AndC.LinkedList.Node

namespace C11AndC.LinkedList

open C11AndC.Library

/-- Where a pointer to a pointer leads: to the variable `result` or to the field `next` of a node. -/
inductive Ref where
  | result
  | next (a : Nat)

structure Vars where
  result : Nat
  printed : List Int

abbrev MergeProg := Program Node Vars

def readRef : Ref → MergeProg Nat
  | .result => do return (← getReg).result
  | .next a => do return (← load a).next

def writeRef : Ref → Nat → MergeProg Unit
  | .result, v => setReg (fun vars => { vars with result := v })
  | .next a, v => store a (fun n => { n with next := v })

/-- Move the front node of the list `source` to where `destRef` leads; the result is what is left of the list. -/
def moveNode (destRef : Ref) (source : Nat) : MergeProg Nat := do
  if source = 0 then
    fault
  else
    let rest := (← load source).next
    let dest ← readRef destRef
    store source (fun n => { n with next := dest })
    writeRef destRef source
    return rest

def printStep (node : Nat) : MergeProg (Nat ⊕ Unit) := do
  if node = 0 then
    return .inr ()
  else
    let n ← load node
    setReg (fun vars => { vars with printed := vars.printed ++ [n.data] })
    return .inl n.next

def printList (steps node : Nat) : MergeProg Unit := loop printStep steps node

/-- One round of `SortedMerge`, with the pointers `tail`, `a` and `b`. -/
def sortedMergeStep (steps dummy : Nat) (x : Nat × Nat × Nat) : MergeProg ((Nat × Nat × Nat) ⊕ Unit) := do
  let (tail, a, b) := x
  if a = 0 then
    writeRef (.next tail) b
    return .inr ()
  else if b = 0 then
    writeRef (.next tail) a
    return .inr ()
  else if (← load a).data ≤ (← load b).data then
    let a ← moveNode (.next tail) a
    return .inl ((← load tail).next, a, b)
  else
    let b ← moveNode (.next tail) b
    printList steps (← load dummy).next
    return .inl ((← load tail).next, a, b)

/-- The dummy node lives as long as the call; what it holds at first is `raw`. -/
def sortedMerge (raw : Node) (steps a b : Nat) : MergeProg Nat := do
  let dummy ← new raw
  store dummy (fun n => { n with next := 0 })
  loop (sortedMergeStep steps dummy) steps (dummy, a, b)
  let result := (← load dummy).next
  delete dummy
  return result

/-- One round of `SortedMerge2`, with the pointers `lastPtrRef`, `a` and `b`. -/
def sortedMerge2Step (x : Ref × Nat × Nat) : MergeProg ((Ref × Nat × Nat) ⊕ Unit) := do
  let (lastPtrRef, a, b) := x
  if a = 0 then
    writeRef lastPtrRef b
    return .inr ()
  else if b = 0 then
    writeRef lastPtrRef a
    return .inr ()
  else if (← load a).data ≤ (← load b).data then
    let a ← moveNode lastPtrRef a
    return .inl (.next (← readRef lastPtrRef), a, b)
  else
    let b ← moveNode lastPtrRef b
    return .inl (.next (← readRef lastPtrRef), a, b)

def sortedMerge2 (steps a b : Nat) : MergeProg Nat := do
  setReg (fun vars => { vars with result := 0 })
  loop sortedMerge2Step steps (.result, a, b)
  return (← getReg).result

/-- The part of the memory with the nodes from `p` on as far as `q`. -/
def segPart (q p : Nat) (l : List (Nat × Int)) : Library.Part Node where
  addrs := addrs l
  holds m := Segment m q p l
  frame := segment_congr
  alive := by
    intro m h a ha
    obtain ⟨v, hv⟩ := segment_alive h ha
    rw [hv]
    rfl

/-- The link `r` leads to `v`. -/
def Reads (s : Store Node Vars) (r : Ref) (v : Nat) : Prop :=
  match r with
  | .result => s.reg.result = v
  | .next a => ∃ n, s.mem.cell a = some n ∧ n.next = v

/-- The link `r` leads to `v`, and the parts `ps` are apart from it. -/
def Link (s : Store Node Vars) (r : Ref) (d : Int) (v : Nat) (ps : List (Library.Part Node)) : Prop :=
  match r with
  | .result => s.reg.result = v ∧ Parts s.mem ps
  | .next a => Parts s.mem (cellPart a ⟨d, v⟩ :: ps)

/-- The nodes `done` hang on the link `start`, and the link behind them is `ref`: it leads to null. -/
inductive Trail (s : Store Node Vars) (start : Ref) (ps : List (Library.Part Node)) :
    Ref → List (Nat × Int) → Prop
  | here {d : Int} (h : Link s start d 0 ps) : Trail s start ps start []
  | there {d d' : Int} {p t : Nat} {done : List (Nat × Int)}
      (h : Link s start d p (segPart t p done :: cellPart t ⟨d', 0⟩ :: ps)) :
      Trail s start ps (.next t) (done ++ [(t, d')])

def byData (x y : Nat × Int) : Bool := x.2 ≤ y.2

section Links

variable {s : Store Node Vars} {start ref : Ref} {d d' : Int} {p q v w t : Nat} {x : Nat × Int}
  {xs ys done : List (Nat × Int)} {ps qs l : List (Library.Part Node)} {m : Memory Node}

theorem parts_seg_nil : Parts m (l ++ segPart q p [] :: ps) ↔ p = q ∧ Parts m (l ++ ps) := by
  rw [parts_perm List.perm_middle, parts_cons]
  exact ⟨fun ⟨_, h, _, hps⟩ => ⟨h, hps⟩,
    fun ⟨h, hps⟩ => ⟨List.nodup_nil, h, List.disjoint_nil_left _, hps⟩⟩

theorem parts_seg_append : Parts m (l ++ segPart q p (xs ++ ys) :: ps) ↔
    ∃ r, Parts m (l ++ segPart r p xs :: segPart q r ys :: ps) := by
  have haddrs : ∀ r, (l ++ segPart q p (xs ++ ys) :: ps).flatMap Part.addrs =
      (l ++ segPart r p xs :: segPart q r ys :: ps).flatMap Part.addrs := by
    intro r
    simp [segPart]
  constructor
  · rintro ⟨hn, hh⟩
    obtain ⟨hfront, hh⟩ := List.forall_mem_append.mp hh
    obtain ⟨h, hps⟩ := List.forall_mem_cons.mp hh
    obtain ⟨r, h1, h2⟩ := segment_append.mp h
    exact ⟨r, haddrs r ▸ hn, List.forall_mem_append.mpr ⟨hfront, List.forall_mem_cons.mpr
      ⟨h1, List.forall_mem_cons.mpr ⟨h2, hps⟩⟩⟩⟩
  · rintro ⟨r, hn, hh⟩
    obtain ⟨hfront, hh⟩ := List.forall_mem_append.mp hh
    obtain ⟨h1, hh⟩ := List.forall_mem_cons.mp hh
    obtain ⟨h2, hps⟩ := List.forall_mem_cons.mp hh
    exact ⟨haddrs r ▸ hn, List.forall_mem_append.mpr ⟨hfront, List.forall_mem_cons.mpr
      ⟨segment_append.mpr ⟨r, h1, h2⟩, hps⟩⟩⟩

theorem parts_seg_singleton : Parts m (l ++ segPart q p [x] :: ps) ↔
    p = x.1 ∧ Parts m (l ++ cellPart p ⟨x.2, q⟩ :: ps) := by
  rw [parts_perm List.perm_middle, parts_perm List.perm_middle, parts_cons, parts_cons]
  constructor
  · rintro ⟨hn, ⟨rfl, next, hc, rfl⟩, hd, hps⟩
    exact ⟨rfl, hn, hc, hd, hps⟩
  · rintro ⟨rfl, hn, hc, hd, hps⟩
    exact ⟨hn, ⟨rfl, q, hc, rfl⟩, hd, hps⟩

theorem parts_seg_cons (h : Parts m (l ++ segPart q p (x :: xs) :: ps)) :
    p = x.1 ∧ ∃ next, Parts m (l ++ cellPart p ⟨x.2, next⟩ :: segPart q next xs :: ps) := by
  have h : Parts m (l ++ segPart q p ([x] ++ xs) :: ps) := h
  obtain ⟨r, h⟩ := parts_seg_append.mp h
  obtain ⟨hp, h⟩ := parts_seg_singleton.mp h
  exact ⟨hp, r, h⟩

theorem link_perm (h : ps.Perm qs) (hl : Link s start d v ps) : Link s start d v qs := by
  cases start with
  | result => exact ⟨hl.1, (parts_perm h).mp hl.2⟩
  | next a => exact (parts_perm (h.cons _)).mp hl

/-- What the parts beside a link say can be rearranged as long as they stand for themselves. -/
theorem link_map (h : ∀ ps' : List (Library.Part Node), Parts s.mem (ps' ++ ps) → Parts s.mem (ps' ++ qs))
    (hl : Link s start d v ps) : Link s start d v qs := by
  cases start with
  | result => exact ⟨hl.1, h [] hl.2⟩
  | next a => exact h [_] hl

theorem link_congr {out : List Int} (hl : Link s start d v ps) : Link ⟨s.mem, s.reg.result, out⟩ start d v ps := by
  cases start with
  | result => exact hl
  | next a => exact hl

theorem link_holds {p : Library.Part Node} (hl : Link s start d v ps) (hp : p ∈ ps) : p.holds s.mem := by
  cases start with
  | result => exact hl.2.holds _ hp
  | next a => exact hl.holds _ (List.mem_cons_of_mem _ hp)

theorem link_reads (hl : Link s start d v ps) : Reads s start v := by
  cases start with
  | result => exact hl.1
  | next a => exact ⟨_, cell_of_parts (i := 0) hl rfl, rfl⟩

theorem wp_readRef {Q : Nat → Store Node Vars → Prop} (hr : Reads s ref v) (hq : Q v s) : wp (readRef ref) Q s := by
  cases ref with
  | result =>
    cases hr
    simpa only [readRef, wp_bind, wp_getReg, wp_pure] using hq
  | next a =>
    obtain ⟨n, hn, rfl⟩ := hr
    simpa only [readRef, wp_bind, wp_load, hn, Option.some.injEq, exists_eq_left', wp_pure] using hq

theorem wp_writeRef {Q : Unit → Store Node Vars → Prop} (hl : Link s start d v ps)
    (hq : ∀ t, Link t start d w ps → Q () t) : wp (writeRef start w) Q s := by
  cases start with
  | result =>
    rw [writeRef, wp_setReg]
    exact hq _ ⟨rfl, hl.2⟩
  | next a =>
    refine wp_store_part (i := 0) hl rfl fun m hm => hq _ ?_
    exact hm

/-- A node beside a link is written. -/
theorem wp_store_beside {i a : Nat} {n : Node} {f : Node → Node} {Q : Unit → Store Node Vars → Prop}
    (hl : Link s start d v ps) (hi : ps[i]? = some (cellPart a n))
    (hq : ∀ t, Link t start d v (ps.set i (cellPart a (f n))) → Q () t) : wp (store a f) Q s := by
  cases start with
  | result => exact wp_store_part hl.2 hi fun m hm => hq _ ⟨hl.1, hm⟩
  | next b => exact wp_store_part (i := i + 1) hl hi fun m hm => hq _ hm

theorem link_cell {i a : Nat} {n : Node} (hl : Link s start d v ps) (hi : ps[i]? = some (cellPart a n)) :
    s.mem.cell a = some n := link_holds hl (List.mem_of_getElem? hi)

theorem link_pick (order : List Nat) (hl : Link s start d v (l ++ ps)) (hlen : order.length = l.length)
    (hp : order.Perm (List.range order.length)) : Link s start d v (order.filterMap (l[·]?) ++ ps) :=
  link_perm (pick_perm order hlen hp) hl

theorem link_seg_cons (hl : Link s start d v (segPart q p (x :: xs) :: ps)) :
    p = x.1 ∧ ∃ next, Link s start d v (cellPart p ⟨x.2, next⟩ :: segPart q next xs :: ps) := by
  cases start with
  | result =>
    obtain ⟨hp, next, h⟩ := parts_seg_cons (l := []) hl.2
    exact ⟨hp, next, hl.1, h⟩
  | next a => exact parts_seg_cons (l := [cellPart a _]) hl

theorem link_seg_append (hl : Link s start d v (segPart t p xs :: segPart q t ys :: ps)) :
    Link s start d v (segPart q p (xs ++ ys) :: ps) :=
  link_map (fun _ h => parts_seg_append.mpr ⟨t, h⟩) hl

theorem link_seg_singleton (hl : Link s start d v (cellPart t ⟨d', q⟩ :: ps)) :
    Link s start d v (segPart q t [(t, d')] :: ps) :=
  link_map (fun _ h => parts_seg_singleton.mpr ⟨rfl, h⟩) hl

theorem link_seg_nil (hl : Link s start d v ps) (q : Nat) : Link s start d v (segPart q q [] :: ps) :=
  link_map (fun _ h => parts_seg_nil.mpr ⟨rfl, h⟩) hl

/-- The chain up to a link and the node with it. -/
theorem link_seg_snoc (hl : Link s start d v (cellPart t ⟨d', q⟩ :: segPart t p done :: ps)) :
    Link s start d v (segPart q p (done ++ [(t, d')]) :: ps) :=
  link_seg_append (link_perm (List.Perm.swap ..) (link_seg_singleton hl))

theorem trail_perm (h : ps.Perm qs) (ht : Trail s start ps ref done) : Trail s start qs ref done := by
  cases ht with
  | here hl => exact .here (link_perm h hl)
  | there hl => exact .there (link_perm ((h.cons _).cons _) hl)

theorem trail_map (h : ∀ l, Parts s.mem (l ++ ps) → Parts s.mem (l ++ qs)) (ht : Trail s start ps ref done) :
    Trail s start qs ref done := by
  cases ht with
  | here hl => exact .here (link_map h hl)
  | there hl =>
    refine .there (link_map (fun l hp => ?_) hl)
    rw [List.append_cons, List.append_cons] at hp ⊢
    exact h _ hp

theorem trail_congr {out : List Int} (ht : Trail s start ps ref done) :
    Trail ⟨s.mem, s.reg.result, out⟩ start ps ref done := by
  cases ht with
  | here hl => exact .here (link_congr hl)
  | there hl => exact .there (link_congr hl)

theorem trail_holds {p : Library.Part Node} (ht : Trail s start ps ref done) (hp : p ∈ ps) : p.holds s.mem := by
  cases ht with
  | here hl => exact link_holds hl hp
  | there hl => exact link_holds hl (List.mem_cons_of_mem _ (List.mem_cons_of_mem _ hp))

/-- What hangs on the link so far is a list of its own. -/
theorem link_of_trail (ht : Trail s start ps ref done) :
    ∃ d p, Link s start d p (segPart 0 p done :: ps) := by
  cases ht with
  | here hl => exact ⟨_, 0, link_seg_nil hl 0⟩
  | there hl => exact ⟨_, _, link_seg_snoc (link_perm (List.Perm.swap ..) hl)⟩

theorem wp_moveNode {a : Nat} (ht : Trail s start (segPart 0 a (x :: xs) :: ps) ref done) :
    wp (moveNode ref a) (fun r t => Trail t start (segPart 0 r xs :: ps) (.next x.1) (done ++ [x]) ∧
      Reads t ref x.1) s := by
  rw [moveNode]
  cases ht with
  | here hl =>
    obtain ⟨rfl, next, hl⟩ := link_seg_cons hl
    have hc := link_cell (i := 0) hl rfl
    simp only [if_neg (Memory.ne_zero_of_cell hc), wp_bind, wp_load, hc, Option.some.injEq, exists_eq_left']
    refine wp_readRef (link_reads hl) (wp_store_beside (i := 0) hl rfl fun t hl => wp_writeRef hl fun t hl => ?_)
    rw [wp_pure]
    exact ⟨.there (link_seg_nil hl _), link_reads hl⟩
  | @there d d' p t done hl =>
    obtain ⟨rfl, next, hl⟩ := link_seg_cons (link_pick [2, 0, 1] (l := [_, _, _]) hl rfl (by decide))
    have hc := link_cell (i := 0) hl rfl
    have hend := link_cell (i := 3) hl rfl
    simp only [if_neg (Memory.ne_zero_of_cell hc), wp_bind, wp_load, hc, Option.some.injEq, exists_eq_left']
    refine wp_readRef ⟨_, hend, rfl⟩ (wp_store_beside (i := 0) hl rfl fun t hl => ?_)
    refine wp_store_beside (i := 3) hl rfl fun t hl => ?_
    rw [wp_pure]
    have hseg := link_seg_snoc (link_pick [3, 2, 0, 1] (l := [_, _, _, _]) hl rfl (by decide))
    exact ⟨.there hseg, _, link_cell (i := 3) hl rfl, rfl⟩

/-- The rest of a list is hung on the last link. -/
theorem wp_attach {b : Nat} (ht : Trail s start (segPart 0 b ys :: ps) ref done) :
    wp (writeRef ref b) (fun _ t => ∃ d p, Link t start d p (segPart 0 p (done ++ ys) :: ps)) s := by
  cases ht with
  | here hl => exact wp_writeRef hl fun t hl => ⟨_, b, hl⟩
  | there hl =>
    refine wp_store_beside (i := 1) hl rfl fun t hl => ?_
    have hseg := link_seg_snoc (link_pick [1, 0, 2] (l := [_, _, _]) hl rfl (by decide))
    exact ⟨_, _, link_seg_append hseg⟩

theorem wp_printList {steps : Nat} (h : Holds s.mem p xs) (hn : xs.length < steps) :
    wp (printList steps p) (fun _ t => ∃ out, t = ⟨s.mem, s.reg.result, out⟩) s := by
  rw [printList]
  induction steps generalizing s p xs with
  | zero => omega
  | succ steps ih =>
    rw [wp_loop_succ]
    cases xs with
    | nil =>
      cases h
      simp only [printStep, if_pos, wp_pure]
      exact ⟨s.reg.printed, rfl⟩
    | cons x xs =>
      obtain ⟨rfl, next, hc, hs⟩ := h
      simp only [printStep, if_neg (Memory.ne_zero_of_cell hc), wp_bind, wp_load, hc, Option.some.injEq,
        exists_eq_left', wp_setReg, wp_pure]
      exact ih hs (Nat.lt_of_succ_lt_succ hn)

end Links

section Loops

variable {s : Store Node Vars} {start ref : Ref} {a b k steps : Nat} {xs ys zs : List (Nat × Int)}

/-- What is merged so far hangs on `start` up to the link `ref`; with the rest of both lists it comes to `zs`. -/
def Merging (start : Ref) (zs : List (Nat × Int)) (k : Nat) (ref : Ref) (a b : Nat) (s : Store Node Vars) : Prop :=
  ∃ done xs ys, k = xs.length + ys.length ∧ done ++ xs.merge ys byData = zs ∧
    Trail s start [segPart 0 a xs, segPart 0 b ys] ref done

/-- The merged list hangs on `start`. -/
def Merged (start : Ref) (zs : List (Nat × Int)) (s : Store Node Vars) : Prop :=
  ∃ d p, Link s start d p [segPart 0 p zs]

theorem wp_merge_left_empty (h : Merging start zs k ref a b s) (ha : a = 0) :
    wp (writeRef ref b) (fun _ t => Merged start zs t) s := by
  obtain ⟨done, xs, ys, -, rfl, ht⟩ := h
  obtain rfl := (holds_eq_zero (trail_holds ht (p := segPart 0 a xs) (by simp))).mp ha
  rw [List.nil_merge]
  exact wp_attach (trail_map (fun _ h => (parts_seg_nil.mp h).2) ht)

theorem wp_merge_right_empty (h : Merging start zs k ref a b s) (hb : b = 0) :
    wp (writeRef ref a) (fun _ t => Merged start zs t) s := by
  obtain ⟨done, xs, ys, -, rfl, ht⟩ := h
  obtain rfl := (holds_eq_zero (trail_holds ht (p := segPart 0 b ys) (by simp))).mp hb
  rw [List.merge_right]
  exact wp_attach (trail_map (fun _ h => (parts_seg_nil.mp h).2) (trail_perm (List.Perm.swap ..) ht))

/-- One round while both lists have nodes left. -/
theorem merging_move (h : Merging start zs k ref a b s) (ha : a ≠ 0) (hb : b ≠ 0) :
    ∃ n n', s.mem.cell a = some n ∧ s.mem.cell b = some n' ∧
      (n.data ≤ n'.data → wp (moveNode ref a) (fun r t =>
        (∃ j, j < k ∧ Merging start zs j (.next a) r b t) ∧ Reads t ref a) s) ∧
      (¬ n.data ≤ n'.data → wp (moveNode ref b) (fun r t =>
        (∃ j, j < k ∧ Merging start zs j (.next b) a r t) ∧ Reads t ref b) s) := by
  obtain ⟨done, xs, ys, rfl, rfl, ht⟩ := h
  have hx : Holds s.mem a xs := trail_holds ht (p := segPart 0 a xs) (by simp)
  have hy : Holds s.mem b ys := trail_holds ht (p := segPart 0 b ys) (by simp)
  cases xs with
  | nil => exact absurd ((holds_eq_zero hx).mpr rfl) ha
  | cons x xs =>
    cases ys with
    | nil => exact absurd ((holds_eq_zero hy).mpr rfl) hb
    | cons y ys =>
      obtain ⟨rfl, nx, hcx, -⟩ := hx
      obtain ⟨rfl, ny, hcy, -⟩ := hy
      refine ⟨_, _, hcx, hcy, fun hle => ?_, fun hle => ?_⟩
      · refine wp_mono (wp_moveNode ht) ?_
        rintro r t ⟨ht, hr⟩
        refine ⟨⟨_, ?_, _, xs, y :: ys, rfl, ?_, ht⟩, hr⟩
        · simp
        · rw [List.cons_merge_cons_pos _ _ _ (by simpa [byData] using hle), List.append_assoc, List.singleton_append]
      · refine wp_mono (wp_moveNode (trail_perm (List.Perm.swap ..) ht)) ?_
        rintro r t ⟨ht, hr⟩
        refine ⟨⟨_, ?_, _, x :: xs, ys, rfl, ?_, trail_perm (List.Perm.swap ..) ht⟩, hr⟩
        · simp
        · rw [List.cons_merge_cons_neg _ _ _ (by simpa [byData] using hle), List.append_assoc, List.singleton_append]

theorem merging_congr {out : List Int} (h : Merging start zs k ref a b s) :
    Merging start zs k ref a b ⟨s.mem, s.reg.result, out⟩ := by
  obtain ⟨done, xs, ys, hk, hzs, ht⟩ := h
  exact ⟨done, xs, ys, hk, hzs, trail_congr ht⟩

/-- What is printed in between ends, and changes nothing but the output. -/
theorem wp_printMerging {dummy : Nat} (h : Merging (.next dummy) zs k ref a b s) (hn : zs.length < steps) :
    ∃ n, s.mem.cell dummy = some n ∧
      wp (printList steps n.next) (fun _ t => ∃ out, t = ⟨s.mem, s.reg.result, out⟩) s := by
  obtain ⟨done, xs, ys, -, rfl, ht⟩ := h
  obtain ⟨d, p, hl⟩ := link_of_trail ht
  refine ⟨_, cell_of_parts (i := 0) hl rfl, wp_printList (link_holds hl List.mem_cons_self) ?_⟩
  rw [List.length_append] at hn
  omega

theorem wp_sortedMergeLoop {dummy tail : Nat} {n : Nat} (h : Merging (.next dummy) zs k (.next tail) a b s)
    (hsteps : zs.length < steps) (hn : k < n) :
    wp (loop (sortedMergeStep steps dummy) n (tail, a, b)) (fun _ t => Merged (.next dummy) zs t) s := by
  refine wp_loop (fun k x s => Merging (.next dummy) zs k (.next x.1) x.2.1 x.2.2 s) ?_ h hn
  rintro k ⟨tail, a, b⟩ s h
  simp only [sortedMergeStep, wp_ite, wp_bind, wp_load, wp_pure]
  refine ⟨wp_merge_left_empty h, fun ha => ⟨wp_merge_right_empty h, fun hb => ?_⟩⟩
  obtain ⟨n, n', hca, hcb, hleft, hright⟩ := merging_move h ha hb
  refine ⟨n, hca, n', hcb, fun hle => ?_, fun hle => ?_⟩
  · refine wp_mono (hleft hle) ?_
    rintro r t ⟨hm, m, hc, rfl⟩
    exact ⟨m, hc, hm⟩
  · refine wp_mono (hright hle) ?_
    rintro r t ⟨⟨j, hj, hm⟩, m, hc, rfl⟩
    obtain ⟨n, hdummy, hprint⟩ := wp_printMerging hm hsteps
    refine ⟨n, hdummy, wp_mono hprint ?_⟩
    rintro _ _ ⟨out, rfl⟩
    exact ⟨m, hc, j, hj, merging_congr hm⟩

theorem wp_sortedMerge2Loop {n : Nat} (h : Merging .result zs k ref a b s) (hn : k < n) :
    wp (loop sortedMerge2Step n (ref, a, b)) (fun _ t => Merged .result zs t) s := by
  refine wp_loop (fun k x s => Merging .result zs k x.1 x.2.1 x.2.2 s) ?_ h hn
  rintro k ⟨ref, a, b⟩ s h
  simp only [sortedMerge2Step, wp_ite, wp_bind, wp_load, wp_pure]
  refine ⟨wp_merge_left_empty h, fun ha => ⟨wp_merge_right_empty h, fun hb => ?_⟩⟩
  obtain ⟨n, n', hca, hcb, hleft, hright⟩ := merging_move h ha hb
  refine ⟨n, hca, n', hcb, fun hle => ?_, fun hle => ?_⟩
  · refine wp_mono (hleft hle) ?_
    rintro r t ⟨hm, hr⟩
    exact wp_readRef hr hm
  · refine wp_mono (hright hle) ?_
    rintro r t ⟨hm, hr⟩
    exact wp_readRef hr hm

theorem merging_start {d : Int} (hl : Link s start d 0 [segPart 0 a xs, segPart 0 b ys]) :
    Merging start (xs.merge ys byData) (xs.length + ys.length) start a b s :=
  ⟨[], xs, ys, rfl, rfl, .here hl⟩

theorem wp_sortedMerge {raw : Node} (hp : Parts s.mem [segPart 0 a xs, segPart 0 b ys])
    (hn : xs.length + ys.length < steps) :
    wp (sortedMerge raw steps a b) (fun r t => Holds t.mem r (xs.merge ys byData)) s := by
  simp only [sortedMerge, wp_bind, wp_new]
  refine wp_store_part (i := 0) (parts_alloc hp raw) rfl fun m hm => ?_
  have hlen : (xs.merge ys byData).length < steps := by rwa [List.length_merge]
  refine wp_mono (wp_sortedMergeLoop (merging_start hm) hlen hn) ?_
  rintro _ t ⟨d, p, hl⟩
  rw [wp_load]
  refine ⟨_, cell_of_parts (i := 0) hl rfl, ?_⟩
  refine wp_delete_part hl fun m hm => ?_
  rw [wp_pure]
  exact parts_get (i := 0) hm rfl

theorem wp_sortedMerge2 (hp : Parts s.mem [segPart 0 a xs, segPart 0 b ys]) (hn : xs.length + ys.length < steps) :
    wp (sortedMerge2 steps a b) (fun r t => Holds t.mem r (xs.merge ys byData)) s := by
  simp only [sortedMerge2, wp_bind, wp_setReg, wp_getReg, wp_pure]
  have hl : Link ⟨s.mem, { s.reg with result := 0 }⟩ .result 0 0 [segPart 0 a xs, segPart 0 b ys] := ⟨rfl, hp⟩
  refine wp_mono (wp_sortedMerge2Loop (merging_start hl) hn) ?_
  rintro _ t ⟨d, p, rfl, hm⟩
  exact parts_get (i := 0) hm rfl

end Loops

/-- The list `zs` is what a stable merge of the sorted lists `xs` and `ys` gives. -/
structure IsMerge (xs ys zs : List (Nat × Int)) : Prop where
  nodes : zs.Perm (xs ++ ys)
  sorted : zs.Pairwise (fun x y => x.2 ≤ y.2)
  stable : ∀ d, zs.filter (fun x => x.2 = d) = xs.filter (fun x => x.2 = d) ++ ys.filter (fun x => x.2 = d)

section Order

variable {xs ys : List (Nat × Int)}

theorem merge_stable (hx : xs.Pairwise (fun x y => x.2 ≤ y.2)) (d : Int) :
    (xs.merge ys byData).filter (fun x => x.2 = d) =
      xs.filter (fun x => x.2 = d) ++ ys.filter (fun x => x.2 = d) := by
  induction xs generalizing ys with
  | nil => rw [List.nil_merge, List.filter_nil, List.nil_append]
  | cons x xs ih =>
    induction ys with
    | nil => rw [List.merge_right, List.filter_nil, List.append_nil]
    | cons y ys ihy =>
      by_cases hle : x.2 ≤ y.2
      · rw [List.cons_merge_cons_pos _ _ _ (by simpa [byData] using hle), ← List.singleton_append, List.filter_append,
          ih (List.pairwise_cons.mp hx).2, ← List.append_assoc, ← List.filter_append, List.singleton_append]
      · rw [List.cons_merge_cons_neg _ _ _ (by simpa [byData] using hle), ← List.singleton_append,
          List.filter_append, ihy]
        by_cases hy : y.2 = d
        · have hnone : (x :: xs).filter (fun x => x.2 = d) = [] := by
            refine List.filter_eq_nil_iff.mpr fun z hz => ?_
            have hxz : x.2 ≤ z.2 := by
              rcases List.mem_cons.mp hz with rfl | hz
              · exact Int.le_refl _
              · exact (List.pairwise_cons.mp hx).1 z hz
            have hne : z.2 ≠ d := by omega
            simpa using hne
          rw [hnone, List.nil_append, List.nil_append, ← List.filter_append, List.singleton_append]
        · have hnone : [y].filter (fun x => x.2 = d) = [] := List.filter_cons_of_neg (by simpa using hy)
          rw [hnone, List.nil_append, List.filter_cons_of_neg (a := y) (by simpa using hy)]

theorem isMerge_merge (hx : xs.Pairwise (fun x y => x.2 ≤ y.2)) (hy : ys.Pairwise (fun x y => x.2 ≤ y.2)) :
    IsMerge xs ys (xs.merge ys byData) := by
  refine ⟨List.merge_perm_append _, ?_, merge_stable hx⟩
  have hsorted : (xs.merge ys byData).Pairwise (fun x y => byData x y) :=
    List.pairwise_merge (fun x y z hxy hyz => by simp only [byData, decide_eq_true_eq] at *; omega)
      (fun x y => by simp only [byData, Bool.or_eq_true, decide_eq_true_eq]; omega) xs ys
      (by simpa [byData] using hx) (by simpa [byData] using hy)
  simpa [byData] using hsorted

end Order

/-- Both merges splice two sorted lists into one and the same list. -/
theorem merges_agree (s : Store Node Vars) (raw : Node) (a b : Nat) (xs ys : List (Nat × Int)) (hx : Holds s.mem a xs)
    (hy : Holds s.mem b ys) (hd : (addrs xs).Disjoint (addrs ys)) (hsx : xs.Pairwise (fun x y => x.2 ≤ y.2))
    (hsy : ys.Pairwise (fun x y => x.2 ≤ y.2)) :
    ∃ zs, IsMerge xs ys zs ∧ ∃ enough, ∀ steps, enough ≤ steps →
      wp (sortedMerge raw steps a b) (fun r t => Holds t.mem r zs) s ∧
      wp (sortedMerge2 steps a b) (fun r t => Holds t.mem r zs) s := by
  have hp : Parts s.mem [segPart 0 a xs, segPart 0 b ys] := by
    refine parts_cons.mpr ⟨holds_nodup hx, hx, by simpa [segPart] using hd, parts_cons.mpr ⟨holds_nodup hy, hy, ?_⟩⟩
    exact ⟨List.disjoint_nil_right _, List.nodup_nil, by simp⟩
  refine ⟨_, isMerge_merge hsx hsy, xs.length + ys.length + 1, fun steps hsteps => ⟨?_, ?_⟩⟩
  · exact wp_sortedMerge hp (by omega)
  · exact wp_sortedMerge2 hp (by omega)

/-- The lists `1 → 3` and `1 → 2`. -/
def sortedMemory : Memory Node := (((Memory.empty.alloc ⟨1, 2⟩).alloc ⟨3, 0⟩).alloc ⟨1, 4⟩).alloc ⟨2, 0⟩

theorem merges_agree_sorted : ∃ zs, IsMerge [(1, 1), (2, 3)] [(3, 1), (4, 2)] zs ∧ ∃ enough, ∀ steps, enough ≤ steps →
    wp (sortedMerge ⟨7, 7⟩ steps 1 3) (fun r t => Holds t.mem r zs) ⟨sortedMemory, ⟨0, []⟩⟩ ∧
    wp (sortedMerge2 steps 1 3) (fun r t => Holds t.mem r zs) ⟨sortedMemory, ⟨0, []⟩⟩ :=
  merges_agree ⟨sortedMemory, ⟨0, []⟩⟩ ⟨7, 7⟩ 1 3 [(1, 1), (2, 3)] [(3, 1), (4, 2)] ⟨rfl, 2, rfl, rfl, 0, rfl, rfl⟩
    ⟨rfl, 4, rfl, rfl, 0, rfl, rfl⟩ (by simp [addrs]) (by simp) (by simp)

end C11AndC.LinkedList
