import C11AndC.TwoThree.Shape

namespace C11AndC.TwoThree

open C11AndC.Library

variable {K : Type} {s : Store (CNode K) Nat} {ps : List (Library.Part (CNode K))}
  {Q : Unit → Store (CNode K) Nat → Prop}

theorem shape_setParent {m : Memory (CNode K)} {q a : Nat} {t : Tree K} (hn : t.addrs.Nodup)
    (hs : Shape m q t) : Shape (m.modify t.root ({ · with parent := a })) a t := by
  cases t with
  | nil => trivial
  | node b v l u r =>
    simp only [Tree.addrs, List.nodup_cons, List.mem_append, not_or] at hn
    obtain ⟨⟨hl, hu, hr⟩, -⟩ := hn
    have hsame : ∀ {x : Tree K}, b ∉ x.addrs → ∀ c, c ∈ x.addrs →
        (m.modify b ({ · with parent := a })).cell c = m.cell c :=
      fun hx c hc => Memory.cell_modify_ne m (ne_of_mem_of_not_mem hc hx) _
    refine ⟨?_, shape_congr (hsame hl) hs.2.1, shape_congr (hsame hu) hs.2.2.1,
      shape_congr (hsame hr) hs.2.2.2⟩
    rw [Tree.root_node, Memory.cell_modify_self, hs.1, Option.map_some]

/-- A subtree is told its new parent, unless it is empty. -/
theorem wp_adopt_part {i q a : Nat} {t : Tree K} (h : Parts s.mem ps)
    (hi : ps[i]? = some (treePart q t))
    (hq : ∀ m, Parts m (ps.set i (treePart a t)) → Q () ⟨m, s.reg⟩) :
    wp (adopt a t.root) Q s := by
  have hs : Shape s.mem q t := parts_get h hi
  cases t with
  | nil =>
    simp only [adopt, Tree.root_nil, ne_eq, not_true_eq_false, ↓reduceIte, wp_pure]
    exact hq s.mem (parts_set h hi (List.Perm.refl _) (Memory.sameExcept_refl _ _) trivial)
  | node b v l u r =>
    have hb : b ≠ 0 := Memory.ne_zero_of_cell hs.1
    simp only [adopt, Tree.root_node, ne_eq, hb, not_false_eq_true, ↓reduceIte, setParent, wp_store, hs.1,
      Option.isSome_some, true_and]
    refine hq _ (parts_set h hi (List.Perm.refl _) ?_ (shape_setParent (parts_nodup h hi) hs))
    exact Memory.sameExcept_modify List.mem_cons_self _ _

theorem wp_setKey_part {i a : Nat} {w : Slot} {k : K} {n : CNode K} (h : Parts s.mem ps)
    (hi : ps[i]? = some (cellPart a n))
    (hq : ∀ m, Parts m (ps.set i (cellPart a { n with keys := n.keys.set w k })) → Q () ⟨m, s.reg⟩) :
    wp (setKey a w k) Q s := wp_store_part h hi hq

theorem wp_clearKey_part {i a : Nat} {w : Slot} {n : CNode K} (h : Parts s.mem ps)
    (hi : ps[i]? = some (cellPart a n))
    (hq : ∀ m, Parts m (ps.set i (cellPart a { n with keys := n.keys.clear w })) → Q () ⟨m, s.reg⟩) :
    wp (clearKey a w) Q s := wp_store_part h hi hq

theorem wp_copyKey_part {i j a b : Nat} {w w' : Slot} {n o : CNode K} (h : Parts s.mem ps)
    (hi : ps[i]? = some (cellPart a n)) (hj : ps[j]? = some (cellPart b o))
    (hq : ∀ m, Parts m (ps.set i (cellPart a { n with keys := n.keys.set w (o.keys.get w') })) →
      Q () ⟨m, s.reg⟩) : wp (copyKey a w b w') Q s := by
  rw [copyKey, wp_bind]
  exact wp_load_part h hj (wp_setKey_part h hi hq)

theorem wp_setChild_part {i j a q c : Nat} {d : Direction} {n : CNode K} {t : Tree K}
    (h : Parts s.mem ps) (hi : ps[i]? = some (cellPart a n))
    (hj : (ps.set i (cellPart a (n.withChild d t.root)))[j]? = some (treePart q t)) (hc : c = t.root)
    (hq : ∀ m, Parts m ((ps.set i (cellPart a (n.withChild d t.root))).set j (treePart a t)) →
      Q () ⟨m, s.reg⟩) : wp (setChild a d c) Q s := by
  subst hc
  rw [setChild, wp_bind]
  exact wp_store_part h hi (fun m hm => wp_adopt_part hm hj (fun m' hm' => hq m' hm'))

/-- Taking a child away needs no subtree. -/
theorem wp_setChild_null {i a : Nat} {d : Direction} {n : CNode K} (h : Parts s.mem ps)
    (hi : ps[i]? = some (cellPart a n))
    (hq : ∀ m, Parts m (ps.set i (cellPart a (n.withChild d 0))) → Q () ⟨m, s.reg⟩) :
    wp (setChild a d 0) Q s := by
  rw [setChild, wp_bind]
  refine wp_store_part h hi (fun m hm => ?_)
  simp only [adopt, ne_eq, not_true_eq_false, ↓reduceIte, wp_pure]
  exact hq m hm

theorem wp_moveChild_part {i j l a b q : Nat} {d d' : Direction} {n o : CNode K} {t : Tree K}
    (h : Parts s.mem ps) (hi : ps[i]? = some (cellPart a n)) (hj : ps[j]? = some (cellPart b o))
    (hl : (ps.set i (cellPart a (n.withChild d t.root)))[l]? = some (treePart q t))
    (hc : o.getChild d' = t.root)
    (hq : ∀ m, Parts m ((ps.set i (cellPart a (n.withChild d t.root))).set l (treePart a t)) →
      Q () ⟨m, s.reg⟩) : wp (moveChild a d b d') Q s := by
  rw [moveChild, wp_bind]
  exact wp_load_part h hj (wp_setChild_part h hi hl hc hq)

theorem parts_nil {m : Memory (CNode K)} {q : Nat} :
    Parts m (treePart q .nil :: ps) ↔ Parts m ps := by
  rw [parts_cons]
  simp [treePart, Tree.addrs, Shape]

theorem parts_above_nil {m : Memory (CNode K)} {q p : Nat} :
    Parts m (abovePart q p [] :: ps) ↔ Parts m ps := by
  rw [parts_cons]
  simp [abovePart, aboveAddrs, ShapeAbove]

/-- A two-node and its subtrees as parts of their own. -/
theorem parts_two {m : Memory (CNode K)} {par a : Nat} {v : Keys K} {l r : Tree K} :
    Parts m (treePart par (.node a v l .nil r) :: ps) ↔
      Parts m (cellPart a ⟨v, l.root, 0, r.root, par⟩ :: treePart a l :: treePart a r :: ps) := by
  rw [parts_node]
  constructor
  · exact fun h => parts_nil.mp (parts_pick [2, 0, 1] h (l := [_, _, _]) rfl (by decide))
  · exact fun h => parts_pick [1, 2, 0] (parts_nil.mpr h) (l := [_, _, _]) rfl (by decide)

/-- A node with at most a left child as parts of its own. -/
theorem parts_hole {m : Memory (CNode K)} {par a : Nat} {v : Keys K} {l : Tree K}
    (ps : List (Library.Part (CNode K))) :
    Parts m (treePart par (.node a v l .nil .nil) :: ps) ↔
      Parts m (cellPart a ⟨v, l.root, 0, 0, par⟩ :: treePart a l :: ps) := by
  rw [parts_two]
  constructor
  · exact fun h => parts_nil.mp (parts_pick [2, 0, 1] h (l := [_, _, _]) rfl (by decide))
  · exact fun h => parts_pick [1, 2, 0] (parts_nil.mpr h) (l := [_, _, _]) rfl (by decide)

section Within

variable {m : Memory (CNode K)} {par a : Nat} {v : Keys K} {x t y : Tree K}
  {l : List (Library.Part (CNode K))}

theorem parts_node_at : Parts m (l ++ treePart par (.node a v x t y) :: ps) ↔
    Parts m (l ++ cellPart a ⟨v, x.root, t.root, y.root, par⟩ :: treePart a x :: treePart a t ::
      treePart a y :: ps) :=
  parts_within (r := [_, _, _, _]) (fun _ => parts_node)

theorem parts_two_at : Parts m (l ++ treePart par (.node a v x .nil y) :: ps) ↔
    Parts m (l ++ cellPart a ⟨v, x.root, 0, y.root, par⟩ :: treePart a x :: treePart a y :: ps) :=
  parts_within (r := [_, _, _]) (fun _ => parts_two)

theorem parts_hole_at : Parts m (l ++ treePart par (.node a v x .nil .nil) :: ps) ↔
    Parts m (l ++ cellPart a ⟨v, x.root, 0, 0, par⟩ :: treePart a x :: ps) :=
  parts_within (r := [_, _]) parts_hole

end Within

/-- A tree, taken apart at a place. -/
theorem parts_whole {m : Memory (CNode K)} {q : Nat} {fs : List (Frame K)} {t : Tree K} :
    Parts m (treePart (top q fs) t :: abovePart q t.root fs :: ps) ↔
      Parts m (treePart q (plug fs t) :: ps) := by
  induction fs generalizing t with
  | nil =>
    constructor
    · exact fun h => parts_above_nil.mp (parts_pick [1, 0] h (l := [_, _]) rfl (by decide))
    · exact fun h => parts_pick [1, 0] (parts_above_nil.mpr h) (l := [_, _]) rfl (by decide)
  | cons f fs ih =>
    rw [parts_plug, plug, ← ih]
    have hr : (f.plug t).root = f.addr := by
      obtain ⟨d, a, v, x, y⟩ := f
      cases d <;> rfl
    rw [hr]

theorem wp_newNode_part {i j q₁ q₂ c₁ c₂ : Nat} {unset key : K} {l r : Tree K}
    {Q : Nat → Store (CNode K) Nat → Prop} (h : Parts s.mem ps)
    (hi : ps[i]? = some (treePart q₁ l))
    (hj : ∀ a, (ps.set i (treePart a l))[j]? = some (treePart q₂ r))
    (h₁ : c₁ = l.root) (h₂ : c₂ = r.root)
    (hq : ∀ a m, Parts m (cellPart a ⟨.two key unset, l.root, 0, r.root, 0⟩ ::
      (ps.set i (treePart a l)).set j (treePart a r)) → Q a ⟨m, s.reg⟩) :
    wp (newNode unset c₁ c₂ key) Q s := by
  subst h₁
  subst h₂
  rw [newNode, wp_bind, wp_new, wp_bind]
  refine wp_adopt_part (i := i + 1) (parts_alloc h _) hi (fun m hm => ?_)
  rw [wp_bind]
  refine wp_adopt_part (i := j + 1) hm (hj _) (fun m' hm' => ?_)
  rw [wp_pure]
  exact hq _ m' hm'

theorem part_cell {m : Memory (CNode K)} {i q n : Nat} {t : Tree K} (h : Parts m ps)
    (hi : ps[i]? = some (treePart q t)) (hv : Valid (n + 1) t) :
    ∃ o, m.cell t.root = some o ∧ o.keys.getSize = t.size := by
  have hs : Shape m q t := parts_get h hi
  cases hv with
  | two => exact ⟨_, hs.1, rfl⟩
  | three => exact ⟨_, hs.1, rfl⟩

theorem part_root_ne {m : Memory (CNode K)} {i j q a : Nat} {o : CNode K} {t : Tree K}
    (h : Parts m ps) (hi : ps[i]? = some (cellPart a o)) (hj : ps[j]? = some (treePart q t))
    (hij : i ≠ j) : a ≠ t.root := by
  have hn := parts_not_mem h hi hj hij
  cases t with
  | nil => exact Memory.ne_zero_of_cell (cell_of_parts h hi)
  | node b v l u r =>
    rintro rfl
    exact hn List.mem_cons_self

theorem size_of_valid {n : Nat} {t : Tree K} (h : Valid (n + 1) t) :
    t.size = .twoNode ∨ t.size = .threeNode := by
  cases h with
  | two => exact .inl rfl
  | three => exact .inr rfl

end C11AndC.TwoThree
