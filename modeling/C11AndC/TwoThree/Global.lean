import C11AndC.TwoThree.Ends
import C11AndC.TwoThree.Local
import Mathlib.Data.List.Induction

namespace C11AndC.TwoThree

open C11AndC.Library

variable {K : Type} {s : Store (CNode K) Nat} {ps : List (Library.Part (CNode K))} {d : Direction}

/-- The other subtree next to the place, on one side of it. -/
def Frame.neighbour (f : Frame K) (d : Direction) : Tree K :=
  match d, f.side with
  | .right, .left => if f.fst.isNil then f.snd else f.fst
  | .right, .middle => f.snd
  | .left, .middle => f.fst
  | .left, .right => if f.snd.isNil then f.fst else f.snd
  | _, _ => .nil

def Direction.opposite : Direction → Direction
  | .left => .right
  | .middle => .middle
  | .right => .left

/-- The place is at one end of a subtree of the root, and at the near end of the next
subtree there is a node with a key to give. -/
def reaches (d : Direction) : List (Frame K) → Bool
  | [] => false
  | f :: fs =>
      match fs with
      | [] => ((f.neighbour d).endOf d.opposite).size = .threeNode
      | _ :: _ => f.side = d && reaches d fs

theorem reaches_append {gs : List (Frame K)} {g : Frame K} : reaches d (gs ++ [g]) = true ↔
    Along d gs ∧ ((g.neighbour d).endOf d.opposite).size = .threeNode := by
  induction gs with
  | nil => simp [reaches, Along]
  | cons f gs ih =>
    obtain ⟨f', fs', hf⟩ : ∃ f' fs', gs ++ [g] = f' :: fs' :=
      List.exists_cons_of_ne_nil (by simp)
    have hr : reaches d (f :: gs ++ [g]) = (decide (f.side = d) && reaches d (gs ++ [g])) := by
      simp only [List.cons_append, hf, reaches]
    rw [hr, Bool.and_eq_true, decide_eq_true_eq, ih, along_cons, and_assoc]

section Keys

variable {n x : Nat} {k j : K} {xl t : Tree K} {fs gs : List (Frame K)} {g g' : Frame K}

theorem valid_of_frame {f : Frame K} (h : Valid n (f.plug t)) : ∃ m, Valid m t := by
  obtain ⟨e, a, v, y, z⟩ := f
  cases e with
  | left =>
    cases h with
    | two hl _ => exact ⟨_, hl⟩
    | three hl _ _ => exact ⟨_, hl⟩
  | middle =>
    cases h with
    | two _ _ => exact ⟨0, .nil⟩
    | three _ hm _ => exact ⟨_, hm⟩
  | right =>
    cases h with
    | two _ hr => exact ⟨_, hr⟩
    | three _ _ hr => exact ⟨_, hr⟩

theorem valid_of_plug (h : Valid n (plug fs t)) : ∃ m, Valid m t := by
  induction fs generalizing t with
  | nil => exact ⟨n, h⟩
  | cons f fs ih =>
    obtain ⟨m, hm⟩ := ih h
    exact valid_of_frame hm

/-- A key alone makes a node whole again only if it is a leaf. -/
theorem valid_filled (hx : Valid n xl) (hf : AboveOk (n + 1) fs) :
    (∃ m, Valid m (plug fs (.node x (.two k j) xl .nil .nil))) ↔ n = 0 := by
  constructor
  · rintro ⟨m, hm⟩
    obtain ⟨m', hm'⟩ := valid_of_plug hm
    cases hm' with
    | two hl hr =>
      cases hr
      exact valid_height hx hl
  · rintro rfl
    cases nil_of_valid_zero hx
    exact ⟨_, valid_plug hf (.two .nil .nil)⟩

theorem before_append : before (fs ++ gs) = before gs ++ before fs := by
  induction fs with
  | nil => simp [before]
  | cons f fs ih => simp [before, ih]

theorem after_append : after (fs ++ gs) = after fs ++ after gs := by
  induction fs with
  | nil => rfl
  | cons f fs ih => simp [after, ih]

/-- The store after a key has been moved to the node without one. The keys are those
the tree should have, but it is a 2-3 tree only if that node is a leaf. -/
def Turned (n : Nat) (keys : List K) (root : Nat) (s : Store (CNode K) Nat) : Prop :=
  ∃ t, Parts s.mem [treePart 0 t] ∧ t.root = root ∧ s.reg = root ∧ t.keys = keys ∧
    ((∃ m, Valid m t) ↔ n = 0)

theorem turned {μ : Memory (CNode K)} (hx : Valid n xl) (hgs : AboveOk (n + 1) gs)
    (hg : FrameOk (n + 1 + gs.length) g')
    (h : Parts μ [treePart 0 (g'.plug (plug gs (.node x (.two k j) xl .nil .nil)))])
    (ha : g'.addr = g.addr)
    (hk : g'.before ++ before gs ++ xl.keys ++ k :: (after gs ++ g'.after) =
      g.before ++ before gs ++ xl.keys ++ (after gs ++ g.after)) :
    Turned n (before (gs ++ [g]) ++ xl.keys ++ after (gs ++ [g])) g.addr ⟨μ, g.addr⟩ := by
  have hp : g'.plug (plug gs (.node x (.two k j) xl .nil .nil)) =
      plug (gs ++ [g']) (.node x (.two k j) xl .nil .nil) := by
    rw [plug_append]
    rfl
  refine ⟨_, h, ?_, rfl, ?_, ?_⟩
  · rw [← ha]
    obtain ⟨e, a, v, y, z⟩ := g'
    cases e <;> rfl
  · rw [hp, keys_plug]
    simp only [before_append, after_append, before, after, List.append_nil, List.nil_append]
    rw [← hk]
    simp [Tree.keys]
  · rw [hp]
    exact valid_filled hx (aboveOk_append.mpr ⟨hgs, hg, trivial⟩)

end Keys

section Ends

variable {q n : Nat} {m : Memory (CNode K)} {t : Tree K}

theorem shape_endOf (h : Shape m q t) : ∃ q', Shape m q' (t.endOf d) := by
  induction t generalizing q with
  | nil => exact ⟨q, trivial⟩
  | node a v l m r ihl ihm ihr =>
    cases d with
    | left =>
      by_cases hn : l.isNil = true
      · exact ⟨q, by simpa [Tree.endOf, hn] using h⟩
      · simpa [Tree.endOf, hn] using ihl h.2.1
    | middle =>
      by_cases hn : m.isNil = true
      · exact ⟨q, by simpa [Tree.endOf, hn] using h⟩
      · simpa [Tree.endOf, hn] using ihm h.2.2.1
    | right =>
      by_cases hn : r.isNil = true
      · exact ⟨q, by simpa [Tree.endOf, hn] using h⟩
      · simpa [Tree.endOf, hn] using ihr h.2.2.2

theorem wp_isThree_end {Q : Bool → Store (CNode K) Nat → Prop} (h : Shape s.mem q t)
    (hv : Valid (n + 1) t) (hd : d ≠ .middle) :
    wp (isThree (t.endOf d).root) Q s ↔ Q ((t.endOf d).size = .threeNode) s := by
  obtain ⟨hs, a, v, he⟩ := endLeaf hd hv
  obtain ⟨q', hq⟩ := shape_endOf (d := d) h
  rw [endOf_endLeaf he] at hq ⊢
  exact wp_isThree hq.1

theorem wp_both_end {P : Prop} [Decidable P] {Q : Bool → Store (CNode K) Nat → Prop}
    (h : Shape s.mem q t) (hv : Valid (n + 1) t) (hd : d ≠ .middle) :
    wp (both P (isThree (t.endOf d).root)) Q s ↔ Q (P ∧ (t.endOf d).size = .threeNode) s := by
  by_cases hp : P
  · simp [wp_both, hp, wp_isThree_end h hv hd]
  · simp [wp_both, hp]

theorem wp_both_ne {x y : Nat} {p : Prog K Bool} {Q : Bool → Store (CNode K) Nat → Prop}
    (h : x ≠ y) : wp (both (x = y) p) Q s ↔ Q false s := by
  simp [wp_both, h]

/-- A leaf with two keys at one end, and the tree after it has lost one of them. -/
theorem endLeaf_three (hv : Valid (n + 1) t) (hd : d ≠ .middle)
    (h3 : (t.endOf d).size = .threeNode) : ∃ hs y c e, Along d hs ∧
      t = plug hs (.node y (.three c e) .nil .nil .nil) ∧
      ∀ k j, Valid (n + 1) (plug hs (.node y (.two k j) .nil .nil .nil)) := by
  obtain ⟨hs, y, v, he⟩ := endLeaf hd hv
  rw [endOf_endLeaf he] at h3
  obtain ⟨rfl, hok, hal, hv₁⟩ := he
  have hlen := valid_height (valid_plug hok hv₁) hv
  cases hv₁ with
  | two => cases h3
  | @three _ _ c e =>
    refine ⟨hs, y, c, e, hal, rfl, fun k j => ?_⟩
    rw [← hlen]
    exact valid_plug hok (.two .nil .nil)

end Ends

section Take

variable {p x y : Nat} {w : Slot} {o : CNode K} {v : Keys K} {c e : K} {gs hs : List (Frame K)}
  {xl : Tree K} {Q : Unit → Store (CNode K) Nat → Prop}

/-- A node somewhere in a tree as a part of its own. -/
theorem parts_inside {m : Memory (CNode K)} {l : List (Library.Part (CNode K))} {q a : Nat}
    {z t u : Tree K} {fs : List (Frame K)} :
    Parts m (l ++ treePart q (plug fs (.node a v z t u)) :: ps) ↔
      Parts m (l ++ cellPart a ⟨v, z.root, t.root, u.root, top q fs⟩ :: treePart a z ::
        treePart a t :: treePart a u :: abovePart q a fs :: ps) :=
  parts_within (r := [_, _, _, _, _]) (fun _ => parts_whole.symm.trans parts_node)

theorem parts_two_of {m : Memory (CNode K)} {q a b : Nat} {l r : Tree K} (hl : a = l.root)
    (hr : b = r.root)
    (h : Parts m (cellPart p ⟨v, a, 0, b, q⟩ :: treePart p l :: treePart p r :: ps)) :
    Parts m (treePart q (.node p v l .nil r) :: ps) := by
  subst hl hr
  exact parts_two.mpr h

theorem parts_node_of {m : Memory (CNode K)} {q a b c : Nat} {l t r : Tree K} (hl : a = l.root)
    (ht : b = t.root) (hr : c = r.root)
    (h : Parts m (cellPart p ⟨v, a, b, c, q⟩ :: treePart p l :: treePart p t :: treePart p r ::
      ps)) : Parts m (treePart q (.node p v l t r) :: ps) := by
  subst hl ht hr
  exact parts_node.mpr h

theorem wp_takeMin
    (h : Parts s.mem (cellPart p o :: treePart p (plug gs (.node x v xl .nil .nil)) ::
      treePart p (plug hs (.node y (.three c e) .nil .nil .nil)) :: ps))
    (hq : ∀ m, Parts m (cellPart p { o with keys := o.keys.set w c } ::
      treePart p (plug gs (.node x (v.set .small (o.keys.get w)) xl .nil .nil)) ::
      treePart p (plug hs (.node y (.two e e) .nil .nil .nil)) :: ps) → Q () ⟨m, s.reg⟩) :
    wp (takeMin w x p y) Q s := by
  have h₁ := (parts_inside (l := [_])).mp h
  have h₂ := (parts_inside (l := [_, _, _, _, _, _])).mp h₁
  simp only [takeMin, wp_bind]
  refine wp_copyKey_part (i := 1) (j := 0) h₂ rfl rfl (fun m h => ?_)
  refine wp_copyKey_part (i := 0) (j := 6) h rfl rfl (fun m h => ?_)
  refine wp_copyKey_part (i := 6) (j := 6) h rfl rfl (fun m h => ?_)
  refine wp_clearKey_part (i := 6) h rfl (fun m h => hq m ?_)
  exact (parts_inside (l := [_])).mpr ((parts_inside (l := [_, _, _, _, _, _])).mpr h)

theorem wp_takeMax
    (h : Parts s.mem (cellPart p o :: treePart p (plug gs (.node x v xl .nil .nil)) ::
      treePart p (plug hs (.node y (.three c e) .nil .nil .nil)) :: ps))
    (hq : ∀ m, Parts m (cellPart p { o with keys := o.keys.set w e } ::
      treePart p (plug gs (.node x (v.set .small (o.keys.get w)) xl .nil .nil)) ::
      treePart p (plug hs (.node y (.two c e) .nil .nil .nil)) :: ps) → Q () ⟨m, s.reg⟩) :
    wp (takeMax w x p y) Q s := by
  have h₁ := (parts_inside (l := [_])).mp h
  have h₂ := (parts_inside (l := [_, _, _, _, _, _])).mp h₁
  simp only [takeMax, wp_bind]
  refine wp_copyKey_part (i := 1) (j := 0) h₂ rfl rfl (fun m h => ?_)
  refine wp_copyKey_part (i := 0) (j := 6) h rfl rfl (fun m h => ?_)
  refine wp_clearKey_part (i := 6) h rfl (fun m h => hq m ?_)
  exact (parts_inside (l := [_])).mpr ((parts_inside (l := [_, _, _, _, _, _])).mpr h)

variable {N : Nat} {r : Tree K}

/-- Take a key from the near end of the next subtree. -/
theorem wp_takeMin_end (hv : Valid (N + 1) r) (h3 : (r.endOf .left).size = .threeNode)
    (h : Parts s.mem (cellPart p o :: treePart p (plug gs (.node x v xl .nil .nil)) ::
      treePart p r :: ps))
    (hq : ∀ m c r', Valid (N + 1) r' → r.root = r'.root → r.keys = c :: r'.keys →
      Parts m (cellPart p { o with keys := o.keys.set w c } ::
        treePart p (plug gs (.node x (v.set .small (o.keys.get w)) xl .nil .nil)) ::
        treePart p r' :: ps) → Q () ⟨m, s.reg⟩) :
    wp (takeMin w x p (r.endOf .left).root) Q s := by
  obtain ⟨hs, y, c, e, hal, rfl, hv'⟩ := endLeaf_three hv (by decide) h3
  rw [endOf_along hal rfl]
  refine wp_takeMin h (fun m hm => hq m c _ (hv' e e) ?_ ?_ hm)
  · rw [root_plug, root_plug]
    rfl
  · simp [keys_plug, before_along hal, Tree.keys]

/-- Take a key from the near end of the subtree before. -/
theorem wp_takeMax_end (hv : Valid (N + 1) r) (h3 : (r.endOf .right).size = .threeNode)
    (h : Parts s.mem (cellPart p o :: treePart p (plug gs (.node x v xl .nil .nil)) ::
      treePart p r :: ps))
    (hq : ∀ m e r', Valid (N + 1) r' → r.root = r'.root → r.keys = r'.keys ++ [e] →
      Parts m (cellPart p { o with keys := o.keys.set w e } ::
        treePart p (plug gs (.node x (v.set .small (o.keys.get w)) xl .nil .nil)) ::
        treePart p r' :: ps) → Q () ⟨m, s.reg⟩) :
    wp (takeMax w x p (r.endOf .right).root) Q s := by
  obtain ⟨hs, y, c, e, hal, rfl, hv'⟩ := endLeaf_three hv (by decide) h3
  rw [endOf_along hal rfl]
  refine wp_takeMax h (fun m hm => hq m e _ (hv' c e) ?_ ?_ hm)
  · rw [root_plug, root_plug]
    rfl
  · simp [keys_plug, after_along hal, Tree.keys]

end Take

section Root

variable {p x n q steps : Nat} {k k₁ k₂ u j₁ j₂ : K} {b : Bool} {xl l m r : Tree K}
  {gs fs : List (Frame K)} {v : Keys K} {μ : Memory (CNode K)}

/-- The node is found again as the end of a way down only if it is at that end. -/
theorem hole_max (h : Parts μ (treePart q (plug gs (.node x v xl .nil .nil)) :: ps)) :
    x = ((plug gs (.node x v xl .nil .nil)).endOf .right).root ↔ Along .right gs := by
  have h₁ := (parts_inside (l := [])).mp h
  constructor
  · intro hx
    by_contra hne
    have hm := endOf_beside hne (u := .node x v xl .nil .nil) rfl
    rw [← hx] at hm
    exact parts_not_mem (i := 0) (j := 4) h₁ rfl rfl (by decide) hm
  · intro hal
    rw [endOf_along hal rfl]
    rfl

theorem hole_min (h : Parts μ (treePart q (plug gs (.node x v xl .nil .nil)) :: ps))
    (hx : Valid n xl) :
    x = ((plug gs (.node x v xl .nil .nil)).endOf .left).root ↔ Along .left gs ∧ n = 0 := by
  have h₁ := (parts_inside (l := [])).mp h
  constructor
  · intro he
    have hal : Along .left gs := by
      by_contra hne
      have hm := endOf_beside hne (u := .node x v xl .nil .nil) rfl
      rw [← he] at hm
      exact parts_not_mem (i := 0) (j := 4) h₁ rfl rfl (by decide) hm
    refine ⟨hal, ?_⟩
    by_contra hn
    have hnil : xl.isNil = false := by simpa using mt (valid_isNil hx).mp hn
    rw [endOf_along hal rfl, Tree.endOf] at he
    simp only [hnil, Bool.false_eq_true, ↓reduceIte] at he
    have hm := root_endOf_mem (d := .left) hnil
    rw [← he] at hm
    exact parts_not_mem (i := 0) (j := 1) h₁ rfl rfl (by decide) hm
  · rintro ⟨hal, rfl⟩
    cases nil_of_valid_zero hx
    rw [endOf_along hal rfl]
    rfl

/-- The end of another tree is not the node. -/
theorem hole_ne {i : Nat} (h : Parts μ (treePart q (plug gs (.node x v xl .nil .nil)) :: ps))
    (hi : ps[i]? = some (treePart q r)) (hr : r.isNil = false) : x ≠ (r.endOf d).root := by
  have h₁ := (parts_inside (l := [])).mp h
  intro he
  have hm := root_endOf_mem (d := d) hr
  rw [← he] at hm
  exact parts_not_mem (i := 0) (j := i + 5) h₁ rfl hi (Nat.succ_ne_zero _).symm hm

/-- What the rotation through the root does at a node without a key. -/
def Turns (n : Nat) (xl : Tree K) (fs : List (Frame K)) (s : Store (CNode K) Nat) (code : Code)
    (s' : Store (CNode K) Nat) : Prop :=
  if reaches .right fs = true ∨ (n = 0 ∧ reaches .left fs = true) then
    code = .success ∧ Turned n (before fs ++ xl.keys ++ after fs) s.reg s'
  else code = .failure ∧ s' = s

theorem turns_failure {g : Frame K}
    (h₁ : Along .right gs → ((g.neighbour .right).endOf .left).size ≠ .threeNode)
    (h₂ : Along .left gs → n = 0 → ((g.neighbour .left).endOf .right).size ≠ .threeNode) :
    Turns n xl (gs ++ [g]) s .failure s := by
  rw [Turns, if_neg]
  · exact ⟨rfl, rfl⟩
  · simp only [reaches_append]
    rintro (⟨hal, h3⟩ | ⟨hn, hal, h3⟩)
    · exact h₁ hal h3
    · exact h₂ hal hn h3

theorem turns_right {g : Frame K} {s' : Store (CNode K) Nat} (hal : Along .right gs)
    (h3 : ((g.neighbour .right).endOf .left).size = .threeNode)
    (h : Turned n (before (gs ++ [g]) ++ xl.keys ++ after (gs ++ [g])) s.reg s') :
    Turns n xl (gs ++ [g]) s .success s' := by
  rw [Turns, if_pos]
  · exact ⟨rfl, h⟩
  · exact .inl (reaches_append.mpr ⟨hal, h3⟩)

theorem turns_left {g : Frame K} {s' : Store (CNode K) Nat} (hal : Along .left gs) (hn : n = 0)
    (h3 : ((g.neighbour .left).endOf .right).size = .threeNode)
    (h : Turned n (before (gs ++ [g]) ++ xl.keys ++ after (gs ++ [g])) s.reg s') :
    Turns n xl (gs ++ [g]) s .success s' := by
  rw [Turns, if_pos]
  · exact ⟨rfl, h⟩
  · exact .inr ⟨hn, reaches_append.mpr ⟨hal, h3⟩⟩

theorem hole_depth (hx : Valid n xl) (hgs : AboveOk (n + 1) gs) :
    (plug gs (.node x v xl .nil .nil)).depth ≤ n + 1 + gs.length :=
  depth_plug hgs (by simp [Tree.depth, depth_valid hx])

theorem hole_root (v' : Keys K) : (plug gs (.node x v xl .nil .nil)).root =
    (plug gs (.node x v' xl .nil .nil)).root := by
  rw [root_plug, root_plug]
  rfl

theorem hole_isNil : (plug gs (.node x v xl .nil .nil)).isNil = false := by
  cases gs using List.reverseRecOn with
  | nil => rfl
  | append_singleton gs g =>
    rw [plug_append]
    exact plug_isNil

/-- The ways down from a root with two children. -/
theorem wp_globalRotation_two {Q : Code → Store (CNode K) Nat → Prop}
    (h : Parts s.mem [treePart 0 (.node p (.two k u) l .nil r)]) (hx : x ≠ 0) (hreg : s.reg = p)
    (hl : l.isNil = false) (hr : r.isNil = false) (hdl : l.depth ≤ steps) (hdr : r.depth ≤ steps)
    (hq : wp (rotateAroundTwo x p (l.endOf .right).root (r.endOf .left).root) Q s) :
    wp (globalRotation steps x) Q s := by
  have h₁ := parts_two.mp h
  have hp := cell_of_parts (i := 0) h₁ rfl
  simp only [globalRotation, hx, ↓reduceIte, wp_bind, wp_getReg, hreg, wp_load, hp,
    Option.some.injEq, exists_eq_left', CNode.getSize, Keys.getSize_two, reduceCtorEq]
  refine wp_mono (wp_goDown (d := .left) (parts_get (i := 2) h₁ rfl) hdr hr) ?_
  rintro _ _ ⟨rfl, rfl⟩
  refine wp_mono (wp_goDown (d := .right) (parts_get (i := 1) h₁ rfl) hdl hl) ?_
  rintro _ _ ⟨rfl, rfl⟩
  exact hq

/-- The ways down from a root with three children. -/
theorem wp_globalRotation_three {Q : Code → Store (CNode K) Nat → Prop}
    (h : Parts s.mem [treePart 0 (.node p (.three k₁ k₂) l m r)]) (hx : x ≠ 0) (hreg : s.reg = p)
    (hl : l.isNil = false) (hm : m.isNil = false) (hr : r.isNil = false) (hdl : l.depth ≤ steps)
    (hdm : m.depth ≤ steps) (hdr : r.depth ≤ steps)
    (hq : wp (rotateAroundThree x p (l.endOf .right).root (m.endOf .left).root (m.endOf .right).root
      (r.endOf .left).root) Q s) : wp (globalRotation steps x) Q s := by
  have h₁ := parts_node.mp h
  have hp := cell_of_parts (i := 0) h₁ rfl
  simp only [globalRotation, hx, ↓reduceIte, wp_bind, wp_getReg, hreg, wp_load, hp,
    Option.some.injEq, exists_eq_left', CNode.getSize, Keys.getSize_three]
  refine wp_mono (wp_goDown (d := .left) (parts_get (i := 3) h₁ rfl) hdr hr) ?_
  rintro _ _ ⟨rfl, rfl⟩
  refine wp_mono (wp_goDown (d := .right) (parts_get (i := 1) h₁ rfl) hdl hl) ?_
  rintro _ _ ⟨rfl, rfl⟩
  refine wp_mono (wp_goDown (d := .left) (parts_get (i := 2) h₁ rfl) hdm hm) ?_
  rintro _ _ ⟨rfl, rfl⟩
  refine wp_mono (wp_goDown (d := .right) (parts_get (i := 2) h₁ rfl) hdm hm) ?_
  rintro _ _ ⟨rfl, rfl⟩
  exact hq

theorem wp_rotateAroundTwo_left (hx : Valid n xl) (hgs : AboveOk (n + 1) gs)
    (hr : Valid (n + gs.length + 1) r) (hreg : s.reg = p)
    (h : Parts s.mem [treePart 0 (.node p (.two k u)
      (plug gs (.node x ⟨j₁, j₂, b, false⟩ xl .nil .nil)) .nil r)]) :
    wp (rotateAroundTwo x p ((plug gs (.node x ⟨j₁, j₂, b, false⟩ xl .nil .nil)).endOf .right).root
      (r.endOf .left).root) (Turns n xl (gs ++ [⟨.left, p, .two k u, .nil, r⟩]) s) s := by
  have h₁ := parts_two.mp h
  have h₂ := parts_pick [1, 0, 2] h₁ (l := [_, _, _]) rfl (by decide)
  have hsr : Shape s.mem p r := parts_get (i := 2) h₁ rfl
  have hxr := hole_ne (i := 1) (d := .left) h₂ rfl (not_nil hr)
  simp only [rotateAroundTwo, wp_bind, wp_both_ne hxr, wp_both_end hsr hr (d := .left) (by decide),
    hole_max h₂, Bool.false_eq_true, wp_ite, decide_eq_true_eq, wp_pure, false_implies,
    not_false_eq_true, true_implies, true_and]
  refine ⟨?_, fun hn => turns_failure (fun hal h3 => hn ⟨hal, h3⟩) (fun _ _ he => Size.noConfusion he)⟩
  rintro ⟨hal, h3⟩
  rw [← (hole_max h₂).mpr hal]
  refine wp_takeMin_end hr h3 h₁ (fun μ c r' hv' hroot hk hp => turns_right hal h3 ?_)
  rw [hreg]
  refine turned (g := ⟨.left, p, .two k u, .nil, r⟩) hx hgs (.twoLeft ?_)
    (parts_two_of (hole_root _) hroot hp) rfl ?_
  · rwa [Nat.add_right_comm]
  · simp [Frame.before, Frame.after, after_along hal, hk, Tree.keys, Keys.get]

theorem wp_rotateAroundTwo_right (hx : Valid n xl) (hgs : AboveOk (n + 1) gs)
    (hl : Valid (n + gs.length + 1) l) (hreg : s.reg = p)
    (h : Parts s.mem [treePart 0 (.node p (.two k u) l .nil
      (plug gs (.node x ⟨j₁, j₂, b, false⟩ xl .nil .nil)))]) :
    wp (rotateAroundTwo x p (l.endOf .right).root
      ((plug gs (.node x ⟨j₁, j₂, b, false⟩ xl .nil .nil)).endOf .left).root)
      (Turns n xl (gs ++ [⟨.right, p, .two k u, l, .nil⟩]) s) s := by
  have h₁ := parts_pick [0, 2, 1] (parts_two.mp h) (l := [_, _, _]) rfl (by decide)
  have h₂ := parts_pick [1, 0, 2] h₁ (l := [_, _, _]) rfl (by decide)
  have hsl : Shape s.mem p l := parts_get (i := 2) h₁ rfl
  have hxl := hole_ne (i := 1) (d := .right) h₂ rfl (not_nil hl)
  simp only [rotateAroundTwo, wp_bind, wp_both_ne hxl, wp_both_end hsl hl (d := .right) (by decide),
    hole_min h₂ hx, Bool.false_eq_true, wp_ite, decide_eq_true_eq, wp_pure, false_implies,
    not_false_eq_true, true_implies, true_and]
  refine ⟨?_, fun hn => turns_failure (fun _ he => Size.noConfusion he) (fun hal h0 h3 => hn ⟨⟨hal, h0⟩, h3⟩)⟩
  rintro ⟨⟨hal, rfl⟩, h3⟩
  cases nil_of_valid_zero hx
  rw [← (hole_min h₂ hx).mpr ⟨hal, rfl⟩]
  refine wp_takeMax_end hl h3 h₁ (fun μ e l' hv' hroot hk hp => turns_left hal rfl h3 ?_)
  rw [hreg]
  refine turned (g := ⟨.right, p, .two k u, l, .nil⟩) hx hgs (.twoRight ?_) (parts_two_of hroot
    (hole_root _) (parts_pick [0, 2, 1] hp (l := [_, _, _]) rfl (by decide))) rfl ?_
  · rwa [Nat.add_right_comm]
  · simp [Frame.before, Frame.after, before_along hal, hk, Tree.keys, Keys.get]

theorem wp_rotateAroundThree_left (hx : Valid n xl) (hgs : AboveOk (n + 1) gs)
    (hm : Valid (n + gs.length + 1) m) (hr : Valid (n + gs.length + 1) r) (hreg : s.reg = p)
    (h : Parts s.mem [treePart 0 (.node p (.three k₁ k₂)
      (plug gs (.node x ⟨j₁, j₂, b, false⟩ xl .nil .nil)) m r)]) :
    wp (rotateAroundThree x p
      ((plug gs (.node x ⟨j₁, j₂, b, false⟩ xl .nil .nil)).endOf .right).root
      (m.endOf .left).root (m.endOf .right).root (r.endOf .left).root)
      (Turns n xl (gs ++ [⟨.left, p, .three k₁ k₂, m, r⟩]) s) s := by
  have h₁ := parts_node.mp h
  have h₂ := parts_pick [1, 0, 2, 3] h₁ (l := [_, _, _, _]) rfl (by decide)
  have hsm : Shape s.mem p m := parts_get (i := 2) h₁ rfl
  have hxr := hole_ne (i := 2) (d := .left) h₂ rfl (not_nil hr)
  have hxm := hole_ne (i := 1) (d := .left) h₂ rfl (not_nil hm)
  have hxm' := hole_ne (i := 1) (d := .right) h₂ rfl (not_nil hm)
  have hnb : (Frame.mk .left p (.three k₁ k₂) m r).neighbour .right = m := by
    simp [Frame.neighbour, not_nil hm]
  simp only [rotateAroundThree, wp_bind, wp_both_ne hxr, wp_both_ne hxm, wp_both_ne hxm',
    wp_both_end hsm hm (d := .left) (by decide), hole_max h₂, Bool.false_eq_true, wp_ite,
    decide_eq_true_eq, wp_pure, false_implies, not_false_eq_true, true_implies, true_and]
  refine ⟨?_, fun hn => turns_failure (fun hal h3 => hn ⟨hal, hnb ▸ h3⟩) (fun _ _ he => Size.noConfusion he)⟩
  rintro ⟨hal, h3⟩
  rw [← (hole_max h₂).mpr hal]
  refine wp_takeMin_end hm h3 h₁ (fun μ c m' hv' hroot hk hp => ?_)
  refine turns_right hal (by rwa [hnb]) ?_
  rw [hreg]
  rw [Nat.add_right_comm] at hv' hr
  refine turned (g := ⟨.left, p, .three k₁ k₂, m, r⟩) hx hgs (.three (d := .left) hv' hr)
    (parts_node_of (hole_root _) hroot rfl hp) rfl ?_
  simp [Frame.before, Frame.after, after_along hal, hk, Keys.get]

theorem wp_rotateAroundThree_middle (hx : Valid n xl) (hgs : AboveOk (n + 1) gs)
    (hl : Valid (n + gs.length + 1) l) (hr : Valid (n + gs.length + 1) r) (hreg : s.reg = p)
    (h : Parts s.mem [treePart 0 (.node p (.three k₁ k₂) l
      (plug gs (.node x ⟨j₁, j₂, b, false⟩ xl .nil .nil)) r)]) :
    wp (rotateAroundThree x p (l.endOf .right).root
      ((plug gs (.node x ⟨j₁, j₂, b, false⟩ xl .nil .nil)).endOf .left).root
      ((plug gs (.node x ⟨j₁, j₂, b, false⟩ xl .nil .nil)).endOf .right).root (r.endOf .left).root)
      (Turns n xl (gs ++ [⟨.middle, p, .three k₁ k₂, l, r⟩]) s) s := by
  have h₁ := parts_node.mp h
  have h₂ := parts_pick [2, 0, 1, 3] h₁ (l := [_, _, _, _]) rfl (by decide)
  have hsl : Shape s.mem p l := parts_get (i := 1) h₁ rfl
  have hsr : Shape s.mem p r := parts_get (i := 3) h₁ rfl
  have hxr := hole_ne (i := 2) (d := .left) h₂ rfl (not_nil hr)
  have hxl := hole_ne (i := 1) (d := .right) h₂ rfl (not_nil hl)
  simp only [rotateAroundThree, wp_bind, wp_both_ne hxr, wp_both_ne hxl,
    wp_both_end hsl hl (d := .right) (by decide), wp_both_end hsr hr (d := .left) (by decide),
    hole_max h₂, hole_min h₂ hx, Bool.false_eq_true, wp_ite, decide_eq_true_eq, wp_pure, false_implies,
    not_false_eq_true, true_implies, true_and]
  refine ⟨?_, fun hn₁ => ⟨?_, fun hn₂ => turns_failure (fun hal h3 => hn₂ ⟨hal, h3⟩)
    (fun hal h0 h3 => hn₁ ⟨⟨hal, h0⟩, h3⟩)⟩⟩
  · rintro ⟨⟨hal, rfl⟩, h3⟩
    cases nil_of_valid_zero hx
    rw [← (hole_min h₂ hx).mpr ⟨hal, rfl⟩]
    have h₃ := parts_pick [0, 2, 1, 3] h₁ (l := [_, _, _, _]) rfl (by decide)
    refine wp_takeMax_end hl h3 h₃ (fun μ e l' hv' hroot hk hp => turns_left hal rfl h3 ?_)
    have hp := parts_pick [0, 2, 1, 3] hp (l := [_, _, _, _]) rfl (by decide)
    rw [hreg]
    rw [Nat.add_right_comm] at hv' hr
    refine turned (g := ⟨.middle, p, .three k₁ k₂, l, r⟩) hx hgs (.three (d := .middle) hv' hr)
      (parts_node_of hroot (hole_root _) rfl hp) rfl ?_
    simp [Frame.before, Frame.after, before_along hal, hk, Tree.keys, Keys.get]
  · rintro ⟨hal, h3⟩
    rw [← (hole_max h₂).mpr hal]
    have h₃ := parts_pick [0, 2, 3, 1] h₁ (l := [_, _, _, _]) rfl (by decide)
    refine wp_takeMin_end hr h3 h₃ (fun μ c r' hv' hroot hk hp => turns_right hal h3 ?_)
    have hp := parts_pick [0, 3, 1, 2] hp (l := [_, _, _, _]) rfl (by decide)
    rw [hreg]
    rw [Nat.add_right_comm] at hv' hl
    refine turned (g := ⟨.middle, p, .three k₁ k₂, l, r⟩) hx hgs (.three (d := .middle) hl hv')
      (parts_node_of rfl (hole_root _) hroot hp) rfl ?_
    simp [Frame.before, Frame.after, after_along hal, hk, Keys.get]

theorem wp_rotateAroundThree_right (hx : Valid n xl) (hgs : AboveOk (n + 1) gs)
    (hl : Valid (n + gs.length + 1) l) (hm : Valid (n + gs.length + 1) m) (hreg : s.reg = p)
    (h : Parts s.mem [treePart 0 (.node p (.three k₁ k₂) l m
      (plug gs (.node x ⟨j₁, j₂, b, false⟩ xl .nil .nil)))]) :
    wp (rotateAroundThree x p (l.endOf .right).root (m.endOf .left).root (m.endOf .right).root
      ((plug gs (.node x ⟨j₁, j₂, b, false⟩ xl .nil .nil)).endOf .left).root)
      (Turns n xl (gs ++ [⟨.right, p, .three k₁ k₂, l, m⟩]) s) s := by
  have h₁ := parts_pick [0, 3, 2, 1] (parts_node.mp h) (l := [_, _, _, _]) rfl (by decide)
  have h₂ := parts_pick [1, 0, 2, 3] h₁ (l := [_, _, _, _]) rfl (by decide)
  have hsm : Shape s.mem p m := parts_get (i := 2) h₁ rfl
  have hxl := hole_ne (i := 2) (d := .right) h₂ rfl (not_nil hl)
  have hxm := hole_ne (i := 1) (d := .left) h₂ rfl (not_nil hm)
  have hxm' := hole_ne (i := 1) (d := .right) h₂ rfl (not_nil hm)
  have hnb : (Frame.mk .right p (.three k₁ k₂) l m).neighbour .left = m := by
    simp [Frame.neighbour, not_nil hm]
  simp only [rotateAroundThree, wp_bind, wp_both_ne hxl, wp_both_ne hxm, wp_both_ne hxm',
    wp_both_end hsm hm (d := .right) (by decide), hole_min h₂ hx, Bool.false_eq_true, wp_ite,
    decide_eq_true_eq, wp_pure, false_implies, not_false_eq_true, true_implies, true_and]
  refine ⟨?_, fun hn => turns_failure (fun _ he => Size.noConfusion he)
    (fun hal h0 h3 => hn ⟨⟨hal, h0⟩, hnb ▸ h3⟩)⟩
  rintro ⟨⟨hal, rfl⟩, h3⟩
  cases nil_of_valid_zero hx
  rw [← (hole_min h₂ hx).mpr ⟨hal, rfl⟩]
  refine wp_takeMax_end hm h3 h₁ (fun μ e m' hv' hroot hk hp => ?_)
  refine turns_left hal rfl (by rwa [hnb]) ?_
  have hp := parts_pick [0, 3, 2, 1] hp (l := [_, _, _, _]) rfl (by decide)
  rw [hreg]
  rw [Nat.add_right_comm] at hv' hl
  refine turned (g := ⟨.right, p, .three k₁ k₂, l, m⟩) hx hgs (.three (d := .right) hl hv')
    (parts_node_of rfl hroot (hole_root _) hp) rfl ?_
  simp [Frame.before, Frame.after, before_along hal, hk, Tree.keys, Keys.get]

/-- The rotation through the root, with the node anywhere below it. -/
theorem wp_globalRotation {f : Frame K} (hx : Valid n xl) (hfs : AboveOk (n + 1) (f :: fs))
    (hn : n + 1 + fs.length ≤ steps) (hreg : s.reg = rootAddr fs f.addr)
    (h : Parts s.mem [treePart 0 (plug (f :: fs) (.node x ⟨j₁, j₂, b, false⟩ xl .nil .nil))]) :
    wp (globalRotation steps x) (Turns n xl (f :: fs) s) s := by
  obtain ⟨gs, g, hg⟩ := (List.eq_nil_or_concat (f :: fs)).resolve_left (List.cons_ne_nil f fs)
  rw [List.concat_eq_append] at hg
  have hx0 : x ≠ 0 :=
    Memory.ne_zero_of_cell (cell_of_parts (i := 0) ((parts_inside (l := [])).mp h) rfl)
  have hlen : gs.length = fs.length := by simpa using (congrArg List.length hg).symm
  have hroot : rootAddr fs f.addr = g.addr := by
    have hr : rootAddr fs f.addr = (plug (f :: fs) .nil).root := (root_plug (f :: fs) .nil).symm
    rw [hr, hg, plug_append]
    obtain ⟨d, a, v, y, z⟩ := g
    cases d <;> rfl
  rw [hg] at h hfs ⊢
  obtain ⟨hgs, hok, -⟩ := aboveOk_append.mp hfs
  rw [plug_append] at h
  rw [hroot] at hreg
  rw [← hlen] at hn
  have hdx := Nat.le_trans (hole_depth (x := x) (v := ⟨j₁, j₂, b, false⟩) hx hgs) hn
  have hdepth : ∀ {t : Tree K}, Valid (n + gs.length + 1) t → t.depth ≤ steps := by
    intro t ht
    rw [depth_valid ht]
    omega
  rw [Nat.add_right_comm] at hok
  cases hok with
  | twoLeft hr =>
    exact wp_globalRotation_two h hx0 hreg hole_isNil (not_nil hr) hdx (hdepth hr)
      (wp_rotateAroundTwo_left hx hgs hr hreg h)
  | twoRight hl =>
    exact wp_globalRotation_two h hx0 hreg (not_nil hl) hole_isNil (hdepth hl) hdx
      (wp_rotateAroundTwo_right hx hgs hl hreg h)
  | @three d _ _ _ _ _ hy hz =>
    cases d with
    | left =>
      exact wp_globalRotation_three h hx0 hreg hole_isNil (not_nil hy) (not_nil hz) hdx
        (hdepth hy) (hdepth hz) (wp_rotateAroundThree_left hx hgs hy hz hreg h)
    | middle =>
      exact wp_globalRotation_three h hx0 hreg (not_nil hy) hole_isNil (not_nil hz) (hdepth hy)
        hdx (hdepth hz) (wp_rotateAroundThree_middle hx hgs hy hz hreg h)
    | right =>
      exact wp_globalRotation_three h hx0 hreg (not_nil hy) (not_nil hz) hole_isNil (hdepth hy)
        (hdepth hz) hdx (wp_rotateAroundThree_right hx hgs hy hz hreg h)

end Root

end C11AndC.TwoThree
