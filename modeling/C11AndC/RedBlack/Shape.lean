import C11AndC.RedBlack.Model
import Mathlib.Data.List.Nodup

namespace C11AndC.RedBlack

open C11AndC.Library

/-- The tree that hangs at a pointer, with the addresses of its nodes. -/
inductive Tree where
  | nil
  | node (addr : Nat) (color : Color) (key : Int) (left right : Tree)
  deriving DecidableEq

namespace Tree

def root : Tree → Nat
  | nil => 0
  | node a _ _ _ _ => a

def addrs : Tree → List Nat
  | nil => []
  | node a _ _ l r => l.addrs ++ a :: r.addrs

def keys : Tree → List Int
  | nil => []
  | node _ _ k l r => l.keys ++ k :: r.keys

/-- The node with `t` on the side `d` and `u` on the other one. -/
def join (d : Side) (a : Nat) (c : Color) (k : Int) (t u : Tree) : Tree :=
  match d with
  | .left => node a c k t u
  | .right => node a c k u t

@[simp] theorem root_join (d : Side) (a : Nat) (c : Color) (k : Int) (t u : Tree) :
    (join d a c k t u).root = a := by
  cases d <;> rfl

theorem join_other (d : Side) (a : Nat) (c : Color) (k : Int) (t u : Tree) :
    join d.other a c k t u = join d a c k u t := by
  cases d <;> rfl

theorem addrs_join_perm (d : Side) (a : Nat) (c : Color) (k : Int) (t u : Tree) :
    (join d a c k t u).addrs.Perm (a :: (t.addrs ++ u.addrs)) := by
  cases d with
  | left => exact List.perm_middle
  | right => exact List.perm_middle.trans (List.perm_append_comm.cons a)

theorem root_mem_addrs (a : Nat) (c : Color) (k : Int) (l r : Tree) :
    a ∈ (node a c k l r).addrs := by
  simp [addrs]

theorem root_ne {t : Tree} {p : Nat} (hp : p ≠ 0) (h : p ∉ t.addrs) : t.root ≠ p := by
  cases t with
  | nil => exact hp.symm
  | node a c k l r => exact ne_of_mem_of_not_mem (root_mem_addrs a c k l r) h

end Tree

namespace Node

/-- The record of a node with the pointer `p` on the side `d` and `q` on the other one. -/
def join (d : Side) (k : Int) (c : Color) (p q parent : Nat) : Node :=
  match d with
  | .left => ⟨k, c, p, q, parent⟩
  | .right => ⟨k, c, q, p, parent⟩

variable {d : Side} {k : Int} {c : Color} {p q par a : Nat}

@[simp] theorem child_join : (join d k c p q par).child d = p := by
  cases d <;> rfl

@[simp] theorem child_other_join : (join d k c p q par).child d.other = q := by
  cases d <;> rfl

@[simp] theorem setChild_join : (join d k c p q par).setChild d a = join d k c a q par := by
  cases d <;> rfl

@[simp] theorem setChild_other_join :
    (join d k c p q par).setChild d.other a = join d k c p a par := by
  cases d <;> rfl

@[simp] theorem setParent_join : (join d k c p q par).setParent a = join d k c p q a := by
  cases d <;> rfl

@[simp] theorem setColor_join {c' : Color} :
    (join d k c p q par).setColor c' = join d k c' p q par := by
  cases d <;> rfl

@[simp] theorem parent_join : (join d k c p q par).parent = par := by
  cases d <;> rfl

@[simp] theorem color_join : (join d k c p q par).color = c := by
  cases d <;> rfl

end Node

/-- The memory holds the tree, under a node at `par`. -/
def Shape (m : Memory Node) : Nat → Tree → Prop
  | _, .nil => True
  | par, .node a c k l r =>
      m.cell a = some ⟨k, c, l.root, r.root, par⟩ ∧ Shape m a l ∧ Shape m a r

/-- A node above the place one looks at, without the subtree that place is in. -/
structure Frame where
  side : Side
  addr : Nat
  color : Color
  key : Int
  sibling : Tree

def Frame.plug (f : Frame) (t : Tree) : Tree :=
  Tree.join f.side f.addr f.color f.key t f.sibling

/-- Put a tree back under the nodes above it, the nearest first. -/
def plug : List Frame → Tree → Tree
  | [], t => t
  | f :: fs, t => plug fs (f.plug t)

def top : List Frame → Nat
  | [] => 0
  | f :: _ => f.addr

@[simp] theorem top_cons (f : Frame) (fs : List Frame) : top (f :: fs) = f.addr := rfl

def above : List Frame → List Nat
  | [] => []
  | f :: fs => f.addr :: f.sibling.addrs ++ above fs

/-- The memory holds the nodes above a place where the pointer `p` is stored. -/
def ShapeAbove (m : Memory Node) : Nat → List Frame → Prop
  | _, [] => True
  | p, f :: fs =>
      m.cell f.addr = some (.join f.side f.key f.color p f.sibling.root (top fs)) ∧
        Shape m f.addr f.sibling ∧ ShapeAbove m f.addr fs

theorem shape_join {m : Memory Node} {par a : Nat} {d : Side} {c : Color} {k : Int} {t u : Tree} :
    Shape m par (.join d a c k t u) ↔
      m.cell a = some (.join d k c t.root u.root par) ∧ Shape m a t ∧ Shape m a u := by
  cases d
  · rfl
  · simp only [Tree.join, Shape, Node.join]
    tauto

theorem shape_congr {m m' : Memory Node} {par : Nat} {t : Tree}
    (h : ∀ a, a ∈ t.addrs → m'.cell a = m.cell a) (hs : Shape m par t) : Shape m' par t := by
  induction t generalizing par with
  | nil => trivial
  | node a c k l r ihl ihr =>
    refine ⟨?_, ihl (fun b hb => h b ?_) hs.2.1, ihr (fun b hb => h b ?_) hs.2.2⟩
    · rw [h a (by simp [Tree.addrs])]
      exact hs.1
    · simp [Tree.addrs, hb]
    · simp [Tree.addrs, hb]

theorem shapeAbove_congr {m m' : Memory Node} {p : Nat} {fs : List Frame}
    (h : ∀ a, a ∈ above fs → m'.cell a = m.cell a) (hs : ShapeAbove m p fs) :
    ShapeAbove m' p fs := by
  induction fs generalizing p with
  | nil => trivial
  | cons f fs ih =>
    refine ⟨?_, shape_congr (fun b hb => h b ?_) hs.2.1, ih (fun b hb => h b ?_) hs.2.2⟩
    · rw [h f.addr (by simp [above])]
      exact hs.1
    · simp [above, hb]
    · simp [above, hb]

theorem shape_modify {m : Memory Node} {par a : Nat} {f : Node → Node} {t : Tree}
    (h : a ∉ t.addrs) (hs : Shape m par t) : Shape (m.modify a f) par t :=
  shape_congr (fun _ hb => Memory.cell_modify_ne m (ne_of_mem_of_not_mem hb h) f) hs

theorem shapeAbove_modify {m : Memory Node} {p a : Nat} {f : Node → Node} {fs : List Frame}
    (h : a ∉ above fs) (hs : ShapeAbove m p fs) : ShapeAbove (m.modify a f) p fs :=
  shapeAbove_congr (fun _ hb => Memory.cell_modify_ne m (ne_of_mem_of_not_mem hb h) f) hs

theorem shape_sameExcept {m m' : Memory Node} {par : Nat} {t : Tree} {as : List Nat}
    (h : Memory.SameExcept as m m') (hd : t.addrs.Disjoint as) (hs : Shape m par t) :
    Shape m' par t :=
  shape_congr (fun a ha => h a (fun hb => hd ha hb)) hs

/-- A tree is hung under another node by writing to the parent pointer of its root. -/
theorem shape_setParent {m : Memory Node} {par q : Nat} {t : Tree} (hn : t.addrs.Nodup)
    (hs : Shape m par t) : Shape (m.modify t.root (·.setParent q)) q t := by
  cases t with
  | nil => trivial
  | node a c k l r =>
    simp only [Tree.addrs, List.nodup_append, List.nodup_cons, List.mem_cons] at hn
    obtain ⟨-, ⟨hr, -⟩, hl⟩ := hn
    refine ⟨?_, shape_modify (fun h => hl a h a (.inl rfl) rfl) hs.2.1, shape_modify hr hs.2.2⟩
    rw [Tree.root, Memory.cell_modify_self, hs.1]
    rfl

theorem root_plug (f : Frame) (fs : List Frame) (t u : Tree) :
    (plug (f :: fs) t).root = (plug (f :: fs) u).root := by
  induction fs generalizing f t u with
  | nil => simp [plug, Frame.plug]
  | cons g fs ih => exact ih g (f.plug t) (f.plug u)

/-- The store holds the tree `t` under the nodes `fs`, and its root pointer is right. -/
structure Holds (s : Store Node Nat) (fs : List Frame) (t : Tree) : Prop where
  shape : Shape s.mem (top fs) t
  shapeAbove : ShapeAbove s.mem t.root fs
  root : s.reg = (plug fs t).root
  nodup : (t.addrs ++ above fs).Nodup


theorem holds_cons {s : Store Node Nat} {f : Frame} {fs : List Frame} {t : Tree} :
    Holds s (f :: fs) t ↔ Holds s fs (f.plug t) := by
  have hp : (t.addrs ++ above (f :: fs)).Nodup ↔ ((f.plug t).addrs ++ above fs).Nodup := by
    rw [Frame.plug, (List.Perm.append_right _ (Tree.addrs_join_perm ..)).nodup_iff, above]
    rw [← List.append_assoc, List.perm_middle.append_right _ |>.nodup_iff]
  constructor
  · rintro ⟨hs, ha, hr, hn⟩
    refine ⟨shape_join.mpr ⟨ha.1, hs, ha.2.1⟩, ?_, hr, hp.mp hn⟩
    rw [Frame.plug, Tree.root_join]
    exact ha.2.2
  · rintro ⟨hs, ha, hr, hn⟩
    obtain ⟨hc, ht, hu⟩ := shape_join.mp hs
    rw [Frame.plug, Tree.root_join] at ha
    exact ⟨ht, ⟨hc, hu, ha⟩, hr, hp.mpr hn⟩

theorem cell_of_holds {s : Store Node Nat} {fs : List Frame} {d : Side} {a : Nat} {c : Color}
    {k : Int} {t u : Tree} (h : Holds s fs (.join d a c k t u)) :
    s.mem.cell a = some (.join d k c t.root u.root (top fs)) :=
  (shape_join.mp h.shape).1

theorem holds_setColor {s : Store Node Nat} {fs : List Frame} {d : Side} {a : Nat} {c e : Color}
    {k : Int} {t u : Tree} (h : Holds s fs (.join d a c k t u)) :
    Holds { s with mem := s.mem.modify a (·.setColor e) } fs (.join d a e k t u) := by
  obtain ⟨hs, ha, hr, hn⟩ := h
  obtain ⟨hc, ht, hu⟩ := shape_join.mp hs
  have hd : (a :: (t.addrs ++ u.addrs) ++ above fs).Nodup :=
    ((Tree.addrs_join_perm ..).append_right _).nodup_iff.mp hn
  simp only [List.cons_append, List.nodup_cons, List.mem_append, not_or] at hd
  obtain ⟨⟨⟨hat, hau⟩, haf⟩, -⟩ := hd
  refine ⟨?_, ?_, ?_, ?_⟩
  · refine shape_join.mpr ⟨?_, shape_modify hat ht, shape_modify hau hu⟩
    rw [Memory.cell_modify_self, hc, Option.map_some, Node.setColor_join]
  · rw [Tree.root_join] at ha ⊢
    exact shapeAbove_modify haf ha
  · refine hr.trans ?_
    cases fs with
    | nil => simp only [plug, Tree.root_join]
    | cons f fs => exact root_plug f fs _ _
  · exact ((Tree.addrs_join_perm ..).append_right _).nodup_iff.mpr
      (((Tree.addrs_join_perm ..).append_right _).nodup_iff.mp hn)

theorem holds_side {s : Store Node Nat} {fs : List Frame} {d : Side} {a : Nat} {c : Color}
    {k : Int} {t u : Tree} :
    Holds s (⟨d, a, c, k, u⟩ :: fs) t ↔ Holds s fs (.join d a c k t u) := holds_cons

/-- Go down to the subtree on the other side. -/
theorem holds_other {s : Store Node Nat} {fs : List Frame} {d : Side} {a : Nat} {c : Color}
    {k : Int} {t u : Tree} :
    Holds s (⟨d.other, a, c, k, t⟩ :: fs) u ↔ Holds s fs (.join d a c k t u) := by
  rw [holds_cons, Frame.plug, Tree.join_other]

theorem wp_setParentOf {s : Store Node Nat} {par q : Nat} {t : Tree} (hn : t.addrs.Nodup)
    (hs : Shape s.mem par t) :
    wp (setParentOf t.root q) (fun _ s' => Shape s'.mem q t ∧
      Memory.SameExcept t.addrs s.mem s'.mem ∧ s'.reg = s.reg) s := by
  cases t with
  | nil =>
    simp only [setParentOf, Tree.root, ne_eq, not_true_eq_false, ↓reduceIte, wp_pure, and_true]
    exact ⟨trivial, Memory.sameExcept_refl _ _⟩
  | node a c k l r =>
    have hz := Memory.ne_zero_of_cell hs.1
    simp only [setParentOf, Tree.root, ne_eq, hz, not_false_eq_true, ↓reduceIte, wp_store, hs.1,
      Option.isSome_some, true_and, and_true]
    exact ⟨shape_setParent hn hs, Memory.sameExcept_modify (Tree.root_mem_addrs ..) _ _⟩

theorem wp_replace {s : Store Node Nat} {p q : Nat} {fs : List Frame} (hn : (above fs).Nodup)
    (hp : p ≠ 0) (hf : p ∉ above fs) (hs : ShapeAbove s.mem p fs) :
    wp (replace (top fs) p q) (fun _ s' => ShapeAbove s'.mem q fs ∧
      Memory.SameExcept (above fs) s.mem s'.mem ∧ s'.reg = if fs = [] then q else s.reg) s := by
  cases fs with
  | nil =>
    simp only [replace, top, ↓reduceIte, wp_setReg, and_true]
    exact ⟨trivial, Memory.sameExcept_refl _ _⟩
  | cons f fs =>
    obtain ⟨hc, hsib, hab⟩ := hs
    have hz := Memory.ne_zero_of_cell hc
    simp only [above, List.cons_append, List.nodup_cons, List.mem_append, not_or,
      List.mem_cons] at hn hf
    have hm : ShapeAbove (s.mem.modify f.addr (·.setChild f.side q)) q (f :: fs) := by
      refine ⟨?_, shape_modify hn.1.1 hsib, shapeAbove_modify hn.1.2 hab⟩
      rw [Memory.cell_modify_self, hc, Option.map_some, Node.setChild_join]
    have hsame := fun g => Memory.sameExcept_modify (m := s.mem) (f := g)
      (show f.addr ∈ above (f :: fs) by simp [above])
    simp only [replace, top, hz, ↓reduceIte, wp_bind, wp_load, hc, Option.some.injEq,
      exists_eq_left', wp_ite, wp_store, Option.isSome_some, true_and, reduceCtorEq, and_true]
    cases hd : f.side with
    | left =>
      rw [hd] at hm
      exact ⟨fun _ => ⟨hm, hsame _⟩, fun hne => absurd rfl hne⟩
    | right =>
      rw [hd] at hm
      exact ⟨fun he => absurd he (Tree.root_ne hp hf.2.1).symm, fun _ => ⟨hm, hsame _⟩⟩

theorem wp_swapColors {s : Store Node Nat} {fs : List Frame} {d : Side} {a b : Nat}
    {ca cb : Color} {ka kb : Int} {t u v : Tree}
    (h : Holds s fs (.join d a ca ka t (.join d b cb kb u v))) :
    wp (swapColors a b) (fun _ s' => Holds s' fs (.join d a cb ka t (.join d b ca kb u v))) s := by
  have ha := cell_of_holds h
  have hb := cell_of_holds (holds_other.mpr h)
  have h₁ := holds_other.mpr (holds_setColor (e := cb) h)
  have hb₁ : (s.mem.modify a (·.setColor cb)).cell b = _ := cell_of_holds h₁
  simp only [swapColors, wp_bind, wp_load, ha, hb, Option.some.injEq, exists_eq_left',
    Node.color_join, wp_store, Option.isSome_some, true_and, hb₁]
  exact holds_other.mp (holds_setColor h₁)

theorem wp_rotate {s : Store Node Nat} {fs : List Frame} {d : Side} {x y : Nat} {cx cy : Color}
    {kx ky : Int} {a b c : Tree}
    (h : Holds s fs (.join d x cx kx a (.join d y cy ky b c))) :
    wp (rotate d x) (fun _ t => Holds t fs (.join d y cy ky (.join d x cx kx a b) c)) s := by
  obtain ⟨hs, ha, hr, hn⟩ := h
  have hn' : ((Tree.join d y cy ky (.join d x cx kx a b) c).addrs ++ above fs).Nodup := by
    cases d <;> simpa [Tree.join, Tree.addrs] using hn
  simp only [shape_join, Tree.root_join] at hs ha
  obtain ⟨hx, hsa, hy, hsb, hsc⟩ := hs
  have hd : (x :: (a.addrs ++ (y :: (b.addrs ++ c.addrs))) ++ above fs).Nodup := by
    refine (List.Perm.nodup_iff (List.Perm.append_right _ ?_)).mp hn
    exact (Tree.addrs_join_perm ..).trans (((Tree.addrs_join_perm ..).append_left _).cons _)
  simp only [List.nodup_append', List.nodup_cons, List.mem_append, List.mem_cons, not_or,
    List.disjoint_cons_left, List.disjoint_cons_right, List.disjoint_append_left,
    List.disjoint_append_right, List.cons_append] at hd
  obtain ⟨⟨⟨hxa, hxy, hxb, hxc⟩, hxf⟩, ⟨-, ⟨⟨hyb, hyc⟩, hnb, -, hbc⟩, hya, hab, hac⟩, hnf, haf, hyf,
    hbf, hcf⟩ := hd
  simp only [rotate, wp_bind, wp_load, hx, hy, Option.some.injEq, exists_eq_left',
    Node.child_other_join, Node.child_join, wp_store, Option.isSome_some, true_and]
  refine wp_mono (wp_setParentOf (q := x) hnb (shape_modify hxb hsb)) ?_
  rintro - s₁ ⟨hsb₁, hs₁, hr₁⟩
  have hx₁ := hs₁ x hxb
  have hy₁ := hs₁ y hyb
  simp only [Memory.cell_modify_self, hx, Option.map_some, Node.setChild_other_join,
    Memory.cell_modify_ne _ (Ne.symm hxy), hy] at hx₁ hy₁
  simp only [hx₁, hy₁, Option.some.injEq, exists_eq_left', Node.parent_join, Option.isSome_some,
    true_and]
  have ha₁ : ShapeAbove s₁.mem x fs :=
    shapeAbove_congr (fun e he => hs₁ e (fun hb => hbf hb he)) (shapeAbove_modify hxf ha)
  refine wp_mono (wp_replace (q := y) hnf (Memory.ne_zero_of_cell hx) hxf
    (shapeAbove_modify hyf ha₁)) ?_
  rintro - s₂ ⟨ha₂, hs₂, hr₂⟩
  have hx₂ := hs₂ x hxf
  have hy₂ := hs₂ y hyf
  simp only [Memory.cell_modify_self, Memory.cell_modify_ne _ hxy, hx₁, hy₁, Option.map_some,
    Node.setParent_join] at hx₂ hy₂
  simp only [hx₂, hy₂, Option.isSome_some, true_and, Memory.cell_modify_ne _ hxy]
  refine ⟨?_, ?_, ?_, hn'⟩
  · simp only [shape_join, Memory.cell_modify_self, Memory.cell_modify_ne _ hxy,
      Memory.cell_modify_ne _ (Ne.symm hxy), hx₂, hy₂, Option.map_some, Node.setChild_join,
      Node.setParent_join, Tree.root_join, true_and]
    refine ⟨⟨?_, ?_⟩, ?_⟩
    · refine shape_modify hxa (shape_modify hya (shape_sameExcept hs₂ haf (shape_modify hya ?_)))
      exact shape_sameExcept hs₁ hab (shape_modify hxa hsa)
    · exact shape_modify hxb (shape_modify hyb (shape_sameExcept hs₂ hbf (shape_modify hyb hsb₁)))
    · refine shape_modify hxc (shape_modify hyc (shape_sameExcept hs₂ hcf (shape_modify hyc ?_)))
      exact shape_sameExcept hs₁ (List.disjoint_symm hbc) (shape_modify hxc hsc)
  · rw [Tree.root_join]
    exact shapeAbove_modify hxf (shapeAbove_modify hyf ha₂)
  · cases fs with
    | nil => simpa [plug] using hr₂
    | cons f fs =>
      rw [if_neg (List.cons_ne_nil f fs)] at hr₂
      rw [root_plug f fs _ (.join d x cx kx a (.join d y cy ky b c)), ← hr]
      exact hr₂.trans hr₁

end C11AndC.RedBlack
