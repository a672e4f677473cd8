import C11AndC.TwoThree.Model
import C11AndC.Library.Parts

namespace C11AndC.TwoThree

open C11AndC.Library

variable {K : Type}

/-- The tree that hangs at a pointer, with the addresses of its nodes. -/
inductive Tree (K : Type) where
  | nil
  | node (addr : Nat) (keys : Keys K) (left middle right : Tree K)

namespace Keys

/-- The places of a node with one key, and what is left over in the other place. -/
def two (k unset : K) : Keys K := ⟨k, unset, true, false⟩

def three (k₁ k₂ : K) : Keys K := ⟨k₁, k₂, true, true⟩

def smallList (v : Keys K) : List K := if v.smallSet then [v.small] else []

def bigList (v : Keys K) : List K := if v.bigSet then [v.big] else []

@[simp] theorem small_two (k u : K) : (two k u).small = k := rfl

@[simp] theorem small_three (k₁ k₂ : K) : (three k₁ k₂).small = k₁ := rfl

@[simp] theorem big_three (k₁ k₂ : K) : (three k₁ k₂).big = k₂ := rfl

@[simp] theorem smallList_two (k u : K) : (two k u).smallList = [k] := rfl

@[simp] theorem bigList_two (k u : K) : (two k u).bigList = [] := rfl

@[simp] theorem smallList_three (k₁ k₂ : K) : (three k₁ k₂).smallList = [k₁] := rfl

@[simp] theorem bigList_three (k₁ k₂ : K) : (three k₁ k₂).bigList = [k₂] := rfl

@[simp] theorem getSize_two (k u : K) : (two k u).getSize = .twoNode := rfl

@[simp] theorem getSize_three (k₁ k₂ : K) : (three k₁ k₂).getSize = .threeNode := rfl

end Keys

namespace Tree

def root : Tree K → Nat
  | nil => 0
  | node a _ _ _ _ => a

def isNil : Tree K → Bool
  | nil => true
  | node _ _ _ _ _ => false

def addrs : Tree K → List Nat
  | nil => []
  | node a _ l m r => a :: (l.addrs ++ (m.addrs ++ r.addrs))

/-- The keys from left to right. -/
def keys : Tree K → List K
  | nil => []
  | node _ v l m r => l.keys ++ v.smallList ++ m.keys ++ v.bigList ++ r.keys

def size : Tree K → Size
  | nil => .empty
  | node _ v _ _ _ => v.getSize

@[simp] theorem root_nil : (nil : Tree K).root = 0 := rfl

@[simp] theorem size_nil : (nil : Tree K).size = .empty := rfl

@[simp] theorem root_node (a : Nat) (v : Keys K) (l m r : Tree K) : (node a v l m r).root = a := rfl

end Tree

/-- A 2-3 tree of the height `n`. In a leaf all children are empty trees. -/
inductive Valid : Nat → Tree K → Prop
  | nil : Valid 0 .nil
  | two {n a : Nat} {k u : K} {l r : Tree K} (hl : Valid n l) (hr : Valid n r) :
      Valid (n + 1) (.node a (.two k u) l .nil r)
  | three {n a : Nat} {k₁ k₂ : K} {l m r : Tree K} (hl : Valid n l) (hm : Valid n m)
      (hr : Valid n r) : Valid (n + 1) (.node a (.three k₁ k₂) l m r)

/-- The memory holds the tree, under a node at `par`. -/
def Shape (m : Memory (CNode K)) : Nat → Tree K → Prop
  | _, .nil => True
  | par, .node a v l t r =>
      m.cell a = some ⟨v, l.root, t.root, r.root, par⟩ ∧ Shape m a l ∧ Shape m a t ∧ Shape m a r

theorem shape_congr {m m' : Memory (CNode K)} {par : Nat} {t : Tree K}
    (h : ∀ a, a ∈ t.addrs → m'.cell a = m.cell a) (hs : Shape m par t) : Shape m' par t := by
  induction t generalizing par with
  | nil => trivial
  | node a v l t r ihl iht ihr =>
    simp only [Tree.addrs, List.mem_cons, List.mem_append] at h
    refine ⟨(h a (.inl rfl)).trans hs.1, ihl (fun b hb => h b ?_) hs.2.1,
      iht (fun b hb => h b ?_) hs.2.2.1, ihr (fun b hb => h b ?_) hs.2.2.2⟩
    · exact .inr (.inl hb)
    · exact .inr (.inr (.inl hb))
    · exact .inr (.inr (.inr hb))

theorem shape_alive {m : Memory (CNode K)} {par : Nat} {t : Tree K} (hs : Shape m par t)
    (a : Nat) (ha : a ∈ t.addrs) : (m.cell a).isSome := by
  induction t generalizing par with
  | nil => simp [Tree.addrs] at ha
  | node b v l t r ihl iht ihr =>
    simp only [Tree.addrs, List.mem_cons, List.mem_append] at ha
    obtain rfl | ha | ha | ha := ha
    · rw [hs.1]
      rfl
    · exact ihl hs.2.1 ha
    · exact iht hs.2.2.1 ha
    · exact ihr hs.2.2.2 ha

theorem shape_parent {m : Memory (CNode K)} {par : Nat} {t : Tree K} (hs : Shape m par t)
    (hn : t.isNil = false) : ∃ n, m.cell t.root = some n ∧ n.parent = par := by
  cases t with
  | nil => cases hn
  | node a v l u r => exact ⟨_, hs.1, rfl⟩

def treePart (par : Nat) (t : Tree K) : Library.Part (CNode K) where
  addrs := t.addrs
  holds m := Shape m par t
  frame := shape_congr
  alive := shape_alive

/-- A node above the place one looks at, with the subtrees beside that place. -/
structure Frame (K : Type) where
  side : Direction
  addr : Nat
  keys : Keys K
  fst : Tree K
  snd : Tree K

namespace Frame

def plug (f : Frame K) (t : Tree K) : Tree K :=
  match f.side with
  | .left => .node f.addr f.keys t f.fst f.snd
  | .middle => .node f.addr f.keys f.fst t f.snd
  | .right => .node f.addr f.keys f.fst f.snd t

def cell (f : Frame K) (p par : Nat) : CNode K :=
  match f.side with
  | .left => ⟨f.keys, p, f.fst.root, f.snd.root, par⟩
  | .middle => ⟨f.keys, f.fst.root, p, f.snd.root, par⟩
  | .right => ⟨f.keys, f.fst.root, f.snd.root, p, par⟩

/-- The keys of the node and the subtrees beside the place that come before it. -/
def before (f : Frame K) : List K :=
  match f.side with
  | .left => []
  | .middle => f.fst.keys ++ f.keys.smallList
  | .right => f.fst.keys ++ f.keys.smallList ++ f.snd.keys ++ f.keys.bigList

def after (f : Frame K) : List K :=
  match f.side with
  | .left => f.keys.smallList ++ f.fst.keys ++ f.keys.bigList ++ f.snd.keys
  | .middle => f.keys.bigList ++ f.snd.keys
  | .right => []

theorem keys_plug (f : Frame K) (t : Tree K) :
    (f.plug t).keys = f.before ++ t.keys ++ f.after := by
  obtain ⟨d, a, v, x, y⟩ := f
  cases d <;> simp [plug, before, after, Tree.keys]

end Frame

/-- Put a tree back under the nodes above it, the nearest first. -/
def plug : List (Frame K) → Tree K → Tree K
  | [], t => t
  | f :: fs, t => plug fs (f.plug t)

/-- The parent of the place; the topmost of the nodes above it is under `q`. -/
def top (q : Nat) : List (Frame K) → Nat
  | [] => q
  | f :: _ => f.addr

@[simp] theorem top_nil (q : Nat) : top q ([] : List (Frame K)) = q := rfl

@[simp] theorem top_cons (q : Nat) (f : Frame K) (fs : List (Frame K)) :
    top q (f :: fs) = f.addr := rfl

def aboveAddrs : List (Frame K) → List Nat
  | [] => []
  | f :: fs => f.addr :: (f.fst.addrs ++ (f.snd.addrs ++ aboveAddrs fs))

/-- The memory holds the nodes above a place where the pointer `p` is stored. -/
def ShapeAbove (m : Memory (CNode K)) (q : Nat) : Nat → List (Frame K) → Prop
  | _, [] => True
  | p, f :: fs =>
      m.cell f.addr = some (f.cell p (top q fs)) ∧ Shape m f.addr f.fst ∧ Shape m f.addr f.snd ∧
        ShapeAbove m q f.addr fs

theorem shapeAbove_congr {m m' : Memory (CNode K)} {q p : Nat} {fs : List (Frame K)}
    (h : ∀ a, a ∈ aboveAddrs fs → m'.cell a = m.cell a) (hs : ShapeAbove m q p fs) :
    ShapeAbove m' q p fs := by
  induction fs generalizing p with
  | nil => trivial
  | cons f fs ih =>
    simp only [aboveAddrs, List.mem_cons, List.mem_append] at h
    refine ⟨(h f.addr (.inl rfl)).trans hs.1, shape_congr (fun b hb => h b ?_) hs.2.1,
      shape_congr (fun b hb => h b ?_) hs.2.2.1, ih (fun b hb => h b ?_) hs.2.2.2⟩
    · exact .inr (.inl hb)
    · exact .inr (.inr (.inl hb))
    · exact .inr (.inr (.inr hb))

theorem shapeAbove_alive {m : Memory (CNode K)} {q p : Nat} {fs : List (Frame K)}
    (hs : ShapeAbove m q p fs) (a : Nat) (ha : a ∈ aboveAddrs fs) : (m.cell a).isSome := by
  induction fs generalizing p with
  | nil => simp [aboveAddrs] at ha
  | cons f fs ih =>
    simp only [aboveAddrs, List.mem_cons, List.mem_append] at ha
    obtain rfl | ha | ha | ha := ha
    · rw [hs.1]
      rfl
    · exact shape_alive hs.2.1 a ha
    · exact shape_alive hs.2.2.1 a ha
    · exact ih hs.2.2.2 ha

def abovePart (q p : Nat) (fs : List (Frame K)) : Library.Part (CNode K) where
  addrs := aboveAddrs fs
  holds m := ShapeAbove m q p fs
  frame := shapeAbove_congr
  alive := shapeAbove_alive

variable {m : Memory (CNode K)} {ps : List (Library.Part (CNode K))}

/-- A node and its three subtrees as parts of their own. -/
theorem parts_node {par a : Nat} {v : Keys K} {l t r : Tree K} :
    Parts m (treePart par (.node a v l t r) :: ps) ↔
      Parts m (cellPart a ⟨v, l.root, t.root, r.root, par⟩ :: treePart a l :: treePart a t ::
        treePart a r :: ps) := by
  have hf : ((treePart par (.node a v l t r) :: ps).flatMap Library.Part.addrs) =
      (cellPart a ⟨v, l.root, t.root, r.root, par⟩ :: treePart a l :: treePart a t ::
        treePart a r :: ps).flatMap Library.Part.addrs := by
    simp [treePart, cellPart, Tree.addrs]
  constructor
  · rintro ⟨hn, hh⟩
    obtain ⟨hc, hl, ht, hr⟩ := hh _ List.mem_cons_self
    refine ⟨hf ▸ hn, ?_⟩
    simp only [List.mem_cons, forall_eq_or_imp] at hh ⊢
    exact ⟨hc, hl, ht, hr, hh.2⟩
  · rintro ⟨hn, hh⟩
    simp only [List.mem_cons, forall_eq_or_imp] at hh
    obtain ⟨hc, hl, ht, hr, hps⟩ := hh
    refine ⟨hf ▸ hn, ?_⟩
    simp only [List.mem_cons, forall_eq_or_imp]
    exact ⟨⟨hc, hl, ht, hr⟩, hps⟩

/-- Step up from a subtree to its parent, or down again. -/
theorem parts_plug {q : Nat} {f : Frame K} {fs : List (Frame K)} {t : Tree K} :
    Parts m (treePart (top q (f :: fs)) t :: abovePart q t.root (f :: fs) :: ps) ↔
      Parts m (treePart (top q fs) (f.plug t) :: abovePart q f.addr fs :: ps) := by
  obtain ⟨d, a, v, x, y⟩ := f
  have hf : (((treePart a t :: abovePart q t.root (⟨d, a, v, x, y⟩ :: fs) :: ps).flatMap
      Library.Part.addrs)).Perm ((treePart (top q fs) ((Frame.mk d a v x y).plug t) ::
        abovePart q a fs :: ps).flatMap Library.Part.addrs) := by
    rw [List.perm_iff_count]
    intro b
    cases d <;> simp [treePart, abovePart, aboveAddrs, Tree.addrs, Frame.plug, List.count_cons] <;>
      omega
  constructor
  · rintro ⟨hn, hh⟩
    refine ⟨hf.nodup_iff.mp hn, ?_⟩
    simp only [List.mem_cons, forall_eq_or_imp] at hh ⊢
    obtain ⟨ht, ⟨hc, hx, hy, ha⟩, hps⟩ := hh
    refine ⟨?_, ha, hps⟩
    cases d with
    | left => exact ⟨hc, ht, hx, hy⟩
    | middle => exact ⟨hc, hx, ht, hy⟩
    | right => exact ⟨hc, hx, hy, ht⟩
  · rintro ⟨hn, hh⟩
    refine ⟨hf.nodup_iff.mpr hn, ?_⟩
    simp only [List.mem_cons, forall_eq_or_imp] at hh ⊢
    obtain ⟨ht, ha, hps⟩ := hh
    cases d with
    | left => exact ⟨ht.2.1, ⟨ht.1, ht.2.2.1, ht.2.2.2, ha⟩, hps⟩
    | middle => exact ⟨ht.2.2.1, ⟨ht.1, ht.2.1, ht.2.2.2, ha⟩, hps⟩
    | right => exact ⟨ht.2.2.2, ⟨ht.1, ht.2.1, ht.2.2.1, ha⟩, hps⟩

end C11AndC.TwoThree
