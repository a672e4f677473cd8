import C11AndC.TwoThree.Traversal
import C11AndC.TwoThree.Delete

namespace C11AndC.TwoThree

open C11AndC.Library

variable {K : Type}

/-- The key of a two-node, or the big one of a three-node. -/
def Keys.last (v : Keys K) : K := if v.getSize = .threeNode then v.big else v.small

@[simp] theorem Keys.last_two (k u : K) : (Keys.two k u).last = k := rfl

@[simp] theorem Keys.last_three (k₁ k₂ : K) : (Keys.three k₁ k₂).last = k₂ := rfl

namespace Tree

/-- The small key, the left subtree, the big key of a three-node, and the other subtrees. -/
def preorder : Tree K → List K
  | nil => []
  | node _ v l m r => v.smallList ++ l.preorder ++ v.bigList ++ m.preorder ++ r.preorder

/-- The subtrees of a two-node and its key; for a three-node, the small key is between the middle
and the right subtree. -/
def postorder : Tree K → List K
  | nil => []
  | node _ v l m r =>
      if v.getSize = .threeNode then l.postorder ++ m.postorder ++ [v.small] ++ r.postorder ++ [v.big]
      else l.postorder ++ r.postorder ++ [v.small]

def listed : TreeTraversal → Tree K → List K
  | .inorder, t => t.keys
  | .preorder, t => t.preorder
  | .postorder, t => t.postorder

/-- The root with its small key. -/
def head : Tree K → Option (Nat × K)
  | nil => none
  | node a v _ _ _ => some (a, v.small)

/-- Where a traversal enters the tree. -/
def entry : TreeTraversal → Tree K → Option (Nat × K)
  | .inorder, t => (t.endOf .left).head
  | .preorder, t => t.head
  | .postorder, t => (t.endOf .left).head

end Tree

/-- Where a traversal goes on behind a subtree, under the nodes above it. -/
def onward : TreeTraversal → List (Frame K) → Option (Nat × K)
  | _, [] => none
  | .inorder, f :: fs =>
      match f.side with
      | .left => some (f.addr, f.keys.small)
      | .middle => some (f.addr, f.keys.big)
      | .right => onward .inorder fs
  | .preorder, f :: fs =>
      match f.side with
      | .left => if f.keys.getSize = .threeNode then some (f.addr, f.keys.big) else f.snd.head
      | .middle => f.snd.head
      | .right => onward .preorder fs
  | .postorder, f :: _ =>
      match f.side with
      | .left => if f.keys.getSize = .threeNode then f.fst.entry .postorder else f.snd.entry .postorder
      | .middle => some (f.addr, f.keys.small)
      | .right => some (f.addr, f.keys.last)

/-- The answer of a step: a place, or the end. -/
def Leads : Option (Nat × K) → Nat × K → Prop
  | none, r => r.1 = 0
  | some y, r => r = y ∧ y.1 ≠ 0

section Above

variable {m : Memory (CNode K)} {f : Frame K} {fs : List (Frame K)} {t : Tree K}

/-- The nearest node above a place, and the subtrees beside the place. -/
structure Above (m : Memory (CNode K)) (f : Frame K) (fs : List (Frame K)) (t : Tree K) : Prop where
  cell : m.cell f.addr = some (f.cell t.root (top 0 fs))
  fst : Shape m f.addr f.fst
  snd : Shape m f.addr f.snd
  fst_ne : t.root ≠ f.fst.root
  snd_ne : t.root ≠ f.snd.root

theorem above (h : Parts m [treePart 0 (plug (f :: fs) t)]) (hn : t.isNil = false) : Above m f fs t := by
  obtain ⟨a, v, l, u, r, rfl⟩ : ∃ a v l u r, t = .node a v l u r := by
    cases t with
    | nil => cases hn
    | node a v l u r => exact ⟨a, v, l, u, r, rfl⟩
  have hparts := parts_node.mp (parts_whole.mpr h)
  obtain ⟨hcell, hfst, hsnd, -⟩ : ShapeAbove m 0 a (f :: fs) := parts_get (i := 4) hparts rfl
  have hnot := parts_not_mem (i := 0) (j := 4) hparts rfl rfl (by decide)
  simp only [abovePart, aboveAddrs, List.mem_cons, List.mem_append, not_or] at hnot
  have hne : ∀ {c : Tree K}, a ∉ c.addrs → a ≠ c.root := by
    intro c hc
    cases c with
    | nil => exact Memory.ne_zero_of_cell (cell_of_parts (i := 0) hparts rfl)
    | node b _ _ _ _ => exact fun he => hc (he ▸ List.mem_cons_self)
  exact ⟨hcell, hfst, hsnd, hne hnot.2.1, hne hnot.2.2.1⟩

theorem root_parent (h : Parts m [treePart 0 (plug fs t)]) (hn : t.isNil = false) :
    ∃ o, m.cell t.root = some o ∧ o.parent = top 0 fs :=
  shape_parent (parts_get (i := 0) (parts_whole.mpr h) rfl) hn

theorem root_frame (f : Frame K) (t : Tree K) : (f.plug t).root = f.addr := by
  obtain ⟨d, a, v, x, y⟩ := f
  cases d <;> rfl

end Above

section Ways

variable {s : Store (CNode K) Nat} {fs : List (Frame K)} {t c : Tree K} {key : K} {n k q steps : Nat}

theorem leads_head {q : Nat} (hs : Shape s.mem q c) (hn : c.isNil = false) :
    wp (do return (c.root, (← load c.root).keys.small)) (fun r s' => s' = s ∧ Leads c.head r) s := by
  cases c with
  | nil => cases hn
  | node a v l m r =>
    simp only [Tree.root_node, wp_bind, wp_load, hs.1, Option.some.injEq, exists_eq_left', wp_pure]
    exact ⟨trivial, rfl, Memory.ne_zero_of_cell hs.1⟩

theorem wp_getMinKey (hs : Shape s.mem q c) (hv : Valid (n + 1) c) (hn : n < steps) :
    wp (getMinKey steps c.root) (fun r s' => s' = s ∧ Leads (c.endOf .left).head r) s := by
  obtain ⟨hs', a, v, he⟩ := endLeaf_left hv
  obtain ⟨q', hq⟩ := shape_endOf (d := .left) hs
  rw [getMinKey, wp_bind]
  refine wp_mono (wp_goDown (d := .left) hs (by rw [depth_valid hv]; omega) (not_nil hv)) ?_
  rintro _ _ ⟨rfl, rfl⟩
  rw [endOf_endLeaf he] at hq ⊢
  exact leads_head hq rfl

/-- The way up to the next greater key. -/
theorem wp_nextAbove [LinearOrder K] (h : Parts s.mem [treePart 0 (plug fs t)]) (hn : t.isNil = false)
    (hb : Between key fs) (hok : AboveOk n fs) (hk : fs.length < k) :
    wp (loop (nextAbove key) k t.root) (fun r s' => s' = s ∧ Leads (onward .inorder fs) r) s := by
  induction fs generalizing t n k with
  | nil =>
    obtain ⟨k, rfl⟩ := Nat.exists_eq_add_of_le' (Nat.succ_le_of_lt (Nat.zero_lt_of_lt hk))
    obtain ⟨o, ho, hpar⟩ := root_parent h hn
    rw [wp_loop_succ]
    simp [nextAbove, ho, hpar, onward, Leads]
  | cons f fs ih =>
    obtain ⟨k, rfl⟩ := Nat.exists_eq_add_of_le' (Nat.succ_le_of_lt (Nat.zero_lt_of_lt hk))
    obtain ⟨o, ho, hpar⟩ := root_parent h hn
    have hab := above h hn
    have hne : f.addr ≠ 0 := Memory.ne_zero_of_cell hab.cell
    obtain ⟨hb', hbefore, hafter⟩ := between_cons.mp hb
    have hup := ih (t := f.plug t) h plug_isNil hb' hok.2 (Nat.lt_of_succ_lt_succ hk)
    rw [root_frame] at hup
    rw [wp_loop_succ]
    simp only [nextAbove, wp_bind, wp_load, ho, Option.some.injEq, exists_eq_left', hpar, top_cons, hne,
      ↓reduceIte, hab.cell]
    cases hok.1 with
    | @twoLeft a k₁ u r hr =>
      have hlt : key < k₁ := hafter k₁ (by simp [Frame.after])
      simp [Frame.cell, tCompare_lt, hlt, onward, Leads, hne]
    | @twoRight a k₁ u l hl =>
      have hlt : k₁ < key := hbefore k₁ (by simp [Frame.before])
      simpa [Frame.cell, CNode.getSize, tCompare_lt, hlt.not_gt, onward] using hup
    | @three d a k₁ k₂ x y hx hy =>
      cases d with
      | left =>
        have hlt : key < k₁ := hafter k₁ (by simp [Frame.after])
        simp [Frame.cell, tCompare_lt, hlt, onward, Leads, hne]
      | middle =>
        have hlt₁ : k₁ < key := hbefore k₁ (by simp [Frame.before])
        have hlt₂ : key < k₂ := hafter k₂ (by simp [Frame.after])
        simp [Frame.cell, CNode.getSize, tCompare_lt, hlt₁.not_gt, hlt₂, onward, Leads, hne]
      | right =>
        have hlt₁ : k₁ < key := hbefore k₁ (by simp [Frame.before])
        have hlt₂ : k₂ < key := hbefore k₂ (by simp [Frame.before])
        simpa [Frame.cell, CNode.getSize, tCompare_lt, hlt₁.not_gt, hlt₂.not_gt, onward] using hup

theorem wp_goUpRoot {Q : Nat ⊕ (Nat × Nat) → Store (CNode K) Nat → Prop} (h : Parts s.mem [treePart 0 (plug [] t)])
    (hn : t.isNil = false) (hstop : Q (.inr (0, t.root)) s) : wp (goUp t.root) Q s := by
  obtain ⟨o, ho, hpar⟩ := root_parent h hn
  simp only [goUp, wp_bind, wp_load, ho, Option.some.injEq, exists_eq_left', hpar, top_nil, ↓reduceIte, wp_pure]
  exact hstop

/-- One round of the way up below a node: it goes on from a right child. -/
theorem wp_goUpRound {f : Frame K} {Q : Nat ⊕ (Nat × Nat) → Store (CNode K) Nat → Prop}
    (h : Parts s.mem [treePart 0 (plug (f :: fs) t)]) (hn : t.isNil = false)
    (hright : f.side = .right → Q (.inl f.addr) s) (hstop : f.side ≠ .right → Q (.inr (f.addr, t.root)) s) :
    wp (goUp t.root) Q s := by
  obtain ⟨o, ho, hpar⟩ := root_parent h hn
  have hab := above h hn
  have hne : f.addr ≠ 0 := Memory.ne_zero_of_cell hab.cell
  have hside : (f.cell t.root (top 0 fs)).right = t.root ↔ f.side = .right := by
    obtain ⟨d, a, v, x, y⟩ := f
    cases d with
    | left | middle => simpa [Frame.cell] using hab.snd_ne.symm
    | right => simp [Frame.cell]
  simp only [goUp, wp_bind, wp_load, ho, Option.some.injEq, exists_eq_left', hpar, top_cons, hne, hab.cell, wp_ite,
    hside, wp_pure]
  exact ⟨False.elim, fun _ => ⟨hright, hstop⟩⟩

/-- The step from the node where the way up ends. -/
theorem wp_fromChild {f : Frame K} (key : K) (h : Parts s.mem [treePart 0 (plug (f :: fs) t)])
    (hn : t.isNil = false) (hok : FrameOk (n + 1) f) (hside : f.side ≠ .right) :
    wp (fromChild key (f.addr, t.root)) (fun r s' => s' = s ∧ Leads (onward .preorder (f :: fs)) r) s := by
  have hab := above h hn
  have hne : f.addr ≠ 0 := Memory.ne_zero_of_cell hab.cell
  have hfst := hab.fst_ne.symm
  simp only [fromChild, hne, ↓reduceIte, wp_bind, wp_load, hab.cell, Option.some.injEq, exists_eq_left']
  cases hok with
  | @twoLeft a k₁ u r hr =>
    have hhead := leads_head hab.snd (not_nil hr)
    simp only [wp_bind, wp_load] at hhead
    simpa [Frame.cell, CNode.getSize, onward] using hhead
  | twoRight => exact absurd rfl hside
  | @three d a k₁ k₂ x y hx hy =>
    have hhead := leads_head hab.snd (not_nil hy)
    simp only [wp_bind, wp_load] at hhead
    cases d with
    | left => simp [Frame.cell, CNode.getSize, hfst, onward, Leads, hne]
    | middle => simpa [Frame.cell, CNode.getSize, onward] using hhead
    | right => exact absurd rfl hside

/-- The way up from right children, and the step from the node where it ends. -/
theorem wp_goUp (key : K) (h : Parts s.mem [treePart 0 (plug fs t)]) (hn : t.isNil = false)
    (hok : AboveOk (n + 1) fs) (hk : fs.length < k) :
    wp (loop goUp k t.root >>= fromChild key) (fun r s' => s' = s ∧ Leads (onward .preorder fs) r) s := by
  induction fs generalizing t n k with
  | nil =>
    obtain ⟨k, rfl⟩ := Nat.exists_eq_add_of_le' (Nat.succ_le_of_lt (Nat.zero_lt_of_lt hk))
    rw [wp_bind, wp_loop_succ]
    refine wp_goUpRoot h hn ?_
    change wp (fromChild key (0, t.root)) _ s
    rw [fromChild, if_pos rfl, wp_pure]
    exact ⟨rfl, rfl⟩
  | cons f fs ih =>
    obtain ⟨k, rfl⟩ := Nat.exists_eq_add_of_le' (Nat.succ_le_of_lt (Nat.zero_lt_of_lt hk))
    have hup := ih (t := f.plug t) h plug_isNil hok.2 (Nat.lt_of_succ_lt_succ hk)
    rw [root_frame, wp_bind] at hup
    rw [wp_bind, wp_loop_succ]
    refine wp_goUpRound h hn (fun hside => ?_) fun hside => wp_fromChild key h hn hok.1 hside
    rw [onward, hside]
    exact hup

/-- Only preorder begins at the node itself. -/
theorem entry_left {o : TreeTraversal} {a : Nat} {v : Keys K} {l m r : Tree K}
    (hl : Valid (n + 1) l) (ho : o ≠ .preorder) : (Tree.node a v l m r).entry o = l.entry o := by
  cases o with
  | preorder => exact absurd rfl ho
  | inorder | postorder => simp [Tree.entry, Tree.endOf, not_nil hl]

end Ways

section Steps

variable [LinearOrder K] {s : Store (CNode K) Nat} {fs : List (Frame K)} {t c : Tree K} {n steps : Nat}
  {a : Nat} {k₁ k₂ u : K} {l m r : Tree K} {o : TreeTraversal}

/-- The store holds a tree of search with `t` in the place under the nodes `fs`. -/
structure Place (s : Store (CNode K) Nat) (steps : Nat) (fs : List (Frame K)) (n : Nat) (t : Tree K) :
    Prop where
  parts : Parts s.mem [treePart 0 (plug fs t)]
  sorted : (plug fs t).keys.Pairwise (· < ·)
  valid : Valid (n + 1) t
  above : AboveOk (n + 1) fs
  enough : n + 1 + fs.length ≤ steps

/-- The step from the key `x.2` of the node `x.1` leads on to `y`. -/
def Next (o : TreeTraversal) (steps : Nat) (s : Store (CNode K) Nat) (x : Nat × K)
    (y : Option (Nat × K)) : Prop :=
  wp (o.next steps x.1 x.2) (fun r s' => s' = s ∧ Leads y r) s

theorem place_down {f : Frame K} (h : Place s steps fs (n + 1) (f.plug c)) (hf : FrameOk (n + 1) f)
    (hc : Valid (n + 1) c) : Place s steps (f :: fs) n c := by
  have henough := h.enough
  exact ⟨h.parts, h.sorted, hc, ⟨hf, h.above⟩, by rw [List.length_cons]; omega⟩

theorem place_shape {v : Keys K} (h : Place s steps fs n (.node a v l m r)) :
    Shape s.mem (top 0 fs) (.node a v l m r) :=
  parts_get (i := 0) (parts_whole.mpr h.parts) rfl

theorem place_between {key : K} (h : Place s steps fs n t) (hk : key ∈ t.keys) : Between key fs := by
  have hs := h.sorted
  rw [keys_plug] at hs
  exact between_of_sorted hs hk

theorem place_lt (h : Place s steps fs n (.node a (.three k₁ k₂) l m r)) : k₁ < k₂ := by
  have hs := h.sorted
  rw [keys_plug, List.append_assoc, List.pairwise_append, List.pairwise_append] at hs
  have hkeys := hs.2.1.1
  simp only [Tree.keys, Keys.smallList_three, Keys.bigList_three, List.append_assoc, List.pairwise_append,
    List.mem_append, List.mem_singleton] at hkeys
  exact hkeys.2.1.2.2 k₁ rfl k₂ (.inr (.inl rfl))

theorem place_tCompare (h : Place s steps fs n (.node a (.three k₁ k₂) l m r)) : ¬ tCompare k₂ k₁ = .eq := by
  rw [tCompare_eq]
  exact (place_lt h).ne'

theorem last_ne_small {v : Keys K} (h : Place s steps fs n (.node a v l m r)) :
    (v.getSize = .threeNode && tCompare v.last v.small = .eq) = false := by
  cases h.valid with
  | two => rfl
  | three => simp [place_tCompare h]

/-- The small key of a leaf with two keys. -/
theorem next_leaf_small (h : Place s steps fs n (.node a (.three k₁ k₂) .nil .nil .nil)) :
    Next o steps s (a, k₁) (some (a, k₂)) := by
  obtain ⟨e, he, hkeys, hleaf⟩ : ∃ e, s.mem.cell a = some e ∧ e.keys = .three k₁ k₂ ∧ e.isLeaf = true :=
    ⟨_, (place_shape h).1, rfl, rfl⟩
  have hleads : Leads (some (a, k₂)) (a, k₂) := ⟨rfl, Memory.ne_zero_of_cell he⟩
  have hsmall : (e.getSize = .threeNode && tCompare k₁ e.keys.small = .eq) = true := by
    simp [CNode.getSize, hkeys, tCompare_eq]
  cases o with
  | inorder =>
    change wp (getNextInorderKey steps a k₁) _ s
    simp only [getNextInorderKey, wp_bind, wp_load, he, Option.some.injEq, exists_eq_left', hsmall, hleaf,
      ↓reduceIte, wp_pure]
    rw [hkeys]
    exact ⟨trivial, hleads⟩
  | preorder =>
    change wp (getNextPreorderKey steps a k₁) _ s
    simp only [getNextPreorderKey, wp_bind, wp_load, he, Option.some.injEq, exists_eq_left', hsmall, hleaf,
      Bool.and_self, ↓reduceIte, wp_pure]
    rw [hkeys]
    exact ⟨trivial, hleads⟩
  | postorder =>
    change wp (getNextPostorderKey steps a k₁) _ s
    simp only [getNextPostorderKey, wp_bind, wp_load, he, Option.some.injEq, exists_eq_left', hsmall, hleaf,
      ↓reduceIte, wp_pure]
    rw [hkeys]
    exact ⟨trivial, hleads⟩

theorem next_inorder_last {v : Keys K} (h : Place s steps fs 0 (.node a v .nil .nil .nil)) :
    Next .inorder steps s (a, v.last) (onward .inorder fs) := by
  obtain ⟨e, he, hkeys, hleaf⟩ : ∃ e, s.mem.cell a = some e ∧ e.keys = v ∧ e.isLeaf = true :=
    ⟨_, (place_shape h).1, rfl, rfl⟩
  have henough := h.enough
  have hmem : v.last ∈ (Tree.node a v .nil .nil .nil).keys := by
    cases h.valid <;> simp [Tree.keys]
  have hskip : (e.getSize = .threeNode && tCompare v.last e.keys.small = .eq) = false := by
    rw [CNode.getSize, hkeys]
    exact last_ne_small h
  change wp (getNextInorderKey steps a v.last) _ s
  simp only [getNextInorderKey, wp_bind, wp_load, he, Option.some.injEq, exists_eq_left', hskip, hleaf,
    Bool.not_true, Bool.false_and, Bool.false_eq_true, ↓reduceIte]
  exact wp_nextAbove (k := steps) h.parts rfl (place_between h hmem) h.above (by omega)

theorem next_preorder_last {v : Keys K} (h : Place s steps fs 0 (.node a v .nil .nil .nil)) :
    Next .preorder steps s (a, v.last) (onward .preorder fs) := by
  obtain ⟨e, he, hkeys, hleaf⟩ : ∃ e, s.mem.cell a = some e ∧ e.keys = v ∧ e.isLeaf = true :=
    ⟨_, (place_shape h).1, rfl, rfl⟩
  have henough := h.enough
  have hskip : (e.getSize = .threeNode && tCompare v.last e.keys.small = .eq) = false := by
    rw [CNode.getSize, hkeys]
    exact last_ne_small h
  have hup := wp_goUp (k := steps) v.last h.parts rfl h.above (by omega)
  change wp (getNextPreorderKey steps a v.last) _ s
  simp only [getNextPreorderKey, wp_bind, wp_load, he, Option.some.injEq, exists_eq_left', hskip, hleaf,
    Bool.not_true, Bool.false_and, Bool.and_false, Bool.false_eq_true, ↓reduceIte]
  rw [wp_bind] at hup
  exact hup

/-- In the last order the last key of any node is the last one of its subtree, too. -/
theorem next_postorder_last {v : Keys K} (h : Place s steps fs n (.node a v l m r)) :
    Next .postorder steps s (a, v.last) (onward .postorder fs) := by
  obtain ⟨o, ho, hpar, hkeys⟩ : ∃ o, s.mem.cell a = some o ∧ o.parent = top 0 fs ∧ o.keys = v :=
    ⟨_, (place_shape h).1, rfl, rfl⟩
  have henough := h.enough
  have hskip : (o.getSize = .threeNode && tCompare v.last o.keys.small = .eq) = false := by
    rw [CNode.getSize, hkeys]
    exact last_ne_small h
  change wp (getNextPostorderKey steps a v.last) _ s
  simp only [getNextPostorderKey, wp_bind, wp_load, ho, Option.some.injEq, exists_eq_left', hskip,
    Bool.false_eq_true, ↓reduceIte, hpar]
  cases fs with
  | nil => simp [onward, Leads]
  | cons f fs =>
    have hab := above h.parts rfl
    have hne : f.addr ≠ 0 := Memory.ne_zero_of_cell hab.cell
    have hfst : a ≠ f.fst.root := hab.fst_ne
    have hsnd : a ≠ f.snd.root := hab.snd_ne
    have hmin : ∀ {c : Tree K}, Shape s.mem f.addr c → Valid (n + 1) c →
        wp (getMinKey steps c.root) (fun r s' => s' = s ∧ Leads (c.entry .postorder) r) s :=
      fun hs hc => wp_getMinKey hs hc (by omega)
    rw [List.length_cons] at henough
    simp only [top_cons, hne, ↓reduceIte, wp_bind, wp_load, hab.cell, Option.some.injEq, exists_eq_left']
    cases h.above.1 with
    | @twoLeft b k u r hr => simpa [Frame.cell, CNode.getSize, onward] using hmin hab.snd hr
    | @twoRight b k u l hl => simp [Frame.cell, CNode.getSize, hfst.symm, onward, Leads, hne]
    | @three d b k₁ k₂ x y hx hy =>
      cases d with
      | left => simpa [Frame.cell, CNode.getSize, onward] using hmin hab.fst hx
      | middle => simp [Frame.cell, CNode.getSize, hfst.symm, onward, Leads, hne]
      | right => simp [Frame.cell, CNode.getSize, hfst.symm, hsnd.symm, onward, Leads, hne]

/-- An inner node with its subtrees. -/
theorem place_inner {v : Keys K} (h : Place s steps fs (n + 1) (.node a v l m r)) :
    ∃ o, s.mem.cell a = some o ∧ o.keys = v ∧ o.isLeaf = false ∧ o.left = l.root ∧ o.middle = m.root ∧
      o.right = r.root := by
  have hs := place_shape h
  refine ⟨_, hs.1, rfl, ?_, rfl, rfl, rfl⟩
  have hl : l.root ≠ 0 := by
    rw [Ne, root_eq_zero hs.2.1]
    cases h.valid with
    | two hl => simp [not_nil hl]
    | three hl => simp [not_nil hl]
  simp [CNode.isLeaf, hl]

theorem place_min {v : Keys K} (h : Place s steps fs (n + 1) (.node a v l m r))
    (hc : c = l ∨ c = m ∨ c = r) (hn : Valid (n + 1) c) :
    wp (getMinKey steps c.root) (fun r s' => s' = s ∧ Leads (c.endOf .left).head r) s := by
  have hs := place_shape h
  have henough := h.enough
  obtain rfl | rfl | rfl := hc
  · exact wp_getMinKey hs.2.1 hn (by omega)
  · exact wp_getMinKey hs.2.2.1 hn (by omega)
  · exact wp_getMinKey hs.2.2.2 hn (by omega)

theorem next_inorder_two (h : Place s steps fs (n + 1) (.node a (.two k₁ u) l .nil r)) (hr : Valid (n + 1) r) :
    Next .inorder steps s (a, k₁) (r.entry .inorder) := by
  obtain ⟨o, ho, hkeys, hleaf, -, -, hright⟩ := place_inner h
  simpa [Next, TreeTraversal.next, getNextInorderKey, ho, CNode.getSize, hkeys, hleaf, hright, tCompare_eq,
    getMinKey, Tree.entry] using place_min h (.inr (.inr rfl)) hr

theorem next_inorder_small (h : Place s steps fs (n + 1) (.node a (.three k₁ k₂) l m r))
    (hm : Valid (n + 1) m) : Next .inorder steps s (a, k₁) (m.entry .inorder) := by
  obtain ⟨o, ho, hkeys, hleaf, -, hmiddle, -⟩ := place_inner h
  simpa [Next, TreeTraversal.next, getNextInorderKey, ho, CNode.getSize, hkeys, hleaf, hmiddle, tCompare_eq,
    getMinKey, Tree.entry] using place_min h (.inr (.inl rfl)) hm

theorem next_inorder_big (h : Place s steps fs (n + 1) (.node a (.three k₁ k₂) l m r))
    (hr : Valid (n + 1) r) : Next .inorder steps s (a, k₂) (r.entry .inorder) := by
  obtain ⟨o, ho, hkeys, hleaf, -, -, hright⟩ := place_inner h
  simpa [Next, TreeTraversal.next, getNextInorderKey, ho, CNode.getSize, hkeys, hleaf, hright, tCompare_eq,
    (place_lt h).ne', getMinKey, Tree.entry] using place_min h (.inr (.inr rfl)) hr

theorem next_postorder_small (h : Place s steps fs (n + 1) (.node a (.three k₁ k₂) l m r))
    (hr : Valid (n + 1) r) : Next .postorder steps s (a, k₁) (r.entry .postorder) := by
  obtain ⟨o, ho, hkeys, hleaf, -, -, hright⟩ := place_inner h
  simpa [Next, TreeTraversal.next, getNextPostorderKey, ho, CNode.getSize, hkeys, hleaf, hright, tCompare_eq,
    Tree.entry] using place_min h (.inr (.inr rfl)) hr

theorem next_preorder_small {v : Keys K} (h : Place s steps fs (n + 1) (.node a v l m r))
    (hl : Valid (n + 1) l) : Next .preorder steps s (a, v.small) (l.entry .preorder) := by
  obtain ⟨o, ho, hkeys, hleaf, hleft, -, -⟩ := place_inner h
  have hhead := leads_head (place_shape h).2.1 (not_nil hl)
  simp only [wp_bind, wp_load, wp_pure] at hhead
  simpa [Next, TreeTraversal.next, getNextPreorderKey, ho, CNode.getSize, hkeys, hleaf, hleft, tCompare_eq,
    Tree.entry] using hhead

theorem next_preorder_big (h : Place s steps fs (n + 1) (.node a (.three k₁ k₂) l m r))
    (hm : Valid (n + 1) m) : Next .preorder steps s (a, k₂) (m.entry .preorder) := by
  obtain ⟨o, ho, hkeys, hleaf, -, hmiddle, -⟩ := place_inner h
  have hhead := leads_head (place_shape h).2.2.1 (not_nil hm)
  simp only [wp_bind, wp_load, wp_pure] at hhead
  simpa [Next, TreeTraversal.next, getNextPreorderKey, ho, CNode.getSize, hkeys, hleaf, hmiddle, tCompare_eq,
    (place_lt h).ne', Tree.entry] using hhead

theorem next_last {v : Keys K} (h : Place s steps fs 0 (.node a v .nil .nil .nil)) :
    Next o steps s (a, v.last) (onward o fs) := by
  cases o with
  | inorder => exact next_inorder_last h
  | preorder => exact next_preorder_last h
  | postorder => exact next_postorder_last h

end Steps

section Walks

variable [LinearOrder K] {s : Store (CNode K) Nat} {fs : List (Frame K)} {t : Tree K} {n steps : Nat}
  {o : TreeTraversal}

/-- The keys on the way from one place to another. -/
inductive Walk (o : TreeTraversal) (steps : Nat) (s : Store (CNode K) Nat) :
    Option (Nat × K) → List K → Option (Nat × K) → Prop
  | done {x : Option (Nat × K)} : Walk o steps s x [] x
  | step {x : Nat × K} {y z : Option (Nat × K)} {ks : List K} (h : Next o steps s x y)
      (hw : Walk o steps s y ks z) : Walk o steps s (some x) (x.2 :: ks) z

variable {x y z : Option (Nat × K)} {ks js : List K}

theorem walk_append (h : Walk o steps s x ks y) (h' : Walk o steps s y js z) :
    Walk o steps s x (ks ++ js) z := by
  induction h with
  | done => exact h'
  | step hnext _ ih => exact .step hnext (ih h')

theorem walk_leaf (h : Place s steps fs 0 t) : Walk o steps s (t.entry o) (t.listed o) (onward o fs) := by
  obtain ⟨a, v, rfl⟩ := leaf_of_valid h.valid
  have hentry : (Tree.node a v .nil .nil .nil).entry o = some (a, v.small) := by cases o <;> rfl
  have hlast := next_last (o := o) h
  rw [hentry]
  cases h.valid with
  | @two _ _ k u =>
    have hlisted : (Tree.node a (.two k u) .nil .nil .nil).listed o = [k] := by cases o <;> rfl
    rw [hlisted]
    exact .step hlast .done
  | @three _ _ k₁ k₂ =>
    have hlisted : (Tree.node a (.three k₁ k₂) .nil .nil .nil).listed o = [k₁, k₂] := by cases o <;> rfl
    rw [hlisted]
    exact .step (next_leaf_small h) (.step hlast .done)

theorem walk_inorder (h : Place s steps fs n t) :
    Walk .inorder steps s (t.entry .inorder) (t.listed .inorder) (onward .inorder fs) := by
  induction n generalizing fs t with
  | zero => exact walk_leaf h
  | succ n ih =>
    cases h.valid with
    | @two _ a k u l r hl hr =>
      have hleft := ih (place_down (f := ⟨.left, a, .two k u, .nil, r⟩) h (.twoLeft hr) hl)
      have hright := ih (place_down (f := ⟨.right, a, .two k u, l, .nil⟩) h (.twoRight hl) hr)
      have hlisted : (Tree.node a (.two k u) l .nil r).listed .inorder = l.keys ++ k :: r.keys := by
        simp [Tree.listed, Tree.keys]
      rw [entry_left hl (by decide), hlisted]
      exact walk_append hleft (.step (next_inorder_two h hr) hright)
    | @three _ a k₁ k₂ l m r hl hm hr =>
      have hleft := ih (place_down (f := ⟨.left, a, .three k₁ k₂, m, r⟩) h (.three hm hr) hl)
      have hmiddle := ih (place_down (f := ⟨.middle, a, .three k₁ k₂, l, r⟩) h (.three hl hr) hm)
      have hright := ih (place_down (f := ⟨.right, a, .three k₁ k₂, l, m⟩) h (.three hl hm) hr)
      have hlisted : (Tree.node a (.three k₁ k₂) l m r).listed .inorder =
          l.keys ++ k₁ :: (m.keys ++ k₂ :: r.keys) := by
        simp [Tree.listed, Tree.keys]
      rw [entry_left hl (by decide), hlisted]
      exact walk_append hleft (.step (next_inorder_small h hm)
        (walk_append hmiddle (.step (next_inorder_big h hr) hright)))

theorem walk_preorder (h : Place s steps fs n t) :
    Walk .preorder steps s (t.entry .preorder) (t.listed .preorder) (onward .preorder fs) := by
  induction n generalizing fs t with
  | zero => exact walk_leaf h
  | succ n ih =>
    cases h.valid with
    | @two _ a k u l r hl hr =>
      have hleft := ih (place_down (f := ⟨.left, a, .two k u, .nil, r⟩) h (.twoLeft hr) hl)
      have hright := ih (place_down (f := ⟨.right, a, .two k u, l, .nil⟩) h (.twoRight hl) hr)
      have hlisted : (Tree.node a (.two k u) l .nil r).listed .preorder = k :: (l.preorder ++ r.preorder) := by
        simp [Tree.listed, Tree.preorder]
      rw [hlisted]
      exact .step (next_preorder_small h hl) (walk_append hleft hright)
    | @three _ a k₁ k₂ l m r hl hm hr =>
      have hleft := ih (place_down (f := ⟨.left, a, .three k₁ k₂, m, r⟩) h (.three hm hr) hl)
      have hmiddle := ih (place_down (f := ⟨.middle, a, .three k₁ k₂, l, r⟩) h (.three hl hr) hm)
      have hright := ih (place_down (f := ⟨.right, a, .three k₁ k₂, l, m⟩) h (.three hl hm) hr)
      have hlisted : (Tree.node a (.three k₁ k₂) l m r).listed .preorder =
          k₁ :: (l.preorder ++ k₂ :: (m.preorder ++ r.preorder)) := by
        simp [Tree.listed, Tree.preorder]
      rw [hlisted]
      exact .step (next_preorder_small h hl) (walk_append hleft
        (.step (next_preorder_big h hm) (walk_append hmiddle hright)))

theorem walk_postorder (h : Place s steps fs n t) :
    Walk .postorder steps s (t.entry .postorder) (t.listed .postorder) (onward .postorder fs) := by
  induction n generalizing fs t with
  | zero => exact walk_leaf h
  | succ n ih =>
    have hlast := fun {a v l m r} (he : t = .node a v l m r) => next_postorder_last (he ▸ h)
    cases h.valid with
    | @two _ a k u l r hl hr =>
      have hleft := ih (place_down (f := ⟨.left, a, .two k u, .nil, r⟩) h (.twoLeft hr) hl)
      have hright := ih (place_down (f := ⟨.right, a, .two k u, l, .nil⟩) h (.twoRight hl) hr)
      have hwalk := walk_append hleft (walk_append hright (.step (hlast rfl) .done))
      rw [entry_left hl (by decide)]
      simpa [Tree.listed, Tree.postorder] using hwalk
    | @three _ a k₁ k₂ l m r hl hm hr =>
      have hleft := ih (place_down (f := ⟨.left, a, .three k₁ k₂, m, r⟩) h (.three hm hr) hl)
      have hmiddle := ih (place_down (f := ⟨.middle, a, .three k₁ k₂, l, r⟩) h (.three hl hr) hm)
      have hright := ih (place_down (f := ⟨.right, a, .three k₁ k₂, l, m⟩) h (.three hl hm) hr)
      have hwalk := walk_append hleft (walk_append hmiddle (.step (next_postorder_small h hr)
        (walk_append hright (.step (hlast rfl) .done))))
      rw [entry_left hl (by decide)]
      simpa [Tree.listed, Tree.postorder] using hwalk

theorem walk (h : Place s steps fs n t) : Walk o steps s (t.entry o) (t.listed o) (onward o fs) := by
  cases o with
  | inorder => exact walk_inorder h
  | preorder => exact walk_preorder h
  | postorder => exact walk_postorder h

/-- The output along a way that comes to its end. -/
theorem wp_printLoop {k : Nat} {x : Nat × K} (count : Nat) (out : List K) (h : Walk o steps s (some x) ks none)
    (hk : ks.length ≤ k) :
    wp (loop (printRound o steps) k (x, count, out))
      (fun r s' => s' = s ∧ r = (count + ks.length, out ++ ks)) s := by
  induction ks generalizing x k count out with
  | nil => cases h
  | cons key ks ih =>
    obtain ⟨k, rfl⟩ := Nat.exists_eq_add_of_le' (Nat.le_trans (Nat.le_add_left 1 _) hk)
    obtain _ | ⟨hnext, hwalk⟩ := h
    obtain ⟨a, key⟩ := x
    rw [wp_loop_succ, printRound, wp_bind]
    refine wp_mono hnext ?_
    rintro r s' ⟨rfl, hleads⟩
    rename_i y
    cases y with
    | none =>
      cases hwalk
      have hzero : r.1 = 0 := hleads
      simp [hzero]
    | some y =>
      obtain ⟨rfl, hne⟩ := hleads
      have hrest := ih (count + 1) (out ++ [key]) hwalk (Nat.le_of_succ_le_succ hk)
      simp only [hne, ne_eq, not_false_eq_true, ↓reduceIte, wp_pure]
      refine wp_mono hrest ?_
      rintro _ _ ⟨rfl, rfl⟩
      simp [Nat.add_comm 1, Nat.add_assoc]

/-- A traversal puts out the keys of the tree, in its own order. -/
theorem listed_perm (hv : Valid n t) : (t.listed o).Perm t.keys := by
  cases o with
  | inorder => exact .refl _
  | preorder =>
    induction hv with
    | nil => exact .refl _
    | @two _ a k u l r _ _ ihl ihr =>
      refine List.perm_iff_count.mpr fun x => ?_
      have hl := ihl.count_eq x
      have hr := ihr.count_eq x
      simp only [Tree.listed, Tree.preorder, Tree.keys, Keys.smallList_two, Keys.bigList_two, List.count_append] at *
      omega
    | @three _ a k₁ k₂ l m r _ _ _ ihl ihm ihr =>
      refine List.perm_iff_count.mpr fun x => ?_
      have hl := ihl.count_eq x
      have hm := ihm.count_eq x
      have hr := ihr.count_eq x
      simp only [Tree.listed, Tree.preorder, Tree.keys, Keys.smallList_three, Keys.bigList_three,
        List.count_append] at *
      omega
  | postorder =>
    induction hv with
    | nil => exact .refl _
    | @two _ a k u l r _ _ ihl ihr =>
      refine List.perm_iff_count.mpr fun x => ?_
      have hl := ihl.count_eq x
      have hr := ihr.count_eq x
      simp only [Tree.listed, Tree.postorder, Tree.keys, Keys.smallList_two, Keys.bigList_two, Keys.getSize_two,
        Keys.small_two, reduceCtorEq, ↓reduceIte, List.count_append, List.count_nil] at *
      omega
    | @three _ a k₁ k₂ l m r _ _ _ ihl ihm ihr =>
      refine List.perm_iff_count.mpr fun x => ?_
      have hl := ihl.count_eq x
      have hm := ihm.count_eq x
      have hr := ihr.count_eq x
      simp only [Tree.listed, Tree.postorder, Tree.keys, Keys.smallList_three, Keys.bigList_three, Keys.getSize_three,
        Keys.small_three, Keys.big_three, ↓reduceIte, List.count_append] at *
      omega

theorem wp_first (h : IsTree s t) (hv : Valid (n + 1) t) (hn : n < steps) :
    wp (o.first steps s.reg) (fun r s' => s' = s ∧ t.entry o = some r) s := by
  have hs : Shape s.mem 0 t := parts_get (i := 0) h.parts rfl
  have hmin := wp_getMinKey hs hv hn
  obtain ⟨gs, a, v, hend⟩ := endLeaf_left hv
  have hleaf := endOf_endLeaf hend
  rw [hleaf, ← h.root] at hmin
  have hleast : wp (getMinKey steps s.reg) (fun r s' => s' = s ∧ (t.endOf .left).head = some r) s := by
    refine wp_mono hmin ?_
    rintro _ _ ⟨rfl, rfl, -⟩
    rw [hleaf]
    exact ⟨rfl, rfl⟩
  cases o with
  | inorder => exact hleast
  | preorder =>
    rw [h.root]
    refine wp_mono (leads_head hs (not_nil hv)) ?_
    rintro r _ ⟨rfl, hleads⟩
    cases t with
    | nil => cases hv
    | node b w l m r' => exact ⟨rfl, congrArg some hleads.1.symm⟩
  | postorder => exact hleast

theorem wp_print (h : IsTree s t) (hv : Valid (n + 1) t) (hn : n + 1 + t.keys.length ≤ steps) :
    wp (print o steps) (fun r s' => s' = s ∧ r = (.failure, t.keys.length, t.listed o)) s := by
  have hs : Shape s.mem 0 t := parts_get (i := 0) h.parts rfl
  have hroot : s.reg ≠ 0 := by
    rw [h.root, Ne, root_eq_zero hs, not_nil hv]
    simp
  have hplace : Place s steps [] n t := ⟨h.parts, h.sorted, hv, trivial, by simp; omega⟩
  have hlen := (listed_perm (o := o) hv).length_eq
  simp only [print, wp_bind, wp_getReg, hroot, ↓reduceIte]
  refine wp_mono (wp_first h hv (by omega)) ?_
  rintro x _ ⟨rfl, hentry⟩
  have hwalk := walk (o := o) hplace
  rw [hentry] at hwalk
  refine wp_mono (wp_printLoop 0 [] hwalk (by omega)) ?_
  rintro _ _ ⟨rfl, rfl⟩
  simp [hlen]

/-- The loop of the output comes to its end for each of the traversals and puts out every key once,
in the recursive order. -/
theorem print_traverses (o : TreeTraversal) (s : Store (CNode K) Nat) (t : Tree K) (h : IsTree s t)
    (hne : t ≠ .nil) :
    (∃ enough, ∀ steps, enough ≤ steps → wp (print o steps)
      (fun r s' => s' = s ∧ r = (.failure, t.keys.length, t.listed o)) s) ∧
      (t.listed o).Perm t.keys ∧ (t.listed o).Nodup ∧ (t.listed .inorder).Pairwise (· < ·) := by
  obtain ⟨n, hv⟩ := h.valid
  have hperm := listed_perm (o := o) hv
  refine ⟨?_, hperm, hperm.nodup_iff.mpr (h.sorted.imp ne_of_lt), h.sorted⟩
  cases n with
  | zero => exact absurd (nil_of_valid_zero hv) hne
  | succ n => exact ⟨n + 1 + t.keys.length, fun steps hn => wp_print h hv hn⟩

theorem print_traverses_spareRight :
    (∃ enough, ∀ steps, enough ≤ steps → wp (print .postorder steps)
      (fun r s' => s' = spareRightStore ∧ r = (.failure, 8, [1, 3, 2, 5, 6, 8, 7, 4])) spareRightStore) ∧
      [1, 3, 2, 5, 6, 8, 7, 4].Perm [1, 2, 3, 4, 5, 6, 7, 8] ∧ [1, 3, 2, 5, 6, 8, 7, 4].Nodup ∧
        [1, 2, 3, 4, 5, 6, 7, 8].Pairwise (· < ·) :=
  print_traverses .postorder spareRightStore spareRight isTree_spareRight (by simp [spareRight])

/-- The three outputs one after the other. -/
theorem printOrders_traverses (s : Store (CNode K) Nat) (t : Tree K) (h : IsTree s t) (hne : t ≠ .nil) :
    ∃ enough, ∀ steps, enough ≤ steps → wp (printOrders steps) (fun r s' => s' = s ∧
      r = [.preorder, .inorder, .postorder].map fun o => (t.listed o, t.keys.length)) s := by
  obtain ⟨n, hv⟩ := h.valid
  cases n with
  | zero => exact absurd (nil_of_valid_zero hv) hne
  | succ n =>
    refine ⟨n + 1 + t.keys.length, fun steps hn => ?_⟩
    rw [printOrders, wp_bind]
    refine wp_mono (wp_print h hv hn) ?_
    rintro _ _ ⟨rfl, rfl⟩
    rw [wp_bind]
    refine wp_mono (wp_print h hv hn) ?_
    rintro _ _ ⟨rfl, rfl⟩
    rw [wp_bind]
    refine wp_mono (wp_print h hv hn) ?_
    rintro _ _ ⟨rfl, rfl⟩
    exact (wp_pure _).mpr ⟨rfl, rfl⟩

end Walks

end C11AndC.TwoThree
