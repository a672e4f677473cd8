import C11AndC.TwoThree.Insertion
import C11AndC.TwoThree.Deletion

namespace C11AndC.TwoThree

open C11AndC.Library

variable {K : Type} {s : Store (CNode K) Nat} {d : Direction}

namespace Tree

/-- The subtree at the end of the way down on one side. -/
def endOf (d : Direction) : Tree K → Tree K
  | nil => nil
  | node a v l m r =>
      match d with
      | .left => if l.isNil then node a v l m r else l.endOf d
      | .middle => if m.isNil then node a v l m r else m.endOf d
      | .right => if r.isNil then node a v l m r else r.endOf d

def depth : Tree K → Nat
  | nil => 0
  | node _ _ l m r => max l.depth (max m.depth r.depth) + 1

end Tree

section Walk

variable {q n : Nat} {t c : Tree K}

theorem root_endOf_mem (hn : t.isNil = false) : (t.endOf d).root ∈ t.addrs := by
  induction t with
  | nil => cases hn
  | node a v l m r ihl ihm ihr =>
    simp only [Tree.addrs, List.mem_cons, List.mem_append]
    cases d with
    | left =>
      by_cases hl : l.isNil = true
      · simp [Tree.endOf, hl]
      · simp [Tree.endOf, hl, ihl (by simpa using hl)]
    | middle =>
      by_cases hm : m.isNil = true
      · simp [Tree.endOf, hm]
      · simp [Tree.endOf, hm, ihm (by simpa using hm)]
    | right =>
      by_cases hr : r.isNil = true
      · simp [Tree.endOf, hr]
      · simp [Tree.endOf, hr, ihr (by simpa using hr)]

theorem wp_goDown_node {o : CNode K} (hc : s.mem.cell t.root = some o) (hs : Shape s.mem q c)
    (ho : o.getChild d = c.root)
    (ih : c.isNil = false →
      wp (loop (goDown d) n c.root) (fun r s' => s' = s ∧ r = (c.endOf d).root) s) :
    wp (loop (goDown d) (n + 1) t.root)
      (fun r s' => s' = s ∧ r = (if c.isNil then t else c.endOf d).root) s := by
  simp only [loop, goDown, wp_bind, wp_load, hc, Option.some.injEq, exists_eq_left', ho]
  by_cases hn : c.isNil = true
  · simp [hn, (root_eq_zero hs).mpr hn]
  · have hr := mt (root_eq_zero hs).mp hn
    simpa [hn, hr] using ih (by simpa using hn)

/-- The way down comes to its end within the depth of the tree. -/
theorem wp_goDown (hs : Shape s.mem q t) (hd : t.depth ≤ n) (hn : t.isNil = false) :
    wp (loop (goDown d) n t.root) (fun r s' => s' = s ∧ r = (t.endOf d).root) s := by
  induction t generalizing q n with
  | nil => cases hn
  | node a v l m r ihl ihm ihr =>
    simp only [Tree.depth] at hd
    obtain ⟨n, rfl⟩ := Nat.exists_eq_add_of_le' (Nat.le_trans (Nat.le_add_left 1 _) hd)
    cases d with
    | left => exact wp_goDown_node hs.1 hs.2.1 rfl (ihl hs.2.1 (by omega))
    | middle => exact wp_goDown_node hs.1 hs.2.2.1 rfl (ihm hs.2.2.1 (by omega))
    | right => exact wp_goDown_node hs.1 hs.2.2.2 rfl (ihr hs.2.2.2 (by omega))

theorem depth_valid (hv : Valid n t) : t.depth = n := by
  induction hv with
  | nil => rfl
  | two _ _ ihl ihr => simp [Tree.depth, ihl, ihr]
  | three _ _ _ ihl ihm ihr => simp [Tree.depth, ihl, ihm, ihr]

theorem depth_frame {f : Frame K} (hf : FrameOk n f) (ht : t.depth ≤ n) :
    (f.plug t).depth ≤ n + 1 := by
  cases hf with
  | twoLeft hr => simp [Frame.plug, Tree.depth, depth_valid hr, ht]
  | twoRight hl => simp [Frame.plug, Tree.depth, depth_valid hl, ht]
  | @three d _ _ _ _ _ hx hy =>
    cases d <;> simp [Frame.plug, Tree.depth, depth_valid hx, depth_valid hy, ht]

theorem depth_plug {fs : List (Frame K)} (hf : AboveOk n fs) (ht : t.depth ≤ n) :
    (plug fs t).depth ≤ n + fs.length := by
  induction fs generalizing n t with
  | nil => exact ht
  | cons f fs ih =>
    rw [List.length_cons, Nat.add_comm fs.length, ← Nat.add_assoc]
    exact ih hf.2 (depth_frame hf.1 ht)

end Walk

section Spine

variable {n : Nat} {t u : Tree K} {fs gs : List (Frame K)}

/-- The place is at the end of the way down on one side. -/
def Along (d : Direction) (fs : List (Frame K)) : Prop := ∀ f, f ∈ fs → f.side = d

theorem along_cons {f : Frame K} : Along d (f :: fs) ↔ f.side = d ∧ Along d fs := by
  simp [Along]

theorem plug_isNil {f : Frame K} : (f.plug t).isNil = false := by
  obtain ⟨e, a, v, x, y⟩ := f
  cases e <;> rfl

theorem endOf_frame {f : Frame K} (hf : f.side = d) (hu : u.isNil = false) :
    (f.plug u).endOf d = u.endOf d := by
  obtain ⟨e, a, v, x, y⟩ := f
  cases hf
  cases e <;> simp [Frame.plug, Tree.endOf, hu]

theorem endOf_along (h : Along d fs) (hu : u.isNil = false) :
    (plug fs u).endOf d = u.endOf d := by
  induction fs generalizing u with
  | nil => rfl
  | cons f fs ih =>
    rw [along_cons] at h
    rw [plug, ih h.2 plug_isNil, endOf_frame h.1 hu]

/-- Beside the place, the way ends at a node that is not in the place. -/
theorem endOf_frame_ne {f : Frame K} (hf : f.side ≠ d) :
    ((f.plug u).endOf d).root ∈ f.addr :: (f.fst.addrs ++ f.snd.addrs) := by
  have hm : ∀ {a : Nat} {v : Keys K} {l m r x : Tree K},
      (if x.isNil then Tree.node a v l m r else x.endOf d).root ∈ a :: x.addrs := by
    intro a v l m r x
    by_cases hx : x.isNil = true
    · simp [hx]
    · simp [hx, root_endOf_mem (d := d) (t := x) (by simpa using hx)]
  have hsub : ∀ {b a : Nat} {xs ys : List Nat}, b ∈ a :: xs → b ∈ a :: (xs ++ ys) ∧
      b ∈ a :: (ys ++ xs) := by
    intro b a xs ys hb
    simp only [List.mem_cons, List.mem_append] at hb ⊢
    exact ⟨hb.imp_right .inl, hb.imp_right .inr⟩
  obtain ⟨e, a, v, x, y⟩ := f
  cases e with
  | left =>
    cases d with
    | left => exact absurd rfl hf
    | middle => exact (hsub hm).1
    | right => exact (hsub hm).2
  | middle =>
    cases d with
    | left => exact (hsub hm).1
    | middle => exact absurd rfl hf
    | right => exact (hsub hm).2
  | right =>
    cases d with
    | left => exact (hsub hm).1
    | middle => exact (hsub hm).2
    | right => exact absurd rfl hf

theorem endOf_beside (h : ¬ Along d fs) (hu : u.isNil = false) :
    ((plug fs u).endOf d).root ∈ aboveAddrs fs := by
  induction fs generalizing u with
  | nil => exact absurd (fun f hf => absurd hf List.not_mem_nil) h
  | cons f fs ih =>
    by_cases hfs : Along d fs
    · have hf : f.side ≠ d := fun hf => h (along_cons.mpr ⟨hf, hfs⟩)
      rw [plug, endOf_along hfs plug_isNil]
      have hm := endOf_frame_ne (u := u) hf
      simp only [aboveAddrs, List.mem_cons, List.mem_append] at hm ⊢
      exact hm.imp_right (fun h => h.elim .inl (fun h => .inr (.inl h)))
    · have hm := ih hfs (u := f.plug u) plug_isNil
      simp only [aboveAddrs, List.mem_cons, List.mem_append]
      exact .inr (.inr (.inr hm))

theorem aboveOk_append : AboveOk n (fs ++ gs) ↔ AboveOk n fs ∧ AboveOk (n + fs.length) gs := by
  induction fs generalizing n with
  | nil => simp [AboveOk]
  | cons f fs ih =>
    simp only [List.cons_append, AboveOk, ih, List.length_cons, and_assoc]
    rw [Nat.add_assoc, Nat.add_comm 1 fs.length]

theorem before_along (h : Along .left fs) : before fs = [] := by
  induction fs with
  | nil => rfl
  | cons f fs ih =>
    rw [along_cons] at h
    simp [before, ih h.2, Frame.before, h.1]

theorem after_along (h : Along .right fs) : after fs = [] := by
  induction fs with
  | nil => rfl
  | cons f fs ih =>
    rw [along_cons] at h
    simp [after, ih h.2, Frame.after, h.1]

/-- A leaf that is at the end of the way down on one side. -/
def EndLeaf (d : Direction) (t : Tree K) (hs : List (Frame K)) (a : Nat) (v : Keys K) : Prop :=
  t = plug hs (.node a v .nil .nil .nil) ∧ AboveOk 1 hs ∧ Along d hs ∧
    Valid 1 (.node a v .nil .nil .nil)

theorem endLeaf_of_child {f : Frame K} (hf : FrameOk (n + 1) f) (hd : f.side = d)
    (hu : Valid (n + 1) u) {hs : List (Frame K)} {a : Nat} {v : Keys K} (h : EndLeaf d u hs a v) :
    EndLeaf d (f.plug u) (hs ++ [f]) a v := by
  obtain ⟨rfl, hok, hal, hv⟩ := h
  have hlen := valid_height (valid_plug hok hv) hu
  refine ⟨by rw [plug_append]; rfl, aboveOk_append.mpr ⟨hok, ?_, trivial⟩, ?_, hv⟩
  · rw [hlen]
    exact hf
  · intro g hg
    obtain hg | hg := List.mem_append.mp hg
    · exact hal g hg
    · rw [List.mem_singleton.mp hg]
      exact hd

theorem endLeaf_left (hv : Valid (n + 1) t) : ∃ hs a v, EndLeaf .left t hs a v := by
  induction n generalizing t with
  | zero =>
    obtain ⟨a, v, rfl⟩ := leaf_of_valid hv
    exact ⟨[], a, v, rfl, trivial, by simp [Along], hv⟩
  | succ n ih =>
    cases hv with
    | @two _ a k u l r hl hr =>
      obtain ⟨hs, b, v, h⟩ := ih hl
      exact ⟨_, b, v, endLeaf_of_child (f := ⟨.left, a, .two k u, .nil, r⟩) (.twoLeft hr) rfl hl h⟩
    | @three _ a k₁ k₂ l m r hl hm hr =>
      obtain ⟨hs, b, v, h⟩ := ih hl
      exact ⟨_, b, v, endLeaf_of_child (f := ⟨.left, a, .three k₁ k₂, m, r⟩) (.three hm hr) rfl hl h⟩

theorem endLeaf_right (hv : Valid (n + 1) t) : ∃ hs a v, EndLeaf .right t hs a v := by
  induction n generalizing t with
  | zero =>
    obtain ⟨a, v, rfl⟩ := leaf_of_valid hv
    exact ⟨[], a, v, rfl, trivial, by simp [Along], hv⟩
  | succ n ih =>
    cases hv with
    | @two _ a k u l r hl hr =>
      obtain ⟨hs, b, v, h⟩ := ih hr
      exact ⟨_, b, v, endLeaf_of_child (f := ⟨.right, a, .two k u, l, .nil⟩) (.twoRight hl) rfl hr h⟩
    | @three _ a k₁ k₂ l m r hl hm hr =>
      obtain ⟨hs, b, v, h⟩ := ih hr
      exact ⟨_, b, v, endLeaf_of_child (f := ⟨.right, a, .three k₁ k₂, l, m⟩) (.three hl hm) rfl hr h⟩

theorem endLeaf (hd : d ≠ .middle) (hv : Valid (n + 1) t) : ∃ hs a v, EndLeaf d t hs a v := by
  cases d with
  | left => exact endLeaf_left hv
  | middle => exact absurd rfl hd
  | right => exact endLeaf_right hv

theorem endOf_endLeaf {hs : List (Frame K)} {a : Nat} {v : Keys K} (h : EndLeaf d t hs a v) :
    t.endOf d = .node a v .nil .nil .nil := by
  obtain ⟨rfl, -, hal, -⟩ := h
  rw [endOf_along hal rfl]
  cases d <;> rfl

end Spine

end C11AndC.TwoThree
