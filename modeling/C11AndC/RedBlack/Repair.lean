import C11AndC.RedBlack.Shape

namespace C11AndC.RedBlack

open C11AndC.Library

namespace Tree

def color : Tree → Color
  | nil => .black
  | node _ c _ _ _ => c

/-- No red node has a red child. -/
def RedOk : Tree → Prop
  | nil => True
  | node _ c _ l r => (c = .red → l.color = .black ∧ r.color = .black) ∧ l.RedOk ∧ r.RedOk

/-- Every way down to a null pointer meets `n` black nodes. -/
def BlackHeight : Tree → Nat → Prop
  | nil, n => n = 0
  | node _ .red _ l r, n => l.BlackHeight n ∧ r.BlackHeight n
  | node _ .black _ l r, n => ∃ m, n = m + 1 ∧ l.BlackHeight m ∧ r.BlackHeight m

variable {d : Side} {a : Nat} {c : Color} {k : Int} {t u : Tree}

@[simp] theorem color_join : (join d a c k t u).color = c := by
  cases d <;> rfl

theorem redOk_join : (join d a c k t u).RedOk ↔
    (c = .red → t.color = .black ∧ u.color = .black) ∧ t.RedOk ∧ u.RedOk := by
  cases d
  · rfl
  · simp only [join, RedOk]
    tauto

theorem blackHeight_red {n : Nat} :
    (join d a .red k t u).BlackHeight n ↔ t.BlackHeight n ∧ u.BlackHeight n := by
  cases d
  · rfl
  · exact and_comm

theorem blackHeight_black {n : Nat} : (join d a .black k t u).BlackHeight n ↔
    ∃ m, n = m + 1 ∧ t.BlackHeight m ∧ u.BlackHeight m := by
  cases d
  · rfl
  · simp only [join, BlackHeight, and_comm (a := u.BlackHeight _)]

theorem exists_join (h : t ≠ nil) (d : Side) : ∃ a c k l r, t = join d a c k l r := by
  cases t with
  | nil => contradiction
  | node a c k l r =>
    cases d with
    | left => exact ⟨a, c, k, l, r, rfl⟩
    | right => exact ⟨a, c, k, r, l, rfl⟩

end Tree

/-- The colour of the node above; there the lack of a node counts as red. -/
def colorAbove : List Frame → Color
  | [] => .red
  | f :: _ => f.color

def RedOkAbove : List Frame → Prop
  | [] => True
  | f :: fs => (f.color = .red → f.sibling.color = .black ∧ colorAbove fs = .black) ∧
      f.sibling.RedOk ∧ RedOkAbove fs

/-- The nodes above need a subtree of the black height `n`. -/
def BlackAbove : List Frame → Nat → Prop
  | [], _ => True
  | f :: fs, n => f.sibling.BlackHeight n ∧ BlackAbove fs (if f.color = .black then n + 1 else n)

/-- All is well below `t` and above it; only `t` and the node above it may both be red. -/
structure Repairable (fs : List Frame) (t : Tree) : Prop where
  redOk : t.RedOk
  redOkAbove : RedOkAbove fs
  black : ∃ n, t.BlackHeight n ∧ BlackAbove fs n

theorem redOk_plug {fs : List Frame} {t : Tree} (ht : t.RedOk) (hf : RedOkAbove fs)
    (h : t.color = .red → fs ≠ [] → colorAbove fs = .black) : (plug fs t).RedOk := by
  induction fs generalizing t with
  | nil => exact ht
  | cons f fs ih =>
    refine ih ?_ hf.2.2 ?_
    · refine Tree.redOk_join.mpr ⟨fun hr => ⟨?_, (hf.1 hr).1⟩, ht, hf.2.1⟩
      cases hc : t.color with
      | red => exact absurd (h hc (List.cons_ne_nil f fs)) (by simp [colorAbove, hr])
      | black => rfl
    · intro hr _
      exact (hf.1 (by simpa [Frame.plug] using hr)).2

theorem blackHeight_plug {fs : List Frame} {t : Tree} {n : Nat} (ht : t.BlackHeight n)
    (hf : BlackAbove fs n) : ∃ m, (plug fs t).BlackHeight m := by
  induction fs generalizing t n with
  | nil => exact ⟨n, ht⟩
  | cons f fs ih =>
    refine ih ?_ hf.2
    cases hc : f.color with
    | red =>
      simp only [Frame.plug, hc, reduceCtorEq, ↓reduceIte]
      exact Tree.blackHeight_red.mpr ⟨ht, hf.1⟩
    | black =>
      simp only [Frame.plug, hc, ↓reduceIte]
      exact Tree.blackHeight_black.mpr ⟨n, rfl, ht, hf.1⟩

theorem keys_plug (fs : List Frame) {t u : Tree} (h : t.keys = u.keys) :
    (plug fs t).keys = (plug fs u).keys := by
  induction fs generalizing t u with
  | nil => exact h
  | cons f fs ih =>
    refine ih ?_
    cases hd : f.side <;> simp [Frame.plug, Tree.join, Tree.keys, hd, h]

/-- A whole red-black tree is well below and above each of its places. -/
theorem repairable_of_plug (fs : List Frame) (t : Tree) (hr : (plug fs t).RedOk)
    (hb : ∃ n, (plug fs t).BlackHeight n) (hc : (plug fs t).color = .black) : Repairable fs t := by
  suffices h : ∀ {fs : List Frame} {t : Tree}, (plug fs t).RedOk →
      (∃ n, (plug fs t).BlackHeight n) → (plug fs t).color = .black →
      Repairable fs t ∧ (t.color = .red → colorAbove fs = .black) from (h hr hb hc).1
  intro fs t hr hb hc
  induction fs generalizing t with
  | nil =>
    obtain ⟨n, hb⟩ := hb
    exact ⟨⟨hr, trivial, n, hb, trivial⟩, fun h => absurd (h.symm.trans hc) (by decide)⟩
  | cons f fs ih =>
    obtain ⟨⟨hro, hra, n, hn, hna⟩, hcol⟩ := ih hr hb hc
    obtain ⟨h₁, h₂, h₃⟩ := Tree.redOk_join.mp hro
    simp only [Frame.plug, Tree.color_join] at hcol
    refine ⟨⟨h₂, ⟨fun h => ⟨(h₁ h).2, hcol h⟩, h₃, hra⟩, ?_⟩, fun h => ?_⟩
    · cases hf : f.color with
      | red =>
        rw [Frame.plug, hf] at hn
        obtain ⟨hn₁, hn₂⟩ := Tree.blackHeight_red.mp hn
        exact ⟨n, hn₁, hn₂, by simpa [hf] using hna⟩
      | black =>
        rw [Frame.plug, hf] at hn
        obtain ⟨m, rfl, hn₁, hn₂⟩ := Tree.blackHeight_black.mp hn
        exact ⟨m, hn₁, hn₂, by simpa [hf] using hna⟩
    · cases hf : f.color with
      | red => exact absurd ((h₁ hf).1.symm.trans h) (by decide)
      | black => exact hf

/-- The frames of a red node with a red parent, seen from the side of the parent. -/
theorem grandparent_of_red {f : Frame} {fs : List Frame} {t : Tree}
    (h : Repairable (f :: fs) t) (hf : f.color = .red) :
    ∃ g gs, fs = g :: gs ∧ g.color = .black ∧ f.sibling.color = .black := by
  obtain ⟨hs, ha⟩ := h.redOkAbove.1 hf
  cases fs with
  | nil => exact absurd ha (by decide)
  | cons g gs => exact ⟨g, gs, rfl, ha, hs⟩

/-- The uncle is red: the colours are exchanged between the grandparent and its children. -/
theorem recolored {f g : Frame} {gs : List Frame} {t : Tree} {u : Nat} {ku : Int} {ul ur : Tree}
    (h : Repairable (f :: g :: gs) t) (hf : f.color = .red) (hg : g.color = .black)
    (hu : g.sibling = .node u .red ku ul ur) :
    Repairable gs (.join g.side g.addr .red g.key (.join f.side f.addr .black f.key t f.sibling)
      (.node u .black ku ul ur)) := by
  obtain ⟨ht, ⟨-, hfs, hgc, hgs, hgr⟩, n, hn, hfn, hgn, hga⟩ := h
  simp only [hf, hg, hu, reduceCtorEq, ↓reduceIte] at hgs hgn hga
  refine ⟨?_, hgr, n + 1, ?_, hga⟩
  · refine Tree.redOk_join.mpr ⟨fun _ => ⟨Tree.color_join, rfl⟩, ?_, ?_⟩
    · exact Tree.redOk_join.mpr ⟨fun hb => absurd hb (by decide), ht, hfs⟩
    · exact ⟨fun hb => absurd hb (by decide), hgs.2⟩
  · refine Tree.blackHeight_red.mpr ⟨Tree.blackHeight_black.mpr ⟨n, rfl, hn, hfn⟩, ?_⟩
    exact ⟨n, rfl, hgn⟩

/-- The uncle is black: a black node takes the place of the grandparent. -/
theorem rotated {d : Side} {a : Nat} {k : Int} {t u : Tree} {n : Nat} {gs : List Frame}
    (hr : RedOkAbove gs) (hn : BlackAbove gs (n + 1)) (ht : t.RedOk) (hu : u.RedOk)
    (bt : t.BlackHeight n) (bu : u.BlackHeight n) : Repairable gs (.join d a .black k t u) :=
  ⟨Tree.redOk_join.mpr ⟨fun hb => absurd hb (by decide), ht, hu⟩, hr, n + 1,
    Tree.blackHeight_black.mpr ⟨n, rfl, bt, bu⟩, hn⟩

end C11AndC.RedBlack
