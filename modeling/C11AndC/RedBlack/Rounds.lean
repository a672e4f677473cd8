import C11AndC.RedBlack.Repair

namespace C11AndC.RedBlack

open C11AndC.Library

theorem wp_isRed {s : Store Node Nat} {par : Nat} {t : Tree} {Q : Bool → Store Node Nat → Prop}
    (hs : Shape s.mem par t) (h : Q (t.color = .red) s) : wp (isRed t.root) Q s := by
  cases t with
  | nil =>
    simp only [isRed, Tree.root, ↓reduceIte, wp_pure]
    exact h
  | node a c k l r =>
    simp only [isRed, Tree.root, Memory.ne_zero_of_cell hs.1, ↓reduceIte, wp_bind, wp_load, hs.1,
      Option.some.injEq, exists_eq_left', wp_pure]
    exact h

theorem root_plug_mem (f : Frame) (fs : List Frame) (t : Tree) :
    (plug (f :: fs) t).root ∈ above (f :: fs) := by
  induction fs generalizing f t with
  | nil => simp [plug, Frame.plug, above]
  | cons g fs ih =>
    have := ih g (f.plug t)
    simp only [above, List.cons_append, List.mem_cons, List.mem_append] at this ⊢
    tauto

theorem wp_violated {s : Store Node Nat} {fs : List Frame} {d : Side} {a : Nat} {c : Color}
    {k : Int} {t u : Tree} {Q : Bool → Store Node Nat → Prop}
    (h : Holds s fs (.join d a c k t u))
    (hq : Q (fs ≠ [] ∧ c = .red ∧ colorAbove fs = .red) s) : wp (violated a) Q s := by
  have ha := cell_of_holds h
  cases fs with
  | nil =>
    have hr := h.root
    simp only [plug, Tree.root_join] at hr
    simpa [violated, hr] using hq
  | cons f fs =>
    have hne : a ≠ s.reg := by
      rw [h.root]
      intro he
      refine List.disjoint_of_nodup_append h.nodup (a := a) ?_ ?_
      · rw [(Tree.addrs_join_perm ..).mem_iff]
        exact List.mem_cons_self
      · rw [he]
        exact root_plug_mem f fs _
    have hf := h.shapeAbove.1
    cases c with
    | black => simpa [violated, hne, ha] using hq
    | red => simpa [violated, hne, ha, hf, top, colorAbove] using hq

/-- The place of a round that is done: the tree `t'` is to be looked at next. -/
def Repaired (fs : List Frame) (keys : List Int) (pt : Nat) (s : Store Node Nat) : Prop :=
  ∃ t, t.root = pt ∧ t ≠ .nil ∧ Holds s fs t ∧ Repairable fs t ∧ (plug fs t).keys = keys

theorem wp_recolor {s : Store Node Nat} {f g : Frame} {gs : List Frame} {t : Tree} {u : Nat}
    {ku : Int} {ul ur : Tree} (h : Holds s (f :: g :: gs) t)
    (hu : g.sibling = .node u .red ku ul ur) :
    wp (recolor g.addr f.addr u) (fun _ s' => Holds s' gs (.join g.side g.addr .red g.key
      (.join f.side f.addr .black f.key t f.sibling) (.node u .black ku ul ur))) s := by
  have hg := h.shapeAbove.2.2.1
  have h₁ := holds_side.mpr (holds_setColor (e := .red) (holds_cons.mp (holds_cons.mp h)))
  have hf : (s.mem.modify g.addr (·.setColor .red)).cell f.addr = _ := cell_of_holds h₁
  have h₂ := holds_other.mpr (holds_side.mp (holds_setColor (e := .black) h₁))
  rw [hu] at h₂
  have hs : ((s.mem.modify g.addr (·.setColor .red)).modify f.addr
    (·.setColor .black)).cell u = _ := cell_of_holds (d := .left) h₂
  simp only [recolor, wp_bind, wp_store, hg, hf, hs, Option.isSome_some, true_and]
  exact (holds_other.mp (holds_setColor (d := .left) (e := .black) h₂))

/-- The node is brought to the outer side, so that both cases go on alike. -/
theorem wp_straighten {s : Store Node Nat} {f : Frame} {fs : List Frame} {t : Tree} (d : Side)
    (h : Holds s (f :: fs) t) (hr : Repairable (f :: fs) t) (ht : t.color = .red)
    (hf : f.color = .red) (hs : f.sibling.color = .black) :
    wp (straighten d (rotate d) t.root f.addr) (fun a s' => ∃ k u v,
      Holds s' fs (.join d a .red k u v) ∧ u.RedOk ∧ v.RedOk ∧ v.color = .black ∧
      (∀ n, t.BlackHeight n → f.sibling.BlackHeight n → u.BlackHeight n ∧ v.BlackHeight n) ∧
      (Tree.join d a .red k u v).keys = (f.plug t).keys) s := by
  have hfc := h.shapeAbove.1
  obtain ⟨fd, fa, fc, fk, fsib⟩ := f
  simp only at hf hs hfc
  subst hf
  simp only [straighten, wp_bind, wp_load, hfc, Option.some.injEq, exists_eq_left']
  obtain ⟨a, c, k, u, v, rfl⟩ := Tree.exists_join (t := t) (by rintro rfl; cases ht) d
  simp only [Tree.color_join] at ht
  subst ht
  obtain ⟨hc, hu, hv⟩ := Tree.redOk_join.mp hr.redOk
  by_cases hd : fd = d
  · subst hd
    have hne : ¬ a = fsib.root := by
      have hn := h.nodup
      rw [((Tree.addrs_join_perm ..).append_right _).nodup_iff] at hn
      simp only [above, List.cons_append, List.nodup_cons, List.mem_append, List.mem_cons,
        not_or] at hn
      exact (Tree.root_ne (Memory.ne_zero_of_cell (cell_of_holds h)) hn.1.2.2.1).symm
    simp only [Tree.root_join, Node.child_other_join, hne, ↓reduceIte, wp_pure]
    exact ⟨fk, _, fsib, holds_side.mp h, hr.redOk, hr.redOkAbove.2.1, hs, fun n h₁ h₂ => ⟨h₁, h₂⟩, rfl⟩
  · have hd' : fd = d.other := by
      cases d <;> cases fd <;> first | rfl | contradiction
    subst hd'
    simp only [Tree.root_join, Node.child_join, ↓reduceIte, wp_bind, wp_load]
    refine wp_mono (wp_rotate (holds_other.mp h)) ?_
    rintro - s' h'
    have hc' := cell_of_holds (holds_side.mpr h')
    simp only [hc', Option.some.injEq, exists_eq_left', wp_pure, Node.parent_join, top]
    refine ⟨k, _, v, h', ?_, hv, (hc rfl).2, ?_, ?_⟩
    · exact Tree.redOk_join.mpr ⟨fun _ => ⟨hs, (hc rfl).1⟩, hr.redOkAbove.2.1, hu⟩
    · intro n hn hn'
      obtain ⟨h₁, h₂⟩ := Tree.blackHeight_red.mp hn
      exact ⟨Tree.blackHeight_red.mpr ⟨hn', h₁⟩, h₂⟩
    · rw [Frame.plug, Tree.join_other]
      cases d <;> simp [Tree.join, Tree.keys]

/-- The rotation away from the side of the red nodes, with the exchange of colours. -/
theorem wp_turnBack {s : Store Node Nat} {d : Side} {a b : Nat} {ka kb : Int} {gs : List Frame}
    {t u v : Tree} (h : Holds s gs (.join d b .black kb (.join d a .red ka t u) v)) :
    wp (do rotate d.other b; swapColors a b) (fun _ s' =>
      Holds s' gs (.join d a .black ka t (.join d b .red kb u v))) s := by
  rw [← Tree.join_other, ← Tree.join_other d a] at h
  rw [wp_bind]
  refine wp_mono (wp_rotate h) ?_
  rintro - s' h'
  rw [Tree.join_other, Tree.join_other] at h'
  exact wp_swapColors h'

theorem wp_repair {s : Store Node Nat} {f g : Frame} {gs : List Frame} {t : Tree}
    (h : Holds s (f :: g :: gs) t) (hr : Repairable (f :: g :: gs) t) (ht : t.color = .red)
    (hf : f.color = .red) (hg : g.color = .black) (hs : f.sibling.color = .black) :
    wp (repair g.side (rotate g.side) (rotate g.side.other) t.root f.addr g.addr)
      (Repaired gs (plug (f :: g :: gs) t).keys) s := by
  have hgc := h.shapeAbove.2.2.1
  simp only [repair, wp_bind, wp_load, hgc, Option.some.injEq, exists_eq_left',
    Node.child_other_join]
  refine wp_isRed h.shapeAbove.2.2.2.1 ?_
  by_cases hu : g.sibling.color = .red
  · obtain ⟨u, ku, ul, ur, he⟩ : ∃ u ku ul ur, g.sibling = .node u .red ku ul ur := by
      cases hg : g.sibling with
      | nil => simp [hg, Tree.color] at hu
      | node u c ku ul ur =>
        simp only [hg, Tree.color] at hu
        exact ⟨u, ku, ul, ur, by rw [hu]⟩
    rw [if_pos (decide_eq_true hu)]
    simp only [wp_bind, wp_pure, he, Tree.root]
    refine wp_mono (wp_recolor h he) ?_
    rintro - s' h'
    refine ⟨_, Tree.root_join .., ?_, h', recolored hr hf hg he, ?_⟩
    · cases g.side <;> exact Tree.noConfusion
    · refine keys_plug _ ?_
      cases hd : g.side <;> cases hd' : f.side <;>
        simp [Frame.plug, Tree.join, Tree.keys, hd, hd', he]
  · rw [if_neg (by simpa using hu)]
    simp only [wp_bind, wp_pure]
    refine wp_mono (wp_straighten g.side h hr ht hf hs) ?_
    rintro a s₁ ⟨k, u, v, h₁, hu₁, hv₁, hvc, hb, hk⟩
    have h₂ := holds_cons.mp h₁
    rw [Frame.plug, hg] at h₂
    refine wp_mono ((wp_bind ..).mp (wp_turnBack h₂)) (fun _ s₂ h₃ => wp_mono h₃ ?_)
    rintro - s₃ h₃
    obtain ⟨-, ⟨-, hfr, -, hgr, hgs⟩, n, hn, hfn, hgn, hna⟩ := hr
    simp only [hf, hg, reduceCtorEq, ↓reduceIte] at hgn hna
    obtain ⟨hbu, hbv⟩ := hb n hn hfn
    refine ⟨_, Tree.root_join .., ?_, h₃, rotated hgs hna hu₁ ?_ hbu ?_, keys_plug _ ?_⟩
    · cases g.side <;> exact Tree.noConfusion
    · refine Tree.redOk_join.mpr ⟨fun _ => ⟨hvc, ?_⟩, hv₁, hgr⟩
      cases hc : g.sibling.color with
      | red => exact absurd hc hu
      | black => rfl
    · exact Tree.blackHeight_red.mpr ⟨hbv, hgn⟩
    · refine Eq.trans ?_ (keys_plug [g] hk)
      cases hd : g.side <;> simp [plug, Frame.plug, Tree.join, Tree.keys, hd]

theorem parent_ne_uncle {s : Store Node Nat} {f g : Frame} {gs : List Frame} {t : Tree}
    (h : Holds s (f :: g :: gs) t) : g.sibling.root ≠ f.addr := by
  refine Tree.root_ne (Memory.ne_zero_of_cell h.shapeAbove.1) ?_
  have hn := (List.nodup_append'.mp h.nodup).2.1
  simp only [above, List.cons_append, List.nodup_cons, List.mem_append, List.mem_cons,
    not_or] at hn
  exact hn.1.2.2.1

theorem plug_ne_nil {fs : List Frame} {t : Tree} (h : t ≠ .nil) : plug fs t ≠ .nil := by
  induction fs generalizing t with
  | nil => exact h
  | cons f fs ih =>
    refine ih ?_
    cases hd : f.side <;> simp [Frame.plug, Tree.join, hd]

/-- As long as a red node has a red parent, a round brings the trouble two levels up
or ends it. -/
theorem wp_fixRound {s : Store Node Nat} {fs : List Frame} {t : Tree} (h : Holds s fs t)
    (hr : Repairable fs t) (hne : t ≠ .nil) :
    wp (fixRound t.root) (fun r s' =>
      match r with
      | .inl pt => ∃ gs, gs.length < fs.length ∧ Repaired gs (plug fs t).keys pt s'
      | .inr _ => s' = s ∧ (plug fs t).RedOk) s := by
  obtain ⟨a, c, k, u, v, rfl⟩ := Tree.exists_join hne .left
  simp only [fixRound, wp_bind, Tree.root_join]
  refine wp_violated h ?_
  by_cases hv : fs ≠ [] ∧ c = .red ∧ colorAbove fs = .red
  · rw [if_pos (decide_eq_true hv)]
    obtain ⟨hfs, rfl, hca⟩ := hv
    obtain ⟨f, fs, rfl⟩ := List.exists_cons_of_ne_nil hfs
    obtain ⟨g, gs, rfl, hg, hs⟩ := grandparent_of_red hr hca
    have hf := h.shapeAbove.1
    have hgc := h.shapeAbove.2.2.1
    have hrep := wp_repair h hr Tree.color_join hca hg hs
    rw [Tree.root_join] at hrep
    simp only [wp_bind, wp_load, cell_of_holds h, hf, hgc, Option.some.injEq, exists_eq_left',
      Node.parent_join, top_cons]
    have hdone : ∀ pt s', Repaired gs (plug (f :: g :: gs) (.join .left a .red k u v)).keys pt s' →
        ∃ gs', gs'.length < (f :: g :: gs).length ∧
          Repaired gs' (plug (f :: g :: gs) (.join .left a .red k u v)).keys pt s' := by
      intro pt s' hrep
      exact ⟨gs, by simp only [List.length_cons]; omega, hrep⟩
    cases hd : g.side with
    | left =>
      rw [hd] at hrep
      rw [if_pos (show f.addr = (Node.join .left ..).left from rfl), wp_bind]
      exact wp_mono hrep (fun pt s' hp => (wp_pure _).mpr (hdone pt s' hp))
    | right =>
      rw [hd] at hrep
      have hne : ¬ f.addr = (Node.join .right g.key g.color f.addr g.sibling.root (top gs)).left :=
        (parent_ne_uncle h).symm
      rw [if_neg hne, wp_bind]
      exact wp_mono hrep (fun pt s' hp => (wp_pure _).mpr (hdone pt s' hp))
  · rw [if_neg (by simpa using hv), wp_pure]
    refine ⟨rfl, redOk_plug hr.redOk hr.redOkAbove ?_⟩
    intro hc hfs
    rw [Tree.color_join] at hc
    cases hca : colorAbove fs with
    | red => exact absurd ⟨hfs, hc, hca⟩ hv
    | black => rfl

theorem holds_plug {s : Store Node Nat} {fs : List Frame} {t : Tree} :
    Holds s fs t ↔ Holds s [] (plug fs t) := by
  induction fs generalizing t with
  | nil => rfl
  | cons f fs ih => rw [holds_cons, ih, plug]

/-- A red-black tree: its keys are in order, its root is black, no red node has a red
child and all ways down meet as many black nodes. -/
structure IsRedBlack (t : Tree) : Prop where
  sorted : t.keys.Pairwise (· < ·)
  rootBlack : t.color = .black
  redOk : t.RedOk
  blackHeight : ∃ n, t.BlackHeight n

theorem redBlack_blacken {d : Side} {a : Nat} {c : Color} {k : Int} {t u : Tree}
    (hk : (Tree.join d a c k t u).keys.Pairwise (· < ·)) (hr : (Tree.join d a c k t u).RedOk)
    (hb : ∃ n, (Tree.join d a c k t u).BlackHeight n) : IsRedBlack (.join d a .black k t u) := by
  refine ⟨?_, Tree.color_join, ?_, ?_⟩
  · cases d <;> exact hk
  · obtain ⟨-, ht, hu⟩ := Tree.redOk_join.mp hr
    exact Tree.redOk_join.mpr ⟨fun h => absurd h (by decide), ht, hu⟩
  · obtain ⟨n, hn⟩ := hb
    cases c with
    | red =>
      obtain ⟨h₁, h₂⟩ := Tree.blackHeight_red.mp hn
      exact ⟨n + 1, Tree.blackHeight_black.mpr ⟨n, rfl, h₁, h₂⟩⟩
    | black => exact ⟨n, hn⟩

/-- The repair returns, and what it leaves is a red-black tree with the same keys. -/
theorem wp_fixViolation {s : Store Node Nat} {fs : List Frame} {t : Tree} {n : Nat}
    (h : Holds s fs t) (hr : Repairable fs t) (hne : t ≠ .nil)
    (hk : (plug fs t).keys.Pairwise (· < ·)) (hn : fs.length < n) :
    wp (fixViolation n t.root) (fun _ s' => ∃ u, Holds s' [] u ∧ IsRedBlack u ∧
      u.keys = (plug fs t).keys) s := by
  rw [fixViolation, wp_bind]
  have hloop : wp (loop fixRound n t.root) (fun _ s' => ∃ u, u ≠ .nil ∧ Holds s' [] u ∧ u.RedOk ∧
      (∃ m, u.BlackHeight m) ∧ u.keys = (plug fs t).keys) s := by
    refine wp_loop (fun j pt s' => ∃ gs, gs.length = j ∧ Repaired gs (plug fs t).keys pt s') ?_
      ⟨fs, rfl, t, rfl, hne, h, hr, rfl⟩ hn
    rintro j pt s' ⟨gs, rfl, u, rfl, hu, hh, hrep, hkeys⟩
    refine wp_mono (wp_fixRound hh hrep hu) ?_
    rintro (pt' | _) s'' hres
    · obtain ⟨gs', hlt, hres⟩ := hres
      rw [hkeys] at hres
      exact ⟨gs'.length, hlt, gs', rfl, hres⟩
    · obtain ⟨rfl, hok⟩ := hres
      obtain ⟨m, hm, hma⟩ := hrep.black
      exact ⟨plug gs u, plug_ne_nil hu, holds_plug.mp hh, hok, blackHeight_plug hm hma, hkeys⟩
  refine wp_mono hloop ?_
  rintro - s' ⟨u, hu, hh, hok, hb, hkeys⟩
  obtain ⟨a, c, k, l, r, rfl⟩ := Tree.exists_join hu .left
  have hroot := hh.root
  simp only [plug, Tree.root_join] at hroot
  rw [← hkeys] at hk
  rw [wp_bind, wp_getReg, hroot, wp_store, cell_of_holds hh]
  exact ⟨rfl, _, holds_setColor hh, redBlack_blacken hk hok hb, hkeys⟩

end C11AndC.RedBlack
