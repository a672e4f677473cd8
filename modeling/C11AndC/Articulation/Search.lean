import C11AndC.Articulation.Model
import C11AndC.Library.Cut

namespace C11AndC.Articulation

open C11AndC.Library

variable {V : Nat}

def Edge (g : Graph V) (x y : Fin V) : Prop := y ∈ g.adj x

/-- What is visited in the second state, but not in the first. -/
def New (s s' : Search V) (x : Fin V) : Prop := s'.visited x = true ∧ s.visited x = false

/-- The state in which `apUtil` is called at `u`, while the calls at the vertices `gray` go on.
Behind the other visited vertices everything is visited. -/
structure Ready (g : Graph V) (gray : Fin V → Prop) (u : Fin V) (s : Search V) : Prop where
  fresh : s.visited u = false
  grays : ∀ x, gray x → s.visited x = true
  black : ∀ x y, s.visited x = true → ¬ gray x → Edge g x y → s.visited y = true
  chain : ∀ x y, gray x → gray y → ReachIn (Edge g) gray x y
  parent_none : s.parent u = none → ∀ x, ¬ gray x
  parent_some : ∀ p, s.parent u = some p → gray p ∧ Edge g p u
  disc_le : ∀ x, s.visited x = true → s.disc x ≤ s.time
  unmarked : ∀ x, s.visited x = false → s.ap x = false

/-- What holds all the time from the call of `apUtil` at `u` to its end: the new vertices other than
`u` are dealt with, and the old ones are as they were. -/
structure Grown (g : Graph V) (u : Fin V) (s₀ s : Search V) : Prop where
  self : New s₀ s u
  mono : ∀ x, s₀.visited x = true → s.visited x = true
  disc_old : ∀ x, s₀.visited x = true → s.disc x = s₀.disc x
  low_old : ∀ x, ¬ New s₀ s x → s.low x = s₀.low x
  parent_old : ∀ x, ¬ New s₀ s x ∨ x = u → s.parent x = s₀.parent x
  ap_old : ∀ x, ¬ New s₀ s x → s.ap x = s₀.ap x
  disc_self : s.disc u = s₀.time + 1
  disc_new : ∀ x, New s₀ s x → s.disc u ≤ s.disc x ∧ s.disc x ≤ s.time
  reach : ∀ x, New s₀ s x → ReachIn (Edge g) (New s₀ s) u x
  closed : ∀ x y, New s₀ s x → x ≠ u → Edge g x y → s.visited y = true
  ap : ∀ x, New s₀ s x → x ≠ u → (s.ap x = true ↔ Separates (Edge g) x)

/-- What the call of `apUtil` at `u` leaves. -/
structure Done (g : Graph V) (u : Fin V) (s₀ s : Search V) : Prop extends Grown g u s₀ s where
  closed_self : ∀ y, Edge g u y → s.visited y = true
  ap_self : s.ap u = true ↔ Separates (Edge g) u
  low : ∀ b, b ≤ s.low u ↔ b ≤ s.disc u ∧ ∀ x w, New s₀ s x → s₀.visited w = true → Edge g x w →
    ¬ (x = u ∧ s₀.parent u = some w) → b ≤ s₀.disc w

/-- The loop at `u`, with the number of children so far; `seen` are the neighbours behind it. -/
structure Looping (g : Graph V) (u : Fin V) (s₀ s : Search V) (children : Nat) (seen : List (Fin V)) :
    Prop extends Grown g u s₀ s where
  visited_seen : ∀ x, x ∈ seen → s.visited x = true
  low : ∀ b, b ≤ s.low u ↔ b ≤ s.disc u ∧
    (∀ x w, New s₀ s x → x ≠ u → s₀.visited w = true → Edge g x w → b ≤ s₀.disc w) ∧
    ∀ w, w ∈ seen → s₀.visited w = true → s₀.parent u ≠ some w → b ≤ s₀.disc w
  root : s₀.parent u = none → (s.ap u = true ↔ 1 < children) ∧
    (children = 0 → ∀ x, New s₀ s x → x = u) ∧
    (0 < children → ∃ x, New s₀ s x ∧ x ≠ u) ∧
    (children = 1 → ∀ x y, New s₀ s x → New s₀ s y → x ≠ u → y ≠ u → ReachIn (Edge g) (· ≠ u) x y) ∧
    (1 < children → Separates (Edge g) u)
  inner : ∀ p, s₀.parent u = some p → (s.ap u = true → Separates (Edge g) u) ∧
    (s.ap u = false → ∀ x, New s₀ s x → x ≠ u → ReachIn (Edge g) (· ≠ u) x p)

section Stamp

variable {g : Graph V} {gray : Fin V → Prop} {u v w x y : Fin V} {s s' s₀ t : Search V} {children : Nat}
  {seen : List (Fin V)}

theorem new_stamp (h : s.visited u = false) : New s (stamp u (s.time + 1) s) x ↔ x = u := by
  by_cases hx : x = u
  · simp [New, stamp, hx, h]
  · simp [New, stamp, hx]

theorem ne_of_visited (h : s.visited u = false) (hx : s.visited x = true) : x ≠ u := by
  rintro rfl
  simp [h] at hx

theorem grown_stamp (h : Ready g gray u s) : Grown g u s (stamp u (s.time + 1) s) := by
  have hnew : ∀ {x}, New s (stamp u (s.time + 1) s) x ↔ x = u := new_stamp h.fresh
  have hother : ∀ x, ¬ New s (stamp u (s.time + 1) s) x → x ≠ u := fun x hx => mt hnew.mpr hx
  refine ⟨hnew.mpr rfl, fun x hx => ?_, fun x hx => ?_, fun x hx => ?_, fun _ _ => rfl, fun _ _ => rfl, ?_,
    fun x hx => ?_, fun x hx => ?_, fun x y hx hne => absurd (hnew.mp hx) hne,
    fun x hx hne => absurd (hnew.mp hx) hne⟩
  · simp [stamp, ne_of_visited h.fresh hx, hx]
  · simp [stamp, ne_of_visited h.fresh hx]
  · simp [stamp, hother x hx]
  · simp [stamp]
  · obtain rfl := hnew.mp hx
    simp [stamp]
  · obtain rfl := hnew.mp hx
    exact .refl

/-- The loop begins. -/
theorem looping_stamp (h : Ready g gray u s) : Looping g u s (stamp u (s.time + 1) s) 0 [] := by
  have hnew : ∀ {x}, New s (stamp u (s.time + 1) s) x ↔ x = u := new_stamp h.fresh
  have hunmarked : (stamp u (s.time + 1) s).ap u = false := h.unmarked u h.fresh
  refine ⟨grown_stamp h, fun x hx => absurd hx List.not_mem_nil, fun b => ?_, fun _ => ?_, fun p _ => ?_⟩
  · have hlow : (stamp u (s.time + 1) s).low u = (stamp u (s.time + 1) s).disc u := by simp [stamp]
    rw [hlow]
    refine ⟨fun hb => ⟨hb, fun x w hx hne => absurd (hnew.mp hx) hne, fun w hw => absurd hw List.not_mem_nil⟩,
      fun hb => hb.1⟩
  · refine ⟨by simp [hunmarked], fun _ x hx => hnew.mp hx, fun hpos => absurd hpos (Nat.lt_irrefl 0),
      fun hone => absurd hone Nat.zero_ne_one, fun hlt => absurd hlt (Nat.not_lt_zero 1)⟩
  · exact ⟨by simp [hunmarked], fun _ x hx hne => absurd (hnew.mp hx) hne⟩

end Stamp

section Touch

variable {g : Graph V} {u v x : Fin V} {s s₀ t : Search V} {b : Int} {children : Nat}

/-- The state is changed in the places of `u` in `low` and `ap` at most. -/
structure Touched (u : Fin V) (s t : Search V) : Prop where
  visited : t.visited = s.visited
  disc : t.disc = s.disc
  parent : t.parent = s.parent
  time : t.time = s.time
  low : ∀ x, x ≠ u → t.low x = s.low x
  ap : ∀ x, x ≠ u → t.ap x = s.ap x

theorem touched_lower (u : Fin V) (b : Int) (s : Search V) : Touched u s (lower u b s) :=
  ⟨rfl, rfl, rfl, rfl, fun _ hx => Function.update_of_ne hx .., fun _ _ => rfl⟩

theorem touched_judge (u v : Fin V) (children : Nat) (s : Search V) : Touched u s (judge u v children s) := by
  have hmark : ∀ s : Search V, Touched u s (mark u s) :=
    fun s => ⟨rfl, rfl, rfl, rfl, fun _ _ => rfl, fun _ hx => Function.update_of_ne hx ..⟩
  have htrans : ∀ {s t r : Search V}, Touched u s t → Touched u t r → Touched u s r := fun h h' =>
    ⟨h'.visited.trans h.visited, h'.disc.trans h.disc, h'.parent.trans h.parent, h'.time.trans h.time,
      fun x hx => (h'.low x hx).trans (h.low x hx), fun x hx => (h'.ap x hx).trans (h.ap x hx)⟩
  have hrefl : ∀ s : Search V, Touched u s s :=
    fun s => ⟨rfl, rfl, rfl, rfl, fun _ _ => rfl, fun _ _ => rfl⟩
  have hroot : ∀ s : Search V, Touched u s (judgeRoot u children s) := by
    intro s
    rw [judgeRoot]
    split_ifs
    · exact hmark s
    · exact hrefl s
  have hinner : ∀ s : Search V, Touched u s (judgeInner u v s) := by
    intro s
    rw [judgeInner]
    split_ifs
    · exact hmark s
    · exact hrefl s
  exact htrans (htrans (touched_lower u _ s) (hroot _)) (hinner _)

theorem new_touched (s₀ : Search V) (h : Touched u s t) : New s₀ t = New s₀ s := by
  funext x
  rw [New, New, h.visited]

theorem grown_touched (h : Grown g u s₀ s) (ht : Touched u s t) : Grown g u s₀ t := by
  have hnew := new_touched s₀ ht
  have hother : ∀ x, ¬ New s₀ s x → x ≠ u := fun x hx he => hx (he ▸ h.self)
  refine ⟨?_, ?_, ?_, ?_, ?_, ?_, ?_, ?_, ?_, ?_, ?_⟩
  · rw [hnew]
    exact h.self
  · rw [ht.visited]
    exact h.mono
  · rw [ht.disc]
    exact h.disc_old
  · rw [hnew]
    exact fun x hx => (ht.low x (hother x hx)).trans (h.low_old x hx)
  · rw [hnew, ht.parent]
    exact h.parent_old
  · rw [hnew]
    exact fun x hx => (ht.ap x (hother x hx)).trans (h.ap_old x hx)
  · rw [ht.disc]
    exact h.disc_self
  · rw [hnew, ht.disc, ht.time]
    exact h.disc_new
  · rw [hnew]
    exact h.reach
  · rw [hnew, ht.visited]
    exact h.closed
  · rw [hnew]
    intro x hx hne
    rw [ht.ap x hne]
    exact h.ap x hx hne

end Touch

section Piece

variable {g : Graph V} {gray : Fin V → Prop} {u v x y a p : Fin V} {s s' s₀ : Search V}

theorem done_closed (h : Done g u s s') (hx : New s s' x) (hxy : Edge g x y) : s'.visited y = true := by
  by_cases he : x = u
  · exact h.closed_self y (he ▸ hxy)
  · exact h.closed x y hx he hxy

theorem done_ap (h : Done g u s s') (hx : New s s' x) : s'.ap x = true ↔ Separates (Edge g) x := by
  by_cases he : x = u
  · exact he ▸ h.ap_self
  · exact h.ap x hx he

theorem new_or (hmono : ∀ x, s₀.visited x = true → s.visited x = true)
    (hmono' : ∀ x, s.visited x = true → s'.visited x = true) :
    New s₀ s' x ↔ New s₀ s x ∨ New s s' x := by
  have h₁ := hmono x
  have h₂ := hmono' x
  unfold New
  revert h₁ h₂
  cases s₀.visited x <;> cases s.visited x <;> cases s'.visited x <;> simp

/-- The child is called. -/
theorem ready_child (h : Ready g gray u s₀) (hg : Grown g u s₀ s) (hE : ∀ a b, Edge g a b → Edge g b a)
    (hv : s.visited v = false) (huv : Edge g u v) :
    Ready g (fun x => gray x ∨ x = u) v (setParent v u s) := by
  have hcases : ∀ x, s.visited x = true → s₀.visited x = true ∨ New s₀ s x := by
    intro x hx
    cases hx₀ : s₀.visited x
    · exact .inr ⟨hx, hx₀⟩
    · exact .inl rfl
  have hup : ∀ x, gray x → ReachIn (Edge g) (fun x => gray x ∨ x = u) u x := by
    intro x hx
    cases hp : s₀.parent u with
    | none => exact absurd hx (h.parent_none hp x)
    | some p =>
      obtain ⟨hgray, hpu⟩ := h.parent_some p hp
      have hedge : ReachIn (Edge g) (fun x => gray x ∨ x = u) u p :=
        reachIn_edge (hE p u hpu) (.inr rfl) (.inl hgray)
      exact reachIn_trans hedge (reachIn_mono (fun _ => .inl) (h.chain p x hgray hx))
  refine ⟨hv, ?_, ?_, ?_, ?_, ?_, ?_, ?_⟩
  · rintro x (hx | rfl)
    · exact hg.mono x (h.grays x hx)
    · exact hg.self.1
  · intro x y hx hnot hxy
    rw [not_or] at hnot
    obtain hx₀ | hnew := hcases x hx
    · exact hg.mono y (h.black x y hx₀ hnot.1 hxy)
    · exact hg.closed x y hnew hnot.2 hxy
  · rintro x y (hx | rfl) (hy | rfl)
    · exact reachIn_mono (fun _ => .inl) (h.chain x y hx hy)
    · exact reachIn_symm hE (hup x hx)
    · exact hup y hy
    · exact .refl
  · intro hnone
    simp [setParent] at hnone
  · intro p hp
    obtain rfl : u = p := by simpa [setParent] using hp
    exact ⟨.inr rfl, huv⟩
  · intro x hx
    obtain hx₀ | hnew := hcases x hx
    · have hle := h.disc_le x hx₀
      have hold := hg.disc_old x hx₀
      have hself := hg.disc_self
      have hnew := (hg.disc_new u hg.self).2
      simp only [setParent]
      omega
    · exact (hg.disc_new x hnew).2
  · intro x hx
    have hx₀ : s₀.visited x = false := by
      by_contra hne
      have hx' := hg.mono x (by simpa using hne)
      rw [show s.visited x = false from hx] at hx'
      cases hx'
    have hnot : ¬ New s₀ s x := fun hnew => by
      rw [New, show s.visited x = false from hx] at hnew
      cases hnew.1
    exact (hg.ap_old x hnot).trans (h.unmarked x hx₀)

theorem grown_child (hg : Grown g u s₀ s) (hd : Done g v (setParent v u s) s') (huv : Edge g u v) :
    Grown g u s₀ s' := by
  have hor : ∀ {x}, New s₀ s' x ↔ New s₀ s x ∨ New s s' x := new_or hg.mono hd.mono
  have hold : ∀ x, s.visited x = true → ¬ New s s' x := fun x hx hnew => by
    rw [New, hx] at hnew
    cases hnew.2
  have hself := hg.self.1
  have hdisc := hd.disc_self
  have hlt := hd.disc_new v hd.self
  have hle := hg.disc_new u hg.self
  simp only [setParent] at hdisc
  have hvnew : New s s' v := hd.self
  refine ⟨hor.mpr (.inl hg.self), fun x hx => hd.mono x (hg.mono x hx), fun x hx => ?_, fun x hx => ?_,
    fun x hx => ?_, fun x hx => ?_, ?_, fun x hx => ?_, fun x hx => ?_, fun x y hx hne hxy => ?_, fun x hx hne => ?_⟩
  · exact (hd.disc_old x (hg.mono x hx)).trans (hg.disc_old x hx)
  · rw [hor, not_or] at hx
    exact (hd.low_old x hx.2).trans (hg.low_old x hx.1)
  · have hxv : x ≠ v := by
      rintro rfl
      obtain hx | rfl := hx
      · exact hx (hor.mpr (.inr hvnew))
      · exact hold x hself hvnew
    have hnot : ¬ New s s' x := by
      obtain hx | rfl := hx
      · exact fun hnew => hx (hor.mpr (.inr hnew))
      · exact hold x hself
    have hparent : (setParent v u s).parent x = s.parent x := Function.update_of_ne hxv ..
    rw [hd.parent_old x (.inl hnot), hparent]
    exact hg.parent_old x (hx.imp_left fun hx hnew => hx (hor.mpr (.inl hnew)))
  · rw [hor, not_or] at hx
    exact (hd.ap_old x hx.2).trans (hg.ap_old x hx.1)
  · exact (hd.disc_old u hself).trans hg.disc_self
  · rw [hd.disc_old u hself]
    simp only [setParent]
    obtain hx | hx := hor.mp hx
    · have hx' := hg.disc_new x hx
      rw [hd.disc_old x hx.1]
      simp only [setParent]
      omega
    · have hx' := hd.disc_new x hx
      omega
  · obtain hx | hx := hor.mp hx
    · exact reachIn_mono (fun _ hz => hor.mpr (.inl hz)) (hg.reach x hx)
    · have hedge : ReachIn (Edge g) (New s₀ s') u v :=
        reachIn_edge huv (hor.mpr (.inl hg.self)) (hor.mpr (.inr hvnew))
      exact reachIn_trans hedge (reachIn_mono (fun _ hz => hor.mpr (.inr hz)) (hd.reach x hx))
  · obtain hx | hx := hor.mp hx
    · exact hd.mono y (hg.closed x y hx hne hxy)
    · exact done_closed hd hx hxy
  · obtain hx | hx := hor.mp hx
    · rw [hd.ap_old x (hold x hx.1)]
      exact hg.ap x hx hne
    · exact done_ap hd hx

/-- The neighbours of a new piece are in it, or they are `u`, or they were there before `u`. -/
theorem piece_edge (hg : Grown g u s₀ s) (hd : Done g v (setParent v u s) s')
    (hE : ∀ a b, Edge g a b → Edge g b a) (hx : New s s' x) (hxy : Edge g x y) :
    New s s' y ∨ y = u ∨ s₀.visited y = true := by
  by_cases hy : s.visited y = true
  · cases hy₀ : s₀.visited y
    · by_cases he : y = u
      · exact .inr (.inl he)
      · have hx' := hg.closed y x ⟨hy, hy₀⟩ he (hE x y hxy)
        rw [hx.2] at hx'
        cases hx'
    · exact .inr (.inr rfl)
  · exact .inl ⟨done_closed hd hx hxy, by simpa using hy⟩

/-- The piece is connected with nothing before `u`. -/
def Free (g : Graph V) (s₀ s s' : Search V) : Prop := ∀ x w, New s s' x → s₀.visited w = true → ¬ Edge g x w

theorem free_iff (h : Ready g gray u s₀) (hg : Grown g u s₀ s) (hd : Done g v (setParent v u s) s')
    (hE : ∀ a b, Edge g a b → Edge g b a) : s'.disc u ≤ s'.low v ↔ Free g s₀ s s' := by
  have hdiscu : s'.disc u = s.disc u := hd.disc_old u hg.self.1
  have hself := hg.disc_self
  rw [hd.low]
  constructor
  · rintro ⟨-, hlow⟩ x w hx hw hxw
    have hw' := hg.mono w hw
    have hle := hlow x w hx hw' hxw fun hexc => by
      obtain rfl : u = w := by simpa [setParent] using hexc.2
      simp [h.fresh] at hw
    have hold := hg.disc_old w hw
    have hbound := h.disc_le w hw
    simp only [setParent] at hle
    omega
  · intro hfree
    have hdisc := hd.disc_self
    have hle := (hg.disc_new u hg.self).2
    simp only [setParent] at hdisc
    refine ⟨by omega, fun x w hx hw hxw _ => ?_⟩
    obtain hnew | rfl | hw₀ := piece_edge hg hd hE hx hxw
    · rw [New, show s.visited w = true from hw] at hnew
      cases hnew.2
    · exact hdiscu.le
    · exact absurd hxw (hfree x w hx hw₀)

theorem piece_ne (hg : Grown g u s₀ s) (hx : New s s' x) : x ≠ u :=
  (ne_of_visited hx.2 hg.self.1).symm

theorem piece_reach (hg : Grown g u s₀ s) (hd : Done g v (setParent v u s) s') (hx : New s s' x) :
    ReachIn (Edge g) (· ≠ u) v x :=
  reachIn_mono (fun _ hz => piece_ne hg hz) (hd.reach x hx)

/-- A free piece is apart from all else without `u`. -/
theorem separates_of_free (hg : Grown g u s₀ s) (hd : Done g v (setParent v u s) s')
    (hE : ∀ a b, Edge g a b → Edge g b a) (huv : Edge g u v) (hfree : Free g s₀ s s') (ha : a ≠ u)
    (hnot : ¬ New s s' a) (hua : Relation.ReflTransGen (Edge g) u a) : Separates (Edge g) u := by
  have hvnew : New s s' v := hd.self
  refine ⟨v, a, piece_ne hg hvnew, ha, .head (hE u v huv) hua, fun hva => hnot ?_⟩
  refine reachIn_closed (fun x y hx hxy hy => ?_) hvnew hva
  obtain hnew | he | hy₀ := piece_edge hg hd hE hx hxy
  · exact hnew
  · exact absurd he hy
  · exact absurd hxy (hfree x y hx hy₀)

/-- A vertex before `u` with an edge to a new one is gray. -/
theorem gray_of_edge (h : Ready g gray u s₀) (hE : ∀ a b, Edge g a b → Edge g b a)
    (hx : s₀.visited x = false) (hy : s₀.visited y = true) (hxy : Edge g x y) : gray y := by
  by_contra hnot
  have hx' := h.black y x hy hnot (hE x y hxy)
  rw [hx] at hx'
  cases hx'

theorem gray_reach (h : Ready g gray u s₀) (hx : gray x) (hp : s₀.parent u = some p) :
    ReachIn (Edge g) (· ≠ u) x p := by
  refine reachIn_mono (fun z hz => ne_of_visited h.fresh (h.grays z hz)) (h.chain x p hx ?_)
  exact (h.parent_some p hp).1

theorem piece_fresh (hg : Grown g u s₀ s) (hx : New s s' x) : s₀.visited x = false := by
  by_contra hne
  have hx' := hg.mono x (by simpa using hne)
  rw [hx.2] at hx'
  cases hx'

/-- A piece that is not free is connected with the parent of `u`, without `u`. -/
theorem parent_of_not_free (h : Ready g gray u s₀) (hg : Grown g u s₀ s)
    (hd : Done g v (setParent v u s) s') (hE : ∀ a b, Edge g a b → Edge g b a)
    (hp : s₀.parent u = some p) (hnot : ¬ Free g s₀ s s') (hy : New s s' y) :
    ReachIn (Edge g) (· ≠ u) y p := by
  simp only [Free, not_forall, not_not] at hnot
  obtain ⟨x, w, hx, hw, hxw⟩ := hnot
  have hgray := gray_of_edge h hE (piece_fresh hg hx) hw hxw
  have hvw : ReachIn (Edge g) (· ≠ u) v w :=
    reachIn_trans (piece_reach hg hd hx) (reachIn_edge hxw (piece_ne hg hx) (ne_of_visited h.fresh hw))
  exact reachIn_trans (reachIn_symm hE (piece_reach hg hd hy)) (reachIn_trans hvw (gray_reach h hgray hp))

end Piece

section Loop

variable {g : Graph V} {gray : Fin V → Prop} {u v x : Fin V} {s s' s₀ : Search V} {children : Nat}
  {seen : List (Fin V)} {b : Int}

theorem judge_low : (judge u v children s).low u = min (s.low u) (s.low v) := by
  have hroot : ∀ s : Search V, (judgeRoot u children s).low = s.low := by
    intro s
    rw [judgeRoot]
    split_ifs <;> rfl
  have hinner : ∀ s : Search V, (judgeInner u v s).low = s.low := by
    intro s
    rw [judgeInner]
    split_ifs <;> rfl
  rw [judge, hinner, hroot]
  exact Function.update_self ..

theorem judge_ap (children : Nat) (s : Search V) (hne : v ≠ u) : (judge u v children s).ap u = true ↔
    s.ap u = true ∨ (s.parent u = none ∧ 1 < children) ∨ (s.parent u ≠ none ∧ s.disc u ≤ s.low v) := by
  have hlow : (lower u (s.low v) s).low v = s.low v := Function.update_of_ne hne ..
  have hroot : ∀ s : Search V, (judgeRoot u children s).ap u = true ↔
      s.ap u = true ∨ (s.parent u = none ∧ 1 < children) := by
    intro s
    rw [judgeRoot]
    split_ifs with h
    · simp [mark, h]
    · simp [h]
  have hsame : ∀ s : Search V, (judgeRoot u children s).parent = s.parent ∧
      (judgeRoot u children s).low = s.low ∧ (judgeRoot u children s).disc = s.disc := by
    intro s
    rw [judgeRoot]
    split_ifs <;> exact ⟨rfl, rfl, rfl⟩
  obtain ⟨hparent, hl, hdisc⟩ := hsame (lower u (s.low v) s)
  have hroot' := hroot (lower u (s.low v) s)
  rw [judge, judgeInner, hparent, hl, hdisc, hlow]
  split_ifs with h
  · exact ⟨fun _ => .inr (.inr h), fun _ => by simp [mark]⟩
  · rw [hroot', ← or_assoc]
    exact ⟨.inl, fun ho => ho.resolve_right h⟩

theorem free_of_root (h : Ready g gray u s₀) (hg : Grown g u s₀ s) (hE : ∀ a b, Edge g a b → Edge g b a)
    (hp : s₀.parent u = none) : Free g s₀ s s' :=
  fun _ w hx hw hxw => h.parent_none hp w (gray_of_edge h hE (piece_fresh hg hx) hw hxw)

/-- The low value of `u` after that of a child is taken in. -/
theorem low_child (h : Ready g gray u s₀) (hl : Looping g u s₀ s children seen)
    (hd : Done g v (setParent v u s) s') (hE : ∀ a b, Edge g a b → Edge g b a) :
    b ≤ min (s'.low u) (s'.low v) ↔ b ≤ s'.disc u ∧
      (∀ x w, New s₀ s' x → x ≠ u → s₀.visited w = true → Edge g x w → b ≤ s₀.disc w) ∧
      ∀ w, w ∈ seen ++ [v] → s₀.visited w = true → s₀.parent u ≠ some w → b ≤ s₀.disc w := by
  have hg := hl.toGrown
  have hor : ∀ {x}, New s₀ s' x ↔ New s₀ s x ∨ New s s' x := new_or hg.mono hd.mono
  have hvnew : New s s' v := hd.self
  have hnotu : ¬ New s s' u := fun hu => piece_ne hg hu rfl
  have hlowu : s'.low u = s.low u := hd.low_old u hnotu
  have hdiscu : s'.disc u = s.disc u := hd.disc_old u hg.self.1
  rw [le_min_iff, hlowu, hdiscu, hl.low, hd.low]
  constructor
  · rintro ⟨⟨hb, hnew, hseen⟩, -, hpiece⟩
    refine ⟨hb, fun x w hx hxu hw hxw => ?_, fun w hw hw₀ hp => ?_⟩
    · obtain hx | hx := hor.mp hx
      · exact hnew x w hx hxu hw hxw
      · have hle := hpiece x w hx (hg.mono w hw) hxw fun hexc => by
          obtain rfl : u = w := by simpa [setParent] using hexc.2
          simp [h.fresh] at hw
        exact hle.trans (hg.disc_old w hw).le
    · obtain hw | hw := List.mem_append.mp hw
      · exact hseen w hw hw₀ hp
      · rw [List.mem_singleton.mp hw, piece_fresh hg hvnew] at hw₀
        cases hw₀
  · rintro ⟨hb, hnew, hseen⟩
    refine ⟨⟨hb, fun x w hx => hnew x w (hor.mpr (.inl hx)), fun w hw => hseen w (List.mem_append_left _ hw)⟩, ?_,
      fun x w hx hw hxw _ => ?_⟩
    · have hdisc := hd.disc_self
      have hle := (hg.disc_new u hg.self).2
      simp only [setParent] at hdisc
      omega
    · obtain hw' | rfl | hw₀ := piece_edge hg hd hE hx hxw
      · rw [New, show s.visited w = true from hw] at hw'
        cases hw'.2
      · exact hb
      · exact (hnew x w (hor.mpr (.inr hx)) (piece_ne hg hx) hw₀ hxw).trans (hg.disc_old w hw₀).ge

/-- A child has returned. -/
theorem looping_child (h : Ready g gray u s₀) (hl : Looping g u s₀ s children seen)
    (hd : Done g v (setParent v u s) s') (hE : ∀ a b, Edge g a b → Edge g b a) (huv : Edge g u v) :
    Looping g u s₀ (judge u v (children + 1) s') (children + 1) (seen ++ [v]) := by
  have hg := hl.toGrown
  have hg' := grown_child hg hd huv
  have ht := touched_judge u v (children + 1) s'
  have hnew := new_touched s₀ ht
  have hor : ∀ {x}, New s₀ s' x ↔ New s₀ s x ∨ New s s' x := new_or hg.mono hd.mono
  have hvnew : New s s' v := hd.self
  have hvu : v ≠ u := piece_ne hg hvnew
  have hold : ∀ x, s.visited x = true → ¬ New s s' x := fun x hx hx' => by
    rw [New, hx] at hx'
    cases hx'.2
  have hself := hg.self.1
  have hapu : s'.ap u = s.ap u := hd.ap_old u (hold u hself)
  have hparent : s'.parent u = s₀.parent u := hg'.parent_old u (.inr rfl)
  have hap := judge_ap (children + 1) s' hvu
  refine ⟨grown_touched hg' ht, fun x hx => ?_, fun b => ?_, fun hp => ?_, fun p hp => ?_⟩
  · rw [ht.visited]
    obtain hx | hx := List.mem_append.mp hx
    · exact hd.mono x (hl.visited_seen x hx)
    · exact List.mem_singleton.mp hx ▸ hvnew.1
  · rw [judge_low, hnew, ht.disc]
    exact low_child h hl hd hE
  · have hfree : Free g s₀ s s' := free_of_root h hg hE hp
    obtain ⟨hmark, hzero, hpos, hone, hmore⟩ := hl.root hp
    rw [hnew]
    refine ⟨?_, fun he => absurd he (Nat.succ_ne_zero children), fun _ => ⟨v, hor.mpr (.inr hvnew), hvu⟩,
      fun he x y hx hy hxu hyu => ?_, fun hlt => ?_⟩
    · rw [hap, hapu, hmark, hparent, hp]
      simp only [true_and, ne_eq, not_true_eq_false, false_and, or_false]
      omega
    · have hpiece : ∀ z, New s₀ s' z → z ≠ u → New s s' z := fun z hz hzu =>
        (hor.mp hz).resolve_left fun hz' => hzu (hzero (Nat.succ.inj he) z hz')
      exact reachIn_trans (reachIn_symm hE (piece_reach hg hd (hpiece x hx hxu)))
        (piece_reach hg hd (hpiece y hy hyu))
    · obtain ⟨a, ha, hau⟩ := hpos (Nat.lt_of_succ_lt_succ hlt)
      exact separates_of_free hg hd hE huv hfree hau (hold a ha.1) (reachIn_forget (hg.reach a ha))
  · obtain ⟨hmarked, hunmarked⟩ := hl.inner p hp
    obtain ⟨hgray, hpu⟩ := h.parent_some p hp
    have hpv := h.grays p hgray
    have hiff := free_iff h hg hd hE
    rw [hnew]
    constructor
    · intro hm
      obtain hm | ⟨hnone, -⟩ | ⟨-, hle⟩ := hap.mp hm
      · exact hmarked (hapu ▸ hm)
      · rw [hparent, hp] at hnone
        cases hnone
      · exact separates_of_free hg hd hE huv (hiff.mp hle) (ne_of_visited h.fresh hpv)
          (hold p (hg.mono p hpv)) (.single (hE p u hpu))
    · intro hm x hx hxu
      have hnot := mt hap.mpr (Bool.eq_false_iff.mp hm)
      rw [not_or, not_or, hparent, hp] at hnot
      obtain hx | hx := hor.mp hx
      · exact hunmarked (by simpa [hapu] using hnot.1) x hx hxu
      · refine parent_of_not_free h hg hd hE hp (fun hfree => hnot.2.2 ⟨Option.some_ne_none p, ?_⟩) hx
        exact hiff.mpr hfree

/-- A neighbour that is visited already. -/
theorem looping_back (hl : Looping g u s₀ s children seen) (hv : s.visited v = true) :
    Looping g u s₀ (if some v ≠ s.parent u then lower u (s.disc v) s else s) children (seen ++ [v]) := by
  have hg := hl.toGrown
  have hparent : s.parent u = s₀.parent u := hg.parent_old u (.inr rfl)
  have hseen : ∀ x, x ∈ seen ++ [v] → s.visited x = true := fun x hx =>
    (List.mem_append.mp hx).elim (hl.visited_seen x) fun hx => List.mem_singleton.mp hx ▸ hv
  rw [hparent]
  split_ifs with hp
  · refine ⟨grown_touched hg (touched_lower u _ s), hseen, fun b => ?_, hl.root, hl.inner⟩
    have hlow : (lower u (s.disc v) s).low u = min (s.low u) (s.disc v) := Function.update_self ..
    rw [hlow, le_min_iff, hl.low]
    constructor
    · rintro ⟨⟨hb, hnew, hold⟩, hle⟩
      refine ⟨hb, hnew, fun w hw hw₀ hpw => ?_⟩
      obtain hw | hw := List.mem_append.mp hw
      · exact hold w hw hw₀ hpw
      · obtain rfl := List.mem_singleton.mp hw
        exact hle.trans (hg.disc_old w hw₀).le
    · rintro ⟨hb, hnew, hold⟩
      refine ⟨⟨hb, hnew, fun w hw => hold w (List.mem_append_left _ hw)⟩, ?_⟩
      cases hv₀ : s₀.visited v
      · exact hb.trans (hg.disc_new v ⟨hv, hv₀⟩).1
      · have hle := hold v (List.mem_append_right _ (List.mem_singleton_self v)) hv₀ (Ne.symm hp)
        exact hle.trans (hg.disc_old v hv₀).ge
  · rw [not_not] at hp
    refine ⟨hg, hseen, fun b => ?_, hl.root, hl.inner⟩
    rw [hl.low]
    constructor
    · rintro ⟨hb, hnew, hold⟩
      refine ⟨hb, hnew, fun w hw hw₀ hpw => ?_⟩
      obtain hw | hw := List.mem_append.mp hw
      · exact hold w hw hw₀ hpw
      · exact absurd (hp.symm.trans (congrArg some (List.mem_singleton.mp hw).symm)) hpw
    · rintro ⟨hb, hnew, hold⟩
      exact ⟨hb, hnew, fun w hw => hold w (List.mem_append_left _ hw)⟩

/-- The neighbours of `u` are new, or gray. -/
theorem neighbour (h : Ready g gray u s₀) (hl : Looping g u s₀ s children (g.adj u))
    (hE : ∀ a b, Edge g a b → Edge g b a) (hux : Edge g u x) : New s₀ s x ∨ gray x := by
  cases hx : s₀.visited x
  · exact .inl ⟨hl.visited_seen x hux, hx⟩
  · exact .inr (gray_of_edge h hE h.fresh hx hux)

/-- The loop is at its end. -/
theorem done_of_looping (h : Ready g gray u s₀) (hl : Looping g u s₀ s children (g.adj u))
    (hE : ∀ a b, Edge g a b → Edge g b a) : Done g u s₀ s := by
  refine ⟨hl.toGrown, fun y hy => hl.visited_seen y hy, ?_, fun b => ?_⟩
  · cases hp : s₀.parent u with
    | none =>
      obtain ⟨hmark, hzero, -, hone, hmore⟩ := hl.root hp
      refine ⟨fun hm => hmore (hmark.mp hm), fun hsep => hmark.mpr ?_⟩
      by_contra hle
      have hnew : ∀ a, Edge g u a → New s₀ s a := fun a ha =>
        (neighbour h hl hE ha).resolve_right (h.parent_none hp a)
      refine not_separates hE (fun a b ha hb hau hbu => ?_) hsep
      obtain hz | ho : children = 0 ∨ children = 1 := by omega
      · exact absurd (hzero hz a (hnew a ha)) hau
      · exact hone ho a b (hnew a ha) (hnew b hb) hau hbu
    | some p =>
      obtain ⟨hmarked, hunmarked⟩ := hl.inner p hp
      refine ⟨hmarked, fun hsep => ?_⟩
      by_contra hm
      have hto : ∀ a, Edge g u a → a ≠ u → ReachIn (Edge g) (· ≠ u) a p := by
        intro a ha hau
        obtain ha | ha := neighbour h hl hE ha
        · exact hunmarked (by simpa using hm) a ha hau
        · exact gray_reach h ha hp
      exact not_separates hE (fun a b ha hb hau hbu => reachIn_trans (hto a ha hau)
        (reachIn_symm hE (hto b hb hbu))) hsep
  · rw [hl.low]
    constructor
    · rintro ⟨hb, hnew, hold⟩
      refine ⟨hb, fun x w hx hw hxw hnot => ?_⟩
      by_cases hxu : x = u
      · exact hold w (hxu ▸ hxw) hw fun hp => hnot ⟨hxu, hp⟩
      · exact hnew x w hx hxu hw hxw
    · rintro ⟨hb, hall⟩
      exact ⟨hb, fun x w hx hxu hw hxw => hall x w hx hw hxw fun he => hxu he.1,
        fun w hw hw₀ hp => hall u w hl.self hw₀ hw fun he => hp he.2⟩

end Loop

end C11AndC.Articulation
