import C11AndC.Articulation.Counter

namespace C11AndC.Articulation

open C11AndC.Library

variable {V : Nat}

section Calls

variable {g : Graph V} {gray : Fin V → Prop} {u : Fin V} {s s₀ : Search V} {n : Nat}

theorem unvisited_lt (hmono : ∀ x, s₀.visited x = true → s.visited x = true) (hu : New s₀ s u) :
    unvisited s < unvisited s₀ := by
  refine Finset.card_lt_card (Finset.ssubset_iff_of_subset (fun x hx => ?_) |>.mpr ⟨u, ?_, ?_⟩)
  · rw [Finset.mem_filter] at hx ⊢
    refine ⟨hx.1, ?_⟩
    by_contra hne
    have hx' := hmono x (by simpa using hne)
    rw [hx.2] at hx'
    cases hx'
  · simp [hu.2]
  · simp [hu.1]

theorem apLoop_done (h : Ready g gray u s₀) (hE : ∀ a b, Edge g a b → Edge g b a)
    (hn : unvisited s₀ ≤ n + 1)
    (hcall : ∀ gray v s, Ready g gray v s → Room s → unvisited s ≤ n →
      ∃ s', apUtil g n v s = some s' ∧ Done g v s s')
    {seen rest : List (Fin V)} {children : Nat} (hl : Looping g u s₀ s children seen) (hroom : Room s)
    (hrest : seen ++ rest = g.adj u) :
    ∃ s', apLoop (apUtil g n) u rest children s = some s' ∧ Done g u s₀ s' := by
  induction rest generalizing seen s children with
  | nil =>
    rw [List.append_nil] at hrest
    exact ⟨s, rfl, done_of_looping h (hrest ▸ hl) hE⟩
  | cons v rest ih =>
    have huv : Edge g u v := by
      rw [Edge, ← hrest]
      simp
    have hrest' : (seen ++ [v]) ++ rest = g.adj u := by rw [List.append_assoc, List.singleton_append, hrest]
    rw [apLoop]
    by_cases hv : s.visited v = true
    · have hback := looping_back hl hv
      rw [if_neg (by simp [hv])]
      split_ifs with hp
      · rw [if_pos hp] at hback
        exact ih hback (hroom.counts (counts_touched (touched_lower ..))) hrest'
      · rw [if_neg hp] at hback
        exact ih hback hroom hrest'
    · have hfresh : s.visited v = false := by simpa using hv
      have hlt := unvisited_lt hl.mono hl.self
      have hset : Room (setParent v u s) := hroom.counts (.of_eq rfl rfl)
      have hchild : (setParent v u s).visited v = false := hfresh
      obtain ⟨s', hs', hd⟩ := hcall _ v _ (ready_child h hl.toGrown hE hfresh huv) hset
        (Nat.le_of_lt_succ (Nat.lt_of_lt_of_le hlt hn))
      have hroom' := hset.counts (apUtil_counts hchild hs').1
      obtain ⟨t, ht, hdone⟩ := ih (looping_child h hl hd hE huv)
        (hroom'.counts (counts_touched (touched_judge ..))) hrest'
      rw [if_pos hfresh, hs']
      exact ⟨t, ht, hdone⟩

/-- A call returns as soon as it may go as deep as there are vertices not visited. -/
theorem apUtil_done (h : Ready g gray u s) (hE : ∀ a b, Edge g a b → Edge g b a) (hroom : Room s)
    (hn : unvisited s ≤ n) : ∃ s', apUtil g n u s = some s' ∧ Done g u s s' := by
  induction n generalizing gray u s with
  | zero =>
    have hmem : u ∈ Finset.univ.filter fun x => s.visited x = false := by simp [h.fresh]
    exact absurd (Finset.card_pos.mpr ⟨u, hmem⟩) (Nat.not_lt.mpr hn)
  | succ n ih =>
    have henter := enter_room hroom h.fresh
    rw [apUtil, henter]
    exact apLoop_done h hE hn (fun gray v s hv hr hs => ih hv hr hs) (looping_stamp h)
      (hroom.counts (enter_counts h.fresh henter).1) rfl

end Calls

/-- The state between the calls at the roots: the visited vertices are dealt with. -/
structure Swept (g : Graph V) (s : Search V) : Prop where
  closed : ∀ x y, s.visited x = true → Edge g x y → s.visited y = true
  unparented : ∀ x, s.visited x = false → s.parent x = none
  unmarked : ∀ x, s.visited x = false → s.ap x = false
  disc_le : ∀ x, s.visited x = true → s.disc x ≤ s.time
  ap : ∀ x, s.visited x = true → (s.ap x = true ↔ Separates (Edge g) x)

section Roots

variable {g : Graph V} {i : Fin V} {s s' : Search V} {n : Nat}

theorem ready_root (h : Swept g s) (hi : s.visited i = false) : Ready g (fun _ => False) i s := by
  refine ⟨hi, fun _ hx => hx.elim, fun x y hx _ => h.closed x y hx, fun _ _ hx => hx.elim, fun _ _ hx => hx, ?_,
    h.disc_le, h.unmarked⟩
  intro p hp
  rw [h.unparented i hi] at hp
  cases hp

theorem swept_root (h : Swept g s) (hd : Done g i s s') : Swept g s' := by
  have hcases : ∀ x, s'.visited x = true → s.visited x = true ∨ New s s' x := by
    intro x hx
    cases hx₀ : s.visited x
    · exact .inr ⟨hx, hx₀⟩
    · exact .inl rfl
  have hold : ∀ x, s.visited x = true → ¬ New s s' x := fun x hx hnew => by
    rw [New, hx] at hnew
    cases hnew.2
  have hrest : ∀ x, s'.visited x = false → ¬ New s s' x ∧ s.visited x = false := by
    intro x hx
    refine ⟨fun hnew => ?_, ?_⟩
    · rw [New, hx] at hnew
      cases hnew.1
    · by_contra hne
      have hx' := hd.mono x (by simpa using hne)
      rw [hx] at hx'
      cases hx'
  refine ⟨fun x y hx hxy => ?_, fun x hx => ?_, fun x hx => ?_, fun x hx => ?_, fun x hx => ?_⟩
  · obtain hx | hx := hcases x hx
    · exact hd.mono y (h.closed x y hx hxy)
    · exact done_closed hd hx hxy
  · obtain ⟨hnot, hx₀⟩ := hrest x hx
    exact (hd.parent_old x (.inl hnot)).trans (h.unparented x hx₀)
  · obtain ⟨hnot, hx₀⟩ := hrest x hx
    exact (hd.ap_old x hnot).trans (h.unmarked x hx₀)
  · obtain hx | hx := hcases x hx
    · have hle := h.disc_le x hx
      have hself := hd.disc_self
      have hbound := (hd.disc_new i hd.self).2
      rw [hd.disc_old x hx]
      omega
    · exact (hd.disc_new x hx).2
  · obtain hx | hx := hcases x hx
    · rw [hd.ap_old x (hold x hx)]
      exact h.ap x hx
    · exact done_ap hd hx

theorem apRoots_swept (hE : ∀ a b, Edge g a b → Edge g b a) (hn : V ≤ n) (is : List (Fin V)) (h : Swept g s)
    (hroom : Room s) : ∃ s', apRoots g n is s = some s' ∧ Swept g s' := by
  induction is generalizing s with
  | nil => exact ⟨s, rfl, h⟩
  | cons i is ih =>
    by_cases hi : s.visited i = false
    · have hle : unvisited s ≤ n := (Finset.card_le_univ _).trans (by rwa [Fintype.card_fin])
      obtain ⟨t, ht, hd⟩ := apUtil_done (ready_root h hi) hE hroom hle
      obtain ⟨s', hs', hswept⟩ := ih (swept_root h hd) (hroom.counts (apUtil_counts hi ht).1)
      exact ⟨s', by simp [apRoots, hi, ht, hs'], hswept⟩
    · obtain ⟨s', hs', hswept⟩ := ih h hroom
      exact ⟨s', by simp [apRoots, hi, hs'], hswept⟩

end Roots

section Build

variable {edges : List (Fin V × Fin V)} {x y : Fin V}

/-- The undirected graph with these edges. -/
def graphOf (edges : List (Fin V × Fin V)) : SimpleGraph (Fin V) :=
  SimpleGraph.fromRel fun x y => (x, y) ∈ edges

theorem edge_pushBack {g : Graph V} {v w : Fin V} : Edge (pushBack g v w) x y ↔ Edge g x y ∨ x = v ∧ y = w := by
  by_cases hx : x = v
  · simp [Edge, pushBack, hx]
  · simp [Edge, pushBack, hx]

theorem edge_foldl (g : Graph V) : Edge (edges.foldl (fun g e => addEdge g e.1 e.2) g) x y ↔
    Edge g x y ∨ (x, y) ∈ edges ∨ (y, x) ∈ edges := by
  induction edges generalizing g with
  | nil => simp
  | cons e edges ih =>
    obtain ⟨v, w⟩ := e
    rw [List.foldl_cons, ih, addEdge, edge_pushBack, edge_pushBack]
    simp only [List.mem_cons, Prod.mk.injEq]
    tauto

theorem edge_build : Edge (build edges) x y ↔ (x, y) ∈ edges ∨ (y, x) ∈ edges := by
  rw [build, edge_foldl]
  simp [Edge, newGraph]

theorem edge_symm (edges : List (Fin V × Fin V)) (x y : Fin V) (h : Edge (build edges) x y) :
    Edge (build edges) y x := edge_build.mpr (edge_build.mp h).symm

theorem graphOf_eq : SimpleGraph.fromRel (Edge (build edges)) = graphOf edges := by
  ext x y
  simp only [graphOf, SimpleGraph.fromRel_adj, edge_build]
  tauto

end Build

/-- With room for every vertex the vertices that are printed are, in increasing order, those without
which the graph has more components. -/
theorem ap_cuts (edges : List (Fin V × Fin V)) {n : Nat} (hn : V ≤ n) {time : Int} (disc low : Fin V → Int)
    (htime : IsInt time) (hroom : time + V ≤ INT_MAX) :
    ∃ out t, ap (build edges) n time disc low = some (out, t) ∧ out.Pairwise (· < ·) ∧
      ∀ u, u ∈ out ↔ Nat.card (graphOf edges).ConnectedComponent <
        Nat.card ((graphOf edges).induce {u}ᶜ).ConnectedComponent := by
  have hE := edge_symm edges
  have hstart : Swept (build edges) (start time disc low) := by
    refine ⟨?_, fun _ _ => rfl, fun _ _ => rfl, ?_, ?_⟩ <;> simp [start]
  obtain ⟨s, hs, hswept⟩ := apRoots_swept hE hn (List.finRange V) hstart
    ⟨htime, by rw [unvisited_start]; exact hroom⟩
  obtain ⟨-, hall⟩ := apRoots_counts hs
  refine ⟨(List.finRange V).filter s.ap, s.time, by simp [ap, hs], ?_, fun u => ?_⟩
  · exact (List.pairwise_lt_finRange V).filter _
  · rw [List.mem_filter, ← graphOf_eq, ← separates_iff hE]
    have hu := List.mem_finRange u
    rw [hswept.ap u (hall u hu)]
    exact ⟨fun h => h.2, fun h => ⟨hu, h⟩⟩

/-- The cut vertices are printed exactly if the counter does not overflow. -/
theorem ap_prints_cuts_iff (edges : List (Fin V × Fin V)) (n : Nat) (hn : V ≤ n) (time : Int)
    (htime : IsInt time) (disc low : Fin V → Int) :
    (∃ out t, ap (build edges) n time disc low = some (out, t) ∧ out.Pairwise (· < ·) ∧
      ∀ u, u ∈ out ↔ Nat.card (graphOf edges).ConnectedComponent <
        Nat.card ((graphOf edges).induce {u}ᶜ).ConnectedComponent) ↔ time + V ≤ INT_MAX := by
  refine ⟨?_, ap_cuts edges hn disc low htime⟩
  rintro ⟨out, t, hap, -, -⟩
  obtain ⟨rfl, -, hmax⟩ := ap_time htime hap
  exact hmax

theorem ap_prints_cuts_path :
    ∃ out t, ap (build [((0 : Fin 3), 1), (0, 2)]) 3 7 (fun _ => 0) (fun _ => 0) = some (out, t) ∧
      out.Pairwise (· < ·) ∧ ∀ u, u ∈ out ↔ Nat.card (graphOf [((0 : Fin 3), 1), (0, 2)]).ConnectedComponent <
        Nat.card ((graphOf [((0 : Fin 3), 1), (0, 2)]).induce {u}ᶜ).ConnectedComponent :=
  (ap_prints_cuts_iff [(0, 1), (0, 2)] 3 (by decide) 7 (by decide) _ _).mpr (by decide)

/-- After 715827882 calls for graphs of three vertices the next one overflows at its second vertex. -/
theorem ap_overflow : IsInt (715827882 * 3) ∧
    ∀ n disc low, ap (build [((0 : Fin 3), 1), (0, 2)]) n (715827882 * 3) disc low = none := by
  refine ⟨by decide, fun n disc low => ?_⟩
  cases n with
  | zero => rfl
  | succ n =>
    cases n with
    | zero => rfl
    | succ n => rfl

end C11AndC.Articulation
