import C11AndC.RedBlack.Rounds

namespace C11AndC.RedBlack

open C11AndC.Library

namespace Tree

def leaf (pt : Nat) (c : Color) (key : Int) : Tree := node pt c key nil nil

/-- The tree with a new leaf at the place where its key is looked for. -/
def attach (pt : Nat) (c : Color) (key : Int) : Tree → Tree
  | nil => leaf pt c key
  | node a c' k l r =>
      if key < k then node a c' k (l.attach pt c key) r
      else if key > k then node a c' k l (r.attach pt c key)
      else node a c' k l r

end Tree

/-- The nodes met on the way down to the place of a key. -/
def descend (key : Int) : List Frame → Tree → List Frame
  | fs, .nil => fs
  | fs, .node a c k l r =>
      if key < k then descend key (⟨.left, a, c, k, r⟩ :: fs) l
      else descend key (⟨.right, a, c, k, l⟩ :: fs) r

variable {pt : Nat} {c : Color} {key : Int} {t : Tree}

theorem plug_descend_nil (key : Int) (fs : List Frame) (t : Tree) :
    plug (descend key fs t) .nil = plug fs t := by
  induction t generalizing fs with
  | nil => rfl
  | node a c k l r ihl ihr =>
    by_cases h : key < k
    · rw [descend, if_pos h, ihl]
      rfl
    · rw [descend, if_neg h, ihr]
      rfl

theorem plug_descend_leaf (pt : Nat) (c : Color) (h : key ∉ t.keys) (fs : List Frame) :
    plug (descend key fs t) (.leaf pt c key) = plug fs (t.attach pt c key) := by
  induction t generalizing fs with
  | nil => rfl
  | node a c' k l r ihl ihr =>
    simp only [Tree.keys, List.mem_append, List.mem_cons, not_or] at h
    by_cases hk : key < k
    · rw [descend, if_pos hk, ihl h.1, Tree.attach, if_pos hk]
      rfl
    · have hgt : key > k := by omega
      rw [descend, if_neg hk, ihr h.2.2, Tree.attach, if_neg hk, if_pos hgt]
      rfl

theorem length_descend (key : Int) (fs : List Frame) (t : Tree) :
    (descend key fs t).length ≤ fs.length + t.keys.length := by
  induction t generalizing fs with
  | nil => simp [descend, Tree.keys]
  | node a c k l r ihl ihr =>
    simp only [Tree.keys, List.length_append, List.length_cons]
    by_cases h : key < k
    · rw [descend, if_pos h]
      have := ihl (⟨.left, a, c, k, r⟩ :: fs)
      simp only [List.length_cons] at this
      omega
    · rw [descend, if_neg h]
      have := ihr (⟨.right, a, c, k, l⟩ :: fs)
      simp only [List.length_cons] at this
      omega

/-- What is new to the list behind an entry is new to the whole list. -/
theorem perm_behind {α : Type} {x y : α} {xs ys ys' : List α} (h : ys'.Perm (y :: ys)) :
    (xs ++ x :: ys').Perm (y :: (xs ++ x :: ys)) := by
  have hcons : (x :: ys').Perm (y :: x :: ys) := (h.cons x).trans (List.Perm.swap y x ys)
  exact (hcons.append_left xs).trans List.perm_middle

theorem keys_attach (h : key ∉ t.keys) : (t.attach pt c key).keys.Perm (key :: t.keys) := by
  induction t with
  | nil => exact .refl _
  | node a c' k l r ihl ihr =>
    simp only [Tree.keys, List.mem_append, List.mem_cons, not_or] at h
    by_cases hk : key < k
    · rw [Tree.attach, if_pos hk]
      exact (ihl h.1).append_right _
    · have hgt : key > k := by omega
      rw [Tree.attach, if_neg hk, if_pos hgt]
      exact perm_behind (ihr h.2.2)

theorem addrs_attach (pt : Nat) (c : Color) (h : key ∉ t.keys) : (t.attach pt c key).addrs.Perm (pt :: t.addrs) := by
  induction t with
  | nil => exact .refl _
  | node a c' k l r ihl ihr =>
    simp only [Tree.keys, List.mem_append, List.mem_cons, not_or] at h
    by_cases hk : key < k
    · rw [Tree.attach, if_pos hk]
      exact (ihl h.1).append_right _
    · have hgt : key > k := by omega
      rw [Tree.attach, if_neg hk, if_pos hgt]
      exact perm_behind (ihr h.2.2)

theorem sorted_attach (h : key ∉ t.keys) (hs : t.keys.Pairwise (· < ·)) :
    (t.attach pt c key).keys.Pairwise (· < ·) := by
  induction t with
  | nil => simp [Tree.attach, Tree.leaf, Tree.keys]
  | node a c' k l r ihl ihr =>
    simp only [Tree.keys, List.mem_append, List.mem_cons, not_or] at h
    simp only [Tree.keys, List.pairwise_append, List.pairwise_cons, List.mem_cons] at hs
    obtain ⟨hl, ⟨hkr, hr⟩, hlk⟩ := hs
    by_cases hk : key < k
    · rw [Tree.attach, if_pos hk]
      simp only [Tree.keys, List.pairwise_append, List.pairwise_cons, List.mem_cons,
        (keys_attach h.1).mem_iff]
      refine ⟨ihl h.1 hl, ⟨hkr, hr⟩, ?_⟩
      rintro x (rfl | hx) y (rfl | hy)
      · exact hk
      · exact Int.lt_trans hk (hkr y hy)
      · exact hlk x hx y (.inl rfl)
      · exact hlk x hx y (.inr hy)
    · have hgt : key > k := by omega
      rw [Tree.attach, if_neg hk, if_pos hgt]
      simp only [Tree.keys, List.pairwise_append, List.pairwise_cons, List.mem_cons,
        (keys_attach h.2.2).mem_iff]
      refine ⟨hl, ⟨?_, ihr h.2.2 hr⟩, ?_⟩
      · rintro x (rfl | hx)
        · exact hgt
        · exact hkr x hx
      · rintro x hx y (rfl | rfl | hy)
        · exact hlk x hx y (.inl rfl)
        · exact Int.lt_trans (hlk x hx k (.inl rfl)) hgt
        · exact hlk x hx y (.inr hy)

theorem cell_of_mem {m : Memory Node} {par a : Nat} (hs : Shape m par t) (h : a ∈ t.addrs) :
    ∃ v, m.cell a = some v := by
  induction t generalizing par with
  | nil => simp [Tree.addrs] at h
  | node b c k l r ihl ihr =>
    simp only [Tree.addrs, List.mem_append, List.mem_cons] at h
    obtain h | rfl | h := h
    · exact ihl hs.2.1 h
    · exact ⟨_, hs.1⟩
    · exact ihr hs.2.2 h

theorem wp_link {s : Store Node Nat} {d : Side} {a p q par : Nat} {k : Int} {x y : Tree}
    (hc : s.mem.cell a = some (.join d k c p y.root par)) (hx : Shape s.mem q x)
    (hy : Shape s.mem a y) (hne : x ≠ .nil) (hn : (a :: (x.addrs ++ y.addrs)).Nodup) :
    wp (link d a x.root) (fun _ s' => Shape s'.mem par (.join d a c k x y) ∧
      Memory.SameExcept (a :: x.addrs) s.mem s'.mem ∧ s'.reg = s.reg) s := by
  simp only [List.nodup_cons, List.mem_append, not_or, List.nodup_append'] at hn
  obtain ⟨⟨hax, hay⟩, hnx, -, hxy⟩ := hn
  obtain ⟨b, cb, kb, u, v, rfl⟩ := Tree.exists_join hne .left
  have hb := (shape_join.mp hx).1
  have hba : b ∈ (Tree.join .left b cb kb u v).addrs := Tree.root_mem_addrs ..
  have hne : b ≠ a := ne_of_mem_of_not_mem hba hax
  simp only [link, Tree.root_join, wp_bind, wp_store, hc, Option.isSome_some, true_and,
    Memory.cell_modify_ne _ hne, hb, and_true]
  refine ⟨shape_join.mpr ⟨?_, shape_setParent hnx (shape_modify hax hx), ?_⟩, ?_⟩
  · rw [Memory.cell_modify_ne _ hne.symm, Memory.cell_modify_self, hc, Option.map_some,
      Node.setChild_join, Tree.root_join]
  · exact shape_modify (fun h => hxy hba h) (shape_modify hay hy)
  · exact Memory.sameExcept_trans (Memory.sameExcept_modify List.mem_cons_self _ _)
      (Memory.sameExcept_modify (List.mem_cons_of_mem _ hba) _ _)

theorem attach_ne_nil : t.attach pt c key ≠ .nil := by
  cases t with
  | nil => exact Tree.noConfusion
  | node a c' k l r =>
    rw [Tree.attach]
    split_ifs <;> exact Tree.noConfusion

/-- The way back from one level of the recursion. -/
theorem wp_attached {s s' : Store Node Nat} {d : Side} {a par : Nat} {c' : Color} {k : Int}
    {x y : Tree} (hs : Shape s.mem par (.join d a c' k x y))
    (hn : (pt :: (Tree.join d a c' k x y).addrs).Nodup) (hk : key ∉ x.keys)
    (hx : Shape s'.mem (if x = .nil then 0 else a) (x.attach pt c key))
    (hsame : Memory.SameExcept (pt :: x.addrs) s.mem s'.mem) (hreg : s'.reg = s.reg) :
    wp (link d a (x.attach pt c key).root) (fun _ t =>
      Shape t.mem par (.join d a c' k (x.attach pt c key) y) ∧
      Memory.SameExcept (pt :: (Tree.join d a c' k x y).addrs) s.mem t.mem ∧
      t.reg = s.reg) s' := by
  obtain ⟨hc, -, hy⟩ := shape_join.mp hs
  rw [((Tree.addrs_join_perm ..).cons pt).nodup_iff] at hn
  have hp := addrs_attach pt c hk
  have hd := hn
  simp only [List.nodup_cons, List.mem_cons, List.mem_append, not_or, List.nodup_append'] at hd
  obtain ⟨⟨hpa, hpx, hpy⟩, ⟨hax, hay⟩, hnx, hny, hxy⟩ := hd
  have ha' : s'.mem.cell a = s.mem.cell a := hsame a (by simp [hax, Ne.symm hpa])
  have hy' : Shape s'.mem a y := by
    refine shape_sameExcept hsame ?_ hy
    simpa [List.disjoint_cons_right, hpy] using List.disjoint_symm hxy
  refine wp_mono (wp_link (ha'.trans hc) hx hy' attach_ne_nil ?_) ?_
  · refine ((hp.append_right _).cons a).nodup_iff.mpr ?_
    exact (List.Perm.swap pt a _).nodup_iff.mpr hn
  · rintro - t ⟨ht, hst, hrt⟩
    refine ⟨ht, ?_, hrt.trans hreg⟩
    intro b hb
    simp only [List.mem_cons, (Tree.addrs_join_perm ..).mem_iff, List.mem_append, not_or] at hb
    rw [hst b (by simp [hp.mem_iff, hb]), hsame b (by simp [hb])]

theorem wp_bstInsert {s : Store Node Nat} {par n : Nat} (hs : Shape s.mem par t)
    (hn : (pt :: t.addrs).Nodup) (hp : s.mem.cell pt = some ⟨key, c, 0, 0, 0⟩)
    (hk : key ∉ t.keys) (hlen : t.keys.length < n) :
    wp (bstInsert n t.root pt) (fun r s' => r = (t.attach pt c key).root ∧
      Shape s'.mem (if t = .nil then 0 else par) (t.attach pt c key) ∧
      Memory.SameExcept (pt :: t.addrs) s.mem s'.mem ∧ s'.reg = s.reg) s := by
  induction t generalizing s par n with
  | nil =>
    obtain ⟨n, rfl⟩ := Nat.exists_eq_succ_of_ne_zero (Nat.ne_of_gt hlen)
    simp only [bstInsert, Tree.root, ↓reduceIte, wp_pure, and_true]
    exact ⟨rfl, ⟨hp, trivial, trivial⟩, Memory.sameExcept_refl _ _⟩
  | node a c' k l r ihl ihr =>
    obtain ⟨n, rfl⟩ := Nat.exists_eq_succ_of_ne_zero (Nat.ne_of_gt (Nat.zero_lt_of_lt hlen))
    obtain ⟨hc, hl, hr⟩ := hs
    simp only [Tree.keys, List.length_append, List.length_cons] at hlen
    simp only [Tree.keys, List.mem_append, List.mem_cons, not_or] at hk
    have hd := hn
    simp only [Tree.addrs, List.nodup_cons, List.mem_append, List.mem_cons, not_or,
      List.nodup_append'] at hd
    simp only [bstInsert, Tree.root, Memory.ne_zero_of_cell hc, ↓reduceIte, wp_bind, wp_load, hp,
      hc, Option.some.injEq, exists_eq_left', Tree.attach, reduceCtorEq]
    by_cases hlt : key < k
    · simp only [hlt, ↓reduceIte, wp_bind, wp_pure]
      refine wp_mono (ihl hl ?_ hp hk.1 (by omega)) ?_
      · exact List.nodup_cons.mpr ⟨hd.1.1, hd.2.1⟩
      · rintro _ s' ⟨rfl, hx, hsame, hreg⟩
        refine wp_mono (wp_attached (d := .left) ⟨hc, hl, hr⟩ hn hk.1 hx hsame hreg) ?_
        rintro - t ⟨h₁, h₂, h₃⟩
        exact ⟨trivial, h₁, h₂, h₃⟩
    · have hgt : key > k := by omega
      simp only [hlt, hgt, ↓reduceIte, wp_bind, wp_pure]
      refine wp_mono (ihr hr ?_ hp hk.2.2 (by omega)) ?_
      · exact List.nodup_cons.mpr ⟨hd.1.2.2, hd.2.2.1.2⟩
      · rintro _ s' ⟨rfl, hx, hsame, hreg⟩
        refine wp_mono (wp_attached (d := .right) (shape_join.mpr ⟨hc, hr, hl⟩) hn hk.2.2 hx hsame
          hreg) ?_
        rintro - t ⟨h₁, h₂, h₃⟩
        exact ⟨trivial, h₁, h₂, h₃⟩

theorem repairable_leaf (h : IsRedBlack t) (pt : Nat) (key : Int) :
    Repairable (descend key [] t) (.leaf pt .red key) := by
  have hp := plug_descend_nil key [] t
  obtain ⟨-, hra, n, hn, hna⟩ := repairable_of_plug (descend key [] t) .nil
    (by rw [hp]; exact h.redOk) (by rw [hp]; exact h.blackHeight) (by rw [hp]; exact h.rootBlack)
  exact ⟨⟨fun _ => ⟨rfl, rfl⟩, trivial, trivial⟩, hra, n, ⟨hn, hn⟩, hna⟩

theorem next_notMem {s : Store Node Nat} (hs : Holds s [] t) : s.mem.next ∉ t.addrs := fun h => by
  obtain ⟨v, hv⟩ := cell_of_mem hs.shape h
  exact Memory.ne_next_of_cell hv rfl

theorem shape_alloc {s : Store Node Nat} (hs : Holds s [] t) (v : Node) :
    Shape (s.mem.alloc v) 0 t :=
  shape_congr (fun _ ha => Memory.cell_alloc_ne _ (ne_of_mem_of_not_mem ha (next_notMem hs)) _)
    hs.shape

/-- The search hangs a new node, whatever its colour, under the last node it meets. -/
theorem wp_hang {s : Store Node Nat} {n : Nat} (c : Color) (hs : Holds s [] t) (hk : key ∉ t.keys)
    (hlen : t.keys.length < n) :
    wp (bstInsert n s.reg s.mem.next) (fun r s' =>
      Holds { s' with reg := r } [] (t.attach s.mem.next c key))
      { s with mem := s.mem.alloc ⟨key, c, 0, 0, 0⟩ } := by
  have hr : s.reg = t.root := hs.root
  rw [hr]
  have hn := hs.nodup
  simp only [above, List.append_nil] at hn
  have hnd : (s.mem.next :: t.addrs).Nodup := List.nodup_cons.mpr ⟨next_notMem hs, hn⟩
  refine wp_mono (wp_bstInsert (shape_alloc hs _) hnd (Memory.cell_alloc_self _ _) hk hlen) ?_
  rintro _ s' ⟨rfl, hsh, -, -⟩
  exact ⟨by simpa [top] using hsh, trivial, rfl,
    by simpa [above] using (addrs_attach _ _ hk).nodup_iff.mpr hnd⟩

theorem wp_insert_red {s : Store Node Nat} {steps : Nat} (hs : Holds s [] t) (ht : IsRedBlack t)
    (hk : key ∉ t.keys) (hsteps : t.keys.length < steps) :
    wp (insert steps .red key) (fun _ s' =>
      ∃ u, Holds s' [] u ∧ IsRedBlack u ∧ u.keys.Perm (key :: t.keys)) s := by
  simp only [insert, wp_bind, wp_new, wp_getReg, wp_setReg]
  refine wp_mono (wp_hang .red hs hk hsteps) ?_
  intro r s₁ hold
  have hp := plug_descend_leaf s.mem.next .red hk []
  have hpath : Holds _ (descend key [] t) (.leaf s.mem.next .red key) :=
    holds_plug.mpr (by rw [hp]; exact hold)
  refine wp_mono (wp_fixViolation hpath (repairable_leaf ht _ _) Tree.noConfusion ?_ ?_) ?_
  · rw [hp]
    exact sorted_attach hk ht.sorted
  · have := length_descend key [] t
    simp only [List.length_nil] at this
    omega
  · rintro - s₂ ⟨u, hu, hub, hku⟩
    refine ⟨u, hu, hub, ?_⟩
    rw [hku, hp]
    exact keys_attach hk

/-- Inserting a new key as a red node into a red-black tree returns without following
a null pointer, and leaves a red-black tree with the one key more. -/
theorem insert_redBlack (s : Store Node Nat) (t : Tree) (key : Int) (hs : Holds s [] t)
    (ht : IsRedBlack t) (hk : key ∉ t.keys) :
    ∃ enough, ∀ steps, enough ≤ steps → wp (insert steps .red key) (fun _ s' =>
      ∃ u, Holds s' [] u ∧ IsRedBlack u ∧ u.keys.Perm (key :: t.keys)) s :=
  ⟨t.keys.length + 1, fun _ hsteps => wp_insert_red hs ht hk hsteps⟩

theorem insert_redBlack_second : ∃ enough, ∀ steps, enough ≤ steps →
    wp (insert steps .red 3) (fun _ s' => ∃ u, Holds s' [] u ∧ IsRedBlack u ∧ u.keys.Perm [3, 5])
      ⟨Memory.empty.alloc ⟨5, .black, 0, 0, 0⟩, 1⟩ :=
  insert_redBlack ⟨Memory.empty.alloc ⟨5, .black, 0, 0, 0⟩, 1⟩ (.leaf 1 .black 5) 3
    ⟨⟨rfl, trivial, trivial⟩, trivial, rfl, by decide⟩
    ⟨by decide, rfl, ⟨by decide, trivial, trivial⟩, 1, 0, rfl, rfl, rfl⟩ (by decide)

end C11AndC.RedBlack
