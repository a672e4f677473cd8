import C11AndC.RedBlack.Insert

namespace C11AndC.RedBlack

open C11AndC.Library

/-- Insertions one after another, each with the colour its new node happens to have. -/
def insertAll (steps : Nat) : List (Color × Int) → Prog Unit
  | [] => pure ()
  | x :: xs => do
    insert steps x.1 x.2
    insertAll steps xs

/-- The store holds a red-black tree with these keys. -/
def HoldsRedBlack (s : Store Node Nat) (keys : List Int) : Prop :=
  ∃ t, Holds s [] t ∧ IsRedBlack t ∧ t.keys.Perm keys

/-- The tree is red-black before the insertions and after each of them. -/
def KeepsRedBlack (steps : Nat) (s : Store Node Nat) (keys : List Int)
    (inserts : List (Color × Int)) : Prop :=
  ∀ n, wp (insertAll steps (inserts.take n)) (fun _ s' =>
    HoldsRedBlack s' (keys ++ (inserts.take n).map Prod.snd)) s

def noTree : Store Node Nat := ⟨Memory.empty, 0⟩

theorem holds_noTree : Holds noTree [] .nil := ⟨trivial, trivial, rfl, List.nodup_nil⟩

theorem redBlack_nil : IsRedBlack .nil := ⟨List.Pairwise.nil, rfl, trivial, 0, rfl⟩

theorem redBlack_leaf (pt : Nat) (key : Int) : IsRedBlack (.leaf pt .black key) :=
  ⟨List.pairwise_singleton .., rfl, ⟨fun h => absurd h (by decide), trivial, trivial⟩, 1, 0, rfl, rfl,
    rfl⟩

namespace Tree

def blacken : Tree → Tree
  | nil => nil
  | node a _ k l r => node a .black k l r

theorem blacken_of_black {t : Tree} (h : t.color = .black) : t.blacken = t := by
  cases t with
  | nil => rfl
  | node a c k l r =>
    rw [show c = .black from h]
    rfl

theorem blackHeight_children {a : Nat} {c : Color} {k : Int} {l r : Tree} {n : Nat}
    (h : (node a c k l r).BlackHeight n) : ∃ m, l.BlackHeight m ∧ r.BlackHeight m := by
  cases c with
  | red => exact ⟨n, h⟩
  | black =>
    obtain ⟨m, -, hl, hr⟩ := h
    exact ⟨m, hl, hr⟩

theorem blackHeight_unique {t : Tree} {n m : Nat} (h : t.BlackHeight n) (h' : t.BlackHeight m) :
    n = m := by
  induction t generalizing n m with
  | nil => exact h.trans h'.symm
  | node a c k l r ihl ihr =>
    cases c with
    | red => exact ihl h.1 h'.1
    | black =>
      obtain ⟨n, rfl, hl, -⟩ := h
      obtain ⟨m, rfl, hl', -⟩ := h'
      rw [ihl hl hl']

/-- A further black leaf unbalances every tree but the empty one. -/
theorem attach_unbalanced {t : Tree} {pt : Nat} {key : Int} {n m : Nat} (hk : key ∉ t.keys)
    (h : t.BlackHeight n) (h' : (t.attach pt .black key).BlackHeight m) : t = nil := by
  induction t generalizing n m with
  | nil => rfl
  | node a c k l r ihl ihr =>
    simp only [keys, List.mem_append, List.mem_cons, not_or] at hk
    obtain ⟨x, hl, hr⟩ := blackHeight_children h
    have hleaf : ∀ y, (nil.attach pt .black key).BlackHeight y → y = 1 := by
      rintro _ ⟨z, rfl, hz, -⟩
      rw [show z = 0 from hz]
    by_cases hlt : key < k
    · rw [attach, if_pos hlt] at h'
      obtain ⟨y, hl', hr'⟩ := blackHeight_children h'
      obtain rfl := ihl hk.1 hl hl'
      have hx : x = 0 := hl
      have hy := hleaf y hl'
      have hxy := blackHeight_unique hr hr'
      omega
    · rw [attach, if_neg hlt, if_pos (show key > k by omega)] at h'
      obtain ⟨y, hl', hr'⟩ := blackHeight_children h'
      obtain rfl := ihr hk.2.2 hr hr'
      have hx : x = 0 := hr
      have hy := hleaf y hr'
      have hxy := blackHeight_unique hl hl'
      omega

theorem color_attach {t : Tree} (hne : t ≠ nil) (pt : Nat) (c : Color) (key : Int) :
    (t.attach pt c key).color = t.color := by
  cases t with
  | nil => contradiction
  | node a c' k l r =>
    rw [attach]
    split_ifs <;> rfl

end Tree

theorem shape_unique {m : Memory Node} {par : Nat} {t u : Tree} (ht : Shape m par t)
    (hu : Shape m par u) (hr : t.root = u.root) : t = u := by
  induction t generalizing par u with
  | nil =>
    cases u with
    | nil => rfl
    | node a c k l r => exact absurd hr.symm (Memory.ne_zero_of_cell hu.1)
  | node a c k l r ihl ihr =>
    cases u with
    | nil => exact absurd hr (Memory.ne_zero_of_cell ht.1)
    | node a' c' k' l' r' =>
      obtain rfl : a = a' := hr
      have he := ht.1.symm.trans hu.1
      simp only [Option.some.injEq, Node.mk.injEq] at he
      obtain ⟨rfl, rfl, hl, hr', -⟩ := he
      rw [ihl ht.2.1 hu.2.1 hl, ihr ht.2.2 hu.2.2 hr']

theorem holds_unique {s : Store Node Nat} {t u : Tree} (ht : Holds s [] t) (hu : Holds s [] u) :
    t = u :=
  shape_unique ht.shape hu.shape (ht.root.symm.trans hu.root)

/-- Where the test of the loop fails at once, the repair only blackens the root. -/
theorem wp_fixViolation_still {s : Store Node Nat} {fs : List Frame} {d : Side} {a : Nat}
    {c : Color} {k : Int} {t u : Tree} {n : Nat} (h : Holds s fs (.join d a c k t u))
    (hv : ¬ (fs ≠ [] ∧ c = .red ∧ colorAbove fs = .red)) (hn : 0 < n) :
    wp (fixViolation n a) (fun _ s' => Holds s' [] (plug fs (.join d a c k t u)).blacken) s := by
  obtain ⟨n, rfl⟩ := Nat.exists_eq_succ_of_ne_zero (Nat.ne_of_gt hn)
  rw [fixViolation, wp_bind, wp_loop_succ, fixRound, wp_bind]
  refine wp_violated h ?_
  rw [if_neg (by simpa using hv), wp_pure, wp_bind, wp_getReg]
  have hne : Tree.join d a c k t u ≠ .nil := by cases d <;> exact Tree.noConfusion
  obtain ⟨b, e, j, l, r, hp⟩ := Tree.exists_join (plug_ne_nil hne : plug fs _ ≠ .nil) .left
  have hh := holds_plug.mp h
  rw [hp] at hh ⊢
  have hroot := hh.root
  simp only [plug, Tree.root_join] at hroot
  rw [hroot, wp_store, cell_of_holds hh]
  exact ⟨rfl, holds_setColor hh⟩

theorem wp_insert_first {s : Store Node Nat} {steps : Nat} (hs : Holds s [] .nil) (hn : 0 < steps)
    (c : Color) (key : Int) : wp (insert steps c key) (fun _ s' =>
      Holds s' [] (.leaf s.mem.next .black key)) s := by
  simp only [insert, wp_bind, wp_new, wp_getReg, wp_setReg]
  refine wp_mono (wp_hang c hs (by simp [Tree.keys]) hn) ?_
  intro r s₁ hold
  exact wp_fixViolation_still (d := .left) hold (by simp) hn

/-- A new black node is left where the search hangs it. -/
theorem wp_insert_black {s : Store Node Nat} {t : Tree} {steps : Nat} {key : Int}
    (hs : Holds s [] t) (ht : IsRedBlack t) (hne : t ≠ .nil) (hk : key ∉ t.keys)
    (hn : t.keys.length < steps) : wp (insert steps .black key) (fun _ s' =>
      Holds s' [] (t.attach s.mem.next .black key)) s := by
  simp only [insert, wp_bind, wp_new, wp_getReg, wp_setReg]
  refine wp_mono (wp_hang .black hs hk hn) ?_
  intro r s₁ hold
  have hp := plug_descend_leaf s.mem.next .black hk []
  have hpath : Holds _ (descend key [] t) (.leaf s.mem.next .black key) :=
    holds_plug.mpr (by rw [hp]; exact hold)
  refine wp_mono (wp_fixViolation_still (d := .left) hpath (by simp) (by omega)) ?_
  intro _ s₂ h
  have hb : (t.attach s.mem.next .black key).color = .black :=
    (Tree.color_attach hne ..).trans ht.rootBlack
  change Holds s₂ [] (plug (descend key [] t) (.leaf s.mem.next .black key)).blacken at h
  rw [hp, plug, Tree.blacken_of_black hb] at h
  exact h

theorem not_redBlack_insert_black {s : Store Node Nat} {t : Tree} {steps : Nat} {key : Int}
    {keys : List Int} (hs : Holds s [] t) (ht : IsRedBlack t) (hne : t ≠ .nil) (hk : key ∉ t.keys)
    (hn : t.keys.length < steps) :
    ¬ wp (insert steps .black key) (fun _ s' => HoldsRedBlack s' keys) s := by
  intro h
  obtain ⟨-, s', hs', u, hu, hub, -⟩ := wp_and (wp_insert_black hs ht hne hk hn) h
  obtain rfl := holds_unique hs' hu
  obtain ⟨n, hb⟩ := ht.blackHeight
  obtain ⟨m, hb'⟩ := hub.blackHeight
  exact hne (Tree.attach_unbalanced hk hb hb')

/-- Whether the tree is kept red-black, seen from behind the first insertion. -/
theorem keepsRedBlack_cons {steps : Nat} {s s' : Store Node Nat} {keys keys' : List Int}
    {x : Color × Int} {xs : List (Color × Int)} (hs : HoldsRedBlack s keys)
    (hx : insert steps x.1 x.2 s = .ok ((), s')) (hkeys : keys'.Perm (x.2 :: keys)) :
    KeepsRedBlack steps s keys (x :: xs) ↔ KeepsRedBlack steps s' keys' xs := by
  have hperm : ∀ ys, (keys' ++ ys).Perm (keys ++ x.2 :: ys) := fun ys =>
    (hkeys.append_right ys).trans List.perm_middle.symm
  constructor
  · intro h n
    have := h (n + 1)
    rw [List.take_succ_cons, insertAll, wp_bind, wp_of_ok hx] at this
    refine wp_mono this ?_
    rintro - s'' ⟨t, ht, hb, hk⟩
    exact ⟨t, ht, hb, hk.trans (hperm _).symm⟩
  · rintro h (_ | n)
    · simpa [insertAll] using hs
    · rw [List.take_succ_cons, insertAll, wp_bind, wp_of_ok hx]
      refine wp_mono (h n) ?_
      rintro - s'' ⟨t, ht, hb, hk⟩
      exact ⟨t, ht, hb, hk.trans (hperm _)⟩

theorem keepsRedBlack_nil {steps : Nat} {s : Store Node Nat} {keys : List Int}
    (hs : HoldsRedBlack s keys) : KeepsRedBlack steps s keys [] := by
  intro n
  simpa [insertAll] using hs

/-- On a tree that is not empty, exactly the red nodes do no harm. -/
theorem keepsRedBlack_iff {steps : Nat} {s : Store Node Nat} {t : Tree}
    {xs : List (Color × Int)} (hs : Holds s [] t) (ht : IsRedBlack t) (hne : t ≠ .nil)
    (hd : (t.keys ++ xs.map Prod.snd).Nodup) (hn : t.keys.length + xs.length < steps) :
    KeepsRedBlack steps s t.keys xs ↔ ∀ x ∈ xs, x.1 = .red := by
  induction xs generalizing s t with
  | nil => exact iff_of_true (keepsRedBlack_nil ⟨t, hs, ht, .refl _⟩) (by simp)
  | cons x xs ih =>
    obtain ⟨c, key⟩ := x
    simp only [List.length_cons] at hn
    have hnd : (key :: t.keys ++ xs.map Prod.snd).Nodup := List.perm_middle.nodup_iff.mp hd
    have hk : key ∉ t.keys := fun h => (List.nodup_cons.mp hnd).1 (List.mem_append_left _ h)
    cases c with
    | red =>
      obtain ⟨⟨⟩, s', hok, u, hu, hub, hkeys⟩ := wp_insert_red hs ht hk (show _ < steps by omega)
      have hlen := hkeys.length_eq
      rw [List.length_cons] at hlen
      have hune : u ≠ .nil := by
        rintro rfl
        simp [Tree.keys] at hlen
      rw [keepsRedBlack_cons (x := (.red, key)) ⟨t, hs, ht, .refl _⟩ hok hkeys,
        ih hu hub hune ((hkeys.append_right _).nodup_iff.mpr hnd) (by omega)]
      simp
    | black =>
      refine iff_of_false (fun h => ?_) (fun h => Color.noConfusion (h _ List.mem_cons_self))
      have hone := h 1
      simp only [List.take_succ_cons, List.take_zero, insertAll, wp_bind, wp_pure] at hone
      exact not_redBlack_insert_black hs ht hne hk (by omega) hone

/-- Distinct keys put into the empty tree keep it red-black exactly when every new node
but the first comes up red. -/
theorem insertAll_redBlack_iff (inserts : List (Color × Int))
    (hd : (inserts.map Prod.snd).Nodup) : ∃ enough, ∀ steps, enough ≤ steps →
    (KeepsRedBlack steps noTree [] inserts ↔ ∀ x ∈ inserts.tail, x.1 = .red) := by
  refine ⟨inserts.length + 1, fun steps hsteps => ?_⟩
  have hnil : HoldsRedBlack noTree [] := ⟨.nil, holds_noTree, redBlack_nil, .refl _⟩
  cases inserts with
  | nil => exact iff_of_true (keepsRedBlack_nil hnil) (by simp)
  | cons x xs =>
    obtain ⟨⟨⟩, s, hok, hs⟩ := wp_insert_first holds_noTree (show 0 < steps by omega) x.1 x.2
    rw [keepsRedBlack_cons hnil hok (.refl _), List.tail_cons]
    refine keepsRedBlack_iff hs (redBlack_leaf ..) Tree.noConfusion hd ?_
    simp only [Tree.leaf, Tree.keys, List.length_cons] at hsteps ⊢
    simp only [List.nil_append, List.length_cons, List.length_nil]
    omega

theorem insertAll_redBlack_iff_three : ∃ enough, ∀ steps, enough ≤ steps →
    (KeepsRedBlack steps noTree [] [(.black, 2), (.red, 1), (.red, 3)] ↔
      ∀ x ∈ [(Color.red, (1 : Int)), (.red, 3)], x.1 = .red) :=
  insertAll_redBlack_iff [(.black, 2), (.red, 1), (.red, 3)] (by decide)

theorem insertAll_black_second :
    ¬ ∃ enough, ∀ steps, enough ≤ steps → KeepsRedBlack steps noTree [] [(.red, 1), (.black, 2)] := by
  rintro ⟨enough, h⟩
  have hkeep := h (enough + 2) (by omega) 2
  obtain ⟨⟨⟩, s, hok, hs⟩ := wp_insert_first holds_noTree (show 0 < enough + 2 by omega) .red 1
  simp only [List.take_succ_cons, List.take_zero, insertAll, wp_bind, wp_pure, wp_of_ok hok] at hkeep
  exact not_redBlack_insert_black hs (redBlack_leaf ..) Tree.noConfusion
    (by simp [Tree.leaf, Tree.keys]) (by simp [Tree.leaf, Tree.keys]) hkeep

end C11AndC.RedBlack
