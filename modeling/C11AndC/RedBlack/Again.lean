import C11AndC.RedBlack.Fresh

namespace C11AndC.RedBlack

open C11AndC.Library

variable {s : Store Node Nat} {t : Tree} {pt : Nat} {c : Color} {key : Int} {steps : Nat}

theorem modify_same {m : Memory Node} {a : Nat} {v : Node} {f : Node → Node}
    (hc : m.cell a = some v) (hf : f v = v) : m.modify a f = m := by
  obtain ⟨cell, next, h₁, h₂, h₃⟩ := m
  simp only [Memory.modify, Memory.mk.injEq, and_true]
  change cell a = some v at hc
  rw [hc, Option.map_some, hf, ← hc, Function.update_eq_self]

/-- To link a child again that is linked already changes nothing. -/
theorem wp_link_same {d : Side} {a par : Nat} {c' : Color} {k : Int} {x y : Tree}
    (hs : Shape s.mem par (.join d a c' k x y)) (hne : x ≠ .nil) :
    wp (link d a x.root) (fun _ s' => s' = s) s := by
  obtain ⟨hc, hx, -⟩ := shape_join.mp hs
  obtain ⟨b, cb, kb, u, v, rfl⟩ := Tree.exists_join hne .left
  have hb := (shape_join.mp hx).1
  rw [Tree.root_join] at hc ⊢
  have ha : s.mem.modify a (·.setChild d b) = s.mem := modify_same hc Node.setChild_join
  have hbs : s.mem.modify b (·.setParent a) = s.mem := modify_same hb Node.setParent_join
  simp only [link, wp_bind, wp_store, hc, hb, ha, hbs, Option.isSome_some, true_and]

/-- The search for a key that is stored already drops the new node. -/
theorem wp_bstInsert_present {par n : Nat} (hs : Shape s.mem par t)
    (hp : s.mem.cell pt = some ⟨key, c, 0, 0, 0⟩) (ht : t.keys.Pairwise (· < ·))
    (hk : key ∈ t.keys) (hlen : t.keys.length < n) :
    wp (bstInsert n t.root pt) (fun r s' => r = t.root ∧ s' = s) s := by
  induction t generalizing par n with
  | nil => simp [Tree.keys] at hk
  | node a c' k l r ihl ihr =>
    obtain ⟨n, rfl⟩ := Nat.exists_eq_succ_of_ne_zero (Nat.ne_of_gt (Nat.zero_lt_of_lt hlen))
    obtain ⟨hc, hl, hr⟩ := hs
    simp only [Tree.keys, List.length_append, List.length_cons] at hlen
    simp only [Tree.keys, List.pairwise_append, List.pairwise_cons, List.mem_cons] at ht
    obtain ⟨htl, ⟨hkr, htr⟩, hlk⟩ := ht
    have hne : ∀ u : Tree, key ∈ u.keys → u ≠ .nil := by
      rintro u hu rfl
      simp [Tree.keys] at hu
    simp only [Tree.keys, List.mem_append, List.mem_cons] at hk
    simp only [bstInsert, Tree.root, Memory.ne_zero_of_cell hc, ↓reduceIte, wp_bind, wp_load, hp,
      hc, Option.some.injEq, exists_eq_left']
    obtain hk | rfl | hk := hk
    · have hlt : key < k := hlk key hk k (.inl rfl)
      simp only [hlt, ↓reduceIte, wp_bind, wp_pure, true_and]
      refine wp_mono (ihl hl htl hk (by omega)) ?_
      rintro _ s' ⟨rfl, rfl⟩
      exact wp_link_same (d := .left) ⟨hc, hl, hr⟩ (hne l hk)
    · simp only [Int.lt_irrefl, gt_iff_lt, ↓reduceIte, wp_pure, and_self]
    · have hgt : key > k := hkr key hk
      have hlt : ¬ key < k := by omega
      simp only [hlt, hgt, ↓reduceIte, wp_bind, wp_pure, true_and]
      refine wp_mono (ihr hr htr hk (by omega)) ?_
      rintro _ s' ⟨rfl, rfl⟩
      exact wp_link_same (d := .right) (shape_join.mpr ⟨hc, hr, hl⟩) (hne r hk)

/-- The repair of a red node that was never linked asks for the colour of a node above it. -/
theorem fixViolation_unlinked {n : Nat} (hp : s.mem.cell pt = some ⟨key, .red, 0, 0, 0⟩)
    (hne : pt ≠ s.reg) (hn : 0 < n) : fixViolation n pt s = .error .fault := by
  obtain ⟨n, rfl⟩ := Nat.exists_eq_succ_of_ne_zero (Nat.ne_of_gt hn)
  simp [fixViolation, loop, fixRound, violated, getReg, load, hp, hne, s.mem.cell_null, bind,
    StateT.bind, Except.bind]

theorem insert_present_faults (hs : Holds s [] t) (ht : IsRedBlack t) (hk : key ∈ t.keys)
    (hsteps : t.keys.length < steps) : insert steps .red key s = .error .fault := by
  have hroot : s.reg = t.root := hs.root
  have hcell := Memory.cell_alloc_self s.mem (⟨key, .red, 0, 0, 0⟩ : Node)
  have hbst := ok_of_wp_eq (wp_bstInsert_present (s := { s with mem := s.mem.alloc _ })
    (shape_alloc hs _) hcell ht.sorted hk hsteps)
  have hne : s.mem.next ≠ s.reg := by
    rw [hroot]
    exact (Tree.root_ne (Nat.ne_of_gt s.mem.next_pos) (next_notMem hs)).symm
  have hfix := fixViolation_unlinked (s := { s with mem := s.mem.alloc _ }) (n := steps) hcell hne
    (by omega)
  rw [← hroot] at hbst
  simp only [insert, new, getReg, setReg, bind, StateT.bind, Except.bind, hbst]
  exact hfix

/-- A red-black tree never survives the insertion of a key it has, where the new node is red. -/
theorem insert_present (s : Store Node Nat) (t : Tree) (key : Int) (hs : Holds s [] t)
    (ht : IsRedBlack t) (hk : key ∈ t.keys) :
    ∃ enough, ∀ steps, enough ≤ steps → insert steps .red key s = .error .fault :=
  ⟨t.keys.length + 1, fun _ hsteps => insert_present_faults hs ht hk hsteps⟩

theorem insert_present_single : ∃ enough, ∀ steps, enough ≤ steps →
    insert steps .red 5 ⟨Memory.empty.alloc ⟨5, .black, 0, 0, 0⟩, 1⟩ = .error .fault :=
  insert_present ⟨Memory.empty.alloc ⟨5, .black, 0, 0, 0⟩, 1⟩ (.leaf 1 .black 5) 5
    ⟨⟨rfl, trivial, trivial⟩, trivial, rfl, by decide⟩ (redBlack_leaf 1 5) (by decide)

theorem insert_twice : ∃ s t, insertAll 2 [(.red, 5)] noTree = .ok ((), s) ∧ Holds s [] t ∧
    IsRedBlack t ∧ 5 ∈ t.keys ∧
    ¬ ∃ enough, ∀ steps, enough ≤ steps →
      wp (insert steps .red 5) (fun _ s' => Holds s' [] t) s := by
  obtain ⟨⟨⟩, s, hok, hs⟩ := wp_insert_first holds_noTree (show 0 < 2 by decide) .red 5
  have hrb := redBlack_leaf noTree.mem.next 5
  have hmem : 5 ∈ (Tree.leaf noTree.mem.next .black 5).keys := by simp [Tree.leaf, Tree.keys]
  refine ⟨s, _, ?_, hs, hrb, hmem, ?_⟩
  · apply ok_of_wp_eq
    simp only [insertAll, wp_bind, wp_of_ok hok, wp_pure, and_self]
  · rintro ⟨enough, h⟩
    exact wp_of_error (insert_present_faults hs hrb hmem
      (show _ < enough + 2 by simp [Tree.leaf, Tree.keys])) (h _ (by omega))

end C11AndC.RedBlack
