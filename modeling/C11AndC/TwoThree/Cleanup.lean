import C11AndC.TwoThree.Ends
import C11AndC.TwoThree.Delete

namespace C11AndC.TwoThree

open C11AndC.Library

variable {K : Type}

/-- Delete a node, given what its parent holds, and go on to the next one. -/
def removeChild (steps : Nat) (p : CNode K) (parent node : Nat) : Prog K Nat := do
  if (node = p.left && p.middle = 0) || node = p.middle then
    delete node
    getMinNode steps p.right
  else if node = p.left then
    delete node
    getMinNode steps p.middle
  else if node = p.right then
    delete node
    return parent
  else
    return node

/-- One round of the deletion; it ends at the root. -/
def removeStep (steps node : Nat) : Prog K (Nat ⊕ Unit) := do
  let parent := (← load node).parent
  if parent = 0 then
    return .inr ()
  else
    return .inl (← removeChild steps (← load parent) parent node)

def removeAll (steps : Nat) : Prog K Code := do
  if (← getReg) = 0 then
    return .isEmpty
  else
    loop (removeStep steps) steps (← getMinNode steps (← getReg))
    delete (← getReg)
    setReg (fun _ => 0)
    return .success

/-- The walk that starts at the least node below a node comes to the node, with all the nodes below
it deleted. -/
def Clears (steps : Nat) (t : Tree K) : Prop :=
  ∀ (par : Nat) (ps : List (Library.Part (CNode K))) (s : Store (CNode K) Nat) (k : Nat)
    (Q : Unit → Store (CNode K) Nat → Prop), Parts s.mem (treePart par t :: ps) →
    (∀ m o, o.parent = par → Parts m (cellPart t.root o :: ps) → Memory.Freed t.addrs.tail s.mem m →
      wp (loop (removeStep steps) k t.root) Q ⟨m, s.reg⟩) →
    wp (loop (removeStep steps) (k + (t.addrs.length - 1)) (t.endOf .left).root) Q s

section Walk

variable {s : Store (CNode K) Nat} {ps : List (Library.Part (CNode K))} {t l m r : Tree K} {p : CNode K}
  {a k n steps : Nat} {v : Keys K} {Q : Unit → Store (CNode K) Nat → Prop}

theorem addrs_of_not_nil (h : t.isNil = false) : t.addrs = t.root :: t.addrs.tail := by
  cases t with
  | nil => cases h
  | node => rfl

/-- A child with all the nodes below it. -/
theorem clears_child (next : Prog K Nat) (hc : Clears steps t) (hne : t.isNil = false)
    (hp : Parts s.mem (treePart a t :: cellPart a p :: ps))
    (hnext : removeChild steps p a t.root = (do delete t.root; next))
    (hq : ∀ m, Parts m (cellPart a p :: ps) → Memory.Freed t.addrs s.mem m →
      wp next (fun y s' => wp (loop (removeStep steps) k y) Q s') ⟨m, s.reg⟩) :
    wp (loop (removeStep steps) (k + t.addrs.length) (t.endOf .left).root) Q s := by
  have haddrs := addrs_of_not_nil hne
  have hcount : k + t.addrs.length = k + 1 + (t.addrs.length - 1) := by
    rw [haddrs, List.length_cons]
    omega
  rw [hcount]
  refine hc a (cellPart a p :: ps) s (k + 1) Q hp fun m o ho hparts hfreed => ?_
  have hx := cell_of_parts (i := 0) hparts rfl
  have hy := cell_of_parts (i := 1) hparts rfl
  have ha : a ≠ 0 := Memory.ne_zero_of_cell hy
  rw [wp_loop_succ]
  simp only [removeStep, wp_bind, wp_load, hx, hy, Option.some.injEq, exists_eq_left', ho, if_neg ha, hnext,
    wp_delete, Option.isSome_some, true_and, wp_pure]
  refine hq _ (parts_free hparts) ?_
  rw [haddrs]
  exact Memory.freed_snoc hfreed

/-- The walk from the least node below a child, once the child before it is deleted. -/
theorem wp_next_child (par : Nat) (hv : Valid (n + 1) t) (hn : n + 1 ≤ steps)
    (hp : Parts s.mem ps) (ht : treePart par t ∈ ps)
    (hq : wp (loop (removeStep steps) k (t.endOf .left).root) Q s) :
    wp (getMinNode steps t.root) (fun y s' => wp (loop (removeStep steps) k y) Q s') s := by
  have hs : Shape s.mem par t := hp.holds _ ht
  refine wp_mono (wp_goDown hs ((depth_valid hv).trans_le hn) (not_nil hv)) ?_
  rintro _ _ ⟨rfl, rfl⟩
  exact hq

theorem root_ne_of_parts {μ : Memory (CNode K)} {par : Nat} (q : Nat) (h : Parts μ (treePart par t :: ps))
    (hr : treePart q r ∈ ps) (hne : t.isNil = false) (hrne : r.isNil = false) : r.root ≠ t.root := by
  intro he
  have hmem : ∀ {t : Tree K}, t.isNil = false → t.root ∈ t.addrs := by
    intro t ht
    rw [addrs_of_not_nil ht]
    exact List.mem_cons_self
  refine (parts_cons.mp h).2.2.1 (hmem hne) (List.mem_flatMap.mpr ⟨_, hr, ?_⟩)
  rw [← he]
  exact hmem hrne

/-- What is done after the last child. -/
theorem removeChild_right (hl : p.right ≠ p.left) (hm : p.right ≠ p.middle) :
    removeChild steps p a p.right = (do delete p.right; return a : Prog K Nat) := by
  simp [removeChild, hl, hm]

theorem clears_two {x : K} {u : K} (hl : Clears steps l) (hr : Clears steps r) (hvl : Valid (n + 1) l)
    (hvr : Valid (n + 1) r) (hn : n + 1 ≤ steps) : Clears steps (.node a (.two x u) l .nil r) := by
  intro par ps s k Q hp hq
  have hnl := not_nil hvl
  have hnr := not_nil hvr
  have hstart : (Tree.node a (.two x u) l .nil r).endOf .left = l.endOf .left := by simp [Tree.endOf, hnl]
  have hcount : k + ((Tree.node a (.two x u) l .nil r).addrs.length - 1) = k + r.addrs.length + l.addrs.length := by
    simp only [Tree.addrs, List.length_cons, List.length_append, List.length_nil]
    omega
  rw [hstart, hcount]
  have hp' : Parts s.mem (treePart a l :: cellPart a ⟨.two x u, l.root, 0, r.root, par⟩ :: treePart a r :: ps) :=
    parts_nil.mp (parts_pick [2, 1, 0, 3] (parts_node.mp hp) (l := [_, _, _, _]) rfl (by decide))
  have hrl := root_ne_of_parts a hp' (r := r) (by simp) hnl hnr
  have hr0 : r.root ≠ 0 := mt (root_eq_zero (parts_get (i := 2) hp' rfl)).mp (by simp [hnr])
  refine clears_child (getMinNode steps r.root) hl hnl hp' (by simp [removeChild]) fun m₁ hp₁ hf₁ => ?_
  refine wp_next_child a hvr hn hp₁ (by simp) ?_
  refine clears_child _ hr hnr ((parts_perm (List.Perm.swap ..)).mp hp₁) (removeChild_right hrl hr0)
    fun m₂ hp₂ hf₂ => ?_
  rw [wp_pure]
  exact hq m₂ _ rfl hp₂ (Memory.freed_trans hf₁ hf₂)

theorem clears_three {x y : K} (hl : Clears steps l) (hm : Clears steps m) (hr : Clears steps r)
    (hvl : Valid (n + 1) l) (hvm : Valid (n + 1) m) (hvr : Valid (n + 1) r) (hn : n + 1 ≤ steps) :
    Clears steps (.node a (.three x y) l m r) := by
  intro par ps s k Q hp hq
  have hnl := not_nil hvl
  have hnm := not_nil hvm
  have hnr := not_nil hvr
  have hstart : (Tree.node a (.three x y) l m r).endOf .left = l.endOf .left := by simp [Tree.endOf, hnl]
  have hcount : k + ((Tree.node a (.three x y) l m r).addrs.length - 1) =
      k + r.addrs.length + m.addrs.length + l.addrs.length := by
    simp only [Tree.addrs, List.length_cons, List.length_append]
    omega
  rw [hstart, hcount]
  have hp' : Parts s.mem (treePart a l :: cellPart a ⟨.three x y, l.root, m.root, r.root, par⟩ ::
      treePart a m :: treePart a r :: ps) :=
    parts_pick [1, 0, 2, 3] (parts_node.mp hp) (l := [_, _, _, _]) rfl (by decide)
  have hml := root_ne_of_parts a hp' (r := m) (by simp) hnl hnm
  have hrl := root_ne_of_parts a hp' (r := r) (by simp) hnl hnr
  have hm0 : m.root ≠ 0 := mt (root_eq_zero (parts_get (i := 2) hp' rfl)).mp (by simp [hnm])
  refine clears_child (getMinNode steps m.root) hl hnl hp' ?_ fun m₁ hp₁ hf₁ => ?_
  · simp [removeChild, hml.symm, hm0]
  refine wp_next_child a hvm hn hp₁ (by simp) ?_
  have hp₁' := (parts_perm (List.Perm.swap ..)).mp hp₁
  have hrm := root_ne_of_parts a hp₁' (r := r) (by simp) hnm hnr
  refine clears_child (getMinNode steps r.root) hm hnm hp₁' (by simp [removeChild]) fun m₂ hp₂ hf₂ => ?_
  refine wp_next_child a hvr hn hp₂ (by simp) ?_
  refine clears_child _ hr hnr ((parts_perm (List.Perm.swap ..)).mp hp₂) (removeChild_right hrl hrm)
    fun m₃ hp₃ hf₃ => ?_
  rw [wp_pure]
  exact hq m₃ _ rfl hp₃ (Memory.freed_trans hf₁ (Memory.freed_trans hf₂ hf₃))

theorem clears_valid (hv : Valid (n + 1) t) (hn : n + 1 ≤ steps) : Clears steps t := by
  induction n generalizing t with
  | zero =>
    obtain ⟨a, v, rfl⟩ := leaf_of_valid hv
    intro par ps s k Q hp hq
    have hp' := parts_nil.mp (parts_nil.mp (parts_nil.mp
      (parts_pick [1, 2, 3, 0] (parts_node.mp hp) (l := [_, _, _, _]) rfl (by decide))))
    exact hq s.mem _ rfl hp' (Memory.freed_refl _)
  | succ n ih =>
    have hn' := Nat.le_of_succ_le hn
    cases hv with
    | two hl hr => exact clears_two (ih hl hn') (ih hr hn') hl hr hn'
    | three hl hm hr => exact clears_three (ih hl hn') (ih hm hn') (ih hr hn') hl hm hr hn'

end Walk

/-- The store holds a tree of valid shape. -/
structure IsShaped (s : Store (CNode K) Nat) (t : Tree K) : Prop where
  parts : Parts s.mem [treePart 0 t]
  root : s.reg = t.root
  valid : ∃ n, Valid n t

/-- All nodes of a tree are deleted, each once, and no deleted node is looked at. -/
theorem removeAll_clears (s : Store (CNode K) Nat) (t : Tree K) (h : IsShaped s t) (hne : t ≠ .nil) :
    ∃ enough, ∀ steps, enough ≤ steps → wp (removeAll steps)
      (fun code s' => code = .success ∧ s'.reg = 0 ∧ Memory.Freed t.addrs s.mem s'.mem) s := by
  obtain ⟨n, hv⟩ := h.valid
  cases n with
  | zero => exact absurd (nil_of_valid_zero hv) hne
  | succ n =>
    have hnil := not_nil hv
    have hs : Shape s.mem 0 t := h.parts.holds _ (List.mem_singleton_self _)
    have hroot : t.root ≠ 0 := mt (root_eq_zero hs).mp (by simp [hnil])
    refine ⟨n + 1 + (1 + (t.addrs.length - 1)), fun steps hsteps => ?_⟩
    have haddrs := congrArg List.length (addrs_of_not_nil hnil)
    rw [List.length_cons] at haddrs
    obtain ⟨k, hk⟩ : ∃ k, steps = k + 1 + (t.addrs.length - 1) := ⟨steps - t.addrs.length, by omega⟩
    have hdown : n + 1 ≤ steps := by omega
    simp only [removeAll, wp_bind, wp_getReg, h.root, if_neg hroot]
    refine wp_mono (wp_goDown hs ((depth_valid hv).trans_le hdown) hnil) ?_
    rintro _ s ⟨rfl, rfl⟩
    have hclears := fun Q => clears_valid hv hdown 0 [] s (k + 1) Q h.parts
    rw [← hk] at hclears
    refine hclears _ fun m o ho hp hf => ?_
    have hx := cell_of_parts (i := 0) hp rfl
    simp only [wp_loop_succ, removeStep, wp_bind, wp_load, hx, Option.some.injEq, exists_eq_left', ho, if_pos,
      wp_pure, wp_delete, h.root, Option.isSome_some, true_and, wp_setReg]
    rw [addrs_of_not_nil hnil]
    exact Memory.freed_snoc hf

theorem removeAll_clears_spareRight :
    ∃ enough, ∀ steps, enough ≤ steps → wp (removeAll steps)
      (fun code s' => code = .success ∧ s'.reg = 0 ∧ Memory.Freed spareRight.addrs spareRightStore.mem s'.mem)
      spareRightStore :=
  removeAll_clears spareRightStore spareRight
    ⟨isTree_spareRight.parts, isTree_spareRight.root, isTree_spareRight.valid⟩ (by simp [spareRight])

end C11AndC.TwoThree
