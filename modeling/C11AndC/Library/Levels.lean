import C11AndC.Library.Trees

namespace C11AndC.Library

variable {α : Type}

/-- The values of a level from left to right. -/
def level : BinaryTree α → Nat → List α
  | .nil, _ => []
  | .node v _ _, 0 => [v]
  | .node _ l r, k + 1 => level l k ++ level r k

/-- The values of the odd levels from left to right, where the root is in level `k`. -/
def oddValues : BinaryTree α → Nat → List α
  | .nil, _ => []
  | .node v l r, k => oddValues l (k + 1) ++ (if k % 2 ≠ 0 then [v] else []) ++ oddValues r (k + 1)

def shape (t : BinaryTree α) : BinaryTree Unit := t.map fun _ => ()

def mirror : BinaryTree α → BinaryTree α
  | .nil => .nil
  | .node v l r => .node v (mirror r) (mirror l)

/-- All leaves are in one level, and every other node has two children. -/
structure Perfect (t : BinaryTree α) : Prop where
  depth : ∀ p q, IsLeaf t p → IsLeaf t q → p.length = q.length
  full : ∀ p v l r, subtree t p = .node v l r → (l = .nil ↔ r = .nil)

/-- The tree has all nodes of its first `n` levels, and no others. -/
inductive Full : Nat → BinaryTree α → Prop where
  | nil : Full 0 .nil
  | node {n : Nat} {v : α} {l r : BinaryTree α} (hl : Full n l) (hr : Full n r) : Full (n + 1) (.node v l r)

/-- The nodes of the even levels have the same values in both trees. -/
def SameEven (k : Nat) (s t : BinaryTree α) : Prop :=
  ∀ p : Position, (k + p.length) % 2 = 0 → valueAt s p = valueAt t p

variable {s t l r l' r' : BinaryTree α} {v v' : α} {n k j : Nat}

theorem shape_node : shape (.node v l r) = .node () (shape l) (shape r) := rfl

theorem shape_eq_node (h : shape s = shape (.node v l r)) :
    ∃ v' l' r', s = .node v' l' r' ∧ shape l' = shape l ∧ shape r' = shape r := by
  cases s with
  | nil => cases h
  | node v' l' r' =>
    rw [shape_node, shape_node] at h
    injection h with _ hl hr
    exact ⟨v', l', r', rfl, hl, hr⟩

theorem shape_eq_nil (h : shape s = shape (.nil : BinaryTree α)) : s = .nil := by
  cases s with
  | nil => rfl
  | node v' l' r' => cases h

theorem length_oddValues (h : shape s = shape t) (k : Nat) :
    (oddValues s k).length = (oddValues t k).length := by
  induction t generalizing s k with
  | nil => rw [shape_eq_nil h]
  | node v l r hl hr =>
    obtain ⟨v', l', r', rfl, hl', hr'⟩ := shape_eq_node h
    simp only [oddValues, List.length_append, hl hl', hr hr']
    split_ifs <;> rfl

theorem full_mirror (h : Full n t) : Full n (mirror t) := by
  induction h with
  | nil => exact .nil
  | node _ _ hl hr => exact .node hr hl

theorem shape_eq_of_full (hs : Full n s) (ht : Full n t) : shape s = shape t := by
  induction hs generalizing t with
  | nil =>
    cases ht
    rfl
  | node _ _ hl hr =>
    cases ht with
    | node hl' hr' => rw [shape_node, shape_node, hl hl', hr hr']

theorem level_mirror (t : BinaryTree α) (k : Nat) : level (mirror t) k = (level t k).reverse := by
  induction t generalizing k with
  | nil => rfl
  | node v l r hl hr =>
    cases k with
    | zero => rfl
    | succ k => rw [mirror, level, level, hl, hr, List.reverse_append]

theorem oddValues_mirror (t : BinaryTree α) (k : Nat) :
    oddValues (mirror t) k = (oddValues t k).reverse := by
  induction t generalizing k with
  | nil => rfl
  | node v l r hl hr =>
    simp only [mirror, oddValues, hl, hr, List.reverse_append, List.append_assoc]
    split_ifs <;> rfl

/-- Lists of all odd levels that agree, agree in each part of the tree. -/
theorem oddValues_node (hl : shape l' = shape l)
    (h : oddValues (.node v' l' r') k = oddValues (.node v l r) k) :
    oddValues l' (k + 1) = oddValues l (k + 1) ∧ (k % 2 ≠ 0 → v' = v) ∧
      oddValues r' (k + 1) = oddValues r (k + 1) := by
  rw [oddValues, oddValues, List.append_assoc, List.append_assoc] at h
  obtain ⟨hleft, h⟩ := List.append_inj h (length_oddValues hl (k + 1))
  obtain ⟨hv, hright⟩ := List.append_inj h (by split_ifs <;> rfl)
  refine ⟨hleft, fun hk => ?_, hright⟩
  rw [if_pos hk, if_pos hk] at hv
  exact (List.cons.inj hv).1

/-- Where the shape and the list of all odd levels agree, each odd level agrees. -/
theorem level_eq (h : shape s = shape t) (ho : oddValues s k = oddValues t k) (hj : (k + j) % 2 ≠ 0) :
    level s j = level t j := by
  induction t generalizing s k j with
  | nil => rw [shape_eq_nil h]
  | node v l r hl hr =>
    obtain ⟨v', l', r', rfl, hl', hr'⟩ := shape_eq_node h
    obtain ⟨hol, hv, hor⟩ := oddValues_node hl' ho
    cases j with
    | zero => rw [level, level, hv hj]
    | succ j =>
      have hj' : (k + 1 + j) % 2 ≠ 0 := by
        rwa [Nat.add_assoc, Nat.add_comm 1 j]
      rw [level, level, hl hl' hol hj', hr hr' hor hj']

/-- A tree is known from its shape, its odd levels and its even levels. -/
theorem eq_of_levels (h : shape s = shape t) (ho : oddValues s k = oddValues t k) (he : SameEven k s t) :
    s = t := by
  induction t generalizing s k with
  | nil => exact shape_eq_nil h
  | node v l r hl hr =>
    obtain ⟨v', l', r', rfl, hl', hr'⟩ := shape_eq_node h
    obtain ⟨hol, hv, hor⟩ := oddValues_node hl' ho
    have hchild : ∀ d, SameEven (k + 1) (child (.node v' l' r') d) (child (.node v l r) d) := by
      intro d p hp
      exact he (d :: p) (by rw [List.length_cons]; omega)
    have hroot : v' = v := by
      by_cases hk : k % 2 = 0
      · exact Option.some.inj (he [] hk)
      · exact hv hk
    rw [hroot, hl hl' hol (hchild .left), hr hr' hor (hchild .right)]

theorem length_of_full (h : Full n t) {p : Position} (hp : IsLeaf t p) : p.length + 1 = n := by
  induction h generalizing p with
  | nil =>
    obtain ⟨v, hv⟩ := hp
    rw [subtree_nil] at hv
    cases hv
  | node hl hr ihl ihr =>
    obtain ⟨rfl, rfl, -⟩ | ⟨d, q, rfl, hq⟩ := isLeaf_node_iff.mp hp
    · cases hl
      rfl
    · cases d with
      | left => exact congrArg Nat.succ (ihl hq)
      | right => exact congrArg Nat.succ (ihr hq)

theorem perfect_child (h : Perfect t) (d : Side) : Perfect (child t d) :=
  ⟨fun p q hp hq => Nat.succ.inj (h.depth (d :: p) (d :: q) hp hq), fun p => h.full (d :: p)⟩

theorem full_of_perfect (h : Perfect t) : ∃ n, Full n t := by
  induction t with
  | nil => exact ⟨0, .nil⟩
  | node v l r hl hr =>
    obtain ⟨n, hn⟩ := hl (perfect_child h .left)
    obtain ⟨m, hm⟩ := hr (perfect_child h .right)
    have heq : n = m := by
      by_cases hlnil : l = .nil
      · have hrnil := (h.full [] v l r rfl).mp hlnil
        subst hlnil hrnil
        cases hn
        cases hm
        rfl
      · have hrnil : r ≠ .nil := fun he => hlnil ((h.full [] v l r rfl).mpr he)
        obtain ⟨p, hp⟩ := exists_isLeaf hlnil
        obtain ⟨q, hq⟩ := exists_isLeaf hrnil
        have hlen := h.depth (.left :: p) (.right :: q) hp hq
        rw [← length_of_full hn hp, ← length_of_full hm hq]
        exact hlen
    subst heq
    exact ⟨n + 1, .node hn hm⟩

/-- With the list of all odd levels reversed, each odd level of a perfect tree is reversed. -/
theorem level_reverse (ht : Perfect t) (h : shape s = shape t) (ho : oddValues s 0 = (oddValues t 0).reverse)
    (hk : k % 2 ≠ 0) : level s k = (level t k).reverse := by
  obtain ⟨n, hn⟩ := full_of_perfect ht
  have hs : shape s = shape (mirror t) := h.trans (shape_eq_of_full hn (full_mirror hn))
  rw [← level_mirror]
  refine level_eq hs (ho.trans (oddValues_mirror t 0).symm) ?_
  rwa [Nat.zero_add]

end C11AndC.Library
