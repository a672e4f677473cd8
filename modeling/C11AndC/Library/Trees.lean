import Mathlib.Data.List.Basic
import Mathlib.Data.Tree.Basic

namespace C11AndC.Library

inductive Side where
  | left
  | right
  deriving DecidableEq, Repr

/-- A way down from the root. -/
abbrev Position := List Side

variable {α : Type}

def child : BinaryTree α → Side → BinaryTree α
  | .nil, _ => .nil
  | .node _ l _, .left => l
  | .node _ _ r, .right => r

def root : BinaryTree α → Option α
  | .nil => none
  | .node v _ _ => some v

def subtree (t : BinaryTree α) : Position → BinaryTree α
  | [] => t
  | d :: p => subtree (child t d) p

theorem subtree_nil (p : Position) : subtree (.nil : BinaryTree α) p = .nil := by
  induction p with
  | nil => rfl
  | cons d p ih => exact ih

/-- The value of the node at a position; there is none outside of the tree. -/
def valueAt (t : BinaryTree α) (p : Position) : Option α := root (subtree t p)

theorem valueAt_cons {t : BinaryTree α} {d : Side} {p : Position} :
    valueAt t (d :: p) = valueAt (child t d) p := rfl

theorem valueAt_nil_tree {p : Position} : valueAt (.nil : BinaryTree α) p = none := by
  rw [valueAt, subtree_nil, root]

theorem subtree_append (t : BinaryTree α) (p q : Position) :
    subtree t (p ++ q) = subtree (subtree t p) q := by
  induction p generalizing t with
  | nil => rfl
  | cons d p ih => exact ih (child t d)

/-- What is above a node is a node. -/
theorem valueAt_append {t : BinaryTree α} {p q : Position} (h : valueAt t (p ++ q) ≠ none) :
    valueAt t p ≠ none := by
  intro hp
  rw [valueAt, subtree_append] at h
  cases ht : subtree t p with
  | nil =>
    rw [ht, subtree_nil] at h
    exact h rfl
  | node v l r => simp [valueAt, ht, root] at hp

def IsLeaf (t : BinaryTree α) (p : Position) : Prop := ∃ v, subtree t p = .node v .nil .nil

theorem isLeaf_node_iff {v : α} {l r : BinaryTree α} {p : Position} : IsLeaf (.node v l r) p ↔
    p = [] ∧ l = .nil ∧ r = .nil ∨ ∃ d q, p = d :: q ∧ IsLeaf (child (.node v l r) d) q := by
  cases p with
  | nil => simp [IsLeaf, subtree]
  | cons d p => simp [IsLeaf, subtree]

theorem exists_isLeaf {t : BinaryTree α} (h : t ≠ .nil) : ∃ p, IsLeaf t p := by
  induction t with
  | nil => exact absurd rfl h
  | node v l r hl hr =>
    by_cases hln : l = .nil
    · by_cases hrn : r = .nil
      · exact ⟨[], v, by rw [hln, hrn, subtree]⟩
      · obtain ⟨p, hp⟩ := hr hrn
        exact ⟨.right :: p, hp⟩
    · obtain ⟨p, hp⟩ := hl hln
      exact ⟨.left :: p, hp⟩

/-- The values from left to right. -/
def inorder : BinaryTree α → List α
  | .nil => []
  | .node v l r => inorder l ++ v :: inorder r

/-- Root first, and every missing child written as `e`. -/
def preorderCode (e : α) : BinaryTree α → List α
  | .nil => [e]
  | .node v l r => v :: (preorderCode e l ++ preorderCode e r)

def inorderCode (e : α) : BinaryTree α → List α
  | .nil => [e]
  | .node v l r => inorderCode e l ++ v :: inorderCode e r

section Codes

variable {e : α} {s t : BinaryTree α} {a b c : List α}

theorem mem_preorderCode {x : α} (h : x ∈ preorderCode e t) : x = e ∨ x ∈ inorder t := by
  induction t with
  | nil => exact .inl (List.mem_singleton.mp h)
  | node v l r hl hr =>
    simp only [inorder, List.mem_append, List.mem_cons]
    obtain rfl | h := List.mem_cons.mp h
    · exact .inr (.inr (.inl rfl))
    · obtain h | h := List.mem_append.mp h
      · exact (hl h).imp_right .inl
      · exact (hr h).imp_right fun h => .inr (.inr h)

theorem mem_inorderCode {x : α} (h : x ∈ inorderCode e t) : x = e ∨ x ∈ inorder t := by
  induction t with
  | nil => exact .inl (List.mem_singleton.mp h)
  | node v l r hl hr =>
    simp only [inorder, List.mem_append, List.mem_cons]
    obtain h | h := List.mem_append.mp h
    · exact (hl h).imp_right .inl
    · obtain rfl | h := List.mem_cons.mp h
      · exact .inr (.inr (.inl rfl))
      · exact (hr h).imp_right fun h => .inr (.inr h)

theorem length_preorderCode : (preorderCode e t).length = 2 * t.numNodes + 1 := by
  induction t with
  | nil => rfl
  | node v l r hl hr =>
    simp only [preorderCode, List.length_cons, List.length_append, hl, hr, BinaryTree.numNodes]
    omega

theorem length_inorderCode : (inorderCode e t).length = 2 * t.numNodes + 1 := by
  induction t with
  | nil => rfl
  | node v l r hl hr =>
    simp only [inorderCode, List.length_cons, List.length_append, hl, hr, BinaryTree.numNodes]
    omega

theorem preorderCode_ne_nil : preorderCode e t ≠ [] := by
  cases t <;> simp [preorderCode]

/-- No code is a proper beginning of another one. -/
theorem preorderCode_append (hs : e ∉ inorder s) (ht : e ∉ inorder t)
    (h : preorderCode e s ++ a = preorderCode e t ++ b) : s = t ∧ a = b := by
  induction s generalizing t a b with
  | nil =>
    cases t with
    | nil => exact ⟨rfl, (List.cons.inj h).2⟩
    | node v l r =>
      obtain ⟨rfl, -⟩ := List.cons.inj h
      simp [inorder] at ht
  | node v l r hl hr =>
    simp only [inorder, List.mem_append, List.mem_cons, not_or] at hs
    cases t with
    | nil => exact absurd (List.cons.inj h).1.symm hs.2.1
    | node v' l' r' =>
      simp only [inorder, List.mem_append, List.mem_cons, not_or] at ht
      simp only [preorderCode, List.cons_append, List.append_assoc, List.cons.injEq] at h
      obtain ⟨rfl, h⟩ := h
      obtain ⟨rfl, hlr⟩ := hl hs.1 ht.1 h
      obtain ⟨rfl, hab⟩ := hr hs.2.2 ht.2.2 hlr
      exact ⟨rfl, hab⟩

/-- Every place in a code is the start of the code of a subtree. -/
theorem preorderCode_suffix (h : preorderCode e t = a ++ c) (hc : c ≠ []) :
    ∃ p b, c = preorderCode e (subtree t p) ++ b := by
  induction t generalizing a c with
  | nil =>
    cases a with
    | nil => exact ⟨[], [], by simpa [subtree] using h.symm⟩
    | cons x a => simp_all [preorderCode]
  | node v l r hl hr =>
    cases a with
    | nil => exact ⟨[], [], by simpa [subtree] using h.symm⟩
    | cons x a =>
      simp only [preorderCode, List.cons_append, List.cons.injEq] at h
      obtain ⟨a', rfl, h'⟩ | ⟨c', h', rfl⟩ := List.append_eq_append_iff.mp h.2
      · obtain ⟨p, b, hb⟩ := hr h' hc
        exact ⟨.right :: p, b, hb⟩
      · by_cases hc' : c' = []
        · subst hc'
          obtain ⟨p, b, hb⟩ := hr (a := []) rfl preorderCode_ne_nil
          exact ⟨.right :: p, b, hb⟩
        · obtain ⟨p, b, hb⟩ := hl h' hc'
          exact ⟨.left :: p, b ++ preorderCode e r, by rw [hb, List.append_assoc]; rfl⟩

/-- What is written for a subtree is written somewhere for the tree. -/
theorem subtree_infix {f : BinaryTree α → List α} (hl : ∀ v l r, f l <:+: f (.node v l r))
    (hr : ∀ v l r, f r <:+: f (.node v l r)) (t : BinaryTree α) (p : Position) :
    f (subtree t p) <:+: f t := by
  induction p generalizing t with
  | nil => exact List.infix_rfl
  | cons d p ih =>
    refine (ih (child t d)).trans ?_
    cases t with
    | nil => exact List.infix_rfl
    | node v l r =>
      cases d with
      | left => exact hl v l r
      | right => exact hr v l r

theorem inorder_subtree (p : Position) : inorder (subtree t p) <:+: inorder t :=
  subtree_infix (fun _ _ _ => (List.prefix_append _ _).isInfix)
    (fun v _ _ => ((List.suffix_cons v _).trans (List.suffix_append _ _)).isInfix) t p

theorem inorderCode_subtree (p : Position) : inorderCode e (subtree t p) <:+: inorderCode e t :=
  subtree_infix (fun _ _ _ => (List.prefix_append _ _).isInfix)
    (fun v _ _ => ((List.suffix_cons v _).trans (List.suffix_append _ _)).isInfix) t p

theorem preorderCode_subtree (p : Position) : preorderCode e (subtree t p) <:+: preorderCode e t :=
  subtree_infix (fun v _ _ => (List.prefix_append _ _).isInfix.trans (List.suffix_cons v _).isInfix)
    (fun v _ _ => ((List.suffix_append _ _).trans (List.suffix_cons v _)).isInfix) t p

/-- The code of one tree is inside of the code of another one just where it is a subtree of it. -/
theorem infix_preorderCode_iff (hs : e ∉ inorder s) (ht : e ∉ inorder t) :
    preorderCode e s <:+: preorderCode e t ↔ ∃ p, subtree t p = s := by
  constructor
  · rintro ⟨a, b, h⟩
    rw [List.append_assoc] at h
    obtain ⟨p, b', hp⟩ := preorderCode_suffix h.symm (List.append_ne_nil_of_left_ne_nil preorderCode_ne_nil _)
    have he : e ∉ inorder (subtree t p) := fun h => ht ((inorder_subtree p).subset h)
    exact ⟨p, (preorderCode_append hs he hp).1.symm⟩
  · rintro ⟨p, rfl⟩
    exact preorderCode_subtree p

end Codes

end C11AndC.Library
