import C11AndC.Crew.Search
import C11AndC.Library.Lists
import C11AndC.Library.Trees

namespace C11AndC.Subtree

open C11AndC.Library C11AndC.Crew

def MAX : Nat := 100

/-- An array as it is declared: nothing is known of the characters in it. -/
abbrev Buffer := { arr : List Char // arr.length = MAX }

def storeInorder : BinaryTree Char → List Char → Nat → Option (List Char × Nat)
  | .nil, arr, i => do
    let arr ← put arr i '$'
    return (arr, i + 1)
  | .node key left right, arr, i => do
    let (arr, i) ← storeInorder left arr i
    let arr ← put arr i key
    storeInorder right arr (i + 1)

def storePreOrder : BinaryTree Char → List Char → Nat → Option (List Char × Nat)
  | .nil, arr, i => do
    let arr ← put arr i '$'
    return (arr, i + 1)
  | .node key left right, arr, i => do
    let arr ← put arr i key
    let (arr, i) ← storePreOrder left arr (i + 1)
    storePreOrder right arr i

def isSubtree (inT inS preT preS : Buffer) (T S : BinaryTree Char) : Option Bool :=
  if S = .nil then some true
  else if T = .nil then some false
  else do
    let (inT, m) ← storeInorder T inT 0
    let (inS, n) ← storeInorder S inS 0
    let inT ← put inT m nul
    let inS ← put inS n nul
    if strstr inT (str inS) = false then
      return false
    else
      let (preT, m) ← storePreOrder T preT 0
      let (preS, n) ← storePreOrder S preS 0
      let preT ← put preT m nul
      let preS ← put preS n nul
      return strstr preT (str preS)

/-- A tree whose keys are not mistaken for a mark. -/
def Unmarked (t : BinaryTree Char) : Prop := ∀ key ∈ inorder t, key ≠ '$' ∧ key ≠ nul

/-- The serialisation and its end mark fit into a buffer. -/
def Fits (t : BinaryTree Char) : Prop := 2 * t.numNodes + 2 ≤ MAX

instance : DecidablePred Unmarked := fun t =>
  List.decidableBAll (fun key => key ≠ '$' ∧ key ≠ nul) (inorder t)

instance : DecidablePred Fits := fun t => inferInstanceAs (Decidable (2 * t.numNodes + 2 ≤ MAX))

/-- `S` is all that is below some node of `T`. -/
def SubtreeOf (S T : BinaryTree Char) : Prop := ∃ p, valueAt T p ≠ none ∧ subtree T p = S

section Writing

variable {t : BinaryTree Char} {a b : List Char} {i : Nat}

theorem storeInorder_append (hi : i = a.length) (hb : (inorderCode '$' t).length ≤ b.length) :
    storeInorder t (a ++ b) i =
      some (a ++ inorderCode '$' t ++ b.drop (inorderCode '$' t).length, i + (inorderCode '$' t).length) := by
  induction t generalizing a b i with
  | nil =>
    rw [storeInorder, put_append hi hb '$']
    rfl
  | node key left right hl hr =>
    rw [inorderCode, List.length_append, List.length_cons] at hb
    have hleft := hl hi (b := b) (by omega)
    have hkey : put _ _ key = some _ :=
      put_append (a := a ++ inorderCode '$' left) (b := b.drop (inorderCode '$' left).length)
        (i := i + (inorderCode '$' left).length) (by simp [hi]) (by rw [List.length_drop]; omega) key
    have hright := hr (a := a ++ inorderCode '$' left ++ [key])
      (b := (b.drop (inorderCode '$' left).length).drop 1) (i := i + (inorderCode '$' left).length + 1)
      (by simp [hi, Nat.add_assoc]) (by simp only [List.length_drop]; omega)
    simp only [storeInorder, hleft, hkey, hright, Option.bind_eq_bind, Option.bind_some]
    simp [inorderCode, List.drop_drop, Nat.add_assoc, Nat.add_comm 1]

theorem storePreOrder_append (hi : i = a.length) (hb : (preorderCode '$' t).length ≤ b.length) :
    storePreOrder t (a ++ b) i =
      some (a ++ preorderCode '$' t ++ b.drop (preorderCode '$' t).length,
        i + (preorderCode '$' t).length) := by
  induction t generalizing a b i with
  | nil =>
    rw [storePreOrder, put_append hi hb '$']
    rfl
  | node key left right hl hr =>
    rw [preorderCode, List.length_cons, List.length_append] at hb
    have hkey : put _ _ key = some _ := put_append hi (b := b) (by omega) key
    have hleft := hl (a := a ++ [key]) (b := b.drop 1) (i := i + 1) (by simp [hi])
      (by rw [List.length_drop]; omega)
    have hright := hr (a := a ++ [key] ++ preorderCode '$' left)
      (b := (b.drop 1).drop (preorderCode '$' left).length) (i := i + 1 + (preorderCode '$' left).length)
      (by simp [hi, Nat.add_assoc, Nat.add_comm]) (by simp only [List.length_drop]; omega)
    simp only [storePreOrder, hleft, hkey, hright, Option.bind_eq_bind, Option.bind_some]
    simp [preorderCode, List.drop_drop, Nat.add_assoc, Nat.add_comm 1]

theorem put_nul (h : a.length < b.length) :
    put (a ++ b.drop a.length) a.length nul = some (fill b a) := by
  rw [put_append rfl (by rw [List.length_drop]; omega) nul, List.drop_drop, List.append_assoc]
  rfl

end Writing

section Search

variable {S T t : BinaryTree Char}

theorem nul_not_mem_inorderCode (h : Unmarked t) : nul ∉ inorderCode '$' t := by
  intro hmem
  obtain he | hmem := mem_inorderCode hmem
  · exact absurd he (by decide)
  · exact (h nul hmem).2 rfl

theorem nul_not_mem_preorderCode (h : Unmarked t) : nul ∉ preorderCode '$' t := by
  intro hmem
  obtain he | hmem := mem_preorderCode hmem
  · exact absurd he (by decide)
  · exact (h nul hmem).2 rfl

theorem subtreeOf_iff (hS : S ≠ .nil) : SubtreeOf S T ↔ ∃ p, subtree T p = S := by
  refine ⟨fun ⟨p, _, hp⟩ => ⟨p, hp⟩, ?_⟩
  rintro ⟨p, rfl⟩
  refine ⟨p, ?_, rfl⟩
  cases h : subtree T p with
  | nil => exact absurd h hS
  | node key left right => simp [valueAt, h, root]

/-- The inorder search never rejects a subtree, and the preorder search finds nothing else. -/
theorem searches_iff (hT : Unmarked T) (hS : Unmarked S) (hne : S ≠ .nil) :
    inorderCode '$' S <:+: inorderCode '$' T ∧ preorderCode '$' S <:+: preorderCode '$' T ↔
      SubtreeOf S T := by
  rw [infix_preorderCode_iff (fun h => (hS _ h).1 rfl) (fun h => (hT _ h).1 rfl), subtreeOf_iff hne]
  refine ⟨And.right, fun h => ⟨?_, h⟩⟩
  obtain ⟨p, rfl⟩ := h
  exact inorderCode_subtree p

theorem storeInorder_buffer (h : Fits t) (buffer : Buffer) : ∃ arr m,
    storeInorder t buffer 0 = some (arr, m) ∧ put arr m nul = some (fill buffer (inorderCode '$' t)) := by
  have hlt : (inorderCode '$' t).length < buffer.val.length := by
    rw [buffer.property, length_inorderCode]
    exact h
  exact ⟨_, _, storeInorder_append (a := []) rfl (Nat.le_of_lt hlt), by simpa using put_nul hlt⟩

theorem storePreOrder_buffer (h : Fits t) (buffer : Buffer) : ∃ arr m,
    storePreOrder t buffer 0 = some (arr, m) ∧ put arr m nul = some (fill buffer (preorderCode '$' t)) := by
  have hlt : (preorderCode '$' t).length < buffer.val.length := by
    rw [buffer.property, length_preorderCode]
    exact h
  exact ⟨_, _, storePreOrder_append (a := []) rfl (Nat.le_of_lt hlt), by simpa using put_nul hlt⟩

/-- The arrays hold the serialisations when they are searched. -/
theorem isSubtree_eq (inT inS preT preS : Buffer) (hS : Unmarked S) (fT : Fits T) (fS : Fits S)
    (hT : T ≠ .nil) (hne : S ≠ .nil) :
    isSubtree inT inS preT preS T S =
      some (strstr (fill inT (inorderCode '$' T)) (inorderCode '$' S) &&
        strstr (fill preT (preorderCode '$' T)) (preorderCode '$' S)) := by
  obtain ⟨arrT, m, hstoreT, hputT⟩ := storeInorder_buffer fT inT
  obtain ⟨arrS, n, hstoreS, hputS⟩ := storeInorder_buffer fS inS
  obtain ⟨arrT', m', hstoreT', hputT'⟩ := storePreOrder_buffer fT preT
  obtain ⟨arrS', n', hstoreS', hputS'⟩ := storePreOrder_buffer fS preS
  simp only [isSubtree, hne, hT, if_false, hstoreT, hstoreS, hputT, hputS, hstoreT', hstoreS', hputT',
    hputS', Option.bind_eq_bind, Option.bind_some, str_fill, str_eq (nul_not_mem_inorderCode hS),
    str_eq (nul_not_mem_preorderCode hS)]
  cases strstr (fill inT (inorderCode '$' T)) (inorderCode '$' S) <;> rfl

/-- `isSubtree` stays inside of its arrays and decides whether `S` is a subtree of `T`. -/
theorem isSubtree_iff (inT inS preT preS : Buffer) (T S : BinaryTree Char) (hT : Unmarked T)
    (hS : Unmarked S) (fT : Fits T) (fS : Fits S) :
    ∃ found, isSubtree inT inS preT preS T S = some found ∧ (found = true ↔ S = .nil ∨ SubtreeOf S T) := by
  by_cases hne : S = .nil
  · exact ⟨true, by rw [isSubtree, if_pos hne], by simp [hne]⟩
  · by_cases hTn : T = .nil
    · refine ⟨false, by rw [isSubtree, if_neg hne, if_pos hTn], ?_⟩
      have hno : ¬ SubtreeOf S T := by
        rw [subtreeOf_iff hne, hTn]
        rintro ⟨p, hp⟩
        exact hne (hp.symm.trans (subtree_nil p))
      simp [hne, hno]
    · refine ⟨_, isSubtree_eq inT inS preT preS hS fT fS hTn hne, ?_⟩
      rw [Bool.and_eq_true, strstr_fill (nul_not_mem_inorderCode hT),
        strstr_fill (nul_not_mem_preorderCode hT), searches_iff hT hS hne, or_iff_right hne]

def blank : Buffer := ⟨List.replicate MAX ' ', List.length_replicate⟩

/-- A leaf of a tree of two nodes is found in it. -/
theorem isSubtree_leaf : ∃ found,
    isSubtree blank blank blank blank (.node 'a' .nil (.node 'b' .nil .nil)) (.node 'b' .nil .nil) =
        some found ∧
      (found = true ↔ BinaryTree.node 'b' .nil .nil = .nil ∨
        SubtreeOf (.node 'b' .nil .nil) (.node 'a' .nil (.node 'b' .nil .nil))) :=
  isSubtree_iff blank blank blank blank _ _ (by decide) (by decide) (by decide) (by decide)

end Search

end C11AndC.Subtree
