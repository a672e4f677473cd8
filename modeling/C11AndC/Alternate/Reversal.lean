import C11AndC.Library.Levels
import C11AndC.Library.Lists
import Mathlib.Data.List.Induction

namespace C11AndC.Alternate

open C11AndC.Library

def MAX : Nat := 100

/-- An array as it is declared: nothing is known of the characters in it. -/
abbrev Buffer := { arr : List Char // arr.length = MAX }

/-- A node is stored if its level is odd. -/
def storeNode (data : Char) (arr : List Char) (index l : Nat) : Option (List Char × Nat) :=
  if l % 2 ≠ 0 then (put arr index data).map fun arr => (arr, index + 1) else some (arr, index)

def storeAlternate : BinaryTree Char → List Char → Nat → Nat → Option (List Char × Nat)
  | .nil, arr, index, _ => some (arr, index)
  | .node data left right, arr, index, l => do
    let (arr, index) ← storeAlternate left arr index (l + 1)
    let (arr, index) ← storeNode data arr index l
    storeAlternate right arr index (l + 1)

/-- A node takes its data from the array if its level is odd. -/
def modifyNode (data : Char) (arr : List Char) (index l : Nat) : Option (Char × Nat) :=
  if l % 2 ≠ 0 then arr[index]?.map fun data => (data, index + 1) else some (data, index)

def modifyTree : BinaryTree Char → List Char → Nat → Nat → Option (BinaryTree Char × Nat)
  | .nil, _, index, _ => some (.nil, index)
  | .node data left right, arr, index, l => do
    let (left, index) ← modifyTree left arr index (l + 1)
    let (data, index) ← modifyNode data arr index l
    let (right, index) ← modifyTree right arr index (l + 1)
    return (.node data left right, index)

def reverseLoop (arr : List Char) (l r : Nat) : Option (List Char) :=
  if l < r then do
    let temp ← arr[l]?
    let other ← arr[r]?
    let arr ← put arr l other
    let arr ← put arr r temp
    reverseLoop arr (l + 1) (r - 1)
  else some arr
  termination_by r - l

/-- For `n = 0` the loop ends at once, whether `r` is `-1` or `0`. -/
def reverse (arr : List Char) (n : Nat) : Option (List Char) := reverseLoop arr 0 (n - 1)

def reverseAlternate (arr : Buffer) (root : BinaryTree Char) : Option (BinaryTree Char) := do
  let (arr, index) ← storeAlternate root arr 0 0
  let arr ← reverse arr index
  let (root, _) ← modifyTree root arr 0 0
  return root

section Traversals

variable {t : BinaryTree Char} {a b xs : List Char} {i l : Nat}

/-- What a node adds to the list of the odd levels. -/
def own (data : Char) (l : Nat) : List Char := if l % 2 ≠ 0 then [data] else []

theorem oddValues_own (data : Char) (left right : BinaryTree Char) (l : Nat) :
    oddValues (.node data left right) l = oddValues left (l + 1) ++ own data l ++ oddValues right (l + 1) := rfl

theorem storeNode_append (hi : i = a.length) (data : Char) (hb : (own data l).length ≤ b.length) :
    storeNode data (a ++ b) i l =
      some (a ++ own data l ++ b.drop (own data l).length, i + (own data l).length) := by
  by_cases h : l % 2 ≠ 0
  · rw [own, if_pos h] at hb ⊢
    rw [storeNode, if_pos h, put_append hi hb]
    rfl
  · rw [storeNode, own, if_neg h, if_neg h]
    simp

theorem storeAlternate_append (hi : i = a.length) (hb : (oddValues t l).length ≤ b.length) :
    storeAlternate t (a ++ b) i l =
      some (a ++ oddValues t l ++ b.drop (oddValues t l).length, i + (oddValues t l).length) := by
  induction t generalizing a b i l with
  | nil => simp [storeAlternate, oddValues]
  | node data left right hl hr =>
    rw [oddValues_own, List.length_append, List.length_append] at hb
    have hleft := hl (l := l + 1) (b := b) hi (by omega)
    have hown := storeNode_append (a := a ++ oddValues left (l + 1)) (b := b.drop (oddValues left (l + 1)).length)
      (l := l) (i := i + (oddValues left (l + 1)).length) (by simp [hi]) data
      (by rw [List.length_drop]; omega)
    have hright := hr (l := l + 1) (a := a ++ oddValues left (l + 1) ++ own data l)
      (b := (b.drop (oddValues left (l + 1)).length).drop (own data l).length)
      (i := i + (oddValues left (l + 1)).length + (own data l).length) (by simp [hi, Nat.add_assoc])
      (by rw [List.length_drop, List.length_drop]; omega)
    simp only [storeAlternate, hleft, hown, hright, Option.bind_eq_bind, Option.bind_some, oddValues_own]
    simp [List.drop_drop, Nat.add_assoc]

/-- The loop swaps the ends of the part that is left. -/
theorem reverseLoop_eq (a b xs : List Char) :
    reverseLoop (a ++ xs ++ b) a.length (a.length + xs.length - 1) = some (a ++ xs.reverse ++ b) := by
  induction xs using List.bidirectionalRec generalizing a b with
  | nil =>
    rw [reverseLoop, if_neg (by simp)]
    rfl
  | singleton x =>
    rw [reverseLoop, if_neg (by simp)]
    rfl
  | cons_append x ys y ih =>
    have hr : a.length + (x :: (ys ++ [y])).length - 1 = a.length + ys.length + 1 := by
      simp only [List.length_cons, List.length_append, List.length_nil]
      omega
    have harr : a ++ x :: (ys ++ [y]) ++ b = (a ++ [x] ++ ys) ++ y :: b := by simp
    have hx : (a ++ x :: (ys ++ [y]) ++ b)[a.length]? = some x := by simp
    have hlen : (a ++ [x] ++ ys).length = a.length + ys.length + 1 := by simp; omega
    have hy : (a ++ x :: (ys ++ [y]) ++ b)[a.length + ys.length + 1]? = some y := by
      rw [harr, ← hlen]
      simp
    have hput : put (a ++ x :: (ys ++ [y]) ++ b) a.length y = some ((a ++ [y] ++ ys) ++ y :: b) := by
      rw [List.append_assoc, put_append rfl (by simp)]
      simp
    have hput' : put ((a ++ [y] ++ ys) ++ y :: b) (a.length + ys.length + 1) x =
        some (a ++ [y] ++ ys ++ x :: b) := by
      rw [put_append (by simp; omega) (by simp)]
      simp
    have hrest := ih (a ++ [y]) (x :: b)
    have hlt : a.length < a.length + ys.length + 1 := by omega
    have hr' : (a ++ [y]).length + ys.length - 1 = a.length + ys.length + 1 - 1 := by
      rw [List.length_append, List.length_singleton]
      omega
    rw [hr', List.length_append, List.length_singleton] at hrest
    rw [hr, reverseLoop, if_pos hlt]
    simp only [hx, hy, hput, hput', hrest, Option.bind_eq_bind, Option.bind_some]
    simp

theorem modifyNode_append (hi : i = a.length) (data : Char) (hxs : xs.length = (own data l).length) :
    ∃ x, modifyNode data (a ++ xs ++ b) i l = some (x, i + xs.length) ∧ (l % 2 = 0 → x = data) ∧ own x l = xs := by
  subst hi
  by_cases h : l % 2 ≠ 0
  · rw [own, if_pos h] at hxs
    obtain ⟨x, rfl⟩ := List.length_eq_one_iff.mp hxs
    refine ⟨x, ?_, fun h' => absurd h' h, if_pos h⟩
    rw [modifyNode, if_pos h]
    simp
  · rw [own, if_neg h] at hxs
    obtain rfl := List.length_eq_zero_iff.mp hxs
    exact ⟨data, by rw [modifyNode, if_neg h]; rfl, fun _ => rfl, if_neg h⟩

theorem split_length {n m k : Nat} (h : xs.length = n + m + k) :
    ∃ us vs ws, xs = us ++ vs ++ ws ∧ us.length = n ∧ vs.length = m ∧ ws.length = k := by
  refine ⟨xs.take n, (xs.drop n).take m, (xs.drop n).drop m, ?_, ?_, ?_, ?_⟩
  · rw [List.append_assoc, List.take_append_drop, List.take_append_drop]
  · rw [List.length_take]
    omega
  · rw [List.length_take, List.length_drop]
    omega
  · rw [List.length_drop, List.length_drop]
    omega

theorem modifyTree_append (hi : i = a.length) (hxs : xs.length = (oddValues t l).length) :
    ∃ t', modifyTree t (a ++ xs ++ b) i l = some (t', i + xs.length) ∧
      shape t' = shape t ∧ SameEven l t' t ∧ oddValues t' l = xs := by
  induction t generalizing a b xs i l with
  | nil =>
    obtain rfl := List.length_eq_zero_iff.mp hxs
    exact ⟨.nil, rfl, rfl, fun _ _ => rfl, rfl⟩
  | node data left right hl hr =>
    rw [oddValues_own, List.length_append, List.length_append] at hxs
    obtain ⟨us, vs, ws, rfl, hus, hvs, hws⟩ := split_length hxs
    obtain ⟨left', hleft, hsl, hel, hol⟩ := hl (b := vs ++ ws ++ b) hi hus
    obtain ⟨x, hx, hxd, hox⟩ := modifyNode_append (a := a ++ us) (b := ws ++ b) (i := i + us.length)
      (by simp [hi]) data hvs
    obtain ⟨right', hright, hsr, her, hor⟩ := hr (a := a ++ us ++ vs) (b := b)
      (i := i + us.length + vs.length) (by simp [hi, Nat.add_assoc]) hws
    have harr : a ++ (us ++ vs ++ ws) ++ b = a ++ us ++ (vs ++ ws ++ b) := by simp
    have harr' : a ++ us ++ (vs ++ ws ++ b) = a ++ us ++ vs ++ (ws ++ b) := by simp
    refine ⟨.node x left' right', ?_, ?_, ?_, ?_⟩
    · rw [harr'] at hleft
      simp only [List.append_assoc] at hleft hx hright ⊢
      simp only [modifyTree, hleft, hx, hright, Option.bind_eq_bind, Option.bind_some, List.length_append]
      simp [Nat.add_assoc]
    · rw [shape_node, shape_node, hsl, hsr]
    · intro p hp
      cases p with
      | nil => simp [valueAt, subtree, root, hxd hp]
      | cons d p =>
        have hp' : (l + 1 + p.length) % 2 = 0 := by
          rw [List.length_cons] at hp
          omega
        cases d with
        | left => exact hel p hp'
        | right => exact her p hp'
    · rw [oddValues_own, hol, hox, hor]

/-- The odd levels come back in reverse order, and the rest of the tree is as it was. -/
theorem reverseAlternate_eq (arr : Buffer) (root : BinaryTree Char) (h : (oddValues root 0).length ≤ MAX) :
    ∃ root', reverseAlternate arr root = some root' ∧ shape root' = shape root ∧
      SameEven 0 root' root ∧ oddValues root' 0 = (oddValues root 0).reverse := by
  have hstore := storeAlternate_append (t := root) (a := []) (b := arr.val) (l := 0) rfl
    (by rwa [arr.property])
  have hreverse := reverseLoop_eq [] (arr.val.drop (oddValues root 0).length) (oddValues root 0)
  have hlen : (oddValues root 0).reverse.length = (oddValues root 0).length := List.length_reverse
  obtain ⟨root', hmodify, hshape, heven, hodd⟩ := modifyTree_append (t := root) (a := [])
    (b := arr.val.drop (oddValues root 0).length) (l := 0) rfl hlen
  refine ⟨root', ?_, hshape, heven, hodd⟩
  simp only [List.nil_append, List.length_nil, Nat.zero_add] at hstore hreverse hmodify
  simp only [reverseAlternate, reverse, hstore, hreverse, hmodify, Option.bind_eq_bind, Option.bind_some]
  rfl

/-- `reverseAlternate` changes the data of the odd levels only and permutes it, undoes itself, and
reverses each odd level of a perfect tree. -/
theorem reverseAlternate_spec (arr : Buffer) (root : BinaryTree Char) (h : (oddValues root 0).length ≤ MAX) :
    ∃ root', reverseAlternate arr root = some root' ∧ shape root' = shape root ∧
      (∀ p : Position, p.length % 2 = 0 → valueAt root' p = valueAt root p) ∧
      (oddValues root' 0).Perm (oddValues root 0) ∧
      (∀ arr', reverseAlternate arr' root' = some root) ∧
      (Perfect root → ∀ k, k % 2 ≠ 0 → level root' k = (level root k).reverse) := by
  obtain ⟨root', hroot, hshape, heven, hodd⟩ := reverseAlternate_eq arr root h
  refine ⟨root', hroot, hshape, fun p hp => heven p (by rwa [Nat.zero_add]), ?_, fun arr' => ?_, ?_⟩
  · rw [hodd]
    exact List.reverse_perm _
  · obtain ⟨root'', hroot', hshape', heven', hodd'⟩ :=
      reverseAlternate_eq arr' root' (by rwa [length_oddValues hshape 0])
    rw [hodd, List.reverse_reverse] at hodd'
    have heq := eq_of_levels (hshape'.trans hshape) hodd' fun p hp => (heven' p hp).trans (heven p hp)
    rw [hroot', heq]
  · exact fun hp k => level_reverse hp hshape hodd

def blank : Buffer := ⟨List.replicate MAX ' ', List.length_replicate⟩

def three : BinaryTree Char := .node 'a' (.node 'b' .nil .nil) (.node 'c' .nil .nil)

theorem reverseAlternate_three :
    ∃ root', reverseAlternate blank three = some root' ∧ shape root' = shape three ∧
      (∀ p : Position, p.length % 2 = 0 → valueAt root' p = valueAt three p) ∧
      (oddValues root' 0).Perm (oddValues three 0) ∧
      (∀ arr', reverseAlternate arr' root' = some three) ∧
      (Perfect three → ∀ k, k % 2 ≠ 0 → level root' k = (level three k).reverse) :=
  reverseAlternate_spec blank three (by decide)

end Traversals

end C11AndC.Alternate
