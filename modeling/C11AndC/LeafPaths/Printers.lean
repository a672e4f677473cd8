import C11AndC.Library.Leaves
import C11AndC.Library.Lists

namespace C11AndC.LeafPaths

open C11AndC.Library

/-- The vector `path` and the lines that are printed. -/
structure Vars where
  path : List Int
  out : List (List Int)

def printPath (vars : Vars) : Vars := { vars with out := vars.out ++ [vars.path] }

/-- `path[i]` is undefined behind the end of the vector. -/
def printPathLength (vars : Vars) (length : Nat) : Option Vars := do
  let line ← (List.range length).mapM fun i => vars.path[i]?
  return { vars with out := vars.out ++ [line] }

def printPreorder : BinaryTree Int → Vars → Vars
  | .nil, vars => vars
  | .node data left right, vars =>
    let vars := { vars with path := vars.path ++ [data] }
    let oldPath := vars.path
    let vars := if left = .nil ∧ right = .nil then printPath vars else vars
    let vars := printPreorder left vars
    let vars := { vars with path := oldPath }
    let vars := printPreorder right vars
    { vars with path := oldPath }

/-- `path[length] = data`, or `data` at the end of the vector. -/
def putData (path : List Int) (length : Nat) (data : Int) : Option (List Int) :=
  if length = path.length then some (path ++ [data])
  else if length < path.length then some (path.set length data)
  else none

def printPreorderLength : BinaryTree Int → Vars → Nat → Option Vars
  | .nil, vars, _ => some vars
  | .node data left right, vars, length => do
    let path ← putData vars.path length data
    let vars := { vars with path := path }
    let length := length + 1
    if left = .nil ∧ right = .nil then
      printPathLength vars length
    else
      let vars ← printPreorderLength left vars length
      printPreorderLength right vars length

section Lines

variable {t : BinaryTree Int} {vars : Vars} {length : Nat} {path : List Int}

theorem printPreorder_out (t : BinaryTree Int) (vars : Vars) : (printPreorder t vars).out =
    vars.out ++ ((leaves t).map (pathTo t)).map (vars.path ++ ·) := by
  induction t generalizing vars with
  | nil => simp [printPreorder, leaves]
  | node data left right hl hr =>
    by_cases h : left = .nil ∧ right = .nil
    · obtain ⟨rfl, rfl⟩ := h
      simp [printPreorder, leaves, printPath, pathTo_nil]
    · rw [map_leaves_node h]
      simp [printPreorder, h, hl, hr, Function.comp_def]

theorem putData_spec (data : Int) (h : length ≤ path.length) : ∃ path', putData path length data = some path' ∧
    path'.take (length + 1) = path.take length ++ [data] ∧ length + 1 ≤ path'.length := by
  by_cases he : length = path.length
  · subst he
    exact ⟨path ++ [data], if_pos rfl, by simp, by simp⟩
  · have hlt := Nat.lt_of_le_of_ne h he
    refine ⟨path.set length data, by rw [putData, if_neg he, if_pos hlt], ?_, by rwa [List.length_set]⟩
    rw [List.take_add_one, List.take_set, List.set_eq_of_length_le (by rw [List.length_take]; omega),
      List.getElem?_set_self hlt]
    rfl

theorem printPathLength_eq (h : length ≤ vars.path.length) :
    printPathLength vars length = some { vars with out := vars.out ++ [vars.path.take length] } := by
  rw [printPathLength, mapM_getElem? h]
  rfl

/-- Before and after a call, the first `length` entries of the vector are the path to the node. -/
theorem printPreorderLength_spec (vars : Vars) (h : length ≤ vars.path.length) :
    ∃ vars', printPreorderLength t vars length = some vars' ∧
      vars'.path.take length = vars.path.take length ∧ length ≤ vars'.path.length ∧
      vars'.out = vars.out ++ ((leaves t).map (pathTo t)).map (vars.path.take length ++ ·) := by
  induction t generalizing vars length with
  | nil => exact ⟨vars, rfl, rfl, h, by simp [leaves]⟩
  | node data left right hl hr =>
    obtain ⟨path, hput, htake, hlen⟩ := putData_spec data h
    have hshorter : ∀ {path' : List Int}, path'.take (length + 1) = path.take (length + 1) →
        path'.take length = vars.path.take length := by
      intro path' he
      have ht := congrArg (List.take length) (he.trans htake)
      rw [List.take_take, Nat.min_eq_left (Nat.le_succ length), List.take_left' (List.length_take_of_le h)] at ht
      exact ht
    rw [printPreorderLength, hput]
    simp only [Option.bind_eq_bind, Option.bind_some]
    by_cases hleaf : left = .nil ∧ right = .nil
    · rw [if_pos hleaf, printPathLength_eq hlen]
      refine ⟨_, rfl, hshorter rfl, Nat.le_of_succ_le hlen, ?_⟩
      obtain ⟨rfl, rfl⟩ := hleaf
      simp [leaves, pathTo_nil, htake]
    · rw [if_neg hleaf]
      obtain ⟨vars₁, h₁, htake₁, hlen₁, hout₁⟩ := hl { vars with path := path } hlen
      obtain ⟨vars₂, h₂, htake₂, hlen₂, hout₂⟩ := hr vars₁ hlen₁
      refine ⟨vars₂, ?_, hshorter (htake₂.trans htake₁), Nat.le_of_succ_le hlen₂, ?_⟩
      · rw [h₁, Option.bind_some, h₂]
      · rw [hout₂, hout₁, htake₁, htake, map_leaves_node hleaf]
        simp [Function.comp_def]

/-- Both print the paths to the leaves, from left to right, and the second one stays inside of its
vector. -/
theorem printPreorder_agree (root : BinaryTree Int) : ∃ qs : List Position,
    (∀ q, q ∈ qs ↔ IsLeaf root q) ∧ qs.Pairwise LeftOf ∧
      (printPreorder root ⟨[], []⟩).out = qs.map (pathTo root) ∧
      ∃ vars, printPreorderLength root ⟨[], []⟩ 0 = some vars ∧ vars.out = qs.map (pathTo root) := by
  refine ⟨leaves root, fun q => mem_leaves, leaves_pairwise, ?_, ?_⟩
  · simpa [Function.comp_def] using printPreorder_out root ⟨[], []⟩
  · obtain ⟨vars, hvars, -, -, hout⟩ := printPreorderLength_spec (t := root) ⟨[], []⟩ (Nat.le_refl 0)
    exact ⟨vars, hvars, by simpa [Function.comp_def] using hout⟩

end Lines

end C11AndC.LeafPaths
