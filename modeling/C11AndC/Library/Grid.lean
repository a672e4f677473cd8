import C11AndC.Library.Lists

namespace C11AndC.Library

/-- A two-dimensional array, as the list of its rows. -/
abbrev Grid (α : Type) := List (List α)

variable {α : Type}

def getAt (g : Grid α) (i j : Nat) : Option α := g[i]?.bind fun row => row[j]?

def putAt (g : Grid α) (i j : Nat) (x : α) : Option (Grid α) := do
  let row ← g[i]?
  let row ← put row j x
  put g i row

structure Square (n : Nat) (g : Grid α) : Prop where
  rows : g.length = n
  columns : ∀ row ∈ g, row.length = n

/-- A square that is filled with one value. -/
def uniform (n : Nat) (x : α) : Grid α := List.replicate n (List.replicate n x)

variable {g : Grid α} {n i j : Nat} {x : α}

theorem square_uniform (n : Nat) (x : α) : Square n (uniform n x) := by
  refine ⟨List.length_replicate, fun row h => ?_⟩
  rw [List.eq_of_mem_replicate h, List.length_replicate]

theorem getAt_uniform (hi : i < n) (hj : j < n) : getAt (uniform n x) i j = some x := by
  rw [getAt, uniform, List.getElem?_replicate_of_lt hi, Option.bind_some, List.getElem?_replicate_of_lt hj]

theorem exists_row (h : Square n g) (hi : i < n) : ∃ row, g[i]? = some row ∧ row.length = n := by
  have hlt : i < g.length := h.rows ▸ hi
  exact ⟨g[i], List.getElem?_eq_getElem hlt, h.columns _ (List.getElem_mem hlt)⟩

theorem exists_getAt (h : Square n g) (hi : i < n) (hj : j < n) : ∃ x, getAt g i j = some x := by
  obtain ⟨row, hrow, hlen⟩ := exists_row h hi
  exact ⟨row[j], by rw [getAt, hrow, Option.bind_some, List.getElem?_eq_getElem (hlen ▸ hj)]⟩

theorem getAt_lt (h : Square n g) (hx : getAt g i j = some x) : i < n ∧ j < n := by
  obtain ⟨row, hrow, hx⟩ := Option.bind_eq_some_iff.mp hx
  obtain ⟨hi, rfl⟩ := List.getElem?_eq_some_iff.mp hrow
  obtain ⟨hj, -⟩ := List.getElem?_eq_some_iff.mp hx
  exact ⟨h.rows ▸ hi, h.columns _ (List.getElem_mem hi) ▸ hj⟩

/-- A store inside of a square changes one entry and leaves all others. -/
theorem putAt_spec (h : Square n g) (hi : i < n) (hj : j < n) (x : α) :
    ∃ g', putAt g i j x = some g' ∧ Square n g' ∧ getAt g' i j = some x ∧
      ∀ k l, ¬ (k = i ∧ l = j) → getAt g' k l = getAt g k l := by
  obtain ⟨row, hrow, hlen⟩ := exists_row h hi
  have hig : i < g.length := h.rows ▸ hi
  have hjrow : j < row.length := hlen ▸ hj
  refine ⟨g.set i (row.set j x), ?_, ⟨?_, ?_⟩, ?_, ?_⟩
  · simp only [putAt, put, hrow, hjrow, hig, if_true, Option.bind_eq_bind, Option.bind_some]
  · rw [List.length_set, h.rows]
  · intro r hr
    obtain hr | rfl := List.mem_or_eq_of_mem_set hr
    · exact h.columns r hr
    · rw [List.length_set, hlen]
  · rw [getAt, List.getElem?_set_self hig, Option.bind_some, List.getElem?_set_self hjrow]
  · intro k l hkl
    rw [getAt, getAt]
    by_cases hk : k = i
    · subst hk
      rw [List.getElem?_set_self hig, hrow, Option.bind_some, Option.bind_some,
        List.getElem?_set_ne fun hl => hkl ⟨rfl, hl.symm⟩]
    · rw [List.getElem?_set_ne (Ne.symm hk)]

end C11AndC.Library
