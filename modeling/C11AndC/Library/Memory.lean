import Mathlib.Logic.Function.Basic

namespace C11AndC.Library

/-- A memory of records. Addresses are numbers, with `0` for the null pointer:
nothing is stored there. Addresses from `next` on have never been handed out. -/
structure Memory (α : Type) where
  cell : Nat → Option α
  next : Nat
  next_pos : 0 < next
  cell_null : cell 0 = none
  cell_fresh : ∀ a, next ≤ a → cell a = none

namespace Memory

variable {α : Type}

def empty : Memory α := ⟨fun _ => none, 1, Nat.one_pos, rfl, fun _ _ => rfl⟩

/-- Overwrite the record at `a`, if there is one. -/
def modify (m : Memory α) (a : Nat) (f : α → α) : Memory α where
  cell := Function.update m.cell a ((m.cell a).map f)
  next := m.next
  next_pos := m.next_pos
  cell_null := by
    by_cases h : 0 = a
    · subst h; simp [m.cell_null]
    · simp [Function.update_of_ne h, m.cell_null]
  cell_fresh := by
    intro b hb
    by_cases h : b = a
    · subst h; simp [m.cell_fresh b hb]
    · simp [Function.update_of_ne h, m.cell_fresh b hb]

/-- Store a new record at the next unused address. -/
def alloc (m : Memory α) (v : α) : Memory α where
  cell := Function.update m.cell m.next (some v)
  next := m.next + 1
  next_pos := Nat.succ_pos _
  cell_null := by rw [Function.update_of_ne (Nat.ne_of_lt m.next_pos), m.cell_null]
  cell_fresh := by
    intro b hb
    rw [Function.update_of_ne (by omega), m.cell_fresh b (by omega)]

/-- Release the record at `a`. -/
def free (m : Memory α) (a : Nat) : Memory α where
  cell := Function.update m.cell a none
  next := m.next
  next_pos := m.next_pos
  cell_null := by
    by_cases h : 0 = a
    · subst h; simp
    · simp [Function.update_of_ne h, m.cell_null]
  cell_fresh := by
    intro b hb
    by_cases h : b = a
    · subst h; simp
    · simp [Function.update_of_ne h, m.cell_fresh b hb]

@[simp] theorem cell_modify_self (m : Memory α) (a : Nat) (f : α → α) :
    (m.modify a f).cell a = (m.cell a).map f := Function.update_self ..

@[simp] theorem cell_modify_ne (m : Memory α) {a b : Nat} (h : b ≠ a) (f : α → α) :
    (m.modify a f).cell b = m.cell b := Function.update_of_ne h ..

@[simp] theorem cell_alloc_self (m : Memory α) (v : α) :
    (m.alloc v).cell m.next = some v := Function.update_self ..

@[simp] theorem cell_alloc_ne (m : Memory α) {b : Nat} (h : b ≠ m.next) (v : α) :
    (m.alloc v).cell b = m.cell b := Function.update_of_ne h ..

@[simp] theorem cell_free_self (m : Memory α) (a : Nat) : (m.free a).cell a = none :=
  Function.update_self ..

@[simp] theorem cell_free_ne (m : Memory α) {a b : Nat} (h : b ≠ a) :
    (m.free a).cell b = m.cell b := Function.update_of_ne h ..

theorem ne_zero_of_cell {m : Memory α} {a : Nat} {v : α} (h : m.cell a = some v) : a ≠ 0 := by
  rintro rfl
  simp [m.cell_null] at h

theorem lt_next_of_cell {m : Memory α} {a : Nat} {v : α} (h : m.cell a = some v) :
    a < m.next := by
  by_contra hn
  simp [m.cell_fresh a (Nat.le_of_not_lt hn)] at h

theorem ne_next_of_cell {m : Memory α} {a : Nat} {v : α} (h : m.cell a = some v) :
    a ≠ m.next := Nat.ne_of_lt (lt_next_of_cell h)

/-- The memories agree outside of the addresses `as`. -/
def SameExcept (as : List Nat) (m m' : Memory α) : Prop := ∀ a, a ∉ as → m'.cell a = m.cell a

theorem sameExcept_refl (as : List Nat) (m : Memory α) : SameExcept as m m := fun _ _ => rfl

theorem sameExcept_trans {as : List Nat} {m m' m'' : Memory α} (h : SameExcept as m m')
    (h' : SameExcept as m' m'') : SameExcept as m m'' :=
  fun a ha => (h' a ha).trans (h a ha)

theorem sameExcept_mono {as bs : List Nat} {m m' : Memory α} (h : as ⊆ bs) (hm : SameExcept as m m') :
    SameExcept bs m m' := fun a ha => hm a fun hx => ha (h hx)

theorem sameExcept_modify {as : List Nat} {a : Nat} (h : a ∈ as) (m : Memory α) (f : α → α) :
    SameExcept as m (m.modify a f) :=
  fun _ hb => cell_modify_ne m (ne_of_mem_of_not_mem h hb).symm f

/-- What is stored stays. -/
def Kept (m m' : Memory α) : Prop := ∀ a v, m.cell a = some v → m'.cell a = some v

theorem kept_refl (m : Memory α) : Kept m m := fun _ _ h => h

theorem kept_trans {m m' m'' : Memory α} (h : Kept m m') (h' : Kept m' m'') : Kept m m'' :=
  fun a v ha => h' a v (h a v ha)

theorem kept_alloc (m : Memory α) (v : α) : Kept m (m.alloc v) := fun _ _ ha =>
  (cell_alloc_ne m (ne_next_of_cell ha) v).trans ha

/-- A change of what was not there before. -/
theorem kept_modify {m m' : Memory α} {a : Nat} (h : Kept m m') (ha : m.cell a = none) (f : α → α) :
    Kept m (m'.modify a f) := by
  intro b v hb
  have hne : b ≠ a := by
    rintro rfl
    rw [ha] at hb
    cases hb
  rw [cell_modify_ne m' hne]
  exact h b v hb

/-- The addresses `as` are released, and nothing else has changed. -/
structure Freed (as : List Nat) (m m' : Memory α) : Prop where
  gone : ∀ a ∈ as, m'.cell a = none
  kept : SameExcept as m m'

theorem freed_refl (m : Memory α) : Freed [] m m := ⟨fun _ ha => absurd ha List.not_mem_nil, fun _ _ => rfl⟩

theorem freed_snoc {as : List Nat} {a : Nat} {m m' : Memory α} (h : Freed as m m') :
    Freed (a :: as) m (m'.free a) := by
  refine ⟨fun b hb => ?_, fun b hb => ?_⟩
  · by_cases hba : b = a
    · rw [hba, cell_free_self]
    · rw [cell_free_ne m' hba]
      exact h.gone b (List.mem_of_ne_of_mem hba hb)
  · obtain ⟨hba, hb⟩ := not_or.mp (fun ho => hb (List.mem_cons.mpr ho))
    rw [cell_free_ne m' hba]
    exact h.kept b hb

theorem freed_trans {as bs : List Nat} {m m' m'' : Memory α} (h : Freed as m m') (h' : Freed bs m' m'') :
    Freed (as ++ bs) m m'' := by
  refine ⟨fun a ha => ?_, fun a ha => ?_⟩
  · by_cases hb : a ∈ bs
    · exact h'.gone a hb
    · rw [h'.kept a hb]
      exact h.gone a ((List.mem_append.mp ha).resolve_right hb)
  · rw [List.mem_append, not_or] at ha
    exact (h'.kept a ha.2).trans (h.kept a ha.1)

end Memory

end C11AndC.Library
