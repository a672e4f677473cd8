import C11AndC.Binomial.Runs
import C11AndC.Library.Sift
import Mathlib.Data.List.Pairwise

namespace C11AndC.Binomial

open C11AndC.Library

/-- The same nodes with other keys. -/
def Forest.rekey (key : Nat → Int) : Forest → Forest
  | nil => nil
  | node a _ d p c s => node a (key a) d p (c.rekey key) (s.rekey key)

def Root.rekey (key : Nat → Int) (r : Root) : Root :=
  { r with n := key r.addr, child := r.child.rekey key }

/-- The pairs of a node and one of its children, in a forest below the node at `b`. -/
def edges (b : Nat) : Forest → List (Nat × Nat)
  | .nil => []
  | .node a _ _ _ c s => (b, a) :: (edges a c ++ edges b s)

def Edge (l : List Root) (p c : Nat) : Prop := ∃ r ∈ l, (p, c) ∈ edges r.addr r.child

def addrs (l : List Root) : List Nat := l.flatMap Root.addrs

section Rekey

variable {m : Memory Node} {key : Nat → Int} {f : Forest} {r : Root} {l : List Root} {a b d e : Nat} {k : Int}

/-- The keys that the memory holds. -/
def keyAt (m : Memory Node) (a : Nat) : Int := (m.cell a).elim 0 Node.n

end Rekey

section Edges

variable {m : Memory Node} {f : Forest} {l : List Root} {a b c d p : Nat}

def degreeAt (m : Memory Node) (a : Nat) : Nat := (m.cell a).elim 0 Node.degree

/-- What `Decrease_key` needs to know of a heap: the pointers to the parents, and that the
degrees go up on the way. -/
structure Rooted (m : Memory Node) (l : List Root) : Prop where
  inside : ∀ p c, Edge l p c → p ∈ addrs l ∧ c ∈ addrs l
  parent : ∀ p c, Edge l p c → ∃ v, m.cell c = some v ∧ v.parent = p
  edge : ∀ c ∈ addrs l, ∀ v, m.cell c = some v → v.parent ≠ 0 → Edge l v.parent c
  degree : ∀ p c, Edge l p c → degreeAt m c < degreeAt m p
  bound : ∀ c ∈ addrs l, degreeAt m c ≤ (addrs l).length

end Edges

section Sifting

variable {m : Memory Node} {s : Store Node BinomialHeap} {key : Nat → Int} {l : List Root} {y z : Nat} {v : Node}

theorem cell_of_mem (h : Seg m 0 l) (hy : y ∈ addrs l) : ∃ v, m.cell y = some v :=
  Option.isSome_iff_exists.mp (seg_alive h y hy)

end Sifting

section Search

variable {s : Store Node BinomialHeap} {f : Forest} {k : Int} {steps : Nat}

/-- What `Search` answers: a node with the key, or NULL if there is none. -/
def Found (m : Memory Node) (f : Forest) (k : Int) (p : Nat) : Prop :=
  p = 0 ∧ k ∉ f.keys ∨ p ∈ f.addrs ∧ keyAt m p = k

theorem wp_search (h : f.Shape s.mem) (hn : f.addrs.length ≤ steps) :
    wp (if f.addr ≠ 0 then search steps f.addr k else pure 0) (fun p t => t = s ∧ Found s.mem f k p) s := by
  induction f generalizing steps with
  | nil => simp [Forest.addr, Found, Forest.keys]
  | node a n d p c b ihc ihb =>
    obtain ⟨ha, hc, hb⟩ := h
    simp only [Forest.addrs, List.length_cons, List.length_append] at hn
    obtain ⟨j, rfl⟩ : ∃ j, steps = j + 1 := ⟨steps - 1, by omega⟩
    have ha0 : a ≠ 0 := Memory.ne_zero_of_cell ha
    have hchild := @ihc j hc (by omega)
    have hsibling := @ihb j hb (by omega)
    have hsiblings : n ≠ k → ∀ q, Found s.mem c k q →
        wp (if b.addr ≠ 0 ∧ q = 0 then search j b.addr k else pure q)
          (fun p' t => t = s ∧ Found s.mem (.node a n d p c b) k p') s := by
      intro hne q hq
      obtain ⟨rfl, hq⟩ | ⟨hq, hkey⟩ := hq
      · simp only [and_true]
        refine wp_mono hsibling ?_
        rintro p' _ ⟨rfl, ⟨rfl, hp'⟩ | ⟨hp', hkey⟩⟩
        · refine ⟨rfl, .inl ⟨rfl, ?_⟩⟩
          simp [Forest.keys, hne.symm, hq, hp']
        · exact ⟨rfl, .inr ⟨by simp [Forest.addrs, hp'], hkey⟩⟩
      · obtain ⟨v, hv⟩ := Option.isSome_iff_exists.mp (shape_alive hc q hq)
        rw [if_neg (fun h => Memory.ne_zero_of_cell hv h.2), wp_pure]
        exact ⟨rfl, .inr ⟨by simp [Forest.addrs, hq], hkey⟩⟩
    simp only [Forest.addr, ha0, ne_eq, not_false_eq_true, ↓reduceIte, search, wp_bind]
    refine (wp_load a).mpr ⟨_, ha, ?_⟩
    simp only [wp_ite, wp_pure]
    refine ⟨fun hk => ⟨trivial, .inr ⟨by simp [Forest.addrs], ?_⟩⟩, fun hne => ⟨fun hca => ?_, fun hca => ?_⟩⟩
    · rw [keyAt, ha]
      exact hk
    · rw [if_pos hca] at hchild
      rw [wp_bind]
      refine wp_mono hchild ?_
      rintro q _ ⟨rfl, hq⟩
      exact hsiblings hne q hq
    · rw [if_neg hca, wp_pure] at hchild
      rw [wp_bind, wp_pure]
      exact hsiblings hne 0 hchild.2

end Search

section DecreaseKey

variable {st : Store Node BinomialHeap} {key : Nat → Int} {l : List Root} {ks : List Int} {i k : Int}
  {head steps : Nat}

end DecreaseKey

end C11AndC.Binomial
