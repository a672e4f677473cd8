import C11AndC.Binomial.Model
import C11AndC.Library.Parts

namespace C11AndC.Binomial

open C11AndC.Library

/-- The nodes that hang at a pointer: the first one with what is below it, and its siblings. -/
inductive Forest where
  | nil
  | node (addr : Nat) (n : Int) (degree parent : Nat) (child sibling : Forest)
  deriving DecidableEq

/-- A tree, apart from what follows it in its list. -/
structure Root where
  addr : Nat
  n : Int
  degree : Nat
  parent : Nat
  child : Forest
  deriving DecidableEq

namespace Forest

def addr : Forest → Nat
  | nil => 0
  | node a _ _ _ _ _ => a

def addrs : Forest → List Nat
  | nil => []
  | node a _ _ _ c s => a :: (c.addrs ++ s.addrs)

def keys : Forest → List Int
  | nil => []
  | node _ n _ _ c s => n :: (c.keys ++ s.keys)

def roots : Forest → List Root
  | nil => []
  | node a n d p c s => ⟨a, n, d, p, c⟩ :: s.roots

/-- The memory holds the forest. -/
def Shape (m : Memory Node) : Forest → Prop
  | nil => True
  | node a n d p c s => m.cell a = some ⟨n, d, p, c.addr, s.addr⟩ ∧ c.Shape m ∧ s.Shape m

end Forest

def Root.node (r : Root) (sibling : Nat) : Node := ⟨r.n, r.degree, r.parent, r.child.addr, sibling⟩

def Root.addrs (r : Root) : List Nat := r.addr :: r.child.addrs

def Root.keys (r : Root) : List Int := r.n :: r.child.keys

/-- Where a list of trees begins that is followed by what is at `e`. -/
def headAddr (e : Nat) : List Root → Nat
  | [] => e
  | r :: _ => r.addr

/-- The memory holds a list of trees, of which the last one leads to `e`. -/
def Seg (m : Memory Node) (e : Nat) : List Root → Prop
  | [] => True
  | r :: l => m.cell r.addr = some (r.node (headAddr e l)) ∧ r.child.Shape m ∧ Seg m e l

section Frames

variable {m m' : Memory Node} {e : Nat} {f : Forest} {l : List Root}

theorem shape_congr (h : ∀ a, a ∈ f.addrs → m'.cell a = m.cell a) (hs : f.Shape m) : f.Shape m' := by
  induction f with
  | nil => trivial
  | node a n d p c s ihc ihs =>
    simp only [Forest.addrs, List.mem_cons, List.mem_append] at h
    refine ⟨(h a (.inl rfl)).trans hs.1, ihc (fun b hb => h b ?_) hs.2.1, ihs (fun b hb => h b ?_) hs.2.2⟩
    · exact .inr (.inl hb)
    · exact .inr (.inr hb)

theorem shape_alive (hs : f.Shape m) (a : Nat) (ha : a ∈ f.addrs) : (m.cell a).isSome := by
  induction f with
  | nil => cases ha
  | node b n d p c s ihc ihs =>
    simp only [Forest.addrs, List.mem_cons, List.mem_append] at ha
    obtain rfl | ha | ha := ha
    · rw [hs.1]
      rfl
    · exact ihc hs.2.1 ha
    · exact ihs hs.2.2 ha

theorem seg_congr (h : ∀ a, a ∈ l.flatMap Root.addrs → m'.cell a = m.cell a) (hs : Seg m e l) :
    Seg m' e l := by
  induction l with
  | nil => trivial
  | cons r l ih =>
    simp only [List.flatMap_cons, Root.addrs, List.mem_append, List.mem_cons] at h
    refine ⟨(h _ (.inl (.inl rfl))).trans hs.1, shape_congr (fun b hb => h b ?_) hs.2.1,
      ih (fun b hb => h b ?_) hs.2.2⟩
    · exact .inl (.inr hb)
    · exact .inr hb

theorem seg_alive (hs : Seg m e l) (a : Nat) (ha : a ∈ l.flatMap Root.addrs) :
    (m.cell a).isSome := by
  induction l with
  | nil => cases ha
  | cons r l ih =>
    simp only [List.flatMap_cons, Root.addrs, List.mem_append, List.mem_cons] at ha
    obtain (rfl | ha) | ha := ha
    · rw [hs.1]
      rfl
    · exact shape_alive hs.2.1 a ha
    · exact ih hs.2.2 ha

theorem shape_roots : f.Shape m ↔ Seg m 0 f.roots := by
  induction f with
  | nil => exact Iff.rfl
  | node a n d p c s _ ihs =>
    have hs : headAddr 0 s.roots = s.addr := by cases s <;> rfl
    simp only [Forest.Shape, Forest.roots, Seg, Root.node, hs, ihs]

theorem addrs_roots (f : Forest) : f.roots.flatMap Root.addrs = f.addrs := by
  induction f with
  | nil => rfl
  | node a n d p c s _ ihs => simp [Forest.roots, Forest.addrs, Root.addrs, ihs]

theorem keys_roots (f : Forest) : f.roots.flatMap Root.keys = f.keys := by
  induction f with
  | nil => rfl
  | node a n d p c s _ ihs => simp [Forest.roots, Forest.keys, Root.keys, ihs]

end Frames

def forestPart (f : Forest) : Library.Part Node where
  addrs := f.addrs
  holds m := f.Shape m
  frame := shape_congr
  alive := shape_alive

def segPart (e : Nat) (l : List Root) : Library.Part Node where
  addrs := l.flatMap Root.addrs
  holds m := Seg m e l
  frame := seg_congr
  alive := seg_alive

section Rules

variable {m : Memory Node} {e : Nat} {f : Forest} {r : Root} {l l' : List Root}
  {ps qs : List (Library.Part Node)}

theorem parts_forest : Parts m (forestPart f :: ps) ↔ Parts m (segPart 0 f.roots :: ps) := by
  rw [parts_cons, parts_cons]
  simp only [forestPart, segPart, addrs_roots, shape_roots]

theorem parts_seg_nil : Parts m (segPart e [] :: ps) ↔ Parts m ps := by
  rw [parts_cons]
  simp [segPart, Seg]

theorem parts_forest_nil : Parts m (forestPart .nil :: ps) ↔ Parts m ps :=
  parts_forest.trans parts_seg_nil

/-- The first tree of a list as parts of its own. -/
theorem parts_seg_cons : Parts m (segPart e (r :: l) :: ps) ↔
    Parts m (cellPart r.addr (r.node (headAddr e l)) :: forestPart r.child :: segPart e l :: ps) := by
  constructor
  · rintro ⟨hn, hh⟩
    have hs : Seg m e (r :: l) := hh _ List.mem_cons_self
    refine ⟨?_, ?_⟩
    · simpa [segPart, forestPart, cellPart, Root.addrs] using hn
    · intro p hp
      simp only [List.mem_cons] at hp
      obtain rfl | rfl | rfl | hp := hp
      · exact hs.1
      · exact hs.2.1
      · exact hs.2.2
      · exact hh p (List.mem_cons_of_mem _ hp)
  · rintro ⟨hn, hh⟩
    refine ⟨?_, ?_⟩
    · simpa [segPart, forestPart, cellPart, Root.addrs] using hn
    · intro p hp
      obtain rfl | hp := List.mem_cons.mp hp
      · exact ⟨hh _ List.mem_cons_self, hh _ (List.mem_cons_of_mem _ List.mem_cons_self),
          hh _ (List.mem_cons_of_mem _ (List.mem_cons_of_mem _ List.mem_cons_self))⟩
      · exact hh p (by simp [hp])

theorem parts_forest_node {a d p : Nat} {n : Int} {c s : Forest} :
    Parts m (forestPart (.node a n d p c s) :: ps) ↔
      Parts m (cellPart a ⟨n, d, p, c.addr, s.addr⟩ :: forestPart c :: forestPart s :: ps) := by
  have hs : headAddr 0 s.roots = s.addr := by cases s <;> rfl
  rw [parts_forest, Forest.roots, parts_seg_cons, Root.node, hs]
  have hp : (cellPart a ⟨n, d, p, c.addr, s.addr⟩ :: forestPart c :: segPart 0 s.roots :: ps).Perm
      (segPart 0 s.roots :: cellPart a ⟨n, d, p, c.addr, s.addr⟩ :: forestPart c :: ps) := by
    exact (List.Perm.swap ..).cons _ |>.trans (List.Perm.swap ..)
  rw [parts_perm hp, ← parts_forest]
  exact parts_perm ((List.Perm.swap ..).trans ((List.Perm.swap ..).cons _))

end Rules

end C11AndC.Binomial
