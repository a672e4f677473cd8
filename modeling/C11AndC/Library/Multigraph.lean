import Mathlib.Combinatorics.SimpleGraph.Connectivity.Connected
import Mathlib.Data.Multiset.AddSub

namespace C11AndC.Library

variable {α : Type} {G H : Multiset (Sym2 α)} {a b v w : α} {us vs : List α}

/-- The edges of the walk from `v` along the list. -/
def pathEdges : α → List α → List (Sym2 α)
  | _, [] => []
  | v, u :: us => s(v, u) :: pathEdges u us

/-- The vertices of a cycle are different, and its edges are edges of the graph, as often as the
cycle has them. One vertex is a loop, two are a pair of parallel edges. -/
def HasCycle (G : Multiset (Sym2 α)) : Prop :=
  ∃ v vs, (v :: vs).Nodup ∧ Multiset.ofList (pathEdges v (vs ++ [v])) ≤ G

/-- A walk leads from one vertex to the other. -/
def Joined (G : Multiset (Sym2 α)) (a b : α) : Prop := (SimpleGraph.fromEdgeSet {e | e ∈ G}).Reachable a b

theorem joined_edge (h : s(a, b) ∈ G) : Joined G a b := by
  by_cases hab : a = b
  · rw [hab]
    exact SimpleGraph.Reachable.refl _
  · exact SimpleGraph.Adj.reachable ((SimpleGraph.fromEdgeSet_adj _).mpr ⟨h, hab⟩)

theorem joined_mono (hGH : ∀ e ∈ G, e ∈ H) (h : Joined G a b) : Joined H a b :=
  h.mono (SimpleGraph.fromEdgeSet_mono hGH)

/-- What the two ends of each edge share is shared by the ends of a walk. -/
theorem joined_induction {β : Type} (c : α → β) (hedge : ∀ a b, s(a, b) ∈ G → c a = c b)
    (h : Joined G a b) : c a = c b := by
  obtain ⟨p⟩ := h
  induction p with
  | nil => rfl
  | cons hadj _ ih => exact (hedge _ _ ((SimpleGraph.fromEdgeSet_adj _).mp hadj).1).trans ih

theorem joined_path (h : ∀ e ∈ pathEdges v (us ++ [w]), e ∈ G) : Joined G v w := by
  induction us generalizing v with
  | nil => exact joined_edge (h _ (List.mem_singleton_self _))
  | cons u us ih =>
    have hstep := joined_edge (h s(v, u) (List.mem_cons_self ..))
    exact hstep.trans (ih fun e he => h e (List.mem_cons_of_mem _ he))

/-- A walk without one of its edges joins the ends of the edge with its own ends. -/
theorem joined_erase [DecidableEq (Sym2 α)] (hmem : s(a, b) ∈ pathEdges v (us ++ [w]))
    (h : ∀ e ∈ (pathEdges v (us ++ [w])).erase s(a, b), e ∈ G) :
    Joined G v a ∧ Joined G b w ∨ Joined G v b ∧ Joined G a w := by
  have hrefl : ∀ x, Joined G x x := fun x => SimpleGraph.Reachable.refl x
  induction us generalizing v with
  | nil =>
    obtain ⟨rfl, rfl⟩ | ⟨rfl, rfl⟩ := Sym2.eq_iff.mp (List.mem_singleton.mp hmem)
    · exact .inl ⟨hrefl a, hrefl b⟩
    · exact .inr ⟨hrefl b, hrefl a⟩
  | cons u us ih =>
    rw [List.cons_append, pathEdges] at hmem h
    by_cases he : s(v, u) = s(a, b)
    · rw [he, List.erase_cons_head] at h
      have hrest := joined_path h
      obtain ⟨rfl, rfl⟩ | ⟨rfl, rfl⟩ := Sym2.eq_iff.mp he
      · exact .inl ⟨hrefl v, hrest⟩
      · exact .inr ⟨hrefl v, hrest⟩
    · rw [List.erase_cons_tail (by simpa using he)] at h
      have hstep : Joined G v u := joined_edge (h _ (List.mem_cons_self ..))
      have hmem' := List.mem_of_ne_of_mem (Ne.symm he) hmem
      obtain ⟨h1, h2⟩ | ⟨h1, h2⟩ := ih hmem' fun e he => h e (List.mem_cons_of_mem _ he)
      · exact .inl ⟨hstep.trans h1, h2⟩
      · exact .inr ⟨hstep.trans h1, h2⟩

theorem pathEdges_support {F : SimpleGraph α} (p : F.Walk a b) (w : α) :
    pathEdges a (p.support.tail ++ [w]) = p.edges ++ [s(b, w)] := by
  induction p with
  | nil => rfl
  | @cons a c b hadj p ih =>
    rw [SimpleGraph.Walk.support_cons, List.tail_cons, ← p.cons_tail_support, List.cons_append, pathEdges, ih,
      SimpleGraph.Walk.edges_cons, List.cons_append]

theorem hasCycle_mono (hGH : G ≤ H) (h : HasCycle G) : HasCycle H := by
  obtain ⟨v, vs, hnodup, hle⟩ := h
  exact ⟨v, vs, hnodup, hle.trans hGH⟩

/-- An edge closes a cycle if its ends are joined without it. -/
theorem hasCycle_of_joined (h : Joined G a b) : HasCycle (s(a, b) ::ₘ G) := by
  classical
  obtain ⟨p⟩ := h
  have hpath := p.toPath.2
  let q : (SimpleGraph.fromEdgeSet {e | e ∈ G}).Walk a b := p.toPath
  refine ⟨a, q.support.tail, ?_, ?_⟩
  · rw [q.cons_tail_support]
    exact hpath.support_nodup
  · have hsub : (q.edges : Multiset (Sym2 α)) ≤ G := by
      refine (Multiset.le_iff_subset (Multiset.coe_nodup.mpr hpath.isTrail.edges_nodup)).mpr fun e he => ?_
      have hedge := q.edges_subset_edgeSet (Multiset.mem_coe.mp he)
      rw [SimpleGraph.edgeSet_fromEdgeSet] at hedge
      exact hedge.1
    rw [pathEdges_support, Sym2.eq_swap, ← Multiset.coe_add, add_comm]
    exact Multiset.cons_le_cons _ hsub

theorem hasCycle_cons : HasCycle (s(a, b) ::ₘ G) ↔ HasCycle G ∨ Joined G a b := by
  classical
  constructor
  · rintro ⟨v, vs, hnodup, hle⟩
    by_cases hmem : s(a, b) ∈ pathEdges v (vs ++ [v])
    · have herase := Multiset.erase_le_iff_le_cons.mpr hle
      rw [Multiset.coe_erase] at herase
      obtain ⟨h1, h2⟩ | ⟨h1, h2⟩ := joined_erase hmem fun e he => Multiset.mem_of_le herase (Multiset.mem_coe.mpr he)
      · exact .inr (h1.symm.trans h2.symm)
      · exact .inr (h2.trans h1)
    · exact .inl ⟨v, vs, hnodup, (Multiset.le_cons_of_notMem (by rwa [Multiset.mem_coe])).mp hle⟩
  · rintro (h | h)
    · exact hasCycle_mono (Multiset.le_cons_self G _) h
    · exact hasCycle_of_joined h

theorem not_hasCycle_zero : ¬ HasCycle (0 : Multiset (Sym2 α)) := by
  rintro ⟨v, vs, -, hle⟩
  have hnil := (Multiset.coe_eq_zero _).mp (Multiset.le_zero.mp hle)
  cases vs <;> cases hnil

end C11AndC.Library
