import C11AndC.UnionFind.Model
import C11AndC.Library.Multigraph

namespace C11AndC.UnionFind

open C11AndC.Library

/-- The links lead from `i` to `r`, which has none. -/
inductive Rooted (parent : List Int) : Int → Int → Prop where
  | root {i : Int} (hi : entry parent i = some (-1)) : Rooted parent i i
  | link {i p r : Int} (hi : entry parent i = some p) (hp : p ≠ -1) (hr : Rooted parent p r) : Rooted parent i r

/-- The links are those of the components of the graph with the edges `G`. -/
structure Forest (V : Nat) (G : Multiset (Sym2 Int)) (parent : List Int) : Prop where
  length : parent.length = V
  rooted : ∀ i : Int, 0 ≤ i → i < V → ∃ r, Rooted parent i r
  edges : ∀ a b, s(a, b) ∈ G → ∃ r, Rooted parent a r ∧ Rooted parent b r
  roots : ∀ i r, Rooted parent i r → Joined G i r

def edges (es : List Edge) : Multiset (Sym2 Int) := es.map fun e => s(e.src, e.dest)

/-- The array holds as many edges as the graph has, between vertices of the graph. -/
structure WellFormed (graph : Graph) : Prop where
  number : graph.edge.length = graph.E
  range : ∀ e ∈ graph.edge, (0 ≤ e.src ∧ e.src < graph.V) ∧ 0 ≤ e.dest ∧ e.dest < graph.V

/-- With any sufficient number of calls the result is `r`, with all indices in range. -/
def Returns (graph : Graph) (r : Int) : Prop := ∃ N, ∀ steps, N ≤ steps → isCycle steps graph = some r

section Links

variable {parent parent' : List Int} {G : Multiset (Sym2 Int)} {V : Nat} {a b i p r r' x y v : Int}

theorem rooted_unique (h : Rooted parent i r) (h' : Rooted parent i r') : r = r' := by
  induction h with
  | root hi =>
    cases h' with
    | root _ => rfl
    | link hi' hp _ => exact absurd (Option.some.inj (hi'.symm.trans hi)) hp
  | link hi hp _ ih =>
    cases h' with
    | root hi' => exact absurd (Option.some.inj (hi.symm.trans hi')) hp
    | link hi' _ hr' =>
      obtain rfl := Option.some.inj (hi.symm.trans hi')
      exact ih hr'

theorem rooted_entry (h : Rooted parent i r) : entry parent r = some (-1) := by
  induction h with
  | root hi => exact hi
  | link _ _ _ ih => exact ih

theorem find_of_rooted (h : Rooted parent i r) : ∃ N, ∀ steps, N ≤ steps → find steps parent i = some r := by
  induction h with
  | root hi =>
    refine ⟨1, fun steps hsteps => ?_⟩
    obtain ⟨steps, rfl⟩ := Nat.exists_eq_succ_of_ne_zero (Nat.ne_of_gt hsteps)
    simp [find, hi]
  | link hi hp _ ih =>
    obtain ⟨N, hN⟩ := ih
    refine ⟨N + 1, fun steps hsteps => ?_⟩
    obtain ⟨steps, rfl⟩ := Nat.exists_eq_succ_of_ne_zero (Nat.ne_of_gt (Nat.zero_lt_of_lt hsteps))
    simp [find, hi, hp, hN steps (Nat.le_of_succ_le_succ hsteps)]

theorem entry_some : entry parent i = some v ↔ 0 ≤ i ∧ parent[i.toNat]? = some v := by
  simp [entry]

theorem rooted_range (h : Rooted parent i r) : 0 ≤ i ∧ i < parent.length := by
  obtain ⟨v, hv⟩ : ∃ v, entry parent i = some v := by
    cases h with
    | root hi => exact ⟨_, hi⟩
    | link hi _ _ => exact ⟨_, hi⟩
  obtain ⟨hpos, hget⟩ := entry_some.mp hv
  obtain ⟨hlt, -⟩ := List.getElem?_eq_some_iff.mp hget
  exact ⟨hpos, by omega⟩

theorem assign_of_entry (hx : entry parent x = some v) : assign parent x y = some (parent.set x.toNat y) := by
  obtain ⟨hpos, hget⟩ := entry_some.mp hx
  exact if_pos ⟨hpos, (List.getElem?_eq_some_iff.mp hget).1⟩

theorem entry_set_self (hx : entry parent x = some v) : entry (parent.set x.toNat y) x = some y := by
  obtain ⟨hpos, hget⟩ := entry_some.mp hx
  exact entry_some.mpr ⟨hpos, List.getElem?_set_self (List.getElem?_eq_some_iff.mp hget).1⟩

theorem entry_set_ne (hx : entry parent x = some v) (hne : i ≠ x) (hi : entry parent i = some p) :
    entry (parent.set x.toNat y) i = some p := by
  obtain ⟨hpos, -⟩ := entry_some.mp hx
  obtain ⟨hposi, hget⟩ := entry_some.mp hi
  refine entry_some.mpr ⟨hposi, ?_⟩
  rwa [List.getElem?_set_ne (by omega)]

/-- The root `x` gets a link to the root `y`. -/
theorem rooted_set (hx : entry parent x = some (-1)) (hy : entry parent y = some (-1)) (hxy : x ≠ y)
    (h : Rooted parent i r) : Rooted (parent.set x.toNat y) i (if r = x then y else r) := by
  have hyneg : y ≠ -1 := by
    rintro rfl
    exact absurd (entry_some.mp hy).1 (by decide)
  induction h with
  | @root i hi =>
    split_ifs with hix
    · subst hix
      exact .link (entry_set_self hx) hyneg (.root (entry_set_ne hx hxy.symm hy))
    · exact .root (entry_set_ne hx hix hi)
  | @link i p r hi hp _ ih =>
    have hne : i ≠ x := by
      rintro rfl
      exact hp (Option.some.inj (hi.symm.trans hx))
    exact .link (entry_set_ne hx hne hi) hp ih

/-- Joined vertices have one root. -/
theorem forest_joined (hf : Forest V G parent) (hj : Joined G a b) (ha : Rooted parent a x)
    (hb : Rooted parent b y) : x = y := by
  have hsame := joined_induction (fun i => {r | Rooted parent i r}) (fun a b he => ?_) hj
  · exact rooted_unique (Set.ext_iff.mp hsame x |>.mp ha) hb
  · obtain ⟨r, ha, hb⟩ := hf.edges a b he
    ext r'
    exact ⟨fun h => rooted_unique ha h ▸ hb, fun h => rooted_unique hb h ▸ ha⟩

theorem forest_union (hf : Forest V G parent) (ha : Rooted parent a x) (hb : Rooted parent b y) (hxy : x ≠ y) :
    Forest V (s(a, b) ::ₘ G) (parent.set x.toNat y) := by
  have hx := rooted_entry ha
  have hy := rooted_entry hb
  have hset : ∀ {i r}, Rooted parent i r → Rooted (parent.set x.toNat y) i (if r = x then y else r) :=
    fun h => rooted_set hx hy hxy h
  have hnewa := hset ha
  have hnewb := hset hb
  rw [if_pos rfl] at hnewa
  rw [if_neg hxy.symm] at hnewb
  refine ⟨by rw [List.length_set, hf.length], fun i hpos hi => ?_, fun c d he => ?_, fun i r' hr' => ?_⟩
  · obtain ⟨r, hr⟩ := hf.rooted i hpos hi
    exact ⟨_, hset hr⟩
  · obtain he | he := Multiset.mem_cons.mp he
    · obtain ⟨rfl, rfl⟩ | ⟨rfl, rfl⟩ := Sym2.eq_iff.mp he
      · exact ⟨y, hnewa, hnewb⟩
      · exact ⟨y, hnewb, hnewa⟩
    · obtain ⟨r, hc, hd⟩ := hf.edges c d he
      exact ⟨_, hset hc, hset hd⟩
  · obtain ⟨hpos, hlt⟩ := rooted_range hr'
    rw [List.length_set, hf.length] at hlt
    obtain ⟨r, hr⟩ := hf.rooted i hpos hlt
    obtain rfl := rooted_unique hr' (hset hr)
    have hold : ∀ {c d}, Joined G c d → Joined (s(a, b) ::ₘ G) c d :=
      joined_mono fun e he => Multiset.mem_cons_of_mem he
    have hir := hold (hf.roots i r hr)
    split_ifs with hrx
    · subst hrx
      have hax := hold (hf.roots a r ha)
      have hby := hold (hf.roots b y hb)
      exact hir.trans (hax.symm.trans ((joined_edge (Multiset.mem_cons_self _ _)).trans hby))
    · exact hir

theorem forest_start (V : Nat) : Forest V 0 (List.replicate V (-1)) := by
  have hroot : ∀ i : Int, 0 ≤ i → i < V → Rooted (List.replicate V (-1)) i i := by
    intro i hpos hi
    refine .root (entry_some.mpr ⟨hpos, ?_⟩)
    rw [List.getElem?_replicate, if_pos (by omega)]
  refine ⟨List.length_replicate, fun i hpos hi => ⟨i, hroot i hpos hi⟩, fun a b he => ?_, fun i r hr => ?_⟩
  · exact absurd he (Multiset.notMem_zero _)
  · obtain ⟨hpos, hi⟩ := rooted_range hr
    rw [List.length_replicate] at hi
    obtain rfl := rooted_unique hr (hroot i hpos hi)
    exact SimpleGraph.Reachable.refl _

end Links

section Rounds

variable {graph : Graph} {G : Multiset (Sym2 Int)} {parent : List Int} {es : List Edge} {k : Nat}

theorem edges_cons (e : Edge) (es : List Edge) : edges (e :: es) = s(e.src, e.dest) ::ₘ edges es := rfl

/-- The rounds over the edges that are left find a cycle if there is one with these. -/
theorem rounds_spec (hrange : ∀ e ∈ es, (0 ≤ e.src ∧ e.src < graph.V) ∧ 0 ≤ e.dest ∧ e.dest < graph.V)
    (hes : graph.edge.drop k = es) (hf : Forest graph.V G parent) (hG : ¬ HasCycle G) :
    ∃ N r, (∀ steps, N ≤ steps → rounds steps graph (List.range' k es.length) parent = some r) ∧
      (r = 1 ∧ HasCycle (G + edges es) ∨ r = 0 ∧ ¬ HasCycle (G + edges es)) := by
  induction es generalizing k G parent with
  | nil =>
    refine ⟨0, 0, fun steps _ => rfl, .inr ⟨rfl, ?_⟩⟩
    have hnil : G + edges [] = G := add_zero G
    rwa [hnil]
  | cons e es ih =>
    obtain ⟨hsrc, hdest⟩ := hrange e (List.mem_cons_self ..)
    obtain ⟨x, hx⟩ := hf.rooted e.src hsrc.1 hsrc.2
    obtain ⟨y, hy⟩ := hf.rooted e.dest hdest.1 hdest.2
    obtain ⟨N₁, hN₁⟩ := find_of_rooted hx
    obtain ⟨N₂, hN₂⟩ := find_of_rooted hy
    have hedge : graph.edge[k]? = some e := by
      rw [← List.head?_drop, hes, List.head?_cons]
    have hsum : G + edges (e :: es) = (s(e.src, e.dest) ::ₘ G) + edges es := by
      rw [edges_cons, Multiset.add_cons, Multiset.cons_add]
    rw [hsum, List.length_cons, List.range'_succ]
    by_cases hxy : x = y
    · subst hxy
      refine ⟨max N₁ N₂, 1, fun steps hsteps => ?_, .inl ⟨rfl, ?_⟩⟩
      · simp [rounds, hedge, hN₁ steps (by omega), hN₂ steps (by omega)]
      · refine hasCycle_mono (Multiset.le_add_right _ _) (hasCycle_of_joined ?_)
        exact (hf.roots _ x hx).trans (hf.roots _ x hy).symm
    · obtain ⟨N₃, hN₃⟩ := find_of_rooted (.root (rooted_entry hx))
      obtain ⟨N₄, hN₄⟩ := find_of_rooted (.root (rooted_entry hy))
      have hG' : ¬ HasCycle (s(e.src, e.dest) ::ₘ G) := by
        intro hcycle
        obtain hcycle | hjoined := hasCycle_cons.mp hcycle
        · exact hG hcycle
        · exact hxy (forest_joined hf hjoined hx hy)
      have hes' : graph.edge.drop (k + 1) = es := by
        rw [← List.tail_drop, hes, List.tail_cons]
      obtain ⟨N, r, hN, hr⟩ := ih (fun e he => hrange e (List.mem_cons_of_mem _ he)) hes'
        (forest_union hf hx hy hxy) hG'
      refine ⟨max N (max (max N₁ N₂) (max N₃ N₄)), r, fun steps hsteps => ?_, hr⟩
      rw [← hN steps (by omega)]
      simp [rounds, Union, hedge, hN₁ steps (by omega), hN₂ steps (by omega), hN₃ steps (by omega),
        hN₄ steps (by omega), hxy, assign_of_entry (rooted_entry hx)]

theorem isCycle_spec (hg : WellFormed graph) :
    ∃ r, Returns graph r ∧ (r = 1 ∧ HasCycle (edges graph.edge) ∨ r = 0 ∧ ¬ HasCycle (edges graph.edge)) := by
  obtain ⟨N, r, hN, hr⟩ := rounds_spec (k := 0) hg.range rfl (forest_start graph.V) not_hasCycle_zero
  rw [zero_add] at hr
  refine ⟨r, ⟨N, fun steps hsteps => ?_⟩, hr⟩
  rw [← hN steps hsteps, isCycle, hg.number, List.range_eq_range']

end Rounds

/-- `isCycle` returns, and finds a cycle exactly if there is one; a graph with the same edges, in
whatever order and orientation, has the same result. -/
theorem isCycle_correct (graph : Graph) (hg : WellFormed graph) :
    ∃ r, Returns graph r ∧ (r = 1 ∨ r = 0) ∧ (r = 1 ↔ HasCycle (edges graph.edge)) ∧
      ∀ graph', WellFormed graph' → edges graph'.edge = edges graph.edge → Returns graph' r := by
  obtain ⟨r, hreturns, hr⟩ := isCycle_spec hg
  have hiff : (r = 1 ∨ r = 0) ∧ (r = 1 ↔ HasCycle (edges graph.edge)) := by
    obtain ⟨rfl, hc⟩ | ⟨rfl, hc⟩ := hr
    · exact ⟨.inl rfl, iff_of_true rfl hc⟩
    · exact ⟨.inr rfl, iff_of_false (by decide) hc⟩
  refine ⟨r, hreturns, hiff.1, hiff.2, fun graph' hg' hsame => ?_⟩
  obtain ⟨r', hreturns', hr'⟩ := isCycle_spec hg'
  rw [hsame] at hr'
  obtain ⟨rfl, hc⟩ | ⟨rfl, hc⟩ := hr <;> obtain ⟨rfl, hc'⟩ | ⟨rfl, hc'⟩ := hr'
  · exact hreturns'
  · exact absurd hc hc'
  · exact absurd hc' hc
  · exact hreturns'

/-- Two edges between the vertices 0 and 1. -/
def parallel : Graph := ⟨2, 2, [⟨0, 1⟩, ⟨1, 0⟩]⟩

theorem isCycle_correct_parallel :
    ∃ r, Returns parallel r ∧ (r = 1 ∨ r = 0) ∧ (r = 1 ↔ HasCycle (edges parallel.edge)) ∧
      ∀ graph', WellFormed graph' → edges graph'.edge = edges parallel.edge → Returns graph' r :=
  isCycle_correct parallel ⟨rfl, by decide⟩

end C11AndC.UnionFind
