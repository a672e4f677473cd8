import C11AndC.Library.Trees
import Mathlib.Data.List.Chain
import Mathlib.Data.List.Nodup

namespace C11AndC.Library

/-- The second position is a child of the first one. -/
def Down (p q : Position) : Prop := ∃ d, q = p ++ [d]

def Neighbours (p q : Position) : Prop := Down p q ∨ Down q p

variable {α : Type}

/-- A way from node to node of a tree that comes to none of them twice. -/
structure SimplePath (t : BinaryTree α) (ps : List Position) : Prop where
  nonempty : ps ≠ []
  nodes : ∀ p ∈ ps, valueAt t p ≠ none
  chain : ps.IsChain Neighbours
  nodup : ps.Nodup

/-- A way down from the root. -/
structure Descent (t : BinaryTree α) (ps : List Position) : Prop where
  start : ps.head? = some []
  nodes : ∀ p ∈ ps, valueAt t p ≠ none
  chain : ps.IsChain Down

/-- The values on a way. -/
def valuesOn (t : BinaryTree α) (ps : List Position) : List α := ps.filterMap (valueAt t)

/-- The positions of a child, seen from its parent. -/
def below (d : Side) (ps : List Position) : List Position := ps.map (d :: ·)

variable {t l r : BinaryTree α} {v : α} {d e : Side} {p q : Position} {ps qs as bs : List Position}

theorem down_cons_iff : Down (d :: p) (e :: q) ↔ d = e ∧ Down p q := by
  constructor
  · rintro ⟨c, h⟩
    obtain ⟨rfl, rfl⟩ := List.cons.inj h
    exact ⟨rfl, c, rfl⟩
  · rintro ⟨rfl, c, rfl⟩
    exact ⟨c, rfl⟩

theorem not_down_nil : ¬ Down p [] := by
  rintro ⟨d, h⟩
  simp at h

theorem neighbours_cons_iff : Neighbours (d :: p) (e :: q) ↔ d = e ∧ Neighbours p q := by
  rw [Neighbours, Neighbours, down_cons_iff, down_cons_iff, eq_comm (a := e), ← and_or_left]

theorem neighbours_symm (h : Neighbours p q) : Neighbours q p := Or.symm h

theorem valuesOn_below : valuesOn t (below d ps) = valuesOn (child t d) ps :=
  List.filterMap_map

theorem valuesOn_nil : valuesOn (.node v l r) ([] :: ps) = v :: valuesOn (.node v l r) ps := rfl

theorem valuesOn_append : valuesOn t (ps ++ qs) = valuesOn t ps ++ valuesOn t qs :=
  List.filterMap_append

theorem valuesOn_reverse : valuesOn t ps.reverse = (valuesOn t ps).reverse :=
  List.filterMap_reverse

theorem nodup_below : (below d ps).Nodup ↔ ps.Nodup :=
  List.nodup_map_iff (fun _ _ h => (List.cons.inj h).2)

theorem isChain_below : (below d ps).IsChain Neighbours ↔ ps.IsChain Neighbours := by
  rw [below, List.isChain_map]
  simp only [neighbours_cons_iff, true_and]

theorem isChain_down_below : (below d ps).IsChain Down ↔ ps.IsChain Down := by
  rw [below, List.isChain_map]
  simp only [down_cons_iff, true_and]

/-- A way that does not come to the root stays in one of the children. -/
theorem exists_below (h : ps.IsChain Neighbours) (hroot : [] ∉ ps) : ∃ d qs, ps = below d qs := by
  induction ps with
  | nil => exact ⟨.left, [], rfl⟩
  | cons p ps ih =>
    obtain ⟨d, qs, rfl⟩ := ih h.tail (fun hmem => hroot (List.mem_cons_of_mem _ hmem))
    cases p with
    | nil => exact absurd (List.mem_cons_self ..) hroot
    | cons e p =>
      cases qs with
      | nil => exact ⟨e, [p], rfl⟩
      | cons q qs =>
        obtain ⟨rfl, -⟩ := neighbours_cons_iff.mp (List.isChain_cons_cons.mp h).1
        exact ⟨e, p :: q :: qs, rfl⟩

/-- A simple path from the root goes down. -/
theorem isChain_down (h : ([] :: ps).IsChain Neighbours) (hnd : ([] :: ps).Nodup) :
    ([] :: ps).IsChain Down := by
  induction hn : ps.length generalizing ps with
  | zero =>
    obtain rfl := List.length_eq_zero_iff.mp hn
    exact .singleton []
  | succ n ih =>
    obtain ⟨hroot, hnd⟩ := List.nodup_cons.mp hnd
    obtain ⟨d, qs, rfl⟩ := exists_below h.tail hroot
    cases qs with
    | nil => simp [below] at hn
    | cons q qs =>
      obtain ⟨hq, h⟩ := List.isChain_cons_cons.mp h
      obtain ⟨c, hc⟩ := hq.resolve_right not_down_nil
      obtain ⟨-, rfl⟩ := List.cons.inj hc
      have hqs := ih (isChain_below.mp h) (nodup_below.mp hnd) (by simpa [below] using hn)
      exact .cons_cons ⟨d, rfl⟩ (isChain_down_below.mpr hqs)

theorem nil_not_mem_tail (h : (q :: ps).IsChain Down) : [] ∉ ps := by
  induction ps generalizing q with
  | nil => exact List.not_mem_nil
  | cons p ps ih =>
    obtain ⟨hp, h⟩ := List.isChain_cons_cons.mp h
    rw [List.mem_cons, not_or]
    exact ⟨fun he => not_down_nil (he ▸ hp), ih h⟩

theorem nodup_of_isChain_down (h : ps.IsChain Down) : ps.Nodup := by
  have hlt : (ps.map List.length).IsChain (· < ·) := by
    refine List.isChain_map_of_isChain _ ?_ h
    rintro p _ ⟨d, rfl⟩
    simp
  exact List.Nodup.of_map List.length (hlt.pairwise.imp Nat.ne_of_lt)

/-- A way down into a child, or none. -/
def Branch (t : BinaryTree α) (d : Side) (ps : List Position) : Prop :=
  ps = [] ∨ ∃ qs, Descent (child t d) qs ∧ ps = below d qs

theorem nodes_below : (∀ p ∈ below d ps, valueAt t p ≠ none) ↔ ∀ p ∈ ps, valueAt (child t d) p ≠ none :=
  List.forall_mem_map

theorem branch_of_down (h : ([] :: ps).IsChain Down) (hn : ∀ p ∈ ps, valueAt t p ≠ none) :
    ∃ d, Branch t d ps := by
  obtain ⟨d, qs, rfl⟩ := exists_below (h.tail.imp fun _ _ => .inl) (nil_not_mem_tail h)
  cases qs with
  | nil => exact ⟨d, .inl rfl⟩
  | cons q qs =>
    obtain ⟨⟨c, hc⟩, h⟩ := List.isChain_cons_cons.mp h
    obtain ⟨-, rfl⟩ := List.cons.inj hc
    exact ⟨d, .inr ⟨_, ⟨rfl, nodes_below.mp hn, isChain_down_below.mp h⟩, rfl⟩⟩

theorem Branch.isChain (h : Branch t d ps) : ([] :: ps).IsChain Down := by
  obtain rfl | ⟨qs, hqs, rfl⟩ := h
  · exact .singleton []
  · refine List.isChain_cons.mpr ⟨?_, isChain_down_below.mpr hqs.chain⟩
    intro p hp
    rw [below, List.head?_map, hqs.start] at hp
    cases hp
    exact ⟨d, rfl⟩

theorem Branch.nodes (h : Branch t d ps) : ∀ p ∈ ps, valueAt t p ≠ none := by
  obtain rfl | ⟨qs, hqs, rfl⟩ := h
  · simp
  · exact nodes_below.mpr hqs.nodes

theorem Branch.head (h : Branch t d (p :: ps)) : p = [d] := by
  obtain h | ⟨qs, hqs, h⟩ := h
  · cases h
  · have hp := congrArg List.head? h
    rw [below, List.head?_map, hqs.start] at hp
    cases hp
    rfl

theorem Branch.exists_below (h : Branch t d ps) : ∃ qs, ps = below d qs := by
  obtain rfl | ⟨qs, -, rfl⟩ := h
  · exact ⟨[], rfl⟩
  · exact ⟨qs, rfl⟩

theorem disjoint_below (h : d ≠ e) : (below d ps).Disjoint (below e qs) := by
  intro p hp hq
  obtain ⟨a, -, rfl⟩ := List.mem_map.mp hp
  obtain ⟨b, -, hb⟩ := List.mem_map.mp hq
  exact h (List.cons.inj hb).1.symm

theorem exists_ne (d : Side) : ∃ e, e ≠ d := by
  cases d with
  | left => exact ⟨.right, by decide⟩
  | right => exact ⟨.left, by decide⟩

/-- Two ways down that do not meet go into different children. -/
theorem branches_ne (ha : Branch t d as) (hb : Branch t e bs) (h : as.Disjoint bs) :
    ∃ d e, d ≠ e ∧ Branch t d as ∧ Branch t e bs := by
  cases as with
  | nil =>
    obtain ⟨c, hc⟩ := exists_ne e
    exact ⟨c, e, hc, .inl rfl, hb⟩
  | cons p as =>
    cases bs with
    | nil =>
      obtain ⟨c, hc⟩ := exists_ne d
      exact ⟨d, c, hc.symm, ha, .inl rfl⟩
    | cons q bs =>
      refine ⟨d, e, ?_, ha, hb⟩
      rintro rfl
      obtain rfl := ha.head
      obtain rfl := hb.head
      exact h (List.mem_cons_self ..) (List.mem_cons_self ..)

theorem descent_node_iff : Descent (.node v l r) ps ↔ ∃ d as, Branch (.node v l r) d as ∧ ps = [] :: as := by
  constructor
  · rintro ⟨hstart, hn, hc⟩
    cases ps with
    | nil => cases hstart
    | cons p ps =>
      cases hstart
      obtain ⟨d, h⟩ := branch_of_down hc fun p hp => hn p (List.mem_cons_of_mem _ hp)
      exact ⟨d, ps, h, rfl⟩
  · rintro ⟨d, as, h, rfl⟩
    refine ⟨rfl, ?_, h.isChain⟩
    rw [List.forall_mem_cons]
    exact ⟨by simp [valueAt, subtree, root], h.nodes⟩

theorem simplePath_below : SimplePath t (below d ps) ↔ SimplePath (child t d) ps := by
  constructor
  · rintro ⟨hne, hn, hc, hnd⟩
    exact ⟨fun h => hne (by rw [h]; rfl), nodes_below.mp hn, isChain_below.mp hc, nodup_below.mp hnd⟩
  · rintro ⟨hne, hn, hc, hnd⟩
    exact ⟨fun h => hne (List.map_eq_nil_iff.mp h), nodes_below.mpr hn, isChain_below.mpr hc,
      nodup_below.mpr hnd⟩

/-- A way up to the root and down again. -/
def Bend (t : BinaryTree α) (ps : List Position) : Prop :=
  ∃ d e as bs, d ≠ e ∧ Branch t d as ∧ Branch t e bs ∧ ps = as.reverse ++ [] :: bs

theorem bend_of_mem (h : SimplePath t ps) (hroot : [] ∈ ps) : Bend t ps := by
  obtain ⟨as, bs, rfl⟩ := List.append_of_mem hroot
  obtain ⟨-, hn, hc, hnd⟩ := h
  obtain ⟨ha, hb⟩ := List.isChain_split.mp hc
  rw [← List.isChain_reverse, List.reverse_append] at ha
  obtain ⟨hnda, hndb, hdis⟩ := List.nodup_append'.mp hnd
  obtain ⟨hra, hdis⟩ := List.disjoint_cons_right.mp hdis
  have hdown : ([] :: as.reverse).IsChain Down :=
    isChain_down (ha.imp fun _ _ => neighbours_symm)
      (List.nodup_cons.mpr ⟨fun h => hra (List.mem_reverse.mp h), List.nodup_reverse.mpr hnda⟩)
  obtain ⟨d, hd⟩ := branch_of_down hdown fun p hp =>
    hn p (List.mem_append_left _ (List.mem_reverse.mp hp))
  obtain ⟨e, he⟩ := branch_of_down (isChain_down hb hndb) fun p hp =>
    hn p (List.mem_append_right _ (List.mem_cons_of_mem _ hp))
  obtain ⟨d, e, hne, hd, he⟩ := branches_ne hd he fun p hp => hdis (List.mem_reverse.mp hp)
  exact ⟨d, e, _, bs, hne, hd, he, by rw [List.reverse_reverse]⟩

theorem simplePath_of_bend (h : Bend (.node v l r) ps) : SimplePath (.node v l r) ps := by
  obtain ⟨d, e, as, bs, hne, ha, hb, rfl⟩ := h
  have hc : (as.reverse ++ [] :: bs).IsChain Neighbours := by
    refine List.isChain_split.mpr ⟨?_, hb.isChain.imp fun _ _ => .inl⟩
    rw [← List.isChain_reverse, List.reverse_append, List.reverse_reverse]
    exact ha.isChain.imp fun _ _ => .inr
  refine ⟨by simp, ?_, hc, ?_⟩
  · rw [List.forall_mem_append, List.forall_mem_cons]
    exact ⟨fun p hp => ha.nodes p (List.mem_reverse.mp hp), by simp [valueAt, subtree, root], hb.nodes⟩
  · obtain ⟨hra, hnda⟩ := List.nodup_cons.mp (nodup_of_isChain_down ha.isChain)
    obtain ⟨qs, rfl⟩ := ha.exists_below
    obtain ⟨qs', rfl⟩ := hb.exists_below
    refine List.nodup_append'.mpr ⟨List.nodup_reverse.mpr hnda, nodup_of_isChain_down hb.isChain, ?_⟩
    rw [List.disjoint_cons_right]
    exact ⟨fun h => hra (List.mem_reverse.mp h), fun p hp => disjoint_below hne (List.mem_reverse.mp hp)⟩

/-- A simple path stays inside of a child, or it goes up to the root and down again. -/
theorem simplePath_node_iff : SimplePath (.node v l r) ps ↔
    (∃ d qs, SimplePath (child (.node v l r) d) qs ∧ ps = below d qs) ∨ Bend (.node v l r) ps := by
  constructor
  · intro h
    by_cases hroot : [] ∈ ps
    · exact .inr (bend_of_mem h hroot)
    · obtain ⟨d, qs, rfl⟩ := exists_below h.chain hroot
      exact .inl ⟨d, qs, simplePath_below.mp h, rfl⟩
  · rintro (⟨d, qs, h, rfl⟩ | h)
    · exact simplePath_below.mpr h
    · exact simplePath_of_bend h

end C11AndC.Library
