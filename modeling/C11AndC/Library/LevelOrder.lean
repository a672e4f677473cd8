import C11AndC.Library.Trees
import Mathlib.Data.List.Pairwise
import Mathlib.Data.List.Perm.Subperm
import Mathlib.Data.List.Nodup

namespace C11AndC.Library

/-- The two ways part, the first one to the left and the second one to the right. -/
def LeftOf (p q : Position) : Prop := ∃ c a b, p = c ++ .left :: a ∧ q = c ++ .right :: b

/-- Level by level, and from left to right in each level. -/
def Before (p q : Position) : Prop := p.length < q.length ∨ p.length = q.length ∧ LeftOf p q

variable {α : Type} {t : BinaryTree α} {p q r : Position} {d e : Side} {done queue : List Position}

theorem leftOf_cons_iff : LeftOf (d :: p) (e :: q) ↔ d = .left ∧ e = .right ∨ d = e ∧ LeftOf p q := by
  constructor
  · rintro ⟨c, a, b, hp, hq⟩
    cases c with
    | nil =>
      obtain ⟨rfl, rfl⟩ := List.cons.inj hp
      obtain ⟨rfl, rfl⟩ := List.cons.inj hq
      exact .inl ⟨rfl, rfl⟩
    | cons f c =>
      obtain ⟨rfl, rfl⟩ := List.cons.inj hp
      obtain ⟨rfl, rfl⟩ := List.cons.inj hq
      exact .inr ⟨rfl, c, a, b, rfl, rfl⟩
  · rintro (⟨rfl, rfl⟩ | ⟨rfl, c, a, b, rfl, rfl⟩)
    · exact ⟨[], p, q, rfl, rfl⟩
    · exact ⟨d :: c, a, b, rfl, rfl⟩

theorem not_leftOf_nil : ¬ LeftOf [] q := by
  rintro ⟨c, a, b, h, -⟩
  simp at h

theorem leftOf_trans (h : LeftOf p q) (h' : LeftOf q r) : LeftOf p r := by
  induction p generalizing q r with
  | nil => exact absurd h not_leftOf_nil
  | cons d p ih =>
    cases q with
    | nil => exact absurd h' not_leftOf_nil
    | cons e q =>
      cases r with
      | nil =>
        obtain ⟨c, a, b, -, hr⟩ := h'
        simp at hr
      | cons f r =>
        rw [leftOf_cons_iff] at h h' ⊢
        obtain ⟨rfl, rfl⟩ | ⟨rfl, h⟩ := h
        · obtain ⟨he, -⟩ | ⟨rfl, -⟩ := h'
          · cases he
          · exact .inl ⟨rfl, rfl⟩
        · obtain ⟨rfl, rfl⟩ | ⟨rfl, h'⟩ := h'
          · exact .inl ⟨rfl, rfl⟩
          · exact .inr ⟨rfl, ih h h'⟩

theorem not_leftOf_self : ¬ LeftOf p p := by
  induction p with
  | nil => exact not_leftOf_nil
  | cons d p ih =>
    rw [leftOf_cons_iff]
    rintro (⟨rfl, h⟩ | ⟨-, h⟩)
    · cases h
    · exact ih h

theorem leftOf_append (h : LeftOf p q) : LeftOf (p ++ [d]) (q ++ [e]) := by
  obtain ⟨c, a, b, rfl, rfl⟩ := h
  exact ⟨c, a ++ [d], b ++ [e], by simp, by simp⟩

theorem before_trans (h : Before p q) (h' : Before q r) : Before p r := by
  obtain h | ⟨hl, h⟩ := h
  · obtain h' | ⟨hl', -⟩ := h'
    · exact .inl (Nat.lt_trans h h')
    · exact .inl (hl' ▸ h)
  · obtain h' | ⟨hl', h'⟩ := h'
    · exact .inl (hl ▸ h')
    · exact .inr ⟨hl.trans hl', leftOf_trans h h'⟩

theorem not_before_self : ¬ Before p p := by
  rintro (h | ⟨-, h⟩)
  · exact Nat.lt_irrefl _ h
  · exact not_leftOf_self h

theorem before_children (h : Before p q) : Before (p ++ [d]) (q ++ [e]) := by
  rw [Before, List.length_append, List.length_append, List.length_singleton, List.length_singleton]
  obtain h | ⟨hl, h⟩ := h
  · exact .inl (Nat.succ_lt_succ h)
  · exact .inr ⟨congrArg Nat.succ hl, leftOf_append h⟩

theorem before_child (p : Position) (d : Side) : Before p (p ++ [d]) :=
  .inl (by simp)

/-- The children of a node that are there. -/
def children (t : BinaryTree α) (p : Position) : List Position :=
  [p ++ [.left], p ++ [.right]].filter fun q => (valueAt t q).isSome

/-- A queue in the middle of a walk through the levels: what is done comes before what is queued,
children are queued behind all that is there, and the rest of the tree is below the queue. -/
structure Frontier (t : BinaryTree α) (done queue : List Position) : Prop where
  nodes : ∀ p ∈ done ++ queue, valueAt t p ≠ none
  order : (done ++ queue).Pairwise Before
  behind : ∀ p ∈ queue, ∀ q ∈ queue, ∀ d, Before q (p ++ [d])
  rest : ∀ q, valueAt t q ≠ none → q ∈ done ∨ ∃ p ∈ queue, p <+: q

theorem mem_children : q ∈ children t p ↔ valueAt t q ≠ none ∧ ∃ d, q = p ++ [d] := by
  simp only [children, List.mem_filter, List.mem_cons, List.not_mem_nil, or_false, Option.isSome_iff_ne_none]
  constructor
  · rintro ⟨rfl | rfl, h⟩
    · exact ⟨h, _, rfl⟩
    · exact ⟨h, _, rfl⟩
  · rintro ⟨h, d, rfl⟩
    cases d with
    | left => exact ⟨.inl rfl, h⟩
    | right => exact ⟨.inr rfl, h⟩

theorem children_pairwise : (children t p).Pairwise Before := by
  refine List.Pairwise.filter _ (List.pairwise_pair.mpr (.inr ⟨by simp, p, [], [], rfl, rfl⟩))

theorem frontier_root (h : t ≠ .nil) : Frontier t [] [[]] := by
  refine ⟨?_, List.pairwise_singleton _ _, ?_, fun q _ => .inr ⟨[], List.mem_singleton_self _, List.nil_prefix⟩⟩
  · cases t with
    | nil => exact absurd rfl h
    | node v l r => simp [valueAt, subtree, root]
  · simp only [List.mem_singleton]
    rintro _ rfl _ rfl d
    exact before_child [] d

theorem Frontier.step (h : Frontier t done (p :: queue)) :
    Frontier t (done ++ [p]) (queue ++ children t p) := by
  obtain ⟨hnodes, horder, hbehind, hrest⟩ := h
  obtain ⟨hdone, hpqueue, hcross⟩ := List.pairwise_append.mp horder
  obtain ⟨hp, hqueue⟩ := List.pairwise_cons.mp hpqueue
  have hself : p ∈ p :: queue := List.mem_cons_self ..
  have htail : ∀ q ∈ queue, q ∈ p :: queue := fun q hq => List.mem_cons_of_mem _ hq
  have hassoc : done ++ [p] ++ (queue ++ children t p) = done ++ (p :: queue) ++ children t p := by simp
  refine ⟨?_, ?_, ?_, ?_⟩
  · intro q hq
    rw [hassoc] at hq
    obtain hq | hq := List.mem_append.mp hq
    · exact hnodes q hq
    · exact (mem_children.mp hq).1
  · rw [hassoc]
    refine List.pairwise_append.mpr ⟨horder, children_pairwise, fun q hq r hr => ?_⟩
    obtain ⟨-, d, rfl⟩ := mem_children.mp hr
    obtain hq | hq := List.mem_append.mp hq
    · exact before_trans (hcross q hq p hself) (before_child p d)
    · exact hbehind p hself q hq d
  · intro q hq r hr d
    obtain hq | hq := List.mem_append.mp hq
    · obtain hr | hr := List.mem_append.mp hr
      · exact hbehind q (htail q hq) r (htail r hr) d
      · obtain ⟨-, e, rfl⟩ := mem_children.mp hr
        exact before_children (hp q hq)
    · obtain ⟨-, c, rfl⟩ := mem_children.mp hq
      obtain hr | hr := List.mem_append.mp hr
      · exact before_trans (hbehind p hself r (htail r hr) c) (before_child _ d)
      · obtain ⟨-, e, rfl⟩ := mem_children.mp hr
        exact .inl (by simp)
  · intro q hq
    obtain h | ⟨r, hr, s, rfl⟩ := hrest q hq
    · exact .inl (List.mem_append_left _ h)
    · obtain rfl | hr := List.mem_cons.mp hr
      · cases s with
        | nil => exact .inl (by simp)
        | cons d s =>
          rw [List.append_cons] at hq
          refine .inr ⟨r ++ [d], List.mem_append_right _ ?_, s, by simp⟩
          exact mem_children.mpr ⟨valueAt_append hq, d, rfl⟩
      · exact .inr ⟨r, List.mem_append_left _ hr, s, rfl⟩

/-- When the queue is empty the walk has come to all nodes. -/
theorem Frontier.all (h : Frontier t done []) : p ∈ done ↔ valueAt t p ≠ none := by
  constructor
  · intro hp
    exact h.nodes p (List.mem_append_left _ hp)
  · intro hp
    obtain hp | ⟨q, hq, -⟩ := h.rest p hp
    · exact hp
    · exact absurd hq List.not_mem_nil

/-- The positions of the nodes, from left to right. -/
def positions : BinaryTree α → List Position
  | .nil => []
  | .node _ l r => (positions l).map (.left :: ·) ++ [] :: (positions r).map (.right :: ·)

theorem mem_positions : p ∈ positions t ↔ valueAt t p ≠ none := by
  induction t generalizing p with
  | nil => simp [positions, valueAt_nil_tree]
  | node v l r ihl ihr =>
    cases p with
    | nil => simp [positions, valueAt, subtree, root]
    | cons d p =>
      rw [valueAt_cons]
      cases d with
      | left => simpa [positions, child] using ihl
      | right => simpa [positions, child] using ihr

theorem positions_nodup : (positions t).Nodup := by
  induction t with
  | nil => exact List.nodup_nil
  | node v l r ihl ihr =>
    have hcons : ∀ d : Side, Function.Injective (fun p : Position => d :: p) := fun d p q h => (List.cons.inj h).2
    apply List.nodup_append.mpr
    refine ⟨List.Nodup.map (hcons .left) ihl, List.nodup_cons.mpr ⟨by simp, List.Nodup.map (hcons .right) ihr⟩, ?_⟩
    intro p hp q hq he
    obtain ⟨p', -, rfl⟩ := List.mem_map.mp hp
    obtain rfl | hq := List.mem_cons.mp hq
    · cases he
    · obtain ⟨q', -, rfl⟩ := List.mem_map.mp hq
      cases he

theorem length_positions : (positions t).length = t.numNodes := by
  induction t with
  | nil => rfl
  | node v l r ihl ihr =>
    simp only [positions, List.length_append, List.length_cons, List.length_map, ihl, ihr, BinaryTree.numNodes]
    omega

theorem nodup_of_before {ps : List Position} (h : ps.Pairwise Before) : ps.Nodup := by
  apply h.imp
  rintro p q hpq rfl
  exact not_before_self hpq

theorem Frontier.length_le (h : Frontier t done queue) : done.length + queue.length ≤ t.numNodes := by
  rw [← length_positions, ← List.length_append]
  exact List.Subperm.length_le (List.subperm_of_subset (nodup_of_before h.order)
    (fun p hp => mem_positions.mpr (h.nodes p hp)))

/-- A walk through the levels that has come to its end has met every node once. -/
theorem Frontier.perm (h : Frontier t done []) : done.Perm (positions t) := by
  have horder := h.order
  rw [List.append_nil] at horder
  apply (List.perm_ext_iff_of_nodup (nodup_of_before horder) positions_nodup).mpr
  intro p
  rw [mem_positions]
  exact h.all

end C11AndC.Library
