import C11AndC.Library.TreePaths
import C11AndC.Library.Wrap
import Mathlib.Algebra.BigOperators.Group.List.Basic
import Mathlib.Algebra.Order.Ring.Int
import Mathlib.Order.Bounds.Basic

namespace C11AndC.PathSum

open C11AndC.Library

/-- The answer and what is left in `res`. -/
def findMaxUtil : BinaryTree Int → Int → Int × Int
  | .nil, res => (0, res)
  | .node data left right, res =>
    let (l, res) := findMaxUtil left res
    let (r, res) := findMaxUtil right res
    let max_single := max (wrap (max l r + data)) data
    let max_top := max max_single (wrap (wrap (l + r) + data))
    (max_single, max res max_top)

def findMaxSum (root : BinaryTree Int) : Int := (findMaxUtil root INT_MIN).2

def pathSum (t : BinaryTree Int) (ps : List Position) : Int := (valuesOn t ps).sum

/-- The sums of the ways down from the root. -/
def descents (t : BinaryTree Int) : Set Int := {x | ∃ ps, Descent t ps ∧ pathSum t ps = x}

/-- The sums of all simple paths. -/
def paths (t : BinaryTree Int) : Set Int := {x | ∃ ps, SimplePath t ps ∧ pathSum t ps = x}

/-- The sums of the paths through the root. -/
def bends (v : Int) (l r : BinaryTree Int) : Set Int :=
  {x | ∃ a ∈ insert 0 (descents l), ∃ b ∈ insert 0 (descents r), x = a + b + v}

section Sums

variable {t l r : BinaryTree Int} {v a b x : Int} {d : Side}

theorem descents_nil : descents .nil = ∅ := by
  refine Set.eq_empty_of_forall_notMem ?_
  rintro x ⟨ps, ⟨hstart, hn, -⟩, -⟩
  exact hn [] (List.mem_of_head? hstart) valueAt_nil_tree

theorem paths_nil : paths .nil = ∅ := by
  refine Set.eq_empty_of_forall_notMem ?_
  rintro x ⟨ps, ⟨hne, hn, -, -⟩, -⟩
  obtain ⟨p, hp⟩ := List.exists_mem_of_ne_nil ps hne
  exact hn p hp valueAt_nil_tree

theorem pathSum_below (ps : List Position) : pathSum t (below d ps) = pathSum (child t d) ps := by
  rw [pathSum, valuesOn_below, pathSum]

theorem pathSum_bend (as bs : List Position) : pathSum (.node v l r) (as.reverse ++ [] :: bs) =
    pathSum (.node v l r) as + pathSum (.node v l r) bs + v := by
  rw [pathSum, valuesOn_append, valuesOn_reverse, valuesOn_nil, List.sum_append, List.sum_cons,
    List.sum_reverse, pathSum, pathSum]
  omega

theorem branch_iff : (∃ as, Branch t d as ∧ pathSum t as = x) ↔ x ∈ insert 0 (descents (child t d)) := by
  constructor
  · rintro ⟨as, rfl | ⟨qs, hqs, rfl⟩, rfl⟩
    · exact .inl rfl
    · exact .inr ⟨qs, hqs, (pathSum_below qs).symm⟩
  · rintro (rfl | ⟨qs, hqs, rfl⟩)
    · exact ⟨[], .inl rfl, rfl⟩
    · exact ⟨_, .inr ⟨qs, hqs, rfl⟩, pathSum_below qs⟩

theorem mem_descents_node : x ∈ descents (.node v l r) ↔
    ∃ b, (b ∈ insert 0 (descents l) ∨ b ∈ insert 0 (descents r)) ∧ x = b + v := by
  have hsum : ∀ as, pathSum (.node v l r) ([] :: as) = pathSum (.node v l r) as + v := by
    intro as
    rw [pathSum, valuesOn_nil, List.sum_cons, pathSum, Int.add_comm]
  constructor
  · rintro ⟨ps, h, rfl⟩
    obtain ⟨d, as, has, rfl⟩ := descent_node_iff.mp h
    have hb := branch_iff.mp ⟨as, has, rfl⟩
    refine ⟨_, ?_, hsum as⟩
    cases d with
    | left => exact .inl hb
    | right => exact .inr hb
  · rintro ⟨b, hb, rfl⟩
    obtain ⟨d, as, has, rfl⟩ : ∃ d as, Branch (.node v l r) d as ∧ pathSum (.node v l r) as = b := by
      obtain hb | hb := hb
      · exact ⟨.left, branch_iff.mpr hb⟩
      · exact ⟨.right, branch_iff.mpr hb⟩
    exact ⟨_, descent_node_iff.mpr ⟨d, as, has, rfl⟩, hsum as⟩

theorem mem_bends : x ∈ bends v l r ↔ ∃ ps, Bend (.node v l r) ps ∧ pathSum (.node v l r) ps = x := by
  constructor
  · rintro ⟨a, ha, b, hb, rfl⟩
    obtain ⟨as, has, rfl⟩ := branch_iff (t := .node v l r) (d := .left).mpr ha
    obtain ⟨bs, hbs, rfl⟩ := branch_iff (t := .node v l r) (d := .right).mpr hb
    exact ⟨_, ⟨.left, .right, as, bs, by decide, has, hbs, rfl⟩, pathSum_bend as bs⟩
  · rintro ⟨ps, ⟨d, e, as, bs, hne, has, hbs, rfl⟩, rfl⟩
    have ha := branch_iff.mp ⟨as, has, rfl⟩
    have hb := branch_iff.mp ⟨bs, hbs, rfl⟩
    rw [pathSum_bend]
    cases d <;> cases e
    · exact absurd rfl hne
    · exact ⟨_, ha, _, hb, rfl⟩
    · exact ⟨_, hb, _, ha, by omega⟩
    · exact absurd rfl hne

theorem mem_paths_node :
    x ∈ paths (.node v l r) ↔ (x ∈ paths l ∨ x ∈ paths r) ∨ x ∈ bends v l r := by
  rw [mem_bends]
  constructor
  · rintro ⟨ps, h, rfl⟩
    obtain ⟨d, qs, hqs, rfl⟩ | h := simplePath_node_iff.mp h
    · refine .inl ?_
      rw [pathSum_below]
      cases d with
      | left => exact .inl ⟨qs, hqs, rfl⟩
      | right => exact .inr ⟨qs, hqs, rfl⟩
    · exact .inr ⟨ps, h, rfl⟩
  · rintro ((⟨qs, hqs, rfl⟩ | ⟨qs, hqs, rfl⟩) | ⟨ps, h, rfl⟩)
    · exact ⟨_, simplePath_node_iff.mpr (.inl ⟨.left, qs, hqs, rfl⟩), pathSum_below qs⟩
    · exact ⟨_, simplePath_node_iff.mpr (.inl ⟨.right, qs, hqs, rfl⟩), pathSum_below qs⟩
    · exact ⟨ps, simplePath_node_iff.mpr (.inr h), rfl⟩

end Sums

section Greatest

variable {t l r : BinaryTree Int} {v x y : Int}

/-- What `findMaxUtil` answers for a subtree: the greatest sum on a way down, or zero if the child is
missing. -/
def Answer (t : BinaryTree Int) (x : Int) : Prop := t = .nil ∧ x = 0 ∨ IsGreatest (descents t) x

theorem Answer.mem (h : Answer t x) : x ∈ insert 0 (descents t) := by
  obtain ⟨-, rfl⟩ | h := h
  · exact .inl rfl
  · exact .inr h.1

theorem Answer.le (h : Answer t x) : ∀ a ∈ insert 0 (descents t), a ≤ max x 0 := by
  rintro a (rfl | ha)
  · exact Int.le_max_right ..
  · obtain ⟨rfl, -⟩ | h := h
    · rw [descents_nil] at ha
      exact absurd ha (Set.notMem_empty a)
    · exact (h.2 ha).trans (Int.le_max_left ..)

theorem descents_greatest (hl : Answer l x) (hr : Answer r y) :
    IsGreatest (descents (.node v l r)) (max (max x y + v) v) := by
  constructor
  · rw [mem_descents_node]
    by_cases hneg : max x y < 0
    · exact ⟨0, .inl (.inl rfl), by omega⟩
    · obtain hle | hle := Int.le_total x y
      · exact ⟨y, .inr hr.mem, by omega⟩
      · exact ⟨x, .inl hl.mem, by omega⟩
  · intro a ha
    obtain ⟨b, hb | hb, rfl⟩ := mem_descents_node.mp ha
    · have hle := hl.le b hb
      omega
    · have hle := hr.le b hb
      omega

theorem bends_greatest (hl : Answer l x) (hr : Answer r y) :
    IsGreatest (bends v l r) (max (max (max x y + v) v) (x + y + v)) := by
  have hx : max x 0 ∈ insert 0 (descents l) := by
    obtain h | h := Int.le_total x 0
    · exact .inl (Int.max_eq_right h)
    · rw [Int.max_eq_left h]
      exact hl.mem
  have hy : max y 0 ∈ insert 0 (descents r) := by
    obtain h | h := Int.le_total y 0
    · exact .inl (Int.max_eq_right h)
    · rw [Int.max_eq_left h]
      exact hr.mem
  constructor
  · exact ⟨_, hx, _, hy, by omega⟩
  · rintro _ ⟨a, ha, b, hb, rfl⟩
    have hale := hl.le a ha
    have hble := hr.le b hb
    omega

theorem greatest_accumulate {s t u : Set Int} {a b c : Int} (ha : IsGreatest s a)
    (hb : IsGreatest (insert a t) b) (hc : IsGreatest u c) : IsGreatest (s ∪ t ∪ u) (max b c) := by
  refine IsGreatest.union ⟨?_, ?_⟩ hc
  · obtain rfl | h := hb.1
    · exact .inl ha.1
    · exact .inr h
  · rintro x (hx | hx)
    · exact (ha.2 hx).trans (hb.2 (.inl rfl))
    · exact hb.2 (.inr hx)

theorem findMaxUtil_spec (hint : ∀ x ∈ paths t, IsInt x) (res : Int) :
    Answer t (findMaxUtil t res).1 ∧ IsGreatest (insert res (paths t)) (findMaxUtil t res).2 := by
  induction t generalizing res with
  | nil =>
    rw [paths_nil]
    exact ⟨.inl ⟨rfl, rfl⟩, by simp [findMaxUtil]⟩
  | node data left right hleft hright =>
    obtain ⟨hl, hresl⟩ := hleft (fun x hx => hint x (mem_paths_node.mpr (.inl (.inl hx)))) res
    obtain ⟨l, resl, hcl⟩ : ∃ l resl, findMaxUtil left res = (l, resl) := ⟨_, _, rfl⟩
    rw [hcl] at hl hresl
    obtain ⟨hr, hresr⟩ := hright (fun x hx => hint x (mem_paths_node.mpr (.inl (.inr hx)))) resl
    obtain ⟨r, resr, hcr⟩ : ∃ r resr, findMaxUtil right resl = (r, resr) := ⟨_, _, rfl⟩
    rw [hcr] at hr hresr
    have hbend : ∀ x ∈ bends data left right, wrap x = x := fun x hx =>
      wrap_eq (hint x (mem_paths_node.mpr (.inr hx)))
    have hsingle : wrap (max l r + data) = max l r + data := by
      refine hbend _ ?_
      obtain h | h := Int.le_total l r
      · exact ⟨0, .inl rfl, r, hr.mem, by omega⟩
      · exact ⟨l, hl.mem, 0, .inl rfl, by omega⟩
    have htop : wrap (wrap (l + r) + data) = l + r + data := by
      rw [wrap_wrap_add]
      exact hbend _ ⟨l, hl.mem, r, hr.mem, rfl⟩
    have hpaths : insert res (paths (.node data left right)) =
        insert res (paths left) ∪ paths right ∪ bends data left right := by
      ext x
      simp only [Set.mem_insert_iff, Set.mem_union, mem_paths_node, or_assoc]
    simp only [findMaxUtil, hcl, hcr, hsingle, htop]
    refine ⟨.inr (descents_greatest hl hr), ?_⟩
    rw [hpaths]
    exact greatest_accumulate hresl hresr (bends_greatest hl hr)

/-- `findMaxSum` is the greatest sum on a simple path, `findMaxUtil` answers the greatest sum on a way
down from the root. -/
theorem findMaxSum_greatest (root : BinaryTree Int) (hne : root ≠ .nil)
    (hint : ∀ ps, SimplePath root ps → IsInt (pathSum root ps)) :
    IsGreatest {x | ∃ ps, SimplePath root ps ∧ pathSum root ps = x} (findMaxSum root) ∧
      ∀ res, IsGreatest {x | ∃ ps, Descent root ps ∧ pathSum root ps = x} (findMaxUtil root res).1 := by
  have hpaths : ∀ x ∈ paths root, IsInt x := by
    rintro x ⟨ps, hps, rfl⟩
    exact hint ps hps
  constructor
  · obtain ⟨hmem, hle⟩ := (findMaxUtil_spec hpaths INT_MIN).2
    refine ⟨?_, fun x hx => hle (.inr hx)⟩
    obtain hmin | hmem := hmem
    · cases root with
      | nil => exact absurd rfl hne
      | node data left right =>
        have hdata : data ∈ paths (.node data left right) :=
          mem_paths_node.mpr (.inr ⟨0, .inl rfl, 0, .inl rfl, by omega⟩)
        have hge := (hpaths data hdata).1
        have hle := hle (.inr hdata)
        rw [hmin] at hle
        have heq : findMaxSum (.node data left right) = data := hmin.trans (hge.antisymm hle)
        rw [heq]
        exact hdata
    · exact hmem
  · intro res
    exact (findMaxUtil_spec hpaths res).1.resolve_left fun h => hne h.1

/-- Both values are negative here, and the greater one is in the child. -/
theorem findMaxSum_child :
    IsGreatest {x | ∃ ps, SimplePath (.node (-5) .nil (.node (-3) .nil .nil)) ps ∧
      pathSum (.node (-5) .nil (.node (-3) .nil .nil)) ps = x}
      (findMaxSum (.node (-5) .nil (.node (-3) .nil .nil))) ∧
    ∀ res, IsGreatest {x | ∃ ps, Descent (.node (-5) .nil (.node (-3) .nil .nil)) ps ∧
      pathSum (.node (-5) .nil (.node (-3) .nil .nil)) ps = x}
      (findMaxUtil (.node (-5) .nil (.node (-3) .nil .nil)) res).1 := by
  refine findMaxSum_greatest _ (by decide) fun ps hps => ?_
  have hmem : pathSum (.node (-5) .nil (.node (-3) .nil .nil)) ps ∈
      paths (.node (-5) .nil (.node (-3) .nil .nil)) := ⟨ps, hps, rfl⟩
  have hd : ∀ x ∈ descents (.node (-3) .nil .nil), x = -3 := by
    intro x hx
    obtain ⟨b, hb, rfl⟩ := mem_descents_node.mp hx
    simpa [descents_nil] using hb
  have hp : ∀ x ∈ paths (.node (-3) .nil .nil), x = -3 := by
    intro x hx
    simpa [mem_paths_node, paths_nil, bends, descents_nil] using hx
  rw [IsInt, INT_MIN, INT_MAX]
  obtain (h | h) | ⟨a, ha, b, hb, h⟩ := mem_paths_node.mp hmem
  · simp [paths_nil] at h
  · have hx := hp _ h
    omega
  · have ha' : a = 0 := by simpa [descents_nil] using ha
    have hb' : b = 0 ∨ b = -3 := hb.imp_right (hd b)
    omega

end Greatest

end C11AndC.PathSum
