import C11AndC.Library.Program
import C11AndC.Library.Lists
import Mathlib.Data.List.Nodup
import Mathlib.Data.List.Perm.Basic

namespace C11AndC.Library

/-- A statement about some addresses of the memory, all of them in use. It does not
look at any other address. -/
structure Part (α : Type) where
  addrs : List Nat
  holds : Memory α → Prop
  frame : ∀ {m m' : Memory α}, (∀ a, a ∈ addrs → m'.cell a = m.cell a) → holds m → holds m'
  alive : ∀ {m : Memory α}, holds m → ∀ a, a ∈ addrs → (m.cell a).isSome

variable {α ρ : Type}

def cellPart (a : Nat) (v : α) : Part α where
  addrs := [a]
  holds m := m.cell a = some v
  frame h hm := (h a (List.mem_singleton.mpr rfl)).trans hm
  alive := by
    intro m hm b hb
    rw [List.mem_singleton.mp hb, hm]
    rfl

/-- The memory is made of the parts of a list, no two of which share an address. -/
structure Parts (m : Memory α) (ps : List (Part α)) : Prop where
  nodup : (ps.flatMap Part.addrs).Nodup
  holds : ∀ p, p ∈ ps → p.holds m

variable {m m' : Memory α} {ps qs : List (Part α)} {p q : Part α}

theorem parts_perm (h : ps.Perm qs) : Parts m ps ↔ Parts m qs := by
  constructor
  · rintro ⟨hn, hh⟩
    exact ⟨(h.flatMap_right _).nodup_iff.mp hn, fun p hp => hh p (h.mem_iff.mpr hp)⟩
  · rintro ⟨hn, hh⟩
    exact ⟨(h.flatMap_right _).nodup_iff.mpr hn, fun p hp => hh p (h.mem_iff.mp hp)⟩

theorem parts_cons : Parts m (p :: ps) ↔
    p.addrs.Nodup ∧ p.holds m ∧ p.addrs.Disjoint (ps.flatMap Part.addrs) ∧ Parts m ps := by
  constructor
  · rintro ⟨hn, hh⟩
    obtain ⟨hp, hps, hd⟩ := List.nodup_append'.mp hn
    exact ⟨hp, hh p List.mem_cons_self, hd, hps, fun q hq => hh q (List.mem_cons_of_mem p hq)⟩
  · rintro ⟨hp, hh, hd, hn, hhs⟩
    refine ⟨List.nodup_append'.mpr ⟨hp, hn, hd⟩, fun q hq => ?_⟩
    obtain rfl | hq := List.mem_cons.mp hq
    · exact hh
    · exact hhs q hq

theorem parts_frame (h : ∀ a, a ∈ ps.flatMap Part.addrs → m'.cell a = m.cell a)
    (hp : Parts m ps) : Parts m' ps :=
  ⟨hp.nodup, fun p hmem => p.frame (fun a ha => h a (List.mem_flatMap.mpr ⟨p, hmem, ha⟩))
    (hp.holds p hmem)⟩

/-- Replace the first part by another one over the same addresses. -/
theorem parts_replace (h : Parts m (p :: ps)) (ha : q.addrs.Perm p.addrs)
    (hs : Memory.SameExcept p.addrs m m') (hq : q.holds m') : Parts m' (q :: ps) := by
  obtain ⟨hn, -, hd, hps⟩ := parts_cons.mp h
  refine parts_cons.mpr ⟨ha.nodup_iff.mpr hn, hq, ?_, ?_⟩
  · exact fun a hq hps => hd (ha.mem_iff.mp hq) hps
  · exact parts_frame (fun a hps => hs a (fun hp => hd hp hps)) hps

/-- Replace the part at a position. -/
theorem parts_set {i : Nat} (h : Parts m ps) (hi : ps[i]? = some p) (ha : q.addrs.Perm p.addrs)
    (hs : Memory.SameExcept p.addrs m m') (hq : q.holds m') : Parts m' (ps.set i q) := by
  obtain ⟨l₁, l₂, rfl, hset, -⟩ := split_at hi
  rw [hset]
  refine (parts_perm List.perm_middle).mpr ?_
  exact parts_replace ((parts_perm List.perm_middle).mp h) ha hs hq

theorem parts_get {i : Nat} (h : Parts m ps) (hi : ps[i]? = some p) : p.holds m :=
  h.holds p (List.mem_of_getElem? hi)

theorem parts_nodup {i : Nat} (h : Parts m ps) (hi : ps[i]? = some p) : p.addrs.Nodup := by
  obtain ⟨l₁, l₂, rfl, -, -⟩ := split_at hi
  exact (parts_cons.mp ((parts_perm List.perm_middle).mp h)).1

theorem cell_of_parts {i a : Nat} {v : α} (h : Parts m ps) (hi : ps[i]? = some (cellPart a v)) :
    m.cell a = some v := parts_get h hi

theorem parts_modify {i a : Nat} {v : α} (h : Parts m ps) (hi : ps[i]? = some (cellPart a v))
    (f : α → α) : Parts (m.modify a f) (ps.set i (cellPart a (f v))) := by
  refine parts_set h hi (List.Perm.refl _) ?_ ?_
  · exact Memory.sameExcept_modify (List.mem_singleton.mpr rfl) m f
  · show (m.modify a f).cell a = some (f v)
    rw [Memory.cell_modify_self, cell_of_parts h hi, Option.map_some]

/-- The address of a cell is not one of those at another position. -/
theorem parts_not_mem {i j a : Nat} {v : α} (h : Parts m ps) (hi : ps[i]? = some (cellPart a v))
    (hj : ps[j]? = some p) (hij : i ≠ j) : a ∉ p.addrs := by
  intro ha
  obtain ⟨l₁, l₂, rfl, hset, -⟩ := split_at hi
  have hd := (parts_cons.mp ((parts_perm List.perm_middle).mp h)).2.2.1
  have hne : p ≠ ⟨[], fun _ => True, fun _ _ => trivial, by simp⟩ := by
    rintro rfl
    exact List.not_mem_nil ha
  have hj' : (l₁ ++ ⟨[], fun _ => True, fun _ _ => trivial, by simp⟩ :: l₂)[j]? = some p := by
    rw [← hset, List.getElem?_set_ne hij]
    exact hj
  have hmem : p ∈ l₁ ++ l₂ := by
    have hm := List.mem_of_getElem? hj'
    simp only [List.mem_append, List.mem_cons, hne, false_or] at hm ⊢
    exact hm
  exact hd (List.mem_singleton.mpr rfl) (List.mem_flatMap.mpr ⟨p, hmem, ha⟩)

theorem next_not_mem (h : Parts m ps) : m.next ∉ ps.flatMap Part.addrs := by
  intro hm
  obtain ⟨p, hp, ha⟩ := List.mem_flatMap.mp hm
  have hs := p.alive (h.holds p hp) _ ha
  rw [m.cell_fresh _ (Nat.le_refl _)] at hs
  cases hs

/-- There are more addresses handed out than the parts have. -/
theorem parts_length (h : Parts m ps) : (ps.flatMap Part.addrs).length < m.next := by
  have hsub : ps.flatMap Part.addrs ⊆ List.range' 1 (m.next - 1) := by
    intro a ha
    obtain ⟨p, hp, hpa⟩ := List.mem_flatMap.mp ha
    obtain ⟨v, hv⟩ := Option.isSome_iff_exists.mp (p.alive (h.holds p hp) a hpa)
    have h0 := Memory.ne_zero_of_cell hv
    have hlt := Memory.lt_next_of_cell hv
    rw [List.mem_range'_1]
    omega
  have hle := (List.subperm_of_subset h.nodup hsub).length_le
  rw [List.length_range'] at hle
  have hpos := m.next_pos
  omega

theorem parts_alloc (h : Parts m ps) (v : α) : Parts (m.alloc v) (cellPart m.next v :: ps) := by
  have hn := next_not_mem h
  refine parts_cons.mpr ⟨List.nodup_singleton _, Memory.cell_alloc_self m v, ?_, ?_⟩
  · simpa [cellPart] using hn
  · exact parts_frame (fun a ha => Memory.cell_alloc_ne m (ne_of_mem_of_not_mem ha hn) v) h

theorem parts_free {a : Nat} {v : α} (h : Parts m (cellPart a v :: ps)) : Parts (m.free a) ps := by
  obtain ⟨-, -, hd, hps⟩ := parts_cons.mp h
  refine parts_frame (fun b hb => Memory.cell_free_ne m ?_) hps
  rintro rfl
  exact hd (List.mem_singleton.mpr rfl) hb

theorem filterMap_range (ps : List (Part α)) :
    (List.range ps.length).filterMap (ps[·]?) = ps := by
  induction ps with
  | nil => rfl
  | cons p ps ih =>
    rw [List.length_cons, List.range_succ_eq_map]
    simp only [List.filterMap_cons, List.getElem?_cons_zero, List.filterMap_map]
    exact congrArg (p :: ·) ih

/-- Bring the parts at the front into another order. -/
theorem pick_perm (order : List Nat) {l : List (Part α)} (hl : order.length = l.length)
    (hp : order.Perm (List.range order.length)) : (l ++ qs).Perm (order.filterMap (l[·]?) ++ qs) := by
  refine List.Perm.append_right _ ?_
  have hf := hp.filterMap (l[·]?)
  rw [hl, filterMap_range] at hf
  exact hf.symm

theorem parts_pick (order : List Nat) {l : List (Part α)} (h : Parts m (l ++ qs))
    (hl : order.length = l.length) (hp : order.Perm (List.range order.length)) :
    Parts m (order.filterMap (l[·]?) ++ qs) :=
  (parts_perm (pick_perm order hl hp)).mp h

/-- Take a part inside a list to pieces, or put it together again. -/
theorem parts_within {l r : List (Part α)}
    (h : ∀ ps, Parts m (p :: ps) ↔ Parts m (r ++ ps)) :
    Parts m (l ++ p :: ps) ↔ Parts m (l ++ (r ++ ps)) := by
  have hp : (r ++ (l ++ ps)).Perm (l ++ (r ++ ps)) := by
    rw [← List.append_assoc, ← List.append_assoc]
    exact List.perm_append_comm.append_right _
  rw [parts_perm List.perm_middle, h, parts_perm hp]

variable {s : Store α ρ}

theorem wp_load_part {i a : Nat} {v : α} {Q : α → Store α ρ → Prop} (h : Parts s.mem ps)
    (hi : ps[i]? = some (cellPart a v)) (hq : Q v s) : wp (load a) Q s :=
  (wp_load a).mpr ⟨v, cell_of_parts h hi, hq⟩

theorem wp_store_part {i a : Nat} {v : α} {f : α → α} {Q : Unit → Store α ρ → Prop}
    (h : Parts s.mem ps) (hi : ps[i]? = some (cellPart a v))
    (hq : ∀ m, Parts m (ps.set i (cellPart a (f v))) → Q () ⟨m, s.reg⟩) :
    wp (store a f) Q s := by
  refine (wp_store a f).mpr ⟨?_, hq _ (parts_modify h hi f)⟩
  rw [cell_of_parts h hi]
  rfl

theorem wp_delete_part {a : Nat} {v : α} {Q : Unit → Store α ρ → Prop}
    (h : Parts s.mem (cellPart a v :: ps)) (hq : ∀ m, Parts m ps → Q () ⟨m, s.reg⟩) :
    wp (delete a) Q s := by
  refine (wp_delete a).mpr ⟨?_, hq _ (parts_free h)⟩
  rw [cell_of_parts (i := 0) h rfl]
  rfl

end C11AndC.Library
