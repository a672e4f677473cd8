import C11AndC.Library.Sessions
import C11AndC.TwoThree.Delete
import Mathlib.Data.Finset.Sort
import Mathlib.Data.Finset.Basic
import Mathlib.Data.Nat.Log

namespace C11AndC.TwoThree

open C11AndC.Library

variable {K : Type}

/-- The tree that one meets from a node. -/
def treeAt (m : Memory (CNode K)) : Nat → Nat → Tree K
  | 0, _ => .nil
  | steps + 1, node =>
      match m.cell node with
      | none => .nil
      | some n =>
          .node node n.keys (treeAt m steps n.left) (treeAt m steps n.middle) (treeAt m steps n.right)

section Height

variable {m : Memory (CNode K)} {s : Store (CNode K) Nat} {t : Tree K}

theorem treeAt_zero (steps : Nat) : treeAt m steps 0 = .nil := by
  cases steps with
  | zero => rfl
  | succ steps => rw [treeAt, m.cell_null]

theorem treeAt_root {n steps par : Nat} (hs : Shape m par t) (hv : Valid n t) (hn : n ≤ steps) :
    treeAt m steps t.root = t := by
  induction hv generalizing steps par with
  | nil => exact treeAt_zero steps
  | two hl hr ihl ihr =>
    obtain ⟨k, rfl⟩ : ∃ k, steps = k + 1 := ⟨steps - 1, by omega⟩
    obtain ⟨hc, hsl, -, hsr⟩ := hs
    rw [Tree.root_node, treeAt, hc]
    simp only [ihl hsl (Nat.le_of_succ_le_succ hn), ihr hsr (Nat.le_of_succ_le_succ hn), Tree.root_nil, treeAt_zero]
  | three hl hm hr ihl ihm ihr =>
    obtain ⟨k, rfl⟩ : ∃ k, steps = k + 1 := ⟨steps - 1, by omega⟩
    obtain ⟨hc, hsl, hsm, hsr⟩ := hs
    rw [Tree.root_node, treeAt, hc]
    simp only [ihl hsl (Nat.le_of_succ_le_succ hn), ihm hsm (Nat.le_of_succ_le_succ hn),
      ihr hsr (Nat.le_of_succ_le_succ hn)]

/-- A 2-3 tree is at least as full as a full binary tree. -/
theorem two_pow_le_keys {n : Nat} (hv : Valid n t) : 2 ^ n ≤ t.keys.length + 1 := by
  induction hv with
  | nil => exact Nat.le_refl 1
  | two hl hr ihl ihr =>
    simp only [Tree.keys, Keys.smallList_two, Keys.bigList_two, List.length_append, List.length_cons,
      List.length_nil, Nat.pow_succ]
    omega
  | three hl hm hr ihl ihm ihr =>
    simp only [Tree.keys, Keys.smallList_three, Keys.bigList_three, List.length_append, List.length_cons,
      List.length_nil, Nat.pow_succ]
    omega

theorem height_le_log {n : Nat} (hv : Valid n t) : n ≤ Nat.log 2 (t.keys.length + 1) :=
  Nat.le_log_of_pow_le (by decide) (two_pow_le_keys hv)

theorem height_le_addrs {n : Nat} (hv : Valid n t) : n ≤ t.addrs.length := by
  induction hv with
  | nil => exact Nat.le_refl 0
  | two hl hr ihl ihr =>
    simp only [Tree.addrs, List.length_cons, List.length_append]
    omega
  | three hl hm hr ihl ihm ihr =>
    simp only [Tree.addrs, List.length_cons, List.length_append]
    omega

theorem treeAt_reg [LinearOrder K] (h : IsTree s t) : treeAt s.mem s.mem.next s.reg = t := by
  obtain ⟨n, hv⟩ := h.valid
  have hlt : t.addrs.length < s.mem.next := by
    have hparts := parts_length h.parts
    rwa [List.flatMap_cons, List.flatMap_nil, List.append_nil] at hparts
  rw [h.root]
  exact treeAt_root (parts_get (i := 0) h.parts rfl) hv (Nat.le_trans (height_le_addrs hv) (Nat.le_of_lt hlt))

end Height

/-- What the users of a tree call. -/
inductive Call (K : Type) where
  | insert (key : K)
  | find (key : K)
  | deleteItem (key : K)
  deriving DecidableEq

inductive Answer (K : Type) where
  | code (code : Code)
  | item (item : Option K)
  deriving DecidableEq

variable [LinearOrder K]

def call (unset : K) (steps : Nat) : Call K → Prog K (Answer K)
  | .insert key => .code <$> insert unset steps key
  | .find key => .item <$> find steps key
  | .deleteItem key => .code <$> deleteItem steps key

/-- What the tree is for: a set of keys. -/
def Call.onSet : Call K → Finset K → Answer K × Finset K
  | .insert key, set => (.code (if key ∈ set then .duplicateValue else .success), Insert.insert key set)
  | .find key, set => (.item (if key ∈ set then some key else none), set)
  | .deleteItem key, set =>
      (.code (if set = ∅ then .isEmpty else if key ∈ set then .success else .notFound), set.erase key)

/-- The repair after a deletion does not go wrong. -/
def Repairs : Call K → Store (CNode K) Nat → Prop
  | .deleteItem key, s => goesWrong key (treeAt s.mem s.mem.next s.reg) = false
  | _, _ => True

instance decidableRepairs (c : Call K) (s : Store (CNode K) Nat) : Decidable (Repairs c s) :=
  match c with
  | .insert _ => .isTrue trivial
  | .find _ => .isTrue trivial
  | .deleteItem key => inferInstanceAs (Decidable (goesWrong key (treeAt s.mem s.mem.next s.reg) = false))

/-- The store holds a 2-3 tree of these keys. -/
def Stores (s : Store (CNode K) Nat) (set : Finset K) : Prop :=
  ∃ t, IsTree s t ∧ t.keys.toFinset = set

section Calls

variable {s : Store (CNode K) Nat} {set : Finset K} {unset : K} {steps : Nat}

theorem stores_sort (h : Stores s set) : ∃ t, IsTree s t ∧ t.keys = set.sort := by
  obtain ⟨t, ht, rfl⟩ := h
  have hnodup : t.keys.Nodup := ht.sorted.imp ne_of_lt
  exact ⟨t, ht, ((List.toFinset_sort _ hnodup).mpr (ht.sorted.imp le_of_lt)).symm⟩

theorem card_keys {t : Tree K} (h : IsTree s t) : t.keys.toFinset.card = t.keys.length :=
  List.toFinset_card_of_nodup (h.sorted.imp ne_of_lt)

theorem keys_eq_empty {n : Nat} {t : Tree K} (hv : Valid (n + 1) t) : t.keys.toFinset ≠ ∅ := by
  intro he
  have hpow := two_pow_le_keys hv
  rw [(List.toFinset_eq_empty_iff _).mp he, List.length_nil, Nat.pow_succ] at hpow
  have hpos := Nat.two_pow_pos n
  omega

theorem wp_insert_set {key : K} {t : Tree K} (h : IsTree s t)
    (hn : Nat.log 2 (t.keys.toFinset.card + 1) ≤ steps) :
    wp (insert unset steps key) (fun code u => code = (if key ∈ t.keys.toFinset then .duplicateValue else .success) ∧
      Stores u (Insert.insert key t.keys.toFinset)) s := by
  have hadded : ∀ {u : Store (CNode K) Nat} {t' : Tree K}, IsTree u t' → t'.keys.Perm (key :: t.keys) →
      Stores u (Insert.insert key t.keys.toFinset) := by
    intro u t' ht' hperm
    refine ⟨t', ht', ?_⟩
    rw [List.toFinset_eq_of_perm _ _ hperm, List.toFinset_cons]
  obtain ⟨n, hv⟩ := h.valid
  rw [card_keys h] at hn
  cases n with
  | zero =>
    cases nil_of_valid_zero hv
    apply wp_mono (wp_insert_empty h)
    rintro code u ⟨rfl, t', ht', hperm⟩
    exact ⟨rfl, hadded ht' hperm⟩
  | succ n =>
    apply wp_mono (wp_insert_nonempty h hv (Nat.le_trans (height_le_log hv) hn))
    rintro code u ⟨hnew, hold⟩
    by_cases hk : key ∈ t.keys
    · obtain ⟨rfl, rfl⟩ := hold hk
      rw [if_pos (List.mem_toFinset.mpr hk), Finset.insert_eq_of_mem (List.mem_toFinset.mpr hk)]
      exact ⟨rfl, t, h, rfl⟩
    · obtain ⟨rfl, t', ht', hperm⟩ := hnew hk
      rw [if_neg (mt List.mem_toFinset.mp hk)]
      exact ⟨rfl, hadded ht' hperm⟩

theorem wp_find_set {key : K} {t : Tree K} (h : IsTree s t)
    (hn : Nat.log 2 (t.keys.toFinset.card + 1) ≤ steps) :
    wp (find steps key) (fun item u => item = (if key ∈ t.keys.toFinset then some key else none) ∧ u = s) s := by
  obtain ⟨n, hv⟩ := h.valid
  rw [card_keys h] at hn
  simp only [List.mem_toFinset]
  cases n with
  | zero =>
    cases nil_of_valid_zero hv
    have hr := h.root
    simp only [Tree.root_nil] at hr
    simp [find, search, hr, Tree.keys]
  | succ n =>
    apply wp_mono (wp_find h hv (Nat.le_trans (height_le_log hv) hn))
    rintro item u ⟨rfl, rfl⟩
    exact ⟨rfl, rfl⟩

theorem wp_deleteItem_set {key : K} {t : Tree K} (h : IsTree s t) (hw : goesWrong key t = false)
    (hn : Nat.log 2 (t.keys.toFinset.card + 1) ≤ steps) :
    wp (deleteItem steps key) (fun code u =>
      code = (if t.keys.toFinset = ∅ then .isEmpty else if key ∈ t.keys.toFinset then .success else .notFound) ∧
      Stores u (t.keys.toFinset.erase key)) s := by
  obtain ⟨n, hv⟩ := h.valid
  rw [card_keys h] at hn
  cases n with
  | zero =>
    cases nil_of_valid_zero hv
    have hr := h.root
    simp only [Tree.root_nil] at hr
    simp only [deleteItem, wp_bind, wp_getReg, hr, ↓reduceIte, wp_pure]
    exact ⟨rfl, .nil, h, rfl⟩
  | succ n =>
    apply wp_mono (wp_deleteItem_nonempty h hv (Nat.le_trans (height_le_log hv) hn))
    rintro code u ⟨hold, hnew⟩
    rw [if_neg (keys_eq_empty hv)]
    by_cases hk : key ∈ t.keys
    · obtain ⟨rfl, t', hp, hroot, hkeys, hvalid⟩ := hold hk
      rw [if_pos (List.mem_toFinset.mpr hk)]
      have hsorted : t'.keys.Pairwise (· < ·) := by
        rw [hkeys]
        exact h.sorted.sublist List.erase_sublist
      refine ⟨rfl, t', ⟨hp, hroot, hvalid.mpr hw, hsorted⟩, ?_⟩
      ext k
      rw [hkeys, List.mem_toFinset, Finset.mem_erase, List.mem_toFinset]
      exact List.Nodup.mem_erase_iff (h.sorted.imp ne_of_lt)
    · obtain ⟨rfl, rfl⟩ := hnew hk
      rw [if_neg (mt List.mem_toFinset.mp hk), Finset.erase_eq_of_notMem (mt List.mem_toFinset.mp hk)]
      exact ⟨rfl, t, h, rfl⟩

/-- A call answers as the set does. -/
theorem wp_call (c : Call K) (h : Stores s set) (hc : Repairs c s) (hn : Nat.log 2 (set.card + 1) ≤ steps) :
    wp (call unset steps c) (fun answer t => answer = (c.onSet set).1 ∧ Stores t (c.onSet set).2) s := by
  obtain ⟨t, ht, rfl⟩ := h
  cases c with
  | insert key =>
    apply (wp_map _ _).mpr
    apply wp_mono (wp_insert_set ht hn)
    rintro _ u ⟨rfl, hu⟩
    exact ⟨rfl, hu⟩
  | find key =>
    apply (wp_map _ _).mpr
    apply wp_mono (wp_find_set ht hn)
    rintro _ u ⟨rfl, rfl⟩
    exact ⟨rfl, t, ht, rfl⟩
  | deleteItem key =>
    apply (wp_map _ _).mpr
    rw [Repairs, treeAt_reg ht] at hc
    apply wp_mono (wp_deleteItem_set ht hc hn)
    rintro _ u ⟨rfl, hu⟩
    exact ⟨rfl, hu⟩

/-- A call adds one key at most. -/
theorem card_onSet (c : Call K) (set : Finset K) : (c.onSet set).2.card ≤ set.card + 1 := by
  cases c with
  | insert key => exact Finset.card_insert_le key set
  | find key => exact Nat.le_succ _
  | deleteItem key => exact Nat.le_succ_of_le (Finset.card_erase_le)

end Calls

/-- A tree that nothing has been inserted in. -/
def emptyTree : Store (CNode K) Nat := ⟨Memory.empty, 0⟩

theorem stores_emptyTree : Stores (emptyTree : Store (CNode K) Nat) ∅ :=
  ⟨.nil, ⟨⟨List.nodup_nil, by simp [treePart, Shape]⟩, rfl, ⟨0, .nil⟩, List.Pairwise.nil⟩, rfl⟩

/-- Whatever calls are made on an empty tree, each of its loops takes as many rounds at most as the number
of the calls has binary digits, and all answers and the keys in the end are those of a set of keys. This
holds as long as no repair goes wrong. -/
theorem calls_refine_set (unset : K) (cs : List (Call K)) (steps : Nat)
    (hsteps : Nat.log 2 (cs.length + 1) ≤ steps) (hc : EachCall (call unset steps) Repairs cs emptyTree) :
    wp (session (call unset steps) cs) (fun answers s => answers = (abstractly Call.onSet cs ∅).1 ∧
      ∃ t, IsTree s t ∧ t.keys = (abstractly Call.onSet cs ∅).2.sort) emptyTree := by
  have hcall : ∀ (n : Nat) (c : Call K) (s : Store (CNode K) Nat) (set : Finset K),
      (Stores s set ∧ set.card + (n + 1) ≤ cs.length) → Repairs c s →
      wp (call unset steps c) (fun answer t => answer = (c.onSet set).1 ∧
        (Stores t (c.onSet set).2 ∧ (c.onSet set).2.card + n ≤ cs.length)) s := by
    rintro n c s set ⟨hs, hcard⟩ hr
    have hlog : Nat.log 2 (set.card + 1) ≤ steps :=
      Nat.le_trans (Nat.log_mono_right (by omega)) hsteps
    apply wp_mono (wp_call c hs hr hlog)
    rintro _ t ⟨rfl, ht⟩
    have hle := card_onSet c set
    exact ⟨rfl, ht, by omega⟩
  apply wp_mono (wp_session (R := fun n s set => Stores s set ∧ set.card + n ≤ cs.length) hcall cs
    ⟨stores_emptyTree, by simp⟩ hc)
  rintro _ s ⟨rfl, hs, -⟩
  exact ⟨rfl, stores_sort hs⟩

/-- A node is split by these calls, and two are merged. -/
def fiveCalls : List (Call Nat) := [.insert 5, .insert 8, .insert 6, .deleteItem 5, .find 8]

theorem calls_refine_set_fiveCalls :
    wp (session (call 0 3) fiveCalls) (fun answers s => answers = (abstractly Call.onSet fiveCalls ∅).1 ∧
      ∃ t, IsTree s t ∧ t.keys = (abstractly Call.onSet fiveCalls ∅).2.sort) emptyTree :=
  calls_refine_set 0 fiveCalls 3 (by decide) (by decide +kernel)

end C11AndC.TwoThree
