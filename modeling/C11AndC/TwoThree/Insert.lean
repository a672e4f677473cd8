import C11AndC.TwoThree.Insertion
import Mathlib.Data.Nat.Basic

namespace C11AndC.TwoThree

open C11AndC.Library

variable {K : Type} [LinearOrder K] {s : Store (CNode K) Nat} {t u : Tree K} {key : K}
  {fs : List (Frame K)}

/-- A place in a leaf with the key put in. -/
theorem sorted_insert {xs ys : List K}
    (hs : (before fs ++ ys ++ after fs).Pairwise (· < ·)) (hb : Between key fs)
    (hx : xs.Pairwise (· < ·)) (hm : ∀ x, x ∈ xs → x = key ∨ x ∈ ys) :
    (before fs ++ xs ++ after fs).Pairwise (· < ·) := by
  simp only [List.pairwise_append, List.mem_append] at hs ⊢
  obtain ⟨⟨h₁, -, h₂⟩, h₃, h₄⟩ := hs
  refine ⟨⟨h₁, hx, fun x hxb y hy => ?_⟩, h₃, fun x hxy y hya => ?_⟩
  · obtain rfl | hy := hm y hy
    · exact hb.1 x hxb
    · exact h₂ x hxb y hy
  · obtain hxb | hxy := hxy
    · exact h₄ x (.inl hxb) y hya
    · obtain rfl | hxy := hm x hxy
      · exact hb.2 y hya
      · exact h₄ x (.inr hxy) y hya

omit [LinearOrder K] in
theorem perm_insert {xs ys : List K} (h : xs.Perm (key :: ys)) :
    (before fs ++ xs ++ after fs).Perm (key :: (before fs ++ ys ++ after fs)) := by
  refine ((h.append_left _).append_right _).trans ?_
  rw [List.append_assoc, List.append_assoc, List.cons_append]
  exact List.perm_middle

theorem mem_keys_of_found {n : Nat} (hv : Valid n u) (h : found key u = true) : key ∈ u.keys := by
  cases hv with
  | nil => cases h
  | two =>
    rw [hasKey_two.mp h]
    simp [Tree.keys]
  | three =>
    obtain rfl | rfl := hasKey_three.mp h
    · simp [Tree.keys]
    · simp [Tree.keys]

theorem found_of_leaf (hv : Valid 1 u) (h : key ∈ u.keys) : found key u = true := by
  cases hv with
  | two hl hr =>
    cases nil_of_valid_zero hl
    cases nil_of_valid_zero hr
    simp [Tree.keys] at h
    exact hasKey_two.mpr h
  | three hl hm hr =>
    cases nil_of_valid_zero hl
    cases nil_of_valid_zero hm
    cases nil_of_valid_zero hr
    simp [Tree.keys] at h
    exact hasKey_three.mpr h

theorem found_iff (h : Located key t fs u) : found key u = true ↔ key ∈ t.keys := by
  obtain ⟨rfl, hb, n, -, hv, hf⟩ := h
  rw [keys_plug]
  simp only [List.mem_append]
  constructor
  · exact fun hk => .inl (.inr (mem_keys_of_found hv hk))
  · rintro ((hk | hk) | hk)
    · exact absurd (hb.1 key hk) (lt_irrefl key)
    · obtain hf | rfl := hf
      · exact hf
      · exact found_of_leaf hv hk
    · exact absurd (hb.2 key hk) (lt_irrefl key)

theorem located (key : K) {n : Nat} (h : IsTree s t) (hv : Valid (n + 1) t) :
    Located key t (locate key [] t).1 (locate key [] t).2 :=
  locate_spec [] hv h.sorted trivial ⟨by simp [before], by simp [after]⟩

theorem wp_search {n steps : Nat} (h : IsTree s t) (hv : Valid (n + 1) t) (hn : n < steps) :
    wp (search steps key) (fun r s' => s' = s ∧
      r = (.success, (locate key [] t).2.root, found key (locate key [] t).2)) s := by
  have hs : Shape s.mem 0 t := parts_get (i := 0) h.parts rfl
  have hr : t.root ≠ 0 := mt (root_eq_zero hs).mp (by simp [not_nil hv])
  simp only [search, wp_bind, wp_getReg, h.root, hr, ↓reduceIte, wp_pure]
  refine wp_mono (wp_searchLoop hs hv hn (by simp [not_nil hv]) []) ?_
  rintro _ s' ⟨rfl, rfl⟩
  exact ⟨rfl, rfl⟩

/-- The parts of a tree at the place where a search ends. -/
theorem parts_located (h : IsTree s t) (hl : Located key t fs u) :
    Parts s.mem [treePart (top 0 fs) u, abovePart 0 u.root fs] := by
  have hp := h.parts
  rw [← hl.plugged] at hp
  exact parts_whole.mpr hp

theorem reg_located (h : IsTree s t) (hl : Located key t fs u) : s.reg = rootAddr fs u.root := by
  rw [h.root, ← hl.plugged, root_plug]

theorem sorted_located (h : IsTree s t) (hl : Located key t fs u) :
    (before fs ++ u.keys ++ after fs).Pairwise (· < ·) := by
  have hs := h.sorted
  rwa [← hl.plugged, keys_plug] at hs

/-- The leaf at the place of the search is replaced by one with the new key. -/
theorem inserted_leaf {u' : Tree K} {n : Nat} {μ : Memory (CNode K)} (h : IsTree s t)
    (hl : Located key t fs u) (hp : Parts μ [treePart (top 0 fs) u', abovePart 0 u'.root fs])
    (hr : u'.root = u.root) (hf : AboveOk n fs) (hv : Valid n u')
    (hs : u'.keys.Pairwise (· < ·)) (hk : u'.keys.Perm (key :: u.keys)) :
    ∃ t', IsTree ⟨μ, s.reg⟩ t' ∧ t'.keys.Perm (key :: t.keys) := by
  refine ⟨plug fs u', isTree_of_parts hp ?_ hf hv ?_, ?_⟩
  · rw [hr]
    exact reg_located h hl
  · refine sorted_insert (sorted_located h hl) hl.between hs (fun x hx => ?_)
    exact List.mem_cons.mp (hk.mem_iff.mp hx)
  · rw [keys_plug, ← hl.plugged, keys_plug]
    exact perm_insert hk

/-- A leaf with one key takes the new one. -/
theorem wp_add_leaf {x : Nat} {k v : K} (h : IsTree s t)
    (hl : Located key t fs (.node x (.two k v) .nil .nil .nil)) (hne : key ≠ k)
    (hf : AboveOk 1 fs) :
    wp (add x key) (fun _ s' => ∃ t', IsTree s' t' ∧ t'.keys.Perm (key :: t.keys)) s := by
  have hp := parts_located h hl
  obtain hlt | hgt := lt_or_gt_of_ne hne
  · refine wp_add_less (parts_node.mp hp) hlt (fun μ hμ => ?_)
    exact inserted_leaf h hl (parts_node.mpr hμ) rfl hf (.three .nil .nil .nil)
      (by simp [Tree.keys, hlt]) (by simp [Tree.keys])
  · refine wp_add_greater (parts_node.mp hp) hgt (fun μ hμ => ?_)
    exact inserted_leaf h hl (parts_node.mpr hμ) rfl hf (.three .nil .nil .nil)
      (by simpa [Tree.keys] using hgt) (List.Perm.swap _ _ _)

/-- A full leaf is split, and the split goes up as far as it has to. -/
theorem wp_split_leaf {unset k₁ k₂ : K} {x n : Nat} (h : IsTree s t)
    (hl : Located key t fs (.node x (.three k₁ k₂) .nil .nil .nil)) (h₁ : key ≠ k₁) (h₂ : key ≠ k₂)
    (hf : AboveOk 1 fs) (hn : fs.length < n) :
    wp (loop (splitStep unset) n (key, x, 0)) (fun code s' => code = .success ∧
      ∃ t', IsTree s' t' ∧ t'.keys.Perm (key :: t.keys)) s := by
  have hs := sorted_located h hl
  have hlt : k₁ < k₂ := by
    simp [Tree.keys, List.pairwise_append] at hs
    exact hs.2.1.1.1
  obtain ⟨d, hd, hperm⟩ : ∃ d, (overfull d k₁ k₂ key .nil .nil .nil .nil).Pairwise (· < ·) ∧
      (overfull d k₁ k₂ key .nil .nil .nil .nil).Perm [key, k₁, k₂] := by
    obtain hk₁ | hk₁ := lt_or_gt_of_ne h₁
    · refine ⟨.left, ?_, List.Perm.refl _⟩
      simp [overfull, Tree.keys, hk₁, hlt, lt_trans hk₁ hlt]
    · obtain hk₂ | hk₂ := lt_or_gt_of_ne h₂
      · refine ⟨.middle, ?_, List.Perm.swap _ _ _⟩
        simp [overfull, Tree.keys, hk₂, hlt]
        exact hk₁
      · refine ⟨.right, ?_, ?_⟩
        · simp [overfull, Tree.keys, hlt]
          exact ⟨hk₁, hk₂⟩
        · exact ((List.Perm.swap _ _ _).cons _).trans (List.Perm.swap _ _ _)
  have hsort : (before fs ++ overfull d k₁ k₂ key .nil .nil .nil .nil ++ after fs).Pairwise (· < ·) := by
    refine sorted_insert hs hl.between hd (fun x hx => ?_)
    exact List.mem_cons.mp (hperm.mem_iff.mp hx)
  have hsplit : Splitting (before fs ++ overfull d k₁ k₂ key .nil .nil .nil .nil ++ after fs) fs key
      x 0 s := by
    refine ⟨reg_located h hl, 0, d, k₁, k₂, .nil, .nil, .nil, .nil, 0, rfl, ?_, .nil, .nil, .nil,
      .nil, hf, rfl⟩
    exact parts_pick [1, 2, 0] (parts_nil.mpr (parts_located h hl)) (l := [_, _, _]) rfl (by decide)
  refine wp_mono (wp_splitLoop hsplit hsort hn) ?_
  rintro code s' ⟨rfl, t', ht', hk⟩
  refine ⟨rfl, t', ht', ?_⟩
  rw [hk, ← hl.plugged, keys_plug]
  exact perm_insert hperm

/-- What follows the search: the leaf takes the key or is split. -/
theorem wp_insert_leaf {unset : K} {n steps : Nat} (h : IsTree s t) (hv : Valid (n + 1) t)
    (hl : Located key t fs u) (hnf : found key u = false) (hn : n < steps) :
    wp (do
        let o ← load u.root
        if o.getSize = .twoNode then
          let _ ← add u.root key
          return .success
        else if o.getSize = .threeNode then
          loop (splitStep unset) steps (key, u.root, 0)
        else
          return .success)
      (fun code s' => code = .success ∧ ∃ t', IsTree s' t' ∧ t'.keys.Perm (key :: t.keys)) s := by
  obtain ⟨j, hab, hvu, hf⟩ := hl.place
  obtain rfl : j = 0 := by simpa [hnf] using hf
  have hlen : 1 + fs.length = n + 1 := by
    have hp := valid_plug hab hvu
    rw [hl.plugged] at hp
    exact valid_height hp hv
  have hpu := parts_located h hl
  cases hvu with
  | @two _ x k v _ _ hl' hr' =>
    cases nil_of_valid_zero hl'
    cases nil_of_valid_zero hr'
    have hne : key ≠ k := mt hasKey_two.mpr (by simpa [found] using hnf)
    have hc := cell_of_parts (i := 0) (parts_node.mp hpu) rfl
    simp only [Tree.root_node, wp_bind, wp_load, hc, Option.some.injEq, exists_eq_left',
      CNode.getSize, Keys.getSize_two, ↓reduceIte, wp_pure]
    refine wp_mono (wp_add_leaf h hl hne hab) ?_
    exact fun _ s' ht => ⟨trivial, ht⟩
  | @three _ x k₁ k₂ _ _ _ hl' hm' hr' =>
    cases nil_of_valid_zero hl'
    cases nil_of_valid_zero hm'
    cases nil_of_valid_zero hr'
    have hne : ¬ (key = k₁ ∨ key = k₂) := mt hasKey_three.mpr (by simpa [found] using hnf)
    rw [not_or] at hne
    have hc := cell_of_parts (i := 0) (parts_node.mp hpu) rfl
    simp only [Tree.root_node, wp_bind, wp_load, hc, Option.some.injEq, exists_eq_left',
      CNode.getSize, Keys.getSize_three, reduceCtorEq, ↓reduceIte]
    exact wp_split_leaf h hl hne.1 hne.2 hab (by omega)

theorem wp_insert_nonempty {unset : K} {n steps : Nat} (h : IsTree s t) (hv : Valid (n + 1) t)
    (hn : n < steps) :
    wp (insert unset steps key) (fun code s' =>
      (key ∉ t.keys → code = .success ∧ ∃ t', IsTree s' t' ∧ t'.keys.Perm (key :: t.keys)) ∧
      (key ∈ t.keys → code = .duplicateValue ∧ s' = s)) s := by
  have hl := located key h hv
  have hs : Shape s.mem 0 t := parts_get (i := 0) h.parts rfl
  have hr : t.root ≠ 0 := mt (root_eq_zero hs).mp (by simp [not_nil hv])
  have hur : (locate key [] t).2.root ≠ 0 := by
    obtain ⟨j, -, hvu, -⟩ := hl.place
    exact mt (root_eq_zero (parts_get (i := 0) (parts_located h hl) rfl)).mp (by simp [not_nil hvu])
  simp only [insert, wp_bind, wp_getReg, h.root, hr, ↓reduceIte]
  refine wp_mono (wp_search h hv hn) ?_
  rintro _ s' ⟨rfl, rfl⟩
  simp only [hur, decide_true, Bool.and_true, ne_eq, not_false_eq_true, ↓reduceIte]
  by_cases hk : key ∈ t.keys
  · have hf := (found_iff hl).mpr hk
    simp only [hf, ↓reduceIte, wp_pure]
    exact ⟨fun hn => absurd hk hn, fun _ => ⟨trivial, trivial⟩⟩
  · have hf : found key (locate key [] t).2 = false := by
      simpa using mt (found_iff hl).mp hk
    simp only [hf, Bool.false_eq_true, ↓reduceIte]
    refine wp_mono (wp_insert_leaf h hv hl hf hn) ?_
    exact fun code s' hres => ⟨fun _ => hres, fun hk' => absurd hk' hk⟩

theorem wp_insert_empty {unset : K} {steps : Nat} (h : IsTree s .nil) :
    wp (insert unset steps key) (fun code s' => code = .success ∧
      ∃ t', IsTree s' t' ∧ t'.keys.Perm [key]) s := by
  have hp := parts_alloc h.parts (⟨⟨unset, unset, false, false⟩, 0, 0, 0, 0⟩ : CNode K)
  have hr := h.root
  simp only [Tree.root_nil] at hr
  simp only [insert, wp_bind, wp_getReg, hr, ↓reduceIte, wp_new, wp_setReg, add, wp_load,
    Memory.cell_alloc_self, Option.some.injEq, exists_eq_left', CNode.getSize, Keys.getSize,
    Bool.and_false, Bool.false_eq_true, wp_pure]
  refine wp_setKey_part (i := 0) hp rfl (fun μ hμ => ⟨trivial, ?_⟩)
  refine ⟨.node s.mem.next (.two key unset) .nil .nil .nil, ⟨?_, rfl, ⟨1, .two .nil .nil⟩, ?_⟩, ?_⟩
  · exact parts_two.mpr (parts_pick [1, 0, 2] (parts_nil.mpr hμ) (l := [_, _, _]) rfl (by decide))
  · simp [Tree.keys]
  · simp [Tree.keys]

theorem wp_find {n steps : Nat} (h : IsTree s t) (hv : Valid (n + 1) t) (hn : n < steps) :
    wp (find steps key) (fun r s' => s' = s ∧ r = if key ∈ t.keys then some key else none) s := by
  have hl := located key h hv
  have hp := parts_located h hl
  simp only [find, wp_bind]
  refine wp_mono (wp_search h hv hn) ?_
  rintro _ s' ⟨rfl, rfl⟩
  by_cases hk : key ∈ t.keys
  · have hf := (found_iff hl).mpr hk
    obtain ⟨j, -, hvu, -⟩ := hl.place
    generalize locate key [] t = place at *
    obtain ⟨fs, u⟩ := place
    simp only [hf, ↓reduceIte, wp_bind, wp_load, if_pos hk]
    cases hvu with
    | @two _ x k v _ _ hl' hr' =>
      have hc := cell_of_parts (i := 0) (parts_node.mp hp) rfl
      obtain rfl := hasKey_two.mp hf
      simp [Tree.root_node, hc, tCompare_eq]
    | @three _ x k₁ k₂ _ _ _ hl' hm' hr' =>
      have hc := cell_of_parts (i := 0) (parts_node.mp hp) rfl
      by_cases he : key = k₁
      · subst he
        simp [Tree.root_node, hc, tCompare_eq]
      · obtain rfl := (hasKey_three.mp hf).resolve_left he
        simp [Tree.root_node, hc, tCompare_eq, he, CNode.getSize]
  · have hf : found key (locate key [] t).2 = false := by
      simpa using mt (found_iff hl).mp hk
    simp only [hf, Bool.false_eq_true, ↓reduceIte, wp_pure, if_neg hk]
    exact ⟨trivial, trivial⟩

/-- A tree of one leaf. -/
theorem isTree_leaf (k₁ k₂ : K) (h : k₁ < k₂) :
    IsTree ⟨Memory.empty.alloc ⟨.three k₁ k₂, 0, 0, 0, 0⟩, 1⟩
      (.node 1 (.three k₁ k₂) .nil .nil .nil) := by
  have he : Parts (Memory.empty : Memory (CNode K)) [treePart 1 .nil, treePart 1 .nil, treePart 1 .nil] :=
    parts_nil.mpr (parts_nil.mpr (parts_nil.mpr ⟨List.nodup_nil, by simp⟩))
  refine ⟨parts_node.mpr (parts_alloc he _), rfl, ⟨1, .three .nil .nil .nil⟩, ?_⟩
  simpa [Tree.keys] using h

/-- Insertion into a 2-3 tree returns, and leaves a 2-3 tree with the new key, or the
store as it was if the key is there already. Looking for a key finds it exactly if it
is stored. -/
theorem insert_find_correct (unset : K) (s : Store (CNode K) Nat) (t : Tree K) (key : K)
    (h : IsTree s t) :
    ∃ enough, ∀ steps, enough ≤ steps →
      wp (insert unset steps key) (fun code s' =>
        (key ∉ t.keys → code = .success ∧ ∃ t', IsTree s' t' ∧ t'.keys.Perm (key :: t.keys)) ∧
        (key ∈ t.keys → code = .duplicateValue ∧ s' = s)) s ∧
      wp (find steps key) (fun r s' => s' = s ∧ r = if key ∈ t.keys then some key else none) s := by
  obtain ⟨n, hv⟩ := h.valid
  refine ⟨n, fun steps hn => ?_⟩
  cases n with
  | zero =>
    cases nil_of_valid_zero hv
    constructor
    · refine wp_mono (wp_insert_empty h) ?_
      exact fun code s' hres => ⟨fun _ => hres, fun hk => absurd hk List.not_mem_nil⟩
    · have hr := h.root
      simp only [Tree.root_nil] at hr
      simp [find, search, hr, Tree.keys]
  | succ n => exact ⟨wp_insert_nonempty h hv hn, wp_find h hv hn⟩

theorem insert_find_correct_fullLeaf :
    ∃ enough, ∀ steps, enough ≤ steps →
      wp (insert 0 steps 6) (fun code s' =>
        (6 ∉ [5, 8] → code = .success ∧ ∃ t', IsTree s' t' ∧ t'.keys.Perm [6, 5, 8]) ∧
        (6 ∈ [5, 8] → code = .duplicateValue ∧
          s' = ⟨Memory.empty.alloc ⟨.three 5 8, 0, 0, 0, 0⟩, 1⟩))
        ⟨Memory.empty.alloc ⟨.three 5 8, 0, 0, 0, 0⟩, 1⟩ ∧
      wp (find steps 6) (fun r s' => s' = ⟨Memory.empty.alloc ⟨.three 5 8, 0, 0, 0, 0⟩, 1⟩ ∧
        r = if 6 ∈ [5, 8] then some 6 else none)
        ⟨Memory.empty.alloc ⟨.three 5 8, 0, 0, 0, 0⟩, 1⟩ :=
  insert_find_correct (0 : Nat) _ _ 6 (isTree_leaf 5 8 (by decide))

end C11AndC.TwoThree
