import C11AndC.Accumulate.Model
import C11AndC.Library.Lists
import Mathlib.Algebra.FreeMonoid.Basic

namespace C11AndC.Accumulate

open C11AndC.Library

/-- Consecutive blocks from one position to another. -/
def Covers : Nat → List (Nat × Nat) → Nat → Prop
  | p, [], q => p = q
  | p, b :: bs, q => b.1 = p ∧ b.1 ≤ b.2 ∧ Covers b.2 bs q

section Partition

variable {p q length size n hardware : Nat} {bs : List (Nat × Nat)}

theorem covers_le (h : Covers p bs q) : p ≤ q ∧ ∀ b ∈ bs, b.2 ≤ q := by
  induction bs generalizing p with
  | nil =>
    cases h
    exact ⟨Nat.le_refl q, by simp⟩
  | cons b bs ih =>
    obtain ⟨rfl, hb, hbs⟩ := h
    obtain ⟨hle, hends⟩ := ih hbs
    refine ⟨Nat.le_trans hb hle, ?_⟩
    rintro c (_ | ⟨_, hc⟩)
    · exact hle
    · exact hends c hc

theorem covers_flatten {T : Type} {xs : List T} (h : Covers p bs xs.length) :
    (bs.map (slice xs)).flatten = xs.drop p := by
  induction bs generalizing p with
  | nil =>
    cases h
    simp
  | cons b bs ih =>
    obtain ⟨rfl, hb, hbs⟩ := h
    have hdrop : xs.drop b.2 = (xs.drop b.1).drop (b.2 - b.1) := by
      rw [List.drop_drop, Nat.add_sub_cancel' hb]
    rw [List.map_cons, List.flatten_cons, ih hbs, slice, hdrop, List.take_append_drop]

theorem launch_covers (h : p + n * size ≤ length) :
    ∃ bs, launch length size n p = some bs ∧ bs.length = n + 1 ∧ Covers p bs length := by
  induction n generalizing p with
  | zero => exact ⟨[(p, length)], rfl, rfl, rfl, by simpa using h, rfl⟩
  | succ n ih =>
    rw [Nat.succ_mul] at h
    obtain ⟨bs, hbs, hlen, hcov⟩ := ih (p := p + size) (by omega)
    refine ⟨(p, p + size) :: bs, ?_, by rw [List.length_cons, hlen], rfl, Nat.le_add_right .., hcov⟩
    have hadv : advance length p size = some (p + size) := if_pos (by omega)
    simp [launch, hadv, hbs]

theorem numThreads_pos (h : length ≠ 0) : 1 ≤ numThreads length hardware := by
  have hmax : 1 ≤ maxThreads length := by
    simp only [maxThreads, minPerThread]
    omega
  have hhard : 1 ≤ if hardware ≠ 0 then hardware else 2 := by
    split_ifs <;> omega
  exact Nat.le_min.mpr ⟨hhard, hmax⟩

theorem blocks_covers (h : length ≠ 0) (hardware : Nat) :
    ∃ bs, blocks length hardware = some bs ∧ bs.length = numThreads length hardware ∧ Covers 0 bs length := by
  obtain ⟨n, hn⟩ : ∃ n, numThreads length hardware = n + 1 :=
    ⟨numThreads length hardware - 1, (Nat.sub_add_cancel (numThreads_pos h)).symm⟩
  have hfit : 0 + n * (length / (n + 1)) ≤ length := by
    have hdiv := Nat.mul_div_le length (n + 1)
    rw [Nat.succ_mul] at hdiv
    rw [Nat.zero_add]
    exact Nat.le_trans (Nat.le_add_right ..) hdiv
  obtain ⟨bs, hbs, hlen, hcov⟩ := launch_covers hfit
  refine ⟨bs, ?_, by rw [hlen, hn], hcov⟩
  simpa only [blocks, hn, Nat.add_sub_cancel] using hbs

end Partition

section Fold

variable {T : Type} [AddMonoid T]

theorem accumulate_zero (xs : List T) (init : T) : accumulate xs init = init + accumulate xs 0 := by
  induction xs generalizing init with
  | nil => exact (add_zero init).symm
  | cons x xs ih =>
    simp only [accumulate, List.foldl_cons, zero_add] at ih ⊢
    rw [ih (init + x), ih x, add_assoc]

theorem accumulate_append (xs ys : List T) (init : T) :
    accumulate (xs ++ ys) init = accumulate ys (accumulate xs init) := List.foldl_append

/-- The fold splits at the ends of the blocks. -/
theorem accumulate_flatten (parts : List (List T)) (init : T) :
    accumulate (parts.map fun xs => accumulate xs 0) init = accumulate parts.flatten init := by
  induction parts generalizing init with
  | nil => rfl
  | cons xs parts ih =>
    rw [List.flatten_cons, accumulate_append, accumulate_zero xs, ← ih]
    rfl

end Fold

section Threads

variable {T : Type}

/-- The turns that a thread still takes. -/
def Block.left : Block T → Nat
  | .created xs => xs.length + 2
  | .adding _ xs => xs.length + 1
  | .finished => 0

def left (s : State T) : Nat := (s.threads.map Block.left).sum

theorem isFinished_iff {b : Block T} : b.isFinished = true ↔ b.left = 0 := by
  cases b with
  | created xs | adding acc xs => simp [Block.isFinished, Block.left]
  | finished => simp [Block.isFinished, Block.left]

theorem all_isFinished (s : State T) : s.threads.all Block.isFinished = true ↔ left s = 0 := by
  simp only [List.all_eq_true, isFinished_iff, left, List.sum_eq_zero_iff_forall_eq_nat, List.forall_mem_map]

variable [AddMonoid T]

/-- The thread adds up `xs`: what it has and what it will assign to the result `r`. -/
def Settles (xs : List T) (r : T) : Block T → Prop
  | .created ys => ys = xs ∧ r = 0
  | .adding acc ys => accumulate ys acc = accumulate xs 0
  | .finished => r = accumulate xs 0

/-- Each thread has its own element of the results. -/
structure Working (parts : List (List T)) (s : State T) : Prop where
  threads : s.threads.length = parts.length
  results : s.results.length = parts.length
  settles : ∀ (i : Nat) (xs b r), parts[i]? = some xs → s.threads[i]? = some b → s.results[i]? = some r →
    Settles xs r b

variable {parts : List (List T)} {s t : State T} {i : Nat} {b c : Block T} {r r' : T}

theorem working_set (h : Working parts s) (hc : ∀ xs, parts[i]? = some xs → Settles xs r' c)
    (hr : s.results[i]? = some r) : Working parts ⟨s.threads.set i c, s.results.set i r'⟩ := by
  refine ⟨by simp [h.threads], by simp [h.results], fun j xs b v hxs hb hv => ?_⟩
  obtain ⟨rfl, rfl⟩ | ⟨hne, hb⟩ := getElem?_set_cases hb
  · obtain ⟨-, rfl⟩ | ⟨hne, -⟩ := getElem?_set_cases hv
    · exact hc xs hxs
    · exact absurd rfl hne
  · obtain ⟨rfl, -⟩ | ⟨-, hv⟩ := getElem?_set_cases hv
    · exact absurd rfl hne
    · exact h.settles j xs b v hxs hb hv

/-- A thread that has not finished takes a turn, and one less is left. -/
theorem turn_working (h : Working parts s) (hb : s.threads[i]? = some b) (hleft : b.left ≠ 0) :
    ∃ t, turn s i = some t ∧ Working parts t ∧ left s = left t + 1 := by
  have hlt : i < s.results.length := h.results ▸ h.threads ▸ (List.getElem?_eq_some_iff.mp hb).1
  obtain ⟨r, hr⟩ : ∃ r, s.results[i]? = some r := ⟨s.results[i], List.getElem?_eq_getElem hlt⟩
  have hsettles := fun xs hxs => h.settles i xs b r hxs hb hr
  have hsame : s.results.set i r = s.results := by
    obtain ⟨hlt, rfl⟩ := List.getElem?_eq_some_iff.mp hr
    exact List.set_getElem_self hlt
  have hgoal : ∀ (c : Block T) (r' : T), accumulateBlock s i b = some ⟨s.threads.set i c, s.results.set i r'⟩ →
      b.left = c.left + 1 → (∀ xs, parts[i]? = some xs → Settles xs r' c) →
      ∃ t, turn s i = some t ∧ Working parts t ∧ left s = left t + 1 := by
    intro c r' hturn hc hset
    refine ⟨_, by rw [turn, hb, Option.bind_some, hturn], working_set h hset hr, ?_⟩
    have hsum := sum_map_set Block.left hb c
    simp only [left]
    omega
  cases b with
  | created ys =>
    refine hgoal (.adding r ys) r (by simp [accumulateBlock, hr, hsame]) rfl fun xs hxs => ?_
    obtain ⟨rfl, rfl⟩ := hsettles xs hxs
    exact rfl
  | adding acc ys =>
    cases ys with
    | nil => exact hgoal .finished acc rfl rfl hsettles
    | cons y ys => exact hgoal (.adding (acc + y) ys) r (by rw [hsame]; rfl) rfl hsettles
  | finished => exact absurd rfl hleft

theorem turn_some (h : Working parts s) (ht : turn s i = some t) :
    Working parts t ∧ left s = left t + 1 := by
  obtain ⟨b, hb, hturn⟩ := Option.bind_eq_some_iff.mp ht
  have hleft : b.left ≠ 0 := by
    cases b with
    | created xs | adding acc xs => simp [Block.left]
    | finished => cases hturn
  obtain ⟨u, hu, hwork, hsum⟩ := turn_working h hb hleft
  cases ht.symm.trans hu
  exact ⟨hwork, hsum⟩

theorem turns_working (h : Working parts s) {schedule : List Nat} (hr : run turn s schedule = some t) :
    Working parts t ∧ left s = left t + schedule.length := by
  induction schedule generalizing s with
  | nil =>
    cases hr
    exact ⟨h, rfl⟩
  | cons i schedule ih =>
    obtain ⟨u, hu, hr⟩ := run_cons.mp hr
    obtain ⟨hwork, hsum⟩ := turn_some h hu
    obtain ⟨hwork', hsum'⟩ := ih hwork hr
    refine ⟨hwork', ?_⟩
    rw [List.length_cons]
    omega

theorem results_of_finished (h : Working parts s) (hleft : left s = 0) :
    s.results = parts.map fun xs => accumulate xs 0 := by
  refine List.ext_getElem (by simp [h.results]) fun i hi hi' => ?_
  rw [List.length_map] at hi'
  have hlt : i < s.threads.length := h.threads ▸ hi'
  have hfin := List.all_eq_true.mp ((all_isFinished s).mpr hleft) _ (List.getElem_mem hlt)
  have hsettles := h.settles i _ _ _ (List.getElem?_eq_getElem hi') (List.getElem?_eq_getElem hlt)
    (List.getElem?_eq_getElem hi)
  rw [List.getElem_map]
  cases hb : s.threads[i] with
  | created xs | adding acc xs => simp [hb, Block.isFinished] at hfin
  | finished => rwa [hb] at hsettles

/-- What the threads have after any turns. -/
theorem work_working {xs : List T} {hardware : Nat} {schedule : List Nat} (hne : xs.length ≠ 0)
    (hr : work xs hardware schedule = some s) :
    ∃ parts, parts.flatten = xs ∧ Working parts s ∧
      left s + schedule.length = xs.length + 2 * numThreads xs.length hardware := by
  obtain ⟨bs, hbs, hlen, hcov⟩ := blocks_covers hne hardware
  simp only [work, hbs, Option.bind_eq_bind, Option.bind_some] at hr
  have hflat : (bs.map (slice xs)).flatten = xs := covers_flatten hcov
  have hstart : Working (bs.map (slice xs)) ⟨bs.map fun b => .created (slice xs b),
      List.replicate (numThreads xs.length hardware) 0⟩ := by
    refine ⟨by simp, by simp [hlen], fun i ys b r hys hb hres => ?_⟩
    simp only [List.getElem?_map, Option.map_eq_some_iff] at hys hb
    obtain ⟨p, hp, rfl⟩ := hys
    obtain ⟨q, hq, rfl⟩ := hb
    cases hp.symm.trans hq
    exact ⟨rfl, List.eq_of_mem_replicate (List.mem_of_getElem? hres)⟩
  obtain ⟨hwork, hsum⟩ := turns_working hstart hr
  refine ⟨_, hflat, hwork, hsum.symm.trans ?_⟩
  have hleft : ∀ ps : List (List T), ((ps.map Block.created).map Block.left).sum =
      ps.flatten.length + 2 * ps.length := by
    intro ps
    induction ps with
    | nil => rfl
    | cons p ps ih =>
      simp only [List.map_cons, List.sum_cons, List.flatten_cons, List.length_append, List.length_cons,
        Block.left, ih]
      omega
  have hparts := hleft (bs.map (slice xs))
  rw [hflat, List.length_map, hlen] at hparts
  simpa only [left, List.map_map, Function.comp_def] using hparts

end Threads

/-- The blocks of the threads, which are consecutive and together the whole range. -/
def Partition (length hardware : Nat) : Prop :=
  1 ≤ numThreads length hardware ∧ ∃ bs, blocks length hardware = some bs ∧
    bs.length = numThreads length hardware ∧ Covers 0 bs length ∧ ∀ b ∈ bs, b.2 ≤ length

/-- `parallel_accumulate` gives what `std::accumulate` gives, in whichever order the threads take
their turns, and the threads come to an end. -/
theorem parallel_accumulate_eq {T : Type} [AddMonoid T] (xs : List T) (init : T) (hardware : Nat) :
    (xs ≠ [] → Partition xs.length hardware) ∧
    (∀ schedule v, parallelAccumulate xs init hardware schedule = some v → v = accumulate xs init) ∧
    ∀ schedule s, work xs hardware schedule = some s →
      parallelAccumulate xs init hardware schedule = some (accumulate xs init) ∨
        (schedule.length < xs.length + 2 * numThreads xs.length hardware ∧ ∃ i t, turn s i = some t) := by
  by_cases hne : xs.length = 0
  · obtain rfl := List.length_eq_zero_iff.mp hne
    refine ⟨fun h => absurd rfl h, ?_, fun schedule s _ => .inl rfl⟩
    rintro schedule v ⟨⟩
    rfl
  have hresult : ∀ schedule s, work xs hardware schedule = some s → left s = 0 →
      accumulate s.results init = accumulate xs init := by
    intro schedule s hs hleft
    obtain ⟨parts, hparts, hwork, -⟩ := work_working hne hs
    rw [results_of_finished hwork hleft, accumulate_flatten, hparts]
  refine ⟨fun _ => ?_, fun schedule v hv => ?_, fun schedule s hs => ?_⟩
  · obtain ⟨bs, hbs, hlen, hcov⟩ := blocks_covers hne hardware
    exact ⟨numThreads_pos hne, bs, hbs, hlen, hcov, (covers_le hcov).2⟩
  · rw [parallelAccumulate, if_neg hne] at hv
    obtain ⟨s, hs, hv⟩ := Option.bind_eq_some_iff.mp hv
    rw [Option.ite_none_right_eq_some, all_isFinished] at hv
    obtain ⟨hleft, ⟨⟩⟩ := hv
    exact hresult schedule s hs hleft
  · by_cases hleft : left s = 0
    · refine .inl ?_
      have hfin := (all_isFinished s).mpr hleft
      simp only [parallelAccumulate, if_neg hne, hs, Option.bind_eq_bind, Option.bind_some, hfin, ↓reduceIte,
        hresult schedule s hs hleft]
    · obtain ⟨parts, -, hwork, hsum⟩ := work_working hne hs
      refine .inr ⟨by omega, ?_⟩
      obtain ⟨b, hb, hb'⟩ : ∃ b ∈ s.threads, b.left ≠ 0 := by
        by_contra hall
        exact hleft (sum_map_zero fun b hb => not_not.mp fun hb' => hall ⟨b, hb, hb'⟩)
      obtain ⟨i, hi⟩ := List.getElem?_of_mem hb
      obtain ⟨t, ht, -⟩ := turn_working hwork hi hb'
      exact ⟨i, t, ht⟩

/-- Words under concatenation: the second block is added up before the first one, and stands behind it. -/
example : (parallelAccumulate ((List.range 52).map FreeAddMonoid.of) 0 2
    (List.replicate 28 1 ++ List.replicate 28 0)).map FreeAddMonoid.toList = some (List.range 52) := by
  decide +kernel

end C11AndC.Accumulate
