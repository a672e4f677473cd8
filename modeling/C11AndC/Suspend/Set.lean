import C11AndC.Suspend.Model

namespace C11AndC.Suspend

def recorded (s : Package) : List Nat := s.array.filter (· ≠ 0)

/-- The threads that are suspended after a call, if those in `r` were before. -/
def suspendedAfter (r : List Nat) : Call → List Nat
  | .suspend thread _ => if thread ∈ r then r else r ++ [thread]
  | .resume thread => r.erase thread

/-- The signals that a call is to send. -/
def signalsOf (r : List Nat) : Call → List (Signal × Nat)
  | .suspend thread _ => if thread ∈ r then [] else [(.usr1, thread)]
  | .resume thread => if thread ∈ r then [(.usr2, thread)] else []

/-- The call is to change nothing. -/
def Idle (r : List Nat) : Call → Prop
  | .suspend thread _ => thread ∈ r
  | .resume thread => thread ∉ r

/-- After each call of the sequence the entries of the array are the suspended threads,
each of them once, and the call has done what it is for. -/
def Meets (s : Package) (r : List Nat) : List Call → Prop
  | [] => (recorded s).Perm r ∧ (recorded s).Nodup
  | c :: cs => (recorded s).Perm r ∧ (recorded s).Nodup ∧ ∃ t, call s c = some (0, t) ∧
      t.sent = s.sent ++ signalsOf r c ∧ (Idle r c → recorded t = recorded s) ∧
      Meets t (suspendedAfter r c) cs

/-- The loop stops at the first entry that does not satisfy the condition, or at the end. -/
theorem advance_spec {p : Nat → Bool} {array : List Nat} {n i : Nat} (h : i + n ≤ array.length) :
    ∃ r, advance p array n i = some r ∧ i ≤ r ∧ r ≤ i + n ∧
      (∀ j x, i ≤ j → j < r → array[j]? = some x → p x = true) ∧
      (r < i + n → ∃ x, array[r]? = some x ∧ p x = false) := by
  induction n generalizing i with
  | zero => exact ⟨i, rfl, Nat.le_refl i, Nat.le_refl i, fun j x h₁ h₂ => by omega, fun h => by omega⟩
  | succ n ih =>
    have hx : array[i]? = some array[i] := List.getElem?_eq_getElem (by omega)
    by_cases hp : p array[i] = true
    · obtain ⟨r, hr, hir, hrn, hall, hstop⟩ := ih (i := i + 1) (by omega)
      refine ⟨r, ?_, by omega, by omega, fun j x h₁ h₂ hj => ?_, fun hlt => hstop (by omega)⟩
      · simp only [advance, hx, Option.bind_eq_bind, Option.bind_some, hp, ↓reduceIte, hr]
      · by_cases hji : j = i
        · subst hji
          rw [hx] at hj
          cases hj
          exact hp
        · exact hall j x (by omega) h₂ hj
    · refine ⟨i, ?_, Nat.le_refl i, by omega, fun j x h₁ h₂ => by omega, fun _ => ⟨_, hx, ?_⟩⟩
      · simp [advance, hx, hp]
      · simpa using hp

theorem suspendInitRoutine_inited {s : Package} (h : s.inited = true) :
    suspendInitRoutine s = s := by
  rw [suspendInitRoutine, if_pos h]

theorem inited_suspendInitRoutine (s : Package) : (suspendInitRoutine s).inited = true := by
  unfold suspendInitRoutine
  split_ifs with hs
  · exact hs
  · rfl

theorem sent_suspendInitRoutine (s : Package) : (suspendInitRoutine s).sent = s.sent := by
  unfold suspendInitRoutine
  split_ifs
  · rfl
  · rfl

/-- The package after suspensions of the threads in `q`, in this order. -/
structure Filled (q : List Nat) (s : Package) : Prop where
  array : s.array = q ++ List.replicate (10 - q.length) 0
  bottom : s.bottom = 10
  size : q.length ≤ 10
  nonzero : 0 ∉ q
  nodup : q.Nodup

section Filled

variable {q : List Nat} {s : Package} {thread : Nat} {realloc : Realloc}

theorem nodup_concat (hq : q.Nodup) (hm : thread ∉ q) : (q ++ [thread]).Nodup := by
  rw [List.nodup_append]
  refine ⟨hq, List.nodup_singleton _, fun x hx y hy => ?_⟩
  rw [List.mem_singleton.mp hy]
  exact ne_of_mem_of_not_mem hx hm

theorem filter_ne_zero (h : 0 ∉ q) (n : Nat) : (q ++ List.replicate n 0).filter (· ≠ 0) = q := by
  have hq : q.filter (· ≠ 0) = q := by
    rw [List.filter_eq_self]
    intro x hx
    simpa using ne_of_mem_of_not_mem hx h
  rw [List.filter_append, hq]
  simp

theorem recorded_filled (h : Filled q s) : recorded s = q := by
  rw [recorded, h.array]
  exact filter_ne_zero h.nonzero _

theorem entry_lt (h : Filled q s) {j : Nat} (hj : j < q.length) : s.array[j]? = q[j]? := by
  rw [h.array, List.getElem?_append_left hj]

theorem entry_free (h : Filled q s) {j : Nat} (hj : q.length ≤ j) (hj' : j < 10) :
    s.array[j]? = some 0 := by
  rw [h.array, List.getElem?_append_right hj, List.getElem?_replicate, if_pos (by omega)]

theorem length_filled (h : Filled q s) : s.array.length = 10 := by
  have := h.size
  rw [h.array, List.length_append, List.length_replicate]
  omega

/-- The search of `thd_suspend` finds the thread exactly if it is recorded. -/
theorem advance_find (h : Filled q s) (ht : thread ≠ 0) :
    ∃ i, advance (· ≠ thread) s.array s.bottom 0 = some i ∧ (i < s.bottom ↔ thread ∈ q) := by
  have hlen := length_filled h
  rw [h.bottom]
  obtain ⟨i, hi, -, hle, hall, hstop⟩ := advance_spec (p := (· ≠ thread)) (n := 10) (i := 0)
    (Nat.le_of_eq hlen.symm)
  rw [Nat.zero_add] at hle hstop
  refine ⟨i, hi, fun hlt => ?_, fun hm => ?_⟩
  · obtain ⟨x, hx, hp⟩ := hstop hlt
    obtain rfl : x = thread := by simpa using hp
    have hm := List.mem_of_getElem? hx
    rw [h.array, List.mem_append, List.mem_replicate] at hm
    exact hm.resolve_right (fun hz => ht hz.2)
  · by_contra hge
    obtain ⟨j, hj⟩ := List.getElem?_of_mem hm
    obtain ⟨hjq, -⟩ := List.getElem?_eq_some_iff.mp hj
    have hsize := h.size
    have hp := hall j thread (Nat.zero_le j) (by omega) (by rw [entry_lt h hjq, hj])
    simp at hp

/-- The next search stops at the first free entry. -/
theorem advance_free (h : Filled q s) :
    advance (· ≠ 0) s.array s.bottom 0 = some q.length := by
  have hlen := length_filled h
  have hsize := h.size
  rw [h.bottom]
  obtain ⟨i, hi, -, hle, hall, hstop⟩ := advance_spec (p := (· ≠ 0)) (n := 10) (i := 0)
    (Nat.le_of_eq hlen.symm)
  rw [Nat.zero_add] at hle hstop
  rw [hi]
  congr 1
  obtain hlt | heq | hgt := Nat.lt_trichotomy i q.length
  · obtain ⟨x, hx, hp⟩ := hstop (by omega)
    rw [entry_lt h hlt] at hx
    have hm := List.mem_of_getElem? hx
    obtain rfl : x = 0 := by simpa using hp
    exact absurd hm h.nonzero
  · exact heq
  · have hp := hall q.length 0 (Nat.zero_le _) hgt (entry_free h (Nat.le_refl _) (by omega))
    simp at hp

/-- The loop of `thd_continue` stops at an entry of another thread or of none. -/
theorem advance_other (h : Filled q s) (ht : thread ≠ 0) :
    ∃ i x, advance (· = thread) s.array s.bottom 0 = some i ∧ i < 10 ∧ s.array[i]? = some x ∧
      x ≠ thread := by
  have hlen := length_filled h
  rw [h.bottom]
  obtain ⟨i, hi, -, hle, hall, hstop⟩ := advance_spec (p := (· = thread)) (n := 10) (i := 0)
    (Nat.le_of_eq hlen.symm)
  rw [Nat.zero_add] at hle hstop
  have hlt : i < 10 := by
    by_contra hge
    have hq : ∀ j, j < q.length → q[j]? = some thread := by
      intro j hj
      have hx : q[j]? = some q[j] := List.getElem?_eq_getElem hj
      have hsize := h.size
      have hp := hall j q[j] (Nat.zero_le j) (by omega) (by rw [entry_lt h hj, hx])
      rw [hx, of_decide_eq_true hp]
    by_cases hfull : q.length = 10
    · have h01 := (List.getElem?_inj (by omega) h.nodup).mp
        ((hq 0 (by omega)).trans (hq 1 (by omega)).symm)
      omega
    · have hsize := h.size
      have hp := hall 9 0 (Nat.zero_le 9) (by omega) (entry_free h (by omega) (by omega))
      exact ht (of_decide_eq_true hp).symm
  obtain ⟨x, hx, hp⟩ := hstop hlt
  exact ⟨i, x, hi, hlt, hx, by simpa using hp⟩

/-- A thread that is recorded already is left alone. -/
theorem suspend_recorded (h : Filled q (suspendInitRoutine s)) (ht : thread ≠ 0)
    (hm : thread ∈ q) : thdSuspend realloc 0 s thread = some (0, suspendInitRoutine s) := by
  obtain ⟨i, hi, hlt⟩ := advance_find h ht
  simp only [thdSuspend, hi, Option.bind_eq_bind, Option.bind_some, hlt.mpr hm, ↓reduceIte]
  rfl

theorem suspend_new (realloc : Realloc) (h : Filled q (suspendInitRoutine s)) (ht : thread ≠ 0) (hm : thread ∉ q)
    (hlt : q.length < 10) : ∃ t, thdSuspend realloc 0 s thread = some (0, t) ∧
      t.sent = (suspendInitRoutine s).sent ++ [(.usr1, thread)] ∧ t.inited = true ∧
      Filled (q ++ [thread]) t := by
  obtain ⟨i, hi, hi'⟩ := advance_find h ht
  have hlen := length_filled h
  have hb := h.bottom
  have hne : q.length ≠ (suspendInitRoutine s).bottom := by omega
  have hset : (q ++ List.replicate (10 - q.length) 0).set q.length thread =
      q ++ [thread] ++ List.replicate (10 - (q ++ [thread]).length) 0 := by
    have hn : 10 - q.length = (10 - (q ++ [thread]).length) + 1 := by
      rw [List.length_append, List.length_singleton]
      omega
    rw [hn, List.replicate_succ, List.set_append_right _ _ (Nat.le_refl _), Nat.sub_self,
      List.set_cons_zero, List.append_assoc, List.singleton_append]
  simp only [thdSuspend, hi, Option.bind_eq_bind, Option.bind_some, mt hi'.mp hm, ↓reduceIte,
    advance_free h, hne, record, write, hlen, hlt]
  refine ⟨_, rfl, rfl, inited_suspendInitRoutine s, ?_, hb, ?_, ?_, nodup_concat h.nodup hm⟩
  · show ((suspendInitRoutine s).array).set q.length thread = _
    rw [h.array, hset]
  · rw [List.length_append, List.length_singleton]
    exact hlt
  · simp only [List.mem_append, List.mem_singleton, not_or]
    exact ⟨h.nonzero, ht.symm⟩

/-- Growing the array clears an entry behind its end. -/
theorem suspend_full (h : Filled q (suspendInitRoutine s)) (ht : thread ≠ 0) (hm : thread ∉ q)
    (hfull : q.length = 10) {t : Package} (hc : thdSuspend realloc 0 s thread = some (0, t)) :
    t.sent = (suspendInitRoutine s).sent := by
  obtain ⟨i, hi, hi'⟩ := advance_find h ht
  have hlen := length_filled h
  have hb := h.bottom
  have heq : q.length = (suspendInitRoutine s).bottom := by omega
  simp only [thdSuspend, hi, Option.bind_eq_bind, Option.bind_some, mt hi'.mp hm, ↓reduceIte,
    advance_free h, heq] at hc
  cases realloc with
  | fails status =>
    simp only [Option.pure_def, Option.some.injEq, Prod.mk.injEq] at hc
    rw [← hc.2]
  | block fresh =>
    have hw : ¬ (suspendInitRoutine s).bottom + 1 < ((suspendInitRoutine s).array ++ [fresh]).length := by
      rw [List.length_append, List.length_singleton]
      omega
    have hg : grow (suspendInitRoutine s) fresh = none := by
      simp only [grow, write, hw, ↓reduceIte]
      rfl
    simp only [hg, Option.bind_none] at hc
    cases hc

/-- Whatever `thd_continue` clears, it is not an entry of the thread. -/
theorem continue_any (h : Filled q (suspendInitRoutine s)) (ht : thread ≠ 0) :
    ∃ t, thdContinue 0 s thread = some (0, t) ∧
      t.sent = (suspendInitRoutine s).sent ++ [(.usr2, thread)] ∧
      (thread ∈ q → thread ∈ recorded t) := by
  obtain ⟨i, x, hi, hlt, hx, hne⟩ := advance_other h ht
  have hlen := length_filled h
  have hb := h.bottom
  have hib : i ≠ (suspendInitRoutine s).bottom := by omega
  simp only [thdContinue, hi, Option.bind_eq_bind, Option.bind_some, hib, ↓reduceIte, write, hlen,
    hlt]
  refine ⟨_, rfl, rfl, fun hm => ?_⟩
  simp only [recorded, List.mem_filter]
  refine ⟨?_, by simpa using ht⟩
  have hm' : thread ∈ (suspendInitRoutine s).array := by
    rw [h.array]
    exact List.mem_append_left _ hm
  obtain ⟨j, hj⟩ := List.getElem?_of_mem hm'
  have hji : i ≠ j := by
    rintro rfl
    rw [hx] at hj
    cases hj
    exact hne rfl
  have hset := List.getElem?_set_ne (a := 0) hji (l := (suspendInitRoutine s).array)
  rw [hj] at hset
  exact List.mem_of_getElem? hset

end Filled

theorem meets_head {s : Package} {r : List Nat} {cs : List Call} (h : Meets s r cs) :
    (recorded s).Perm r := by
  cases cs with
  | nil => exact h.1
  | cons c cs => exact h.1

/-- No call of the sequence is one of `thd_continue`, and with the threads in `q` there
are at most ten to record. -/
def WithinTen (q : List Nat) (cs : List Call) : Prop :=
  (∀ thread, Call.resume thread ∉ cs) ∧ (q ++ cs.map Call.thread).toFinset.card ≤ 10

section Steps

variable {q : List Nat} {s : Package} {thread : Nat} {realloc : Realloc} {cs : List Call}

theorem withinTen_suspend : WithinTen q (.suspend thread realloc :: cs) ↔
    WithinTen (q ++ [thread]) cs := by
  simp [WithinTen, Call.thread]

theorem withinTen_recorded (hm : thread ∈ q) :
    WithinTen (q ++ [thread]) cs ↔ WithinTen q cs := by
  have h : (q ++ [thread] ++ cs.map Call.thread).toFinset = (q ++ cs.map Call.thread).toFinset := by
    ext x
    simp only [List.mem_toFinset, List.mem_append, List.mem_singleton]
    refine ⟨?_, ?_⟩
    · rintro ((hx | rfl) | hx)
      · exact .inl hx
      · exact .inl hm
      · exact .inr hx
    · rintro (hx | hx)
      · exact .inl (.inl hx)
      · exact .inr hx
  rw [WithinTen, WithinTen, h]

theorem withinTen_length (hq : q.Nodup) (h : WithinTen q cs) : q.length ≤ 10 := by
  calc q.length = q.toFinset.card := (List.toFinset_card_of_nodup hq).symm
    _ ≤ (q ++ cs.map Call.thread).toFinset.card :=
      Finset.card_le_card (by
        rw [List.toFinset_append]
        exact Finset.subset_union_left)
    _ ≤ 10 := h.2

theorem not_meets_continue (h : Filled q (suspendInitRoutine s)) (ht : thread ≠ 0) :
    ¬ Meets s q (.resume thread :: cs) := by
  rintro ⟨-, -, t, hc, hsent, -, hrest⟩
  obtain ⟨t', hc', hsent', hkeep⟩ := continue_any h ht
  obtain rfl : t = t' := by
    have heq := hc.symm.trans hc'
    cases heq
    rfl
  by_cases hm : thread ∈ q
  · have hin := (meets_head hrest).subset (hkeep hm)
    exact (List.Nodup.not_mem_erase h.nodup) hin
  · rw [hsent', sent_suspendInitRoutine] at hsent
    simp [signalsOf, hm] at hsent

theorem not_meets_full (h : Filled q (suspendInitRoutine s)) (ht : thread ≠ 0) (hm : thread ∉ q)
    (hfull : q.length = 10) : ¬ Meets s q (.suspend thread realloc :: cs) := by
  rintro ⟨-, -, t, hc, hsent, -, -⟩
  rw [suspend_full h ht hm hfull hc, sent_suspendInitRoutine] at hsent
  simp [signalsOf, hm] at hsent

theorem meets_recorded (h : Filled q (suspendInitRoutine s)) (hr : recorded s = q)
    (ht : thread ≠ 0) (hm : thread ∈ q) :
    Meets s q (.suspend thread realloc :: cs) ↔ Meets (suspendInitRoutine s) q cs := by
  have hc : call s (.suspend thread realloc) = some (0, suspendInitRoutine s) :=
    suspend_recorded h ht hm
  simp only [Meets, hc, hr, List.Perm.refl, h.nodup, true_and, suspendedAfter, signalsOf, hm,
    ↓reduceIte, List.append_nil]
  refine ⟨?_, fun hmeets => ⟨_, rfl, sent_suspendInitRoutine s, fun _ => recorded_filled h, hmeets⟩⟩
  rintro ⟨t, ht, -, -, hmeets⟩
  cases ht
  exact hmeets

theorem meets_new (realloc : Realloc) (h : Filled q (suspendInitRoutine s)) (hr : recorded s = q)
    (ht : thread ≠ 0) (hm : thread ∉ q) (hlt : q.length < 10) :
    ∃ t, t.inited = true ∧ Filled (q ++ [thread]) t ∧
      ∀ cs, Meets s q (.suspend thread realloc :: cs) ↔ Meets t (q ++ [thread]) cs := by
  obtain ⟨t, hc, hsent, hinit, hfilled⟩ := suspend_new realloc h ht hm hlt
  have hc' : call s (.suspend thread realloc) = some (0, t) := hc
  refine ⟨t, hinit, hfilled, fun cs => ?_⟩
  simp only [Meets, hc', hr, List.Perm.refl, h.nodup, true_and, suspendedAfter, signalsOf, hm,
    ↓reduceIte]
  refine ⟨?_, fun hmeets => ⟨_, rfl, ?_, fun hidle => absurd hidle hm, hmeets⟩⟩
  · rintro ⟨t', ht', -, -, hmeets⟩
    cases ht'
    exact hmeets
  · rw [hsent, sent_suspendInitRoutine]

end Steps

/-- What the calls do from a state in which the threads in `q` are suspended. -/
theorem meets_iff {q : List Nat} {s : Package} {cs : List Call}
    (h : Filled q (suspendInitRoutine s)) (hr : recorded s = q) (hcs : ∀ c ∈ cs, c.thread ≠ 0) :
    Meets s q cs ↔ WithinTen q cs := by
  induction cs generalizing q s with
  | nil =>
    have hlen := h.size
    rw [← List.toFinset_card_of_nodup h.nodup] at hlen
    simpa [Meets, WithinTen, hr, h.nodup] using hlen
  | cons c cs ih =>
    have hc := hcs c (List.mem_cons_self ..)
    have hcs' : ∀ c ∈ cs, c.thread ≠ 0 := fun c h => hcs c (List.mem_cons_of_mem _ h)
    cases c with
    | resume thread =>
      refine ⟨fun hmeets => absurd hmeets (not_meets_continue h hc), fun hw => ?_⟩
      exact absurd (List.mem_cons_self ..) (hw.1 thread)
    | suspend thread realloc =>
      have hthread : thread ≠ 0 := hc
      rw [withinTen_suspend]
      by_cases hm : thread ∈ q
      · have hinit := suspendInitRoutine_inited (inited_suspendInitRoutine s)
        rw [meets_recorded h hr hthread hm, withinTen_recorded hm]
        apply ih
        · rw [hinit]
          exact h
        · exact recorded_filled h
        · exact hcs'
      · by_cases hlt : q.length < 10
        · obtain ⟨t, hinit, hfilled, hiff⟩ := meets_new realloc h hr hthread hm hlt
          rw [hiff]
          apply ih
          · rw [suspendInitRoutine_inited hinit]
            exact hfilled
          · exact recorded_filled hfilled
          · exact hcs'
        · have hfull : q.length = 10 := Nat.le_antisymm h.size (Nat.le_of_not_lt hlt)
          refine ⟨fun hmeets => absurd hmeets (not_meets_full h hthread hm hfull), fun hw => ?_⟩
          have hlen := withinTen_length (nodup_concat h.nodup hm) hw
          rw [List.length_append, List.length_singleton] at hlen
          omega

/-- The calls do what they are for exactly if none of them is to resume a thread and no
eleventh thread is suspended. -/
theorem suspend_set_iff (cs : List Call) (hcs : ∀ c ∈ cs, c.thread ≠ 0) :
    Meets init [] cs ↔
      (∀ thread, Call.resume thread ∉ cs) ∧ (cs.map Call.thread).toFinset.card ≤ 10 := by
  have h : Filled [] (suspendInitRoutine init) :=
    ⟨rfl, rfl, Nat.zero_le _, List.not_mem_nil, List.nodup_nil⟩
  exact meets_iff h rfl hcs

theorem suspend_set_iff_twice :
    Meets init [] [.suspend 1 (.block 0), .suspend 2 (.block 0), .suspend 1 (.block 0)] := by
  rw [suspend_set_iff _ (by decide)]
  exact ⟨fun thread => by simp, by decide⟩

theorem resume_wrong : ¬ Meets init [] [.suspend 1 (.block 0), .resume 1] := by
  rintro ⟨-, -, t, hc, -, -, -, -, u, hc', -, -, hperm, -⟩
  cases hc
  cases hc'
  exact absurd hperm (by decide)

end C11AndC.Suspend
