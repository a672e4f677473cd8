import C11AndC.Barrier.Rounds
import Mathlib.Algebra.BigOperators.Ring.Finset

namespace C11AndC.Barrier

open C11AndC.Library

/-- The values that the program computes are within an `int`. -/
def Fits (cfg : Config) : Prop :=
  ∀ t j, t < cfg.threads → j < cfg.array → level cfg t j (cfg.outLoops + 1) < 2 ^ 31

/-- The next step of the thread reads its increment. -/
def Reading (cfg : Config) : Place → Prop
  | .inner _ inLoop count => inLoop < cfg.inLoops ∧ count < cfg.array
  | _ => False

/-- The thread is about to change an increment. -/
def Changing (cfg : Config) : Place → Prop
  | .update _ threadNum => threadNum < cfg.threads
  | _ => False

/-- No values of an `int` last longer than the cycles that it can count. -/
theorem cycles_of_fits {cfg : Config} (hT : 0 < cfg.threads) (hI : 0 < cfg.inLoops)
    (hA : 0 < cfg.array) (h : Fits cfg) : 2 * (cfg.outLoops + 1) < 2 ^ 31 := by
  have h00 := h 0 0 hT hA
  simp only [level, Nat.cast_zero, zero_add] at h00
  have hsum : (∑ l ∈ Finset.range (cfg.outLoops + 1), (l : Int)) =
      ((∑ l ∈ Finset.range (cfg.outLoops + 1), l : Nat) : Int) := (Nat.cast_sum _ _).symm
  have hgauss := Finset.sum_range_id_mul_two (cfg.outLoops + 1)
  rw [hsum] at h00
  generalize (∑ l ∈ Finset.range (cfg.outLoops + 1), l) = total at h00 hgauss
  have hle : (total : Int) ≤ cfg.inLoops * total := by
    have hI' : (1 : Int) ≤ cfg.inLoops := by omega
    have hmul := Int.mul_le_mul_of_nonneg_right hI' (Int.natCast_nonneg total)
    rwa [Int.one_mul] at hmul
  have htotal : total < 2 ^ 31 := by omega
  by_contra hge
  have hL : 2 ^ 30 ≤ cfg.outLoops + 1 := by omega
  have hmul : 2 ^ 30 * (2 ^ 30 - 1) ≤ (cfg.outLoops + 1) * (cfg.outLoops + 1 - 1) :=
    Nat.mul_le_mul hL (by omega)
  omega

section Idle

variable {cfg : Config} {s s' : Program}

/-- Without anything to add the arrays stay as `main` has set them up. -/
structure Still (cfg : Config) (s : Program) : Prop where
  size : s.threads.length = cfg.threads
  arrays : ∀ x ∈ s.threads, x.arrays.length = cfg.array ∧
    (x.place ≠ .unborn → ∀ j, j < cfg.array → x.arrays[j]? = some ((j : Int) + 1))

theorem still_set {t : Nat} {x : Thread} (h : Still cfg s) (hx : x.arrays.length = cfg.array ∧
    (x.place ≠ .unborn → ∀ j, j < cfg.array → x.arrays[j]? = some ((j : Int) + 1))) :
    Still cfg { s with threads := s.threads.set t x } := by
  refine ⟨by rw [List.length_set]; exact h.size, fun y hy => ?_⟩
  obtain hy | rfl := List.mem_or_eq_of_mem_set hy
  · exact h.arrays y hy
  · exact hx

theorem still_goto {t : Nat} {x : Thread} {place : Place} (h : Still cfg s)
    (ht : s.threads[t]? = some x) (hb : x.place ≠ .unborn) : Still cfg (s.goto t x place) := by
  have hx := h.arrays x (List.mem_of_getElem? ht)
  exact still_set h ⟨hx.1, fun _ => hx.2 hb⟩

theorem still_bump {i : Nat} (h : Still cfg s) :
    Still cfg { s with threads := s.threads.modify i bump } := by
  refine ⟨by rw [List.length_modify]; exact h.size, fun y hy => ?_⟩
  obtain ⟨u, hu⟩ := List.getElem?_of_mem hy
  obtain ⟨x, hx, harr, hplace, -⟩ := getElem?_modify_bump hu
  rw [harr, hplace]
  exact h.arrays x (List.mem_of_getElem? hx)

theorem still_barrier {barrier : State} (h : Still cfg s) :
    Still cfg { s with barrier := barrier } := ⟨h.size, h.arrays⟩

theorem still_threadRoutine {t : Nat} (h0 : cfg.inLoops = 0 ∨ cfg.array = 0) (h : Still cfg s)
    (hs : threadRoutine cfg s t = some s') : Still cfg s' := by
  obtain ⟨x, ht, hs⟩ := Option.bind_eq_some_iff.mp hs
  have hgoto : x.place ≠ .unborn → ∀ place, Still cfg (s.goto t x place) :=
    fun hb place => still_goto h ht hb
  cases hp : x.place with
  | unborn =>
    rw [hp] at hs
    cases hs
  | finished =>
    rw [hp] at hs
    cases hs
  | round outLoop =>
    rw [hp] at hs hgoto
    simp only at hs
    split_ifs at hs with hle
    · obtain ⟨barrier, -, hs⟩ := Option.bind_eq_some_iff.mp hs
      cases hs
      exact still_barrier (hgoto Place.noConfusion _)
    · cases hs
      exact hgoto Place.noConfusion _
  | first outLoop i =>
    rw [hp] at hs hgoto
    obtain ⟨status, -, hs⟩ := Option.bind_eq_some_iff.mp hs
    cases hs
    exact hgoto Place.noConfusion _
  | inner outLoop inLoop count =>
    rw [hp] at hs hgoto
    simp only at hs
    split_ifs at hs with hlt hlt'
    · omega
    · cases hs
      exact hgoto Place.noConfusion _
    · cases hs
      exact hgoto Place.noConfusion _
  | second outLoop =>
    rw [hp] at hs hgoto
    obtain ⟨barrier, -, hs⟩ := Option.bind_eq_some_iff.mp hs
    cases hs
    exact still_barrier (hgoto Place.noConfusion _)
  | after outLoop i =>
    rw [hp] at hs hgoto
    obtain ⟨status, -, hs⟩ := Option.bind_eq_some_iff.mp hs
    split_ifs at hs
    · cases hs
      exact hgoto Place.noConfusion _
    · cases hs
      exact hgoto Place.noConfusion _
  | update outLoop threadNum =>
    rw [hp] at hs hgoto
    simp only at hs
    split_ifs at hs
    · cases hs
      exact still_bump (hgoto Place.noConfusion _)
    · cases hs
      exact hgoto Place.noConfusion _

theorem still_turn {a : Turn} (h0 : cfg.inLoops = 0 ∨ cfg.array = 0) (h : Still cfg s)
    (hs : turn cfg s a = some s') : Still cfg s' := by
  cases a with
  | main =>
    simp only [turn, create] at hs
    split_ifs at hs
    cases hs
    have hstill := still_set (t := s.threadCount) (x := ⟨s.threadCount,
      (List.range cfg.array).map (fun j : Nat => (j : Int) + 1), .round 0⟩) h
      ⟨by simp, fun _ j hj => by simp [hj]⟩
    exact ⟨hstill.size, hstill.arrays⟩
  | thread t => exact still_threadRoutine h0 h hs
  | wake i =>
    obtain ⟨barrier, -, hs⟩ := Option.bind_eq_some_iff.mp hs
    cases hs
    exact still_barrier h
  | recheck i =>
    obtain ⟨barrier, -, hs⟩ := Option.bind_eq_some_iff.mp hs
    cases hs
    exact still_barrier h

theorem still_start (cfg : Config) : Still cfg (start cfg) := by
  refine ⟨List.length_replicate, fun x hx => ?_⟩
  rw [List.eq_of_mem_replicate hx]
  exact ⟨List.length_replicate, fun hb => absurd rfl hb⟩

end Idle

/-- Reading belongs to the odd cycles and changing to the even ones. -/
theorem not_reading_changing {cfg : Config} {s : Program} {t u : Nat} {x y : Thread}
    (h : ProgramInv cfg s) (hx : s.threads[t]? = some x) (hy : s.threads[u]? = some y)
    (hr : Reading cfg x.place) (hc : Changing cfg y.place) : False := by
  have hxok := h.threads t x hx
  have hyok := h.threads u y hy
  have hxp := hxok.place
  have hxl := hxok.low
  have hyp := hyok.place
  have hyl := hyok.low
  cases hpx : x.place with
  | inner outLoop inLoop count =>
    cases hpy : y.place with
    | update outLoop' threadNum =>
      rw [hpx] at hxp hxl
      rw [hpy] at hyp hyl
      simp only [PlaceOk, begun] at hxp hxl hyp hyl
      omega
    | unborn | round | first | inner | second | after | finished =>
      rw [hpy] at hc
      exact hc
  | unborn | round | first | second | after | update | finished =>
    rw [hpx] at hr
    exact hr

/-- What the program is to compute, and how: its arrays do not depend on the schedule. -/
structure Computes (cfg : Config) (s : Program) : Prop where
  apart : ∀ (t u : Nat) (x y : Thread), s.threads[t]? = some x → s.threads[u]? = some y →
    ¬ (Reading cfg x.place ∧ Changing cfg y.place)
  result : (∀ x ∈ s.threads, x.place = .finished) → s.threads.length = cfg.threads ∧
    ∀ (t : Nat) (x : Thread), s.threads[t]? = some x → x.arrays.length = cfg.array ∧
      ∀ j : Nat, j < cfg.array → x.arrays[j]? =
        some ((j + 1 : Int) + cfg.inLoops * ∑ l ∈ Finset.range (cfg.outLoops + 1), ((t : Int) + l))

theorem computes_still {cfg : Config} {s : Program} (h0 : cfg.inLoops = 0 ∨ cfg.array = 0)
    (h : Still cfg s) : Computes cfg s := by
  refine ⟨fun t u x y _ _ => ?_, fun hfin => ⟨h.size, fun t x hx => ?_⟩⟩
  · rintro ⟨hr, -⟩
    cases hp : x.place with
    | inner outLoop inLoop count =>
      rw [hp] at hr
      simp only [Reading] at hr
      omega
    | unborn | round | first | second | after | update | finished =>
      rw [hp] at hr
      exact hr
  · have hm := List.mem_of_getElem? hx
    obtain ⟨hlen, harr⟩ := h.arrays x hm
    refine ⟨hlen, fun j hj => ?_⟩
    have hI : cfg.inLoops = 0 := by omega
    rw [harr (by rw [hfin x hm]; exact Place.noConfusion) j hj, hI]
    simp

theorem computes_of_inv {cfg : Config} {s : Program} (h : ProgramInv cfg s) : Computes cfg s := by
  refine ⟨fun t u x y hx hy hrc => not_reading_changing h hx hy hrc.1 hrc.2,
    fun hfin => ⟨h.size, fun t x hx => ?_⟩⟩
  have hp := hfin x (List.mem_of_getElem? hx)
  have hok := h.threads t x hx
  refine ⟨hok.length, fun j hj => ?_⟩
  rw [hok.arrays (by rw [hp]; exact Place.noConfusion) j hj, hp]
  rfl

/-- Under every schedule the threads compute the same arrays, and no thread reads its
increment while another one is about to change it. -/
theorem barrier_program_computes (cfg : Config) (hT : 1 ≤ cfg.threads) (hfit : Fits cfg)
    (as : List Turn) (s : Program) (hr : run (turn cfg) (start cfg) as = some s) :
    Computes cfg s := by
  by_cases h0 : cfg.inLoops = 0 ∨ cfg.array = 0
  · apply computes_still h0
    exact run_invariant (Still cfg) (fun _ _ _ h hs => still_turn h0 h hs) (still_start cfg) hr
  · have hL := cycles_of_fits hT (by omega) (by omega) hfit
    apply computes_of_inv
    exact run_invariant (ProgramInv cfg) (fun _ _ _ h hs => inv_turn hT hL h hs) (inv_start cfg) hr

/-- A schedule for two threads and one round, in which the second thread has the update. -/
def twoThreads : List Turn :=
  [Turn.main, .main, .thread 0, .thread 1, .recheck 0] ++ List.replicate 5 (Turn.thread 0) ++
    List.replicate 5 (Turn.thread 1) ++ [Turn.recheck 2] ++ List.replicate 2 (Turn.thread 0) ++
    List.replicate 5 (Turn.thread 1)

theorem barrier_program_computes_twoThreads :
    ∃ s, run (turn ⟨2, 1, 1, 0⟩) (start ⟨2, 1, 1, 0⟩) twoThreads = some s ∧
      s.threads.map Thread.place = [.finished, .finished] ∧
      s.threads.map Thread.arrays = [[1], [2]] ∧ Computes ⟨2, 1, 1, 0⟩ s := by
  have hrun : (run (turn ⟨2, 1, 1, 0⟩) (start ⟨2, 1, 1, 0⟩) twoThreads).map (fun s =>
      (s.threads.map Thread.place, s.threads.map Thread.arrays)) =
        some ([.finished, .finished], [[1], [2]]) := by decide +kernel
  obtain ⟨s, hs, hthreads⟩ := Option.map_eq_some_iff.mp hrun
  obtain ⟨hplaces, harrays⟩ := Prod.mk.inj hthreads
  refine ⟨s, hs, hplaces, harrays, barrier_program_computes ⟨2, 1, 1, 0⟩ (by decide) ?_ twoThreads s hs⟩
  intro t j ht hj
  have hlevel : level ⟨2, 1, 1, 0⟩ t j 1 = (j + 1) + t := by simp [level]
  simp only at ht hj
  rw [hlevel]
  omega

end C11AndC.Barrier
