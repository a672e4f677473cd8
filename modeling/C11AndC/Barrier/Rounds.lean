import C11AndC.Barrier.Agreement
import C11AndC.Barrier.Threads
import C11AndC.Library.Lists
import Mathlib.Algebra.BigOperators.Intervals
import Mathlib.Tactic.Ring

namespace C11AndC.Barrier

open C11AndC.Library

/-- The calls of the barrier that a thread has begun. -/
def begun (cfg : Config) : Place → Nat
  | .unborn => 0
  | .round outLoop => 2 * outLoop
  | .first outLoop _ => 2 * outLoop + 1
  | .inner outLoop _ _ => 2 * outLoop + 1
  | .second outLoop => 2 * outLoop + 1
  | .after outLoop _ => 2 * outLoop + 2
  | .update outLoop _ => 2 * outLoop + 2
  | .finished => 2 * (cfg.outLoops + 1)

/-- A thread outside of the barrier has seen every one of its calls return, after `m`
calls of all threads together; call `i` of a thread inside is in the cycle it should be. -/
def PlaceOk (cfg : Config) (m : Nat) (place : Place) : Prop :=
  match place with
  | .first _ i | .after _ i => i < m ∧ i / cfg.threads + 1 = begun cfg place
  | .inner _ inLoop count => begun cfg place ≤ m / cfg.threads ∧
      inLoop ≤ cfg.inLoops ∧ count ≤ cfg.array ∧ (inLoop = cfg.inLoops → count = 0)
  | _ => begun cfg place ≤ m / cfg.threads

/-- Element `j` of the array of thread `t` when it has gone through `rounds` rounds. -/
def level (cfg : Config) (t j rounds : Nat) : Int :=
  (j + 1) + cfg.inLoops * ∑ l ∈ Finset.range rounds, ((t : Int) + l)

def element (cfg : Config) (t j : Nat) : Place → Int
  | .unborn => 0
  | .round outLoop => level cfg t j outLoop
  | .first outLoop _ => level cfg t j outLoop
  | .inner outLoop inLoop count =>
      level cfg t j outLoop + (inLoop + if j < count then 1 else 0) * ((t : Int) + outLoop)
  | .second outLoop => level cfg t j (outLoop + 1)
  | .after outLoop _ => level cfg t j (outLoop + 1)
  | .update outLoop _ => level cfg t j (outLoop + 1)
  | .finished => level cfg t j (cfg.outLoops + 1)

/-- What a thread has still to add to the increment of thread `u`. -/
def owed (cfg : Config) (u : Nat) : Place → Nat
  | .after _ i => if (i + 1) % cfg.threads = 0 then 1 else 0
  | .update _ threadNum => if threadNum ≤ u then 1 else 0
  | _ => 0

def debt (cfg : Config) (threads : List Thread) (u : Nat) : Nat :=
  (threads.map (fun thread => owed cfg u thread.place)).sum

structure ThreadOk (cfg : Config) (m t : Nat) (thread : Thread) : Prop where
  low : m / cfg.threads ≤ begun cfg thread.place
  high : begun cfg thread.place ≤ 2 * (cfg.outLoops + 1)
  place : PlaceOk cfg m thread.place
  length : thread.arrays.length = cfg.array
  arrays : thread.place ≠ .unborn → ∀ j, j < cfg.array →
    thread.arrays[j]? = some (element cfg t j thread.place)

/-- The barrier keeps its cycles, no thread is more than one cycle ahead of another, and
an increment lacks exactly what is owed to it. -/
structure ProgramInv (cfg : Config) (s : Program) : Prop where
  barrier : Inv cfg.threads s.barrier
  size : s.threads.length = cfg.threads
  sum : (s.threads.map (fun thread => begun cfg thread.place)).sum = s.barrier.calls.length
  threads : ∀ t thread, s.threads[t]? = some thread → ThreadOk cfg s.barrier.calls.length t thread
  unborn : ∀ t thread, s.threads[t]? = some thread → (thread.place = .unborn ↔ s.threadCount ≤ t)
  increment : ∀ t thread, s.threads[t]? = some thread → thread.place ≠ .unborn →
    thread.increment + debt cfg s.threads t = (t : Int) + (s.barrier.calls.length / cfg.threads / 2 : Nat)

section Threads

variable {cfg : Config} {s : Program} {m t u : Nat} {thread : Thread}

theorem begun_le (h : ThreadOk cfg m t thread) : begun cfg thread.place ≤ m / cfg.threads + 1 := by
  have hp := h.place
  cases hplace : thread.place with
  | first outLoop i =>
    rw [hplace] at hp
    have hi : i / cfg.threads ≤ m / cfg.threads := Nat.div_le_div_right (Nat.le_of_lt hp.1)
    have := hp.2
    omega
  | after outLoop i =>
    rw [hplace] at hp
    have hi : i / cfg.threads ≤ m / cfg.threads := Nat.div_le_div_right (Nat.le_of_lt hp.1)
    have := hp.2
    omega
  | inner outLoop inLoop count =>
    rw [hplace] at hp
    exact Nat.le_succ_of_le hp.1
  | unborn => exact Nat.zero_le _
  | round outLoop =>
    rw [hplace] at hp
    exact Nat.le_succ_of_le hp
  | second outLoop =>
    rw [hplace] at hp
    exact Nat.le_succ_of_le hp
  | update outLoop threadNum =>
    rw [hplace] at hp
    exact Nat.le_succ_of_le hp
  | finished =>
    rw [hplace] at hp
    exact Nat.le_succ_of_le hp

/-- Increments are changed between a second barrier and the next first one only. -/
theorem cycle_of_owed (hT : 0 < cfg.threads) (h : ThreadOk cfg m t thread)
    (ho : owed cfg u thread.place ≠ 0) :
    m / cfg.threads % 2 = 0 ∧ 0 < m / cfg.threads := by
  have hp := h.place
  have hlow := h.low
  cases hplace : thread.place with
  | after outLoop i =>
    rw [hplace] at hp hlow ho
    obtain ⟨him, hcyc⟩ := hp
    simp only [begun] at hcyc hlow
    have hlast : (i + 1) % cfg.threads = 0 := by
      by_contra hne
      simp [owed, hne] at ho
    have hle : (i + 1) / cfg.threads ≤ m / cfg.threads := Nat.div_le_div_right him
    obtain ⟨-, -, h₂⟩ | ⟨-, h₁, -⟩ := succ_cycle (m := i) hT
    · omega
    · omega
  | update outLoop threadNum =>
    rw [hplace] at hp hlow
    simp only [PlaceOk, begun] at hp hlow
    omega
  | unborn | round | first | inner | second | finished =>
    rw [hplace] at ho
    exact absurd rfl ho

theorem debt_zero (hT : 0 < cfg.threads) (h : ProgramInv cfg s)
    (hc : s.barrier.calls.length / cfg.threads % 2 = 1 ∨ s.barrier.calls.length / cfg.threads = 0)
    (u : Nat) : debt cfg s.threads u = 0 := by
  apply sum_map_zero
  intro thread hm
  obtain ⟨t, ht⟩ := List.getElem?_of_mem hm
  by_contra ho
  have hcyc := cycle_of_owed hT (h.threads t thread ht) ho
  omega

theorem placeOk_mono {m' : Nat} {place : Place} (hm : m ≤ m') (h : PlaceOk cfg m place) :
    PlaceOk cfg m' place := by
  have hle : m / cfg.threads ≤ m' / cfg.threads := Nat.div_le_div_right hm
  cases place with
  | first outLoop i => exact ⟨Nat.lt_of_lt_of_le h.1 hm, h.2⟩
  | after outLoop i => exact ⟨Nat.lt_of_lt_of_le h.1 hm, h.2⟩
  | inner outLoop inLoop count => exact ⟨Nat.le_trans h.1 hle, h.2⟩
  | unborn | round | second | update | finished => exact Nat.le_trans h hle

theorem debt_set (cfg : Config) (u : Nat) {threads : List Thread} (ht : threads[t]? = some thread)
    (thread' : Thread) : debt cfg (threads.set t thread') u + owed cfg u thread.place =
      debt cfg threads u + owed cfg u thread'.place :=
  sum_map_set (fun x : Thread => owed cfg u x.place) ht thread'

/-- A thread moves on without a call and without a change of what it owes. -/
theorem inv_goto (thread' : Thread) (h : ProgramInv cfg s) (ht : s.threads[t]? = some thread)
    (hi : thread'.increment = thread.increment) (hb : thread.place ≠ .unborn)
    (hb' : thread'.place ≠ .unborn) (hbegun : begun cfg thread'.place = begun cfg thread.place)
    (howed : ∀ u, u < cfg.threads → owed cfg u thread'.place = owed cfg u thread.place)
    (hok : ThreadOk cfg s.barrier.calls.length t thread') :
    ProgramInv cfg { s with threads := s.threads.set t thread' } := by
  have hdebt : ∀ u, u < cfg.threads →
      debt cfg (s.threads.set t thread') u = debt cfg s.threads u := by
    intro u hu
    have hset := debt_set cfg u ht thread'
    have heq := howed u hu
    omega
  refine ⟨h.barrier, ?_, ?_, fun u x hx => ?_, fun u x hx => ?_, fun u x hx hxb => ?_⟩
  · rw [List.length_set]
    exact h.size
  · have hset := sum_map_set (fun x : Thread => begun cfg x.place) ht thread'
    have hsum := h.sum
    simp only at hset ⊢
    omega
  · obtain ⟨rfl, rfl⟩ | ⟨-, hx⟩ := getElem?_set_cases hx
    · exact hok
    · exact h.threads u x hx
  · obtain ⟨rfl, rfl⟩ | ⟨-, hx⟩ := getElem?_set_cases hx
    · exact ⟨fun hn => absurd hn hb', fun hle => absurd ((h.unborn _ _ ht).mpr hle) hb⟩
    · exact h.unborn u x hx
  · have hu : u < cfg.threads := by
      obtain ⟨hlt, -⟩ := List.getElem?_eq_some_iff.mp hx
      rw [List.length_set, h.size] at hlt
      exact hlt
    rw [hdebt u hu]
    obtain ⟨rfl, rfl⟩ | ⟨-, hx⟩ := getElem?_set_cases hx
    · rw [hi]
      exact h.increment _ _ ht hb
    · exact h.increment u x hx hxb

/-- The cycles that are complete are bounded by the rounds of the program. -/
theorem cycles_le (h : ProgramInv cfg s) (ht : s.threads[t]? = some thread) :
    s.barrier.calls.length / cfg.threads ≤ 2 * (cfg.outLoops + 1) :=
  Nat.le_trans (h.threads t thread ht).low (h.threads t thread ht).high

/-- The call of a thread that has come back from all its former ones is one more in the
present cycle, and if it is the last one then all the threads have made theirs. -/
theorem call_cycle {barrier : State} {thread' : Thread} (hT : 0 < cfg.threads)
    (h : ProgramInv cfg s) (ht : s.threads[t]? = some thread)
    (hs : step s.barrier (.arrive t) = some barrier)
    (hout : begun cfg thread.place = s.barrier.calls.length / cfg.threads)
    (hbegun : begun cfg thread'.place = begun cfg thread.place + 1) :
    barrier.calls.length = s.barrier.calls.length + 1 ∧
    ((s.threads.set t thread').map (fun x => begun cfg x.place)).sum = barrier.calls.length ∧
    ((barrier.calls.length / cfg.threads = s.barrier.calls.length / cfg.threads + 1 ∧
        (s.barrier.calls.length + 1) % cfg.threads = 0 ∧
        ∀ x ∈ s.threads.set t thread', begun cfg x.place = barrier.calls.length / cfg.threads) ∨
      (barrier.calls.length / cfg.threads = s.barrier.calls.length / cfg.threads ∧
        (s.barrier.calls.length + 1) % cfg.threads ≠ 0)) := by
  have hbar : barrier = arrive t s.barrier := by
    simp only [step, h.barrier.valid, ne_eq, not_true_eq_false, ↓reduceIte] at hs
    split_ifs at hs
    exact (Option.some.inj hs).symm
  have hlen : barrier.calls.length = s.barrier.calls.length + 1 := by rw [hbar, length_arrive]
  have hsum := sum_map_set (fun x : Thread => begun cfg x.place) ht thread'
  simp only [hbegun, h.sum] at hsum
  have hall : ∀ x ∈ s.threads.set t thread', begun cfg x.place ≤
      s.barrier.calls.length / cfg.threads + 1 := by
    intro x hx
    obtain ⟨u, hu⟩ := List.getElem?_of_mem hx
    obtain ⟨-, rfl⟩ | ⟨-, hu⟩ := getElem?_set_cases hu
    · rw [hbegun, hout]
    · exact begun_le (h.threads u x hu)
  refine ⟨hlen, by omega, ?_⟩
  rw [hlen]
  obtain ⟨h₀, h₁, h₂⟩ | ⟨h₀, h₁, h₂⟩ := succ_cycle (m := s.barrier.calls.length) hT
  · refine .inl ⟨h₂, h₁, ?_⟩
    rw [h₂]
    apply eq_of_sum_map hall
    rw [List.length_set, h.size, ← h₂, Nat.mul_div_cancel' (Nat.dvd_of_mod_eq_zero h₁)]
    omega
  · exact .inr ⟨h₂, by omega⟩

/-- A thread calls the barrier for the first or the second time in its round. Only the
second of these calls, if it completes a cycle, makes the thread owe increments. -/
theorem inv_call {p : Place} {place : Nat → Place} {barrier : State} (hT : 0 < cfg.threads)
    (hL : 2 * (cfg.outLoops + 1) < 2 ^ 31) (h : ProgramInv cfg s)
    (ht : s.threads[t]? = some thread) (hs : step s.barrier (.arrive t) = some barrier)
    (hp : thread.place = p) (hb : p ≠ .unborn)
    (hout : begun cfg p ≤ s.barrier.calls.length / cfg.threads)
    (hhigh : begun cfg p + 1 ≤ 2 * (cfg.outLoops + 1)) (hzero : ∀ u, owed cfg u p = 0)
    (hplace : ∀ i, place i ≠ .unborn ∧ begun cfg (place i) = begun cfg p + 1 ∧
      (∀ m, i < m → i / cfg.threads + 1 = begun cfg (place i) → PlaceOk cfg m (place i)) ∧
      (∀ u, owed cfg u (place i) = if (i + 1) % cfg.threads = 0 then begun cfg p % 2 else 0) ∧
      ∀ j, element cfg t j (place i) = element cfg t j p) :
    ProgramInv cfg { (s.goto t thread (place s.barrier.calls.length)) with barrier := barrier } := by
  subst hp
  obtain ⟨hpb, hpbegun, hpok, hpowed, hpelem⟩ := hplace s.barrier.calls.length
  have hok := h.threads t thread ht
  have hcyc : begun cfg thread.place = s.barrier.calls.length / cfg.threads :=
    Nat.le_antisymm hout hok.low
  generalize hthread : { thread with place := place s.barrier.calls.length } = thread'
  have hp' : thread'.place = place s.barrier.calls.length := by rw [← hthread]
  obtain ⟨hlen, hsum, hcase⟩ := call_cycle hT h ht hs hcyc (by rw [hp', hpbegun])
  have hlt : s.barrier.calls.length < barrier.calls.length := by omega
  have hlow : ∀ (u : Nat) (x : Thread), (s.threads.set t thread')[u]? = some x →
      s.barrier.calls.length / cfg.threads ≤ begun cfg x.place →
      barrier.calls.length / cfg.threads ≤ begun cfg x.place := by
    intro u x hx hle
    obtain ⟨-, -, hev⟩ | ⟨hc, -⟩ := hcase
    · rw [hev x (List.mem_of_getElem? hx)]
    · rw [hc]
      exact hle
  have hincr : ∀ u, debt cfg (s.threads.set t thread') u +
      s.barrier.calls.length / cfg.threads / 2 =
      debt cfg s.threads u + barrier.calls.length / cfg.threads / 2 := by
    intro u
    have hset := debt_set cfg u ht thread'
    rw [hzero, hp', hpowed, hcyc] at hset
    obtain ⟨hc, hm, -⟩ | ⟨hc, hm⟩ := hcase
    · rw [if_pos hm] at hset
      omega
    · rw [if_neg hm] at hset
      omega
  simp only [Program.goto, hthread]
  refine ⟨?_, ?_, hsum, fun u x hx => ?_, fun u x hx => ?_, fun u x hx hxb => ?_⟩
  · apply inv_step hT h.barrier hs
    obtain ⟨hc, -, -⟩ | ⟨hc, -⟩ := hcase
    · omega
    · omega
  · rw [List.length_set]
    exact h.size
  · obtain ⟨rfl, rfl⟩ | ⟨-, hu⟩ := getElem?_set_cases hx
    · refine ⟨hlow _ x hx ?_, ?_, ?_, ?_, fun _ j hj => ?_⟩
      · rw [hp', hpbegun]
        omega
      · rw [hp', hpbegun]
        exact hhigh
      · rw [hp']
        exact hpok _ hlt (by rw [hpbegun, hcyc])
      · rw [← hthread]
        exact hok.length
      · rw [hp', hpelem, ← hthread]
        exact hok.arrays hb j hj
    · have hxok := h.threads u x hu
      exact ⟨hlow u x hx hxok.low, hxok.high, placeOk_mono (Nat.le_of_lt hlt) hxok.place,
        hxok.length, hxok.arrays⟩
  · obtain ⟨rfl, rfl⟩ | ⟨-, hu⟩ := getElem?_set_cases hx
    · rw [hp']
      exact ⟨fun hn => absurd hn hpb, fun hle => absurd ((h.unborn _ _ ht).mpr hle) hb⟩
    · exact h.unborn u x hu
  · have hdebt := hincr u
    obtain ⟨rfl, rfl⟩ | ⟨-, hu⟩ := getElem?_set_cases hx
    · have hinc := h.increment _ _ ht hb
      rw [← hthread] at hdebt ⊢
      simp only at hdebt ⊢
      omega
    · have hinc := h.increment u x hu hxb
      simp only at hdebt ⊢
      omega

theorem getElem?_modify_bump {threads : List Thread} {i : Nat}
    (h : (threads.modify i bump)[u]? = some thread) :
    ∃ thread', threads[u]? = some thread' ∧ thread.arrays = thread'.arrays ∧
      thread.place = thread'.place ∧
      thread.increment = thread'.increment + if i = u then 1 else 0 := by
  rw [List.getElem?_modify] at h
  obtain ⟨x, hx, h⟩ := Option.map_eq_some_iff.mp h
  split_ifs at h with hi
  · cases h
    exact ⟨x, hx, rfl, rfl, by rw [if_pos hi]; rfl⟩
  · cases h
    exact ⟨_, hx, rfl, rfl, by rw [if_neg hi, Int.add_zero]⟩

/-- The thread that has the duty pays what it owes to the next thread. -/
theorem inv_update {outLoop threadNum : Nat} (h : ProgramInv cfg s)
    (ht : s.threads[t]? = some thread) (hp : thread.place = .update outLoop threadNum) :
    ProgramInv cfg { s with threads := (s.threads.set t { thread with
      place := .update outLoop (threadNum + 1) }).modify threadNum bump } := by
  have hok := h.threads t thread ht
  generalize hthread : { thread with place := .update outLoop (threadNum + 1) } = thread'
  have hp' : thread'.place = .update outLoop (threadNum + 1) := by rw [← hthread]
  have hb : thread.place ≠ .unborn := by
    rw [hp]
    exact Place.noConfusion
  have hbegun : begun cfg thread'.place = begun cfg thread.place := by
    rw [hp', hp]
    rfl
  have hdebt : ∀ u, debt cfg ((s.threads.set t thread').modify threadNum bump) u +
      (if threadNum = u then 1 else 0) = debt cfg s.threads u := by
    intro u
    have hset := debt_set cfg u ht thread'
    have hmod := map_modify (f := fun x : Thread => owed cfg u x.place) (g := bump) (fun _ => rfl)
      (s.threads.set t thread') threadNum
    simp only [hp, hp', owed] at hset
    simp only [debt, hmod] at hset ⊢
    split_ifs at hset ⊢ <;> omega
  have hfind : ∀ u x, ((s.threads.set t thread').modify threadNum bump)[u]? = some x →
      ∃ y, s.threads[u]? = some y ∧ ThreadOk cfg s.barrier.calls.length u x ∧
        (x.place = .unborn ↔ y.place = .unborn) ∧
        x.increment = y.increment + if threadNum = u then 1 else 0 := by
    intro u x hx
    obtain ⟨y, hy, harr, hplace, hinc⟩ := getElem?_modify_bump hx
    obtain ⟨rfl, rfl⟩ | ⟨-, hy⟩ := getElem?_set_cases hy
    · refine ⟨thread, ht, ⟨?_, ?_, ?_, ?_, fun _ j hj => ?_⟩, ?_, ?_⟩
      · rw [hplace, hbegun]
        exact hok.low
      · rw [hplace, hbegun]
        exact hok.high
      · rw [hplace, hp']
        have hplaceOk := hok.place
        rw [hp] at hplaceOk
        exact hplaceOk
      · rw [harr, ← hthread]
        exact hok.length
      · have harrays := hok.arrays hb j hj
        rw [harr, hplace, hp', ← hthread]
        rw [hp] at harrays
        exact harrays
      · rw [hplace, hp', hp]
        exact ⟨fun hn => Place.noConfusion hn, fun hn => Place.noConfusion hn⟩
      · rw [hinc, ← hthread]
    · have hyok := h.threads u y hy
      refine ⟨y, hy, ⟨?_, ?_, ?_, ?_, ?_⟩, by rw [hplace], hinc⟩
      · rw [hplace]
        exact hyok.low
      · rw [hplace]
        exact hyok.high
      · rw [hplace]
        exact hyok.place
      · rw [harr]
        exact hyok.length
      · rw [harr, hplace]
        exact hyok.arrays
  refine ⟨h.barrier, ?_, ?_, fun u x hx => ?_, fun u x hx => ?_, fun u x hx hxb => ?_⟩
  · rw [List.length_modify, List.length_set]
    exact h.size
  · have hset := sum_map_set (fun x : Thread => begun cfg x.place) ht thread'
    have hmod := map_modify (f := fun x : Thread => begun cfg x.place) (g := bump) (fun _ => rfl)
      (s.threads.set t thread') threadNum
    rw [hmod]
    exact Nat.add_right_cancel (hset.trans (by rw [h.sum, hbegun]))
  · obtain ⟨y, -, hxok, -⟩ := hfind u x hx
    exact hxok
  · obtain ⟨y, hy, -, hiff, -⟩ := hfind u x hx
    rw [hiff]
    exact h.unborn u y hy
  · obtain ⟨y, hy, -, hiff, hinc⟩ := hfind u x hx
    have hd := hdebt u
    have hyinc := h.increment u y hy (mt hiff.mpr hxb)
    dsimp only
    rw [hinc]
    split_ifs at hd hinc ⊢ <;> omega

/-- As long as there are threads to create no cycle is complete, so no increment has
been changed. -/
theorem inv_create {s' : Program} (hT : 0 < cfg.threads) (h : ProgramInv cfg s)
    (hs : create cfg s = some s') : ProgramInv cfg s' := by
  unfold create at hs
  split_ifs at hs with hlt
  cases hs
  have hlen : s.threadCount < s.threads.length := by rwa [h.size]
  have ht := List.getElem?_eq_getElem hlen
  generalize s.threads[s.threadCount] = thread at ht
  have hplace := (h.unborn _ _ ht).mpr (Nat.le_refl _)
  have hzero : s.barrier.calls.length / cfg.threads = 0 := by
    have hlow := (h.threads _ _ ht).low
    rw [hplace] at hlow
    exact Nat.le_zero.mp hlow
  generalize hthread : (⟨s.threadCount, (List.range cfg.array).map (fun j : Nat => (j : Int) + 1),
    .round 0⟩ : Thread) = thread'
  have hp' : thread'.place = .round 0 := by rw [← hthread]
  have hdebt : ∀ u, debt cfg (s.threads.set s.threadCount thread') u = debt cfg s.threads u := by
    intro u
    have hset := debt_set cfg u ht thread'
    rw [hplace, hp'] at hset
    exact hset
  refine ⟨h.barrier, ?_, ?_, fun u x hx => ?_, fun u x hx => ?_, fun u x hx hxb => ?_⟩
  · rw [List.length_set]
    exact h.size
  · have hset := sum_map_set (fun x : Thread => begun cfg x.place) ht thread'
    simp only [hplace, hp', begun] at hset
    exact hset.trans h.sum
  · obtain ⟨rfl, rfl⟩ | ⟨-, hu⟩ := getElem?_set_cases hx
    · refine ⟨?_, ?_, ?_, ?_, fun _ j hj => ?_⟩
      · rw [hzero]
        exact Nat.zero_le _
      · rw [hp']
        exact Nat.zero_le _
      · rw [hp']
        exact Nat.zero_le _
      · rw [← hthread, List.length_map, List.length_range]
      · rw [hp', ← hthread]
        simp [hj, element, level]
    · exact h.threads u x hu
  · obtain ⟨rfl, rfl⟩ | ⟨hne, hu⟩ := getElem?_set_cases hx
    · rw [hp']
      exact ⟨fun hn => Place.noConfusion hn, fun hle => absurd hle (by simp)⟩
    · rw [h.unborn u x hu]
      exact ⟨fun hle => Nat.lt_of_le_of_ne hle (Ne.symm hne), fun hle => Nat.le_of_succ_le hle⟩
  · rw [hdebt, debt_zero hT h (.inr hzero)]
    obtain ⟨rfl, rfl⟩ | ⟨-, hu⟩ := getElem?_set_cases hx
    · rw [← hthread, hzero]
    · have hinc := h.increment u x hu hxb
      rw [debt_zero hT h (.inr hzero)] at hinc
      exact hinc

/-- What happens inside of the barrier is nothing to the threads. -/
theorem inv_inside {barrier : State} {a : Action} (hT : 0 < cfg.threads)
    (hL : 2 * (cfg.outLoops + 1) < 2 ^ 31) (h : ProgramInv cfg s)
    (hs : step s.barrier a = some barrier) (hlen : barrier.calls.length = s.barrier.calls.length) :
    ProgramInv cfg { s with barrier := barrier } := by
  have hlt : 0 < s.threads.length := by rwa [h.size]
  have hle := cycles_le h (List.getElem?_eq_getElem hlt)
  have hbar : Inv cfg.threads barrier := inv_step hT h.barrier hs (by rw [hlen]; omega)
  refine ⟨hbar, h.size, ?_, ?_, h.unborn, ?_⟩
  · rw [hlen]
    exact h.sum
  · simp only [hlen]
    exact h.threads
  · simp only [hlen]
    exact h.increment

end Threads

section Moves

variable {cfg : Config} {s s' : Program} {t : Nat} {thread : Thread}

theorem level_succ (cfg : Config) (t j outLoop : Nat) :
    level cfg t j (outLoop + 1) =
      level cfg t j outLoop + cfg.inLoops * ((t : Int) + outLoop) := by
  rw [level, level, Finset.sum_range_succ]
  ring

/-- The thread adds its increment, which is the one of its round. -/
theorem inv_add {outLoop inLoop count : Nat} (hT : 0 < cfg.threads) (h : ProgramInv cfg s)
    (ht : s.threads[t]? = some thread) (hp : thread.place = .inner outLoop inLoop count)
    (hin : inLoop < cfg.inLoops) (hc : count < cfg.array) :
    ProgramInv cfg (s.goto t { thread with
      arrays := thread.arrays.modify count (· + thread.increment) }
      (.inner outLoop inLoop (count + 1))) := by
  have hok := h.threads t thread ht
  have hb : thread.place ≠ .unborn := by
    rw [hp]
    exact Place.noConfusion
  have hlow := hok.low
  have hplace := hok.place
  have hhigh := hok.high
  rw [hp] at hlow hplace hhigh
  simp only [PlaceOk, begun] at hlow hplace hhigh
  have hincr : thread.increment = (t : Int) + outLoop := by
    have hinc := h.increment t thread ht hb
    rw [debt_zero hT h (.inl (by omega))] at hinc
    omega
  apply inv_goto ⟨thread.increment, thread.arrays.modify count (· + thread.increment),
    .inner outLoop inLoop (count + 1)⟩ h ht rfl hb Place.noConfusion
  · rw [hp]
    rfl
  · intro u _
    rw [hp]
    rfl
  · refine ⟨hlow, hhigh, ⟨hplace.1, Nat.le_of_lt hin, hc, fun he => by omega⟩, ?_, fun _ j hj => ?_⟩
    · rw [List.length_modify]
      exact hok.length
    · have harr := hok.arrays hb j hj
      rw [hp] at harr
      simp only [element] at harr ⊢
      rw [List.getElem?_modify, harr, hincr]
      by_cases hj : count = j
      · subst hj
        simp
        ring
      · have hiff : j < count + 1 ↔ j < count := by omega
        simp [hj, hiff]

/-- A thread that only moves keeps what is known of it if this is the same in both
places. -/
theorem inv_move {p place : Place} (h : ProgramInv cfg s) (ht : s.threads[t]? = some thread)
    (hp : thread.place = p) (hb : p ≠ .unborn) (hb' : place ≠ .unborn)
    (hbegun : begun cfg place = begun cfg p)
    (howed : ∀ u, u < cfg.threads → owed cfg u place = owed cfg u p)
    (hplace : PlaceOk cfg s.barrier.calls.length place)
    (helem : ∀ j, j < cfg.array → element cfg t j place = element cfg t j p) :
    ProgramInv cfg (s.goto t thread place) := by
  subst hp
  have hok := h.threads t thread ht
  apply inv_goto { thread with place := place } h ht rfl hb hb' hbegun howed
  refine ⟨?_, ?_, hplace, hok.length, fun _ j hj => ?_⟩
  · rw [hbegun]
    exact hok.low
  · rw [hbegun]
    exact hok.high
  · rw [helem j hj]
    exact hok.arrays hb j hj

theorem status_returned {i : Nat} {status : Int} (hs : s.status i = some status) :
    ∃ c, s.barrier.calls[i]? = some c ∧ c.phase = .returned status := by
  obtain ⟨c, hc, hs⟩ := Option.bind_eq_some_iff.mp hs
  cases hp : c.phase with
  | asleep =>
    rw [hp] at hs
    cases hs
  | woken =>
    rw [hp] at hs
    cases hs
  | returned st =>
    rw [hp] at hs
    cases hs
    exact ⟨c, hc, hp⟩

/-- A call that has returned belongs to a complete cycle. -/
theorem returned_cycle {i : Nat} {status : Int} (h : ProgramInv cfg s)
    (hs : s.status i = some status) :
    i / cfg.threads < s.barrier.calls.length / cfg.threads ∧
      status = if (i + 1) % cfg.threads = 0 then -1 else 0 := by
  obtain ⟨c, hc, hp⟩ := status_returned hs
  have hphase := (h.barrier.calls i c hc).2
  rw [hp] at hphase
  exact hphase

/-- One case for each place that a thread can be in. -/
theorem inv_threadRoutine (hT : 0 < cfg.threads) (hL : 2 * (cfg.outLoops + 1) < 2 ^ 31)
    (h : ProgramInv cfg s) (hs : threadRoutine cfg s t = some s') : ProgramInv cfg s' := by
  obtain ⟨thread, ht, hs⟩ := Option.bind_eq_some_iff.mp hs
  have hok := h.threads t thread ht
  have hplace := hok.place
  have hhigh := hok.high
  cases hp : thread.place with
  | unborn =>
    rw [hp] at hs
    cases hs
  | finished =>
    rw [hp] at hs
    cases hs
  | round outLoop =>
    rw [hp] at hs hplace hhigh
    simp only [begun] at hhigh
    simp only at hs
    split_ifs at hs with hle
    · obtain ⟨barrier, hbar, hs⟩ := Option.bind_eq_some_iff.mp hs
      cases hs
      apply inv_call hT hL h ht hbar hp Place.noConfusion hplace
      · simp only [begun]
        omega
      · exact fun _ => rfl
      · refine fun i => ⟨Place.noConfusion, rfl, fun m h₁ h₂ => ⟨h₁, h₂⟩, fun u => ?_, fun j => rfl⟩
        simp [owed, begun]
    · cases hs
      have hlast : outLoop = cfg.outLoops + 1 := by omega
      subst hlast
      exact inv_move h ht hp Place.noConfusion Place.noConfusion rfl (fun _ _ => rfl) hplace
        (fun _ _ => rfl)
  | first outLoop i =>
    rw [hp] at hs hplace
    obtain ⟨status, hst, hs⟩ := Option.bind_eq_some_iff.mp hs
    cases hs
    have hret := (returned_cycle h hst).1
    have hcyc := hplace.2
    simp only [begun] at hcyc
    refine inv_move h ht hp Place.noConfusion Place.noConfusion rfl (fun _ _ => rfl) ?_ ?_
    · refine ⟨?_, Nat.zero_le _, Nat.zero_le _, fun _ => rfl⟩
      simp only [begun]
      omega
    · intro j _
      simp [element]
  | inner outLoop inLoop count =>
    rw [hp] at hs hplace
    obtain ⟨hout, hin, hcount, hzero⟩ := hplace
    simp only at hs
    split_ifs at hs with hlt hlt'
    · cases hs
      exact inv_add hT h ht hp hlt hlt'
    · cases hs
      refine inv_move h ht hp Place.noConfusion Place.noConfusion rfl (fun _ _ => rfl) ?_ ?_
      · exact ⟨hout, hlt, Nat.zero_le _, fun _ => rfl⟩
      · intro j hj
        have hjc : j < count := by omega
        simp [element, hjc]
    · cases hs
      have heq : inLoop = cfg.inLoops := by omega
      have hc0 := hzero heq
      subst heq hc0
      refine inv_move h ht hp Place.noConfusion Place.noConfusion rfl (fun _ _ => rfl) hout ?_
      intro j _
      simp [element, level_succ]
  | second outLoop =>
    rw [hp] at hs hplace hhigh
    simp only [begun] at hhigh
    obtain ⟨barrier, hbar, hs⟩ := Option.bind_eq_some_iff.mp hs
    cases hs
    apply inv_call hT hL h ht hbar hp Place.noConfusion hplace
    · simp only [begun]
      omega
    · exact fun _ => rfl
    · refine fun i => ⟨Place.noConfusion, rfl, fun m h₁ h₂ => ⟨h₁, h₂⟩, fun u => ?_, fun j => rfl⟩
      have hodd : (2 * outLoop + 1) % 2 = 1 := by omega
      simp [owed, begun, hodd]
  | after outLoop i =>
    rw [hp] at hs hplace
    obtain ⟨status, hst, hs⟩ := Option.bind_eq_some_iff.mp hs
    obtain ⟨hret, hstatus⟩ := returned_cycle h hst
    have hcyc := hplace.2
    simp only [begun] at hcyc
    have hout : PlaceOk cfg s.barrier.calls.length (.round (outLoop + 1)) := by
      simp only [PlaceOk, begun]
      omega
    split_ifs at hs with hpos hm
    · cases hs
      have hlast : (i + 1) % cfg.threads = 0 := by
        by_contra hne
        rw [if_neg hne] at hstatus
        omega
      refine inv_move h ht hp Place.noConfusion Place.noConfusion rfl ?_ hout (fun _ _ => rfl)
      intro u _
      simp [owed, hlast]
    · cases hs
      have hlast : (i + 1) % cfg.threads ≠ 0 := by
        intro he
        rw [if_pos he] at hstatus
        exact hm hstatus
      refine inv_move h ht hp Place.noConfusion Place.noConfusion rfl ?_ hout (fun _ _ => rfl)
      intro u _
      simp [owed, hlast]
  | update outLoop threadNum =>
    rw [hp] at hs hplace
    simp only at hs
    split_ifs at hs with hlt
    · cases hs
      exact inv_update h ht hp
    · cases hs
      refine inv_move h ht hp Place.noConfusion Place.noConfusion rfl ?_ hplace (fun _ _ => rfl)
      intro u hu
      have hn : ¬ threadNum ≤ u := by omega
      simp [owed, hn]

theorem inv_turn {a : Turn} (hT : 0 < cfg.threads) (hL : 2 * (cfg.outLoops + 1) < 2 ^ 31)
    (h : ProgramInv cfg s) (hs : turn cfg s a = some s') : ProgramInv cfg s' := by
  cases a with
  | main => exact inv_create hT h hs
  | thread t => exact inv_threadRoutine hT hL h hs
  | wake i =>
    obtain ⟨barrier, hbar, hs⟩ := Option.bind_eq_some_iff.mp hs
    cases hs
    apply inv_inside hT hL h hbar
    obtain ⟨c, hc, hbar⟩ := Option.bind_eq_some_iff.mp hbar
    split_ifs at hbar
    cases hbar
    exact List.length_set
  | recheck i =>
    obtain ⟨barrier, hbar, hs⟩ := Option.bind_eq_some_iff.mp hs
    cases hs
    apply inv_inside hT hL h hbar
    obtain ⟨c, hc, hbar⟩ := Option.bind_eq_some_iff.mp hbar
    split_ifs at hbar
    cases hbar
    exact List.length_set

end Moves

theorem inv_start (cfg : Config) : ProgramInv cfg (start cfg) := by
  have hx : ∀ (t : Nat) (x : Thread), (start cfg).threads[t]? = some x →
      x = ⟨0, List.replicate cfg.array 0, .unborn⟩ := by
    intro t x hx
    have hm := List.mem_of_getElem? hx
    exact List.eq_of_mem_replicate hm
  refine ⟨inv_init, List.length_replicate, ?_, fun t x ht => ?_, fun t x ht => ?_,
    fun t x ht hb => ?_⟩
  · exact sum_map_zero (fun x hx => by rw [List.eq_of_mem_replicate hx]; rfl)
  · rw [hx t x ht]
    refine ⟨?_, Nat.zero_le _, Nat.zero_le _, List.length_replicate, fun hb => absurd rfl hb⟩
    simp [start, init]
  · rw [hx t x ht]
    exact ⟨fun _ => Nat.zero_le t, fun _ => rfl⟩
  · rw [hx t x ht] at hb
    exact absurd rfl hb

end C11AndC.Barrier
