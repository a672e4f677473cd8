import C11AndC.WorkQueue.Servers

namespace C11AndC.WorkQueue

open C11AndC.Library

variable {s t : Sys} {a : Act} {threads : Int}

def isAdd : Act → Bool
  | .addBegin _ | .addLocked _ _ => true
  | _ => false

def gone (s : Sys) : Prop := s.destroyer = .leaving ∨ s.destroyer = .returned

/-- The state of a queue that is being destroyed and gets no more requests. -/
structure Closing (threads : Int) (s : Sys) : Prop where
  wf : ∃ items, Wf s items
  servers : ServersOk threads s
  crashed : s.crashed = false
  empty : gone s → s.store.reg.first = 0 ∧ s.store.reg.counter = 0

theorem all_exited (h : Counts threads s) (hc : s.store.reg.counter = 0) :
    ∀ pc ∈ s.servers, pc = .exited := by
  intro pc hm
  have hz : s.servers.countP live = 0 := by
    have := h.counter
    omega
  have hl := List.countP_eq_zero.mp hz pc hm
  cases pc <;> first | rfl | exact absurd rfl hl

/-- Without live servers the queue is empty. -/
theorem first_eq_zero (h : ServersOk threads s) (hc : s.store.reg.counter ≤ 0) :
    s.store.reg.first = 0 ∧ s.store.reg.counter = 0 := by
  have hcnt := h.counts.counter
  have hz : s.store.reg.counter = 0 := by omega
  refine ⟨?_, hz⟩
  by_contra hf
  obtain ⟨pc, hm, hpc, -⟩ := h.served hf
  exact hpc (all_exited h.counts hz pc hm)

theorem not_gone_of_server (h : Closing threads s) {i : Nat} {pc : Server}
    (hi : s.servers[i]? = some pc) (hpc : pc ≠ .exited) : ¬ gone s := by
  intro hg
  exact hpc (all_exited h.servers.counts (h.empty hg).2 pc (List.mem_of_getElem? hi))

theorem gone_wake (x : Waiter) (hg : gone (wake s x)) : gone s := by
  cases x with
  | server i => exact hg
  | destroyer =>
    cases hd : s.destroyer <;> simp_all [gone, wake, wakeDestroyer]

theorem gone_broadcast (hg : gone (broadcast s)) : gone s := gone_wake .destroyer hg

/-- After the destroyer has gone, no step is left for the servers to take. -/
theorem trans_empty (h : Closing threads s) (ha : isAdd a = false) (ht : Trans s a t) :
    gone t → t.store.reg.first = 0 ∧ t.store.reg.counter = 0 := by
  cases ht with
  | refuse | allocate | crash | addIdle | addCreate | addFull => cases ha
  | server i pc r st hi hh hpc he =>
    have hne : pc ≠ .exited := by
      rintro rfl
      cases hpc
    intro hg
    refine absurd ?_ (not_gone_of_server h hi hne)
    have hw : gone (withServer s i r.1 st) := by
      split at hg
      · exact gone_broadcast hg
      · exact hg
    simpa [gone] using hw
  | engineCall i we b hi =>
    have hn := not_gone_of_server h hi (by simp)
    exact fun hg => absurd hg hn
  | engineReturn i we b hi =>
    have hn := not_gone_of_server h hi (by simp)
    exact fun hg => absurd hg hn
  | spurious x hb =>
    intro hg
    rw [wake_store]
    exact h.empty (gone_wake x hg)
  | expire i pc hi hpc =>
    have hn := not_gone_of_server h hi (by rcases hpc with rfl | ⟨b, rfl⟩ <;> simp)
    exact fun hg => absurd hg hn
  | destroyBegin => exact fun hg => by simp [gone] at hg
  | destroyWait => exact fun hg => by simp [gone] at hg
  | destroyPass hh hd hc =>
    have hz := first_eq_zero h.servers hc
    exact fun _ => hz
  | destroyAgain => exact fun hg => by simp [gone] at hg
  | destroyLeave hh hd hc =>
    have hz := first_eq_zero h.servers hc
    exact fun _ => hz
  | destroyEnd hd =>
    have hz := h.empty (.inl hd)
    exact fun _ => hz

theorem trans_crashed (h : s.crashed = false) (ha : isAdd a = false) (ht : Trans s a t) :
    t.crashed = false := by
  cases ht with
  | refuse | allocate | crash | addIdle | addCreate | addFull => cases ha
  | server i pc r st =>
    split
    · exact (withServer_crashed i r.1 st).trans h
    · exact (withServer_crashed i r.1 st).trans h
  | spurious x hb => exact (wake_crashed x).trans h
  | destroyWait hh hd hn t ht =>
    subst ht
    split <;> exact h
  | engineCall | engineReturn | expire | destroyBegin | destroyPass | destroyAgain | destroyLeave
  | destroyEnd => exact h

theorem closing_step (hthreads : 1 ≤ threads) (h : Closing threads s) (ha : isAdd a = false)
    (ht : step s a = some t) : Closing threads t := by
  obtain ⟨items, hw⟩ := h.wf
  have htr := step_trans hw ht
  exact ⟨step_wf h.wf ht, trans_serversOk hthreads h.servers htr, trans_crashed h.crashed ha htr,
    trans_empty h ha htr⟩

theorem closing_run (hthreads : 1 ≤ threads) {acts : List Act} (ha : ∀ a ∈ acts, isAdd a = false)
    (h : Closing threads s) (hr : run step s acts = some t) : Closing threads t := by
  induction acts generalizing s with
  | nil =>
    cases hr
    exact h
  | cons a acts ih =>
    obtain ⟨u, hu, ht⟩ := run_cons.mp hr
    exact ih (fun b hb => ha b (List.mem_cons_of_mem a hb))
      (closing_step hthreads h (ha a (by simp)) hu) ht

theorem finished_perm (h : Closing threads s) (hg : gone s) : s.finished.Perm s.added := by
  obtain ⟨items, hw⟩ := h.wf
  obtain ⟨hf, hc⟩ := h.empty hg
  have hitems : items = [] := by
    have hhead := chain_head hw.chain
    simpa [hf] using hhead
  have hheld : held s = [] := by
    rw [held, List.filterMap_eq_nil_iff]
    intro pc hm
    rw [all_exited h.servers.counts hc pc hm]
    rfl
  have hp := hw.taken_perm
  rw [hheld, List.append_nil] at hp
  rw [hw.order, hitems, List.append_nil]
  exact hp.symm

theorem closing_begin (hthreads : 1 ≤ threads) {acts : List Act} {s₀ : Sys}
    (h₀ : run step (init threads) acts = some s₀) (hc : s₀.crashed = false)
    (hs : step s₀ .destroyBegin = some s) : Closing threads s := by
  obtain ⟨⟨items, hw⟩, h⟩ := run_serversOk hthreads h₀
  have htr := step_trans hw hs
  refine ⟨step_wf ⟨items, hw⟩ hs, trans_serversOk hthreads h htr, trans_crashed hc rfl htr, ?_⟩
  cases htr
  exact fun hg => by simp [gone] at hg

/-- Destroying a queue after the last `workq_add` has returned. Once the destroyer
is out of its wait loop, every element has been through the engine, the queue is
empty and no server is left; until then no wake-up is lost. -/
theorem shutdown_complete (threads : Int) (hthreads : 1 ≤ threads) (before after : List Act)
    (s₀ s : Sys) (h₀ : run step (init threads) before = some s₀) (hc : s₀.crashed = false)
    (ha : ∀ a ∈ after, isAdd a = false) (hr : run step s₀ (.destroyBegin :: after) = some s) :
    s.crashed = false ∧
      (s.destroyer = .leaving ∨ s.destroyer = .returned →
        s.finished.Perm s.added ∧ s.store.reg.first = 0 ∧ ∀ pc ∈ s.servers, pc = .exited) ∧
      (s.store.reg.quit = true → .blocked ∉ s.servers) ∧
      (s.destroyer = .waiting → s.store.reg.counter ≠ 0) := by
  obtain ⟨u, hu, hs⟩ := run_cons.mp hr
  have h := closing_run hthreads ha (closing_begin hthreads h₀ hc hu) hs
  refine ⟨h.crashed, fun hg => ?_, h.servers.counts.quit, fun hd => ?_⟩
  · obtain ⟨hf, hz⟩ := h.empty hg
    exact ⟨finished_perm h hg, hf, all_exited h.servers.counts hz⟩
  · have := h.servers.awaited.counter hd
    omega

/-- One element and a server that has it in the engine when the queue is destroyed. -/
def oneRequest : List Act := [.addBegin 10, .addLocked 1 none, .server 0, .engineCall 0]

def rundown : List Act := [.destroyLock, .engineReturn 0, .server 0, .destroyWake]

theorem shutdown_complete_oneRequest :
    ∃ s₀ s, run step (init 1) oneRequest = some s₀ ∧
      run step s₀ (.destroyBegin :: rundown) = some s ∧ s.destroyer = .leaving ∧
      s.finished.Perm s.added ∧ s.store.reg.first = 0 := by
  have hf : (run step (init 1) (oneRequest ++ .destroyBegin :: rundown)).map (·.destroyer) =
      some .leaving := by decide
  have hc : (run step (init 1) oneRequest).map (·.crashed) = some false := by decide
  obtain ⟨s, hs, hd⟩ := Option.map_eq_some_iff.mp hf
  obtain ⟨s₀, h₀, h₁⟩ := run_append.mp hs
  have hcr : s₀.crashed = false := by simpa [h₀] using hc
  have h := shutdown_complete 1 (by decide) oneRequest rundown s₀ s h₀ hcr (by decide) h₁
  obtain ⟨hp, hz, -⟩ := h.2.1 (.inl hd)
  exact ⟨s₀, s, h₀, h₁, hd, hp, hz⟩

end C11AndC.WorkQueue
