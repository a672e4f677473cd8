import C11AndC.WorkQueue.Queue

namespace C11AndC.WorkQueue

open C11AndC.Library

variable {s t : Sys} {items : List Nat} {a : Act}

/-- The elements that servers have taken and are about to hand to the engine. -/
def toCall (s : Sys) : List Nat :=
  s.servers.filterMap fun
    | .calling we _ => some we
    | _ => none

/-- The queue as it should be: no crash, a finite chain without cycles whose last
element is `last`, elements leaving in the order of their arrival, each handed to
the engine at most once and none lost on the way. -/
def QueueOk (s : Sys) : Prop :=
  s.crashed = false ∧ ∃ items,
    Chain s.store.mem WorkqEle.next s.store.reg.first items ∧ items.Nodup ∧
    (∀ l, items.getLast? = some l → s.store.reg.last = l) ∧
    s.added = s.taken ++ items ∧ s.added.Nodup ∧
    s.handed.Nodup ∧ s.taken.Perm (s.handed ++ toCall s)

/-- If the step takes an element off the queue, the queue holds no other. -/
def TakesOnly (s : Sys) : Act → Prop
  | .server i => ∀ pc, s.servers[i]? = some pc → (∀ b, pc ≠ .relocking b) →
      s.store.reg.first ≠ 0 → ∃ e, s.store.mem.cell s.store.reg.first = some e ∧ e.next = 0
  | _ => True

def LastOk (s : Sys) : Prop := s.store.reg.first ≠ 0 → s.store.reg.last ≠ 0

theorem held_perm (s : Sys) : (held s).Perm (inCall s ++ toCall s) := by
  unfold held inCall toCall
  induction s.servers with
  | nil => simp
  | cons pc l ih =>
    cases pc with
    | calling we b => exact (ih.cons we).trans List.perm_middle.symm
    | inEngine we b => exact ih.cons we
    | starting | top | blocked | woken | relocking | exited => exact ih

theorem taken_handed (h : Wf s items) : s.taken.Perm (s.handed ++ toCall s) := by
  refine h.taken_perm.trans (((held_perm s).append_left s.finished).trans ?_)
  rw [← List.append_assoc]
  exact h.handed_perm.symm.append_right _

theorem queueOk_of_wf (h : Wf s items) (hl : LastOk s) (hc : s.crashed = false) : QueueOk s := by
  have hadd : s.added.Nodup := (List.nodup_append.mp h.nodup).1
  have htaken : s.taken.Nodup := by
    rw [h.order] at hadd
    exact (List.nodup_append.mp hadd).1
  have hhanded := (taken_handed h).nodup_iff.mp htaken
  refine ⟨hc, items, h.chain, chain_nodup h.chain, ?_, h.order, hadd,
    (List.nodup_append.mp hhanded).1, taken_handed h⟩
  intro l hlast
  have hf : s.store.reg.first ≠ 0 := by
    intro h₀
    have hhead := chain_head h.chain
    rw [if_pos h₀, List.head?_eq_none_iff] at hhead
    simp [hhead] at hlast
  have hw := h.last.resolve_left (hl hf)
  exact Option.some.inj (hw.symm.trans hlast)

theorem signal_cases {w : Option Waiter} (h : signal s w = some t) :
    (w = none ∧ anyBlocked s = false ∧ t = s) ∨
      ∃ x, w = some x ∧ isBlocked s x = true ∧ t = wake s x := by
  cases w with
  | none =>
    obtain ⟨hb, h⟩ := Option.ite_none_left_eq_some.mp h
    cases h
    exact .inl ⟨rfl, by simpa using hb, rfl⟩
  | some x =>
    obtain ⟨hb, h⟩ := Option.ite_none_right_eq_some.mp h
    cases h
    exact .inr ⟨x, rfl, hb, rfl⟩

@[simp] theorem wake_store (x : Waiter) : (wake s x).store = s.store := by cases x <;> rfl

@[simp] theorem wake_crashed (x : Waiter) : (wake s x).crashed = s.crashed := by cases x <;> rfl

@[simp] theorem withServer_store (i : Nat) (pc : Server) (st : Store WorkqEle Workq) :
    (withServer s i pc st).store = st := by cases pc <;> rfl

@[simp] theorem withServer_crashed (i : Nat) (pc : Server) (st : Store WorkqEle Workq) :
    (withServer s i pc st).crashed = s.crashed := by cases pc <;> rfl

theorem signal_store {w : Option Waiter} (h : signal s w = some t) :
    t.store = s.store ∧ t.crashed = s.crashed := by
  rcases signal_cases h with ⟨-, -, rfl⟩ | ⟨x, -, -, rfl⟩
  · exact ⟨rfl, rfl⟩
  · exact ⟨wake_store x, wake_crashed x⟩

theorem lastOk_enqueued (h : Wf s items) {item : Nat} (hi : item ∈ s.pending) :
    (appended s.store item).reg.last ≠ 0 := by
  obtain ⟨d, hd⟩ := h.pending_cell item hi
  rw [appended_last]
  exact Memory.ne_zero_of_cell hd

/-- Only a dequeue from a queue of several elements loses `last`. -/
theorem trans_lastOk (h : Wf s items) (hl : LastOk s) (hcr : s.crashed = false)
    (hc : TakesOnly s a) (ht : Trans s a t) : LastOk t ∧ t.crashed = false := by
  cases ht with
  | refuse | allocate | engineCall | engineReturn | expire | destroyBegin | destroyPass
  | destroyAgain | destroyLeave | destroyEnd => exact ⟨hl, hcr⟩
  | crash item w hf h₀ => exact absurd h₀ (hl hf)
  | addIdle item w hh hi hn hidle t ht =>
    obtain ⟨hs, hc⟩ := signal_store ht
    refine ⟨fun _ => ?_, hc.trans hcr⟩
    rw [hs]
    exact lastOk_enqueued h hi
  | addCreate item hh hi => exact ⟨fun _ => lastOk_enqueued h hi, hcr⟩
  | addFull item hh hi => exact ⟨fun _ => lastOk_enqueued h hi, hcr⟩
  | server i pc r st hi hh hpc he =>
    have hst : LastOk (withServer s i r.1 st) := by
      unfold LastOk
      rw [withServer_store]
      cases he with
      | block | quit | expire => simpa [LastOk] using hl
      | again => exact hl
      | take e b hf he hn =>
        obtain ⟨e', he', h₀⟩ := hc pc hi hn hf
        rw [he] at he'
        cases he'
        exact fun hne => absurd h₀ hne
    split
    · exact ⟨hst, (withServer_crashed i r.1 st).trans hcr⟩
    · exact ⟨hst, (withServer_crashed i r.1 st).trans hcr⟩
  | spurious w hb =>
    refine ⟨?_, (wake_crashed w).trans hcr⟩
    unfold LastOk
    rwa [wake_store]
  | destroyWait hh hd hn t ht =>
    subst ht
    split <;> exact ⟨hl, hcr⟩

/-- A dequeue that leaves elements behind leaves them without a `last`. -/
theorem takesOnly_of_queueOk (ht : Trans s a t) (hok : QueueOk t) : TakesOnly s a := by
  cases ht with
  | server i pc r st hi hh hpc he =>
    intro pc' hi' hn hf
    rw [hi] at hi'
    cases hi'
    have hst : ∃ items, Chain st.mem WorkqEle.next st.reg.first items ∧
        ∀ l, items.getLast? = some l → st.reg.last = l := by
      obtain ⟨-, items, hchain, -, hlast, -⟩ := hok
      refine ⟨items, ?_⟩
      split at hchain
      · rename_i hb
        simp only [hb, ↓reduceIte] at hlast
        simp only [broadcast, withServer_store] at hchain hlast
        exact ⟨hchain, hlast⟩
      · rename_i hb
        simp only [hb] at hlast
        simp only [withServer_store] at hchain hlast
        exact ⟨hchain, by simpa using hlast⟩
    obtain ⟨items, hchain, hlast⟩ := hst
    cases he with
    | block h₀ | quit h₀ | expire h₀ => exact absurd h₀ hf
    | again b hb => exact absurd hb (hn b)
    | take e b hf he hn' =>
      refine ⟨e, he, ?_⟩
      cases hitems : items.getLast? with
      | none =>
        rw [List.getLast?_eq_none_iff.mp hitems] at hchain
        exact hchain
      | some l =>
        have hl : (0 : Nat) = l := hlast l hitems
        obtain ⟨v, hv⟩ := cell_of_mem_chain hchain (List.mem_of_getLast? hitems)
        exact absurd hl.symm (Memory.ne_zero_of_cell hv)
  | refuse | allocate | crash | addIdle | addCreate | addFull | engineCall | engineReturn
  | spurious | expire | destroyBegin | destroyWait | destroyPass | destroyAgain | destroyLeave
  | destroyEnd => trivial

/-- The queue is as it should be in every state of a run exactly when no server
of the run takes an element while another one is queued behind it. -/
theorem queue_fifo_iff (threads : Int) (acts : List Act) :
    Always step QueueOk (init threads) acts ↔ Each step TakesOnly (init threads) acts := by
  refine always_iff_each (fun s => (∃ items, Wf s items) ∧ LastOk s ∧ s.crashed = false) ?_ ?_ ?_
    ⟨⟨[], init_wf threads⟩, fun h => absurd rfl h, rfl⟩
  · rintro s a t ⟨⟨items, h⟩, hl, hcr⟩ hc ht
    exact ⟨step_wf ⟨items, h⟩ ht, trans_lastOk h hl hcr hc (step_trans h ht)⟩
  · rintro s ⟨⟨items, h⟩, hl, hcr⟩
    exact queueOk_of_wf h hl hcr
  · rintro s a t ⟨⟨items, h⟩, -⟩ ht hok
    exact takesOnly_of_queueOk (step_trans h ht) hok

/-- Two elements, one taken by the server, and a third one to be added. -/
def addAfterDequeue : List Act :=
  [.addBegin 10, .addLocked 1 none, .addBegin 20, .addLocked 2 none, .server 0,
    .addBegin 30, .addLocked 3 none]

/-- The third call of `workq_add` follows the null pointer in `last`. -/
theorem queue_fifo_crash :
    (run step (init 1) addAfterDequeue).map (·.crashed) = some true ∧
      ¬ Always step QueueOk (init 1) addAfterDequeue := by
  have hr : (run step (init 1) addAfterDequeue).map (·.crashed) = some true := by decide
  refine ⟨hr, fun h => ?_⟩
  obtain ⟨t, ht, hc⟩ := Option.map_eq_some_iff.mp hr
  have hok := (always_run h ht).1
  rw [hc] at hok
  cases hok

end C11AndC.WorkQueue
