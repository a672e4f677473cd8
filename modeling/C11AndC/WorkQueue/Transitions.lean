import C11AndC.Library.Chain
import C11AndC.Library.Lists
import C11AndC.WorkQueue.Sections

namespace C11AndC.WorkQueue

open C11AndC.Library

variable {s t : Sys} {items : List Nat}

def carried : Server → Option Nat
  | .calling we _ | .inEngine we _ => some we
  | _ => none

def entered : Server → Option Nat
  | .inEngine we _ => some we
  | _ => none

/-- The elements that servers have taken and not yet finished with. -/
def held (s : Sys) : List Nat := s.servers.filterMap carried

/-- Those of them whose engine call is under way. -/
def inCall (s : Sys) : List Nat := s.servers.filterMap entered

/-- The representation of the queue and its history. `last` may have been lost
by a dequeue; everything else stands as the source intends it. -/
structure Wf (s : Sys) (items : List Nat) : Prop where
  chain : Chain s.store.mem WorkqEle.next s.store.reg.first items
  last : s.store.reg.last = 0 ∨ items.getLast? = some s.store.reg.last
  pending_cell : ∀ a ∈ s.pending, ∃ d, s.store.mem.cell a = some ⟨0, d⟩
  held_cell : ∀ a ∈ held s, ∃ e, s.store.mem.cell a = some e
  order : s.added = s.taken ++ items
  nodup : (s.added ++ s.pending).Nodup
  bound : ∀ a ∈ s.added, a < s.store.mem.next
  taken_perm : s.taken.Perm (s.finished ++ held s)
  handed_perm : s.handed.Perm (s.finished ++ inCall s)

/-- The shared store after `append`. -/
def appended (st : Store WorkqEle Workq) (item : Nat) : Store WorkqEle Workq :=
  if st.reg.first = 0 then
    ⟨st.mem, { st.reg with first := item, last := item }⟩
  else
    ⟨st.mem.modify st.reg.last (fun e => { e with next := item }), { st.reg with last := item }⟩

def enqueued (s : Sys) (item : Nat) : Sys :=
  { s with
    store := appended s.store item
    pending := s.pending.erase item
    added := s.added ++ [item] }

def withServer (s : Sys) (i : Nat) (pc : Server) (st : Store WorkqEle Workq) : Sys :=
  recordTaken pc (setServer { s with store := st, holder := mutexAt i pc } i pc)

/-- All that can happen in a step: the actions with the states they lead to. -/
inductive Trans (s : Sys) : Act → Sys → Prop
  | refuse (d : Nat) : Trans s (.addBegin d) s
  | allocate (d : Nat) : Trans s (.addBegin d)
      { s with
        store := ⟨s.store.mem.alloc ⟨0, d⟩, s.store.reg⟩
        pending := s.store.mem.next :: s.pending }
  | crash (item : Nat) (w : Option Waiter) (hf : s.store.reg.first ≠ 0)
      (hl : s.store.reg.last = 0) : Trans s (.addLocked item w) { s with crashed := true }
  | addIdle (item : Nat) (w : Option Waiter) (hh : s.holder = none) (hi : item ∈ s.pending)
      (hl : s.store.reg.first ≠ 0 → s.store.reg.last ≠ 0) (h : 0 < s.store.reg.idle)
      (t : Sys) (ht : signal (enqueued s item) w = some t) :
      Trans s (.addLocked item w) t
  | addCreate (item : Nat) (hh : s.holder = none) (hi : item ∈ s.pending)
      (hl : s.store.reg.first ≠ 0 → s.store.reg.last ≠ 0) (h : s.store.reg.idle ≤ 0)
      (hc : s.store.reg.counter < s.store.reg.parallelism) :
      Trans s (.addLocked item none)
        { enqueued s item with
          store := ⟨(appended s.store item).mem, { (appended s.store item).reg with
            counter := s.store.reg.counter + 1 }⟩
          servers := s.servers ++ [.starting] }
  | addFull (item : Nat) (hh : s.holder = none) (hi : item ∈ s.pending)
      (hl : s.store.reg.first ≠ 0 → s.store.reg.last ≠ 0) (h : s.store.reg.idle ≤ 0)
      (hc : s.store.reg.parallelism ≤ s.store.reg.counter) :
      Trans s (.addLocked item none) (enqueued s item)
  | server (i : Nat) (pc : Server) (r : Server × Bool) (st : Store WorkqEle Workq)
      (hi : s.servers[i]? = some pc) (hh : s.holder = mutexAt i pc)
      (hpc : (workqServer pc).isSome) (he : Effect pc s.store r st) :
      Trans s (.server i) (if r.2 then broadcast (withServer s i r.1 st) else withServer s i r.1 st)
  | engineCall (i we : Nat) (b : Bool) (hi : s.servers[i]? = some (.calling we b)) :
      Trans s (.engineCall i) { setServer s i (.inEngine we b) with handed := s.handed ++ [we] }
  | engineReturn (i we : Nat) (b : Bool) (hi : s.servers[i]? = some (.inEngine we b)) :
      Trans s (.engineReturn i)
        { setServer s i (.relocking b) with
          store := ⟨s.store.mem.free we, s.store.reg⟩
          finished := s.finished ++ [we] }
  | spurious (w : Waiter) (h : isBlocked s w = true) : Trans s (.spurious w) (wake s w)
  | expire (i : Nat) (pc : Server) (hi : s.servers[i]? = some pc)
      (hpc : pc = .blocked ∨ ∃ b, pc = .woken b) :
      Trans s (.expire i) (setServer s i (.woken true))
  | destroyBegin (hd : s.destroyer = .absent) :
      Trans s .destroyBegin { s with destroyer := .entering }
  | destroyWait (hh : s.holder = none) (hd : s.destroyer = .entering)
      (hc : 0 < s.store.reg.counter) (t : Sys)
      (ht : t = { s with store := ⟨s.store.mem, { s.store.reg with valid := 0, quit := true }⟩ }) :
      Trans s .destroyLock
        { (if 0 < s.store.reg.idle then broadcast t else t) with destroyer := .waiting }
  | destroyPass (hh : s.holder = none) (hd : s.destroyer = .entering)
      (hc : s.store.reg.counter ≤ 0) :
      Trans s .destroyLock
        { s with
          store := ⟨s.store.mem, { s.store.reg with valid := 0 }⟩
          destroyer := .leaving }
  | destroyAgain (hh : s.holder = none) (hd : s.destroyer = .woken) (hc : 0 < s.store.reg.counter) :
      Trans s .destroyWake { s with destroyer := .waiting }
  | destroyLeave (hh : s.holder = none) (hd : s.destroyer = .woken) (hc : s.store.reg.counter ≤ 0) :
      Trans s .destroyWake { s with destroyer := .leaving }
  | destroyEnd (hd : s.destroyer = .leaving) :
      Trans s .destroyEnd { s with destroyer := .returned }

@[simp] theorem appended_idle (st : Store WorkqEle Workq) (item : Nat) :
    (appended st item).reg.idle = st.reg.idle := by
  unfold appended
  split <;> rfl

@[simp] theorem appended_counter (st : Store WorkqEle Workq) (item : Nat) :
    (appended st item).reg.counter = st.reg.counter := by
  unfold appended
  split <;> rfl

@[simp] theorem appended_parallelism (st : Store WorkqEle Workq) (item : Nat) :
    (appended st item).reg.parallelism = st.reg.parallelism := by
  unfold appended
  split <;> rfl

@[simp] theorem appended_quit (st : Store WorkqEle Workq) (item : Nat) :
    (appended st item).reg.quit = st.reg.quit := by
  unfold appended
  split <;> rfl

theorem first_cell (h : Wf s items) (hf : s.store.reg.first ≠ 0) :
    ∃ e, s.store.mem.cell s.store.reg.first = some e := by
  have hc := chain_head h.chain
  rw [if_neg hf] at hc
  exact cell_of_mem_chain h.chain (List.mem_of_head? hc)

theorem last_mem (hl : items.getLast? = some t.store.reg.last) : t.store.reg.last ∈ items :=
  List.mem_of_getLast? hl

theorem within_ok {β : Type} {p : Section β} {k : β → Sys → Option Sys} {r : β}
    {st : Store WorkqEle Workq} (hp : p s.store = .ok (r, st)) :
    within s p k = k r { s with store := st } := by
  simp only [within, hp]

theorem append_ok (item : Nat) (hf : s.store.reg.first ≠ 0 →
      ∃ e, s.store.mem.cell s.store.reg.last = some e) :
    append item s.store = .ok ((), appended s.store item) := by
  apply ok_of_wp_eq
  by_cases h : s.store.reg.first = 0
  · simp [append, appended, h]
  · obtain ⟨e, he⟩ := hf h
    simp [append, appended, h, he]

theorem append_crash {item : Nat} (hf : s.store.reg.first ≠ 0) (hl : s.store.reg.last = 0) :
    append item s.store = .error .fault := by
  simp [append, getReg, bind, StateT.bind, Except.bind, hf, hl, store,
    s.store.mem.cell_null]

theorem addLocked_trans (h : Wf s items) {item : Nat} {w : Option Waiter}
    (ht : addLocked s item w = some t) : Trans s (.addLocked item w) t := by
  unfold addLocked at ht
  split at ht
  · rename_i hg
    obtain ⟨hh, hi⟩ := hg
    by_cases hc : s.store.reg.first ≠ 0 ∧ s.store.reg.last = 0
    · have he : workqAdd 0 0 item s.store = .error .fault := by
        simp [workqAdd, bind, StateT.bind, Except.bind, append_crash hc.1 hc.2]
      simp only [within, he, Option.some.injEq] at ht
      rw [← ht]
      exact .crash item w hc.1 hc.2
    · have hl : s.store.reg.first ≠ 0 → s.store.reg.last ≠ 0 := fun hf hz => hc ⟨hf, hz⟩
      have hcell : s.store.reg.first ≠ 0 → ∃ e, s.store.mem.cell s.store.reg.last = some e :=
        fun hf => cell_of_mem_chain h.chain (last_mem (h.last.resolve_left (hl hf)))
      have ha := workqAdd_ok (append_ok item hcell)
      rw [appended_idle, appended_counter, appended_parallelism] at ha
      split_ifs at ha with h₁ h₂
      · rw [within_ok ha] at ht
        exact .addIdle item w hh hi hl h₁ t ht
      · rw [within_ok ha] at ht
        by_cases hw : w = none
        · simp only [hw, ↓reduceIte, Option.some.injEq] at ht
          rw [← ht, hw]
          exact .addCreate item hh hi hl (by omega) h₂
        · simp [hw] at ht
      · rw [within_ok ha] at ht
        by_cases hw : w = none
        · simp only [hw, ↓reduceIte, Option.some.injEq] at ht
          rw [← ht, hw]
          exact .addFull item hh hi hl (by omega) (by omega)
        · simp [hw] at ht
  · cases ht

theorem serverStep_trans (h : Wf s items) {i : Nat} (ht : serverStep s i = some t) :
    Trans s (.server i) t := by
  unfold serverStep at ht
  split at ht
  · cases ht
  · rename_i pc hi
    split at ht
    · rename_i hh
      split at ht
      · cases ht
      · rename_i p hp
        obtain ⟨r, st, he, hk⟩ := within_cases (workqServer_effect hp (first_cell h)) ht
        cases hk
        exact .server i pc r st hi hh (by simp [hp]) he
    · cases ht

theorem mem_held {i we : Nat} {pc : Server} (hi : s.servers[i]? = some pc)
    (hpc : carried pc = some we) : we ∈ held s :=
  List.mem_filterMap.mpr ⟨pc, List.mem_of_getElem? hi, hpc⟩

theorem engineCall_trans (h : Wf s items) {i : Nat} (ht : engineCall s i = some t) :
    Trans s (.engineCall i) t := by
  unfold engineCall at ht
  split at ht
  · rename_i we b hi
    obtain ⟨e, he⟩ := h.held_cell we (mem_held hi rfl)
    have hp : load we s.store = .ok (e, s.store) := by simp only [load, he]
    rw [within_ok hp] at ht
    cases ht
    exact .engineCall i we b hi
  · cases ht

theorem engineReturn_trans (h : Wf s items) {i : Nat} (ht : engineReturn s i = some t) :
    Trans s (.engineReturn i) t := by
  unfold engineReturn at ht
  split at ht
  · rename_i we b hi
    obtain ⟨e, he⟩ := h.held_cell we (mem_held hi rfl)
    have hp : delete we s.store = .ok ((), ⟨s.store.mem.free we, s.store.reg⟩) := by
      simp only [delete, he]
    rw [within_ok hp] at ht
    cases ht
    exact .engineReturn i we b hi
  · cases ht

theorem destroyLock_trans (ht : destroyLock s = some t) : Trans s .destroyLock t := by
  unfold destroyLock at ht
  split at ht
  · rename_i hg
    obtain ⟨hh, hd⟩ := hg
    by_cases hc : 0 < s.store.reg.counter
    · have hp : workqDestroy s.store = .ok ((.waiting, decide (0 < s.store.reg.idle)),
          ⟨s.store.mem, { s.store.reg with valid := 0, quit := true }⟩) := by
        apply ok_of_wp_eq
        simp [workqDestroy, hc]
      rw [within_ok hp] at ht
      cases ht
      simp only [decide_eq_true_eq]
      exact .destroyWait hh hd hc _ rfl
    · have hp : workqDestroy s.store = .ok ((.leaving, false),
          ⟨s.store.mem, { s.store.reg with valid := 0 }⟩) := by
        apply ok_of_wp_eq
        simpa [workqDestroy] using hc
      rw [within_ok hp] at ht
      cases ht
      exact .destroyPass hh hd (by omega)
  · cases ht

theorem destroyWake_trans (ht : destroyWake s = some t) : Trans s .destroyWake t := by
  unfold destroyWake at ht
  split at ht
  · rename_i hg
    obtain ⟨hh, hd⟩ := hg
    by_cases hc : 0 < s.store.reg.counter
    · have hp : destroyWait s.store = .ok (.waiting, s.store) := by
        apply ok_of_wp_eq
        simp [destroyWait, hc]
      rw [within_ok hp] at ht
      cases ht
      exact .destroyAgain hh hd hc
    · have hp : destroyWait s.store = .ok (.leaving, s.store) := by
        apply ok_of_wp_eq
        simpa [destroyWait] using hc
      rw [within_ok hp] at ht
      cases ht
      exact .destroyLeave hh hd (by omega)
  · cases ht

theorem addBegin_trans {d : Nat} (ht : addBegin s d = some t) : Trans s (.addBegin d) t := by
  unfold addBegin at ht
  split at ht
  · cases ht
    exact .allocate d
  · cases ht
    exact .refuse d

/-- In a well-formed state, every step is one of the listed ones. -/
theorem step_trans (h : Wf s items) {a : Act} (ht : step s a = some t) : Trans s a t := by
  unfold step at ht
  split at ht
  · cases ht
  · cases a with
    | addBegin d => exact addBegin_trans ht
    | addLocked item w => exact addLocked_trans h ht
    | server i => exact serverStep_trans h ht
    | engineCall i => exact engineCall_trans h ht
    | engineReturn i => exact engineReturn_trans h ht
    | spurious w =>
      obtain ⟨hb, ht⟩ := Option.ite_none_right_eq_some.mp ht
      cases ht
      exact .spurious w hb
    | expire i =>
      change expire s i = some t at ht
      unfold expire at ht
      split at ht
      · rename_i hi
        cases ht
        exact .expire i _ hi (.inl rfl)
      · rename_i b hi
        cases ht
        exact .expire i _ hi (.inr ⟨b, rfl⟩)
      · cases ht
    | destroyBegin =>
      obtain ⟨hb, ht⟩ := Option.ite_none_right_eq_some.mp ht
      cases ht
      exact .destroyBegin hb.1
    | destroyLock => exact destroyLock_trans ht
    | destroyWake => exact destroyWake_trans ht
    | destroyEnd =>
      obtain ⟨hb, ht⟩ := Option.ite_none_right_eq_some.mp ht
      cases ht
      exact .destroyEnd hb

end C11AndC.WorkQueue
