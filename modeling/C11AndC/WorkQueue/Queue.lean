import C11AndC.WorkQueue.Transitions

namespace C11AndC.WorkQueue

open C11AndC.Library

variable {s t : Sys} {items : List Nat}

/-- The part of the state that `Wf` speaks about. -/
def queueView (s : Sys) :=
  (s.store.mem, s.store.reg.first, s.store.reg.last, s.pending, s.added, s.taken, s.handed,
    s.finished, held s, inCall s)

theorem wf_congr (h : Wf s items) (hv : queueView t = queueView s) : Wf t items := by
  simp only [queueView, Prod.mk.injEq] at hv
  obtain ⟨hm, hf, hl, hp, ha, ht, hd, hn, hh, hc⟩ := hv
  constructor
  · rw [hm, hf]; exact h.chain
  · rw [hl]; exact h.last
  · rw [hp, hm]; exact h.pending_cell
  · rw [hh, hm]; exact h.held_cell
  · rw [ha, ht]; exact h.order
  · rw [ha, hp]; exact h.nodup
  · rw [ha, hm]; exact h.bound
  · rw [ht, hn, hh]; exact h.taken_perm
  · rw [hd, hn, hc]; exact h.handed_perm

@[simp] theorem carried_wakeServer (pc : Server) : carried (wakeServer pc) = carried pc := by
  cases pc <;> rfl

@[simp] theorem entered_wakeServer (pc : Server) : entered (wakeServer pc) = entered pc := by
  cases pc <;> rfl

theorem held_setServer {i : Nat} {pc pc' : Server} (hi : s.servers[i]? = some pc)
    (hc : carried pc' = carried pc) : held (setServer s i pc') = held s := by
  obtain ⟨l₁, l₂, hl, hs, -⟩ := split_at hi
  simp only [held, setServer, hs]
  simp [hl, List.filterMap_append, List.filterMap_cons, hc]

theorem inCall_setServer {i : Nat} {pc pc' : Server} (hi : s.servers[i]? = some pc)
    (hc : entered pc' = entered pc) : inCall (setServer s i pc') = inCall s := by
  obtain ⟨l₁, l₂, hl, hs, -⟩ := split_at hi
  simp only [inCall, setServer, hs]
  simp [hl, List.filterMap_append, List.filterMap_cons, hc]

theorem wake_server {i : Nat} {pc : Server} (hi : s.servers[i]? = some pc) :
    wake s (.server i) = setServer s i (wakeServer pc) := by
  obtain ⟨l₁, l₂, -, hs, hm⟩ := split_at hi
  simp only [wake, setServer, hs, hm]

theorem queueView_setServer {i : Nat} {pc pc' : Server} (hi : s.servers[i]? = some pc)
    (hc : carried pc' = carried pc) (he : entered pc' = entered pc) :
    queueView (setServer s i pc') = queueView s := by
  simp only [queueView, held_setServer hi hc, inCall_setServer hi he]
  rfl

theorem queueView_wake (w : Waiter) (hb : isBlocked s w = true) :
    queueView (wake s w) = queueView s := by
  cases w with
  | destroyer => rfl
  | server i =>
    have hi : s.servers[i]? = some .blocked := by simpa [isBlocked] using hb
    rw [wake_server hi]
    exact queueView_setServer hi rfl rfl

theorem queueView_broadcast : queueView (broadcast s) = queueView s := by
  simp [queueView, broadcast, held, inCall, List.filterMap_map]

theorem queueView_signal {w : Option Waiter} (h : signal s w = some t) :
    queueView t = queueView s := by
  cases w with
  | none =>
    obtain ⟨-, h⟩ := Option.ite_none_left_eq_some.mp h
    cases h
    rfl
  | some w =>
    obtain ⟨hb, h⟩ := Option.ite_none_right_eq_some.mp h
    cases h
    exact queueView_wake w hb

theorem carried_of_workqServer {pc : Server} (h : (workqServer pc).isSome) :
    carried pc = none ∧ entered pc = none := by
  cases pc <;> simp_all [workqServer, carried, entered]

theorem wf_alloc (h : Wf s items) (d : Nat) :
    Wf { s with
      store := ⟨s.store.mem.alloc ⟨0, d⟩, s.store.reg⟩
      pending := s.store.mem.next :: s.pending } items := by
  have hne : ∀ {a : Nat} {e : WorkqEle}, s.store.mem.cell a = some e →
      (s.store.mem.alloc ⟨0, d⟩).cell a = some e := by
    intro a e he
    rw [Memory.cell_alloc_ne _ (Memory.ne_next_of_cell he), he]
  constructor
  · refine chain_congr (fun a ha => ?_) h.chain
    obtain ⟨e, he⟩ := cell_of_mem_chain h.chain ha
    exact Memory.cell_alloc_ne _ (Memory.ne_next_of_cell he) _
  · exact h.last
  · intro a ha
    rcases List.mem_cons.mp ha with rfl | ha
    · exact ⟨d, Memory.cell_alloc_self _ _⟩
    · obtain ⟨d', hd⟩ := h.pending_cell a ha
      exact ⟨d', hne hd⟩
  · intro a ha
    obtain ⟨e, he⟩ := h.held_cell a ha
    exact ⟨e, hne he⟩
  · exact h.order
  · have hn := h.nodup
    simp only [List.nodup_append, List.nodup_cons] at hn ⊢
    refine ⟨hn.1, ⟨fun hm => ?_, hn.2.1⟩, ?_⟩
    · obtain ⟨d', hd⟩ := h.pending_cell _ hm
      exact Memory.ne_next_of_cell hd rfl
    · intro a ha b hb
      rcases List.mem_cons.mp hb with rfl | hb
      · exact Nat.ne_of_lt (h.bound a ha)
      · exact hn.2.2 a ha b hb
  · intro a ha
    exact Nat.lt_succ_of_lt (h.bound a ha)
  · exact h.taken_perm
  · exact h.handed_perm

theorem mem_added_of_mem_items {a : Nat} (h : Wf s items) (ha : a ∈ items) : a ∈ s.added := by
  rw [h.order]
  exact List.mem_append_right _ ha

theorem mem_added_of_mem_held {a : Nat} (h : Wf s items) (ha : a ∈ held s) : a ∈ s.added := by
  rw [h.order]
  exact List.mem_append_left _ (h.taken_perm.symm.subset (List.mem_append_right _ ha))

theorem not_mem_added_of_pending {a : Nat} (h : Wf s items) (ha : a ∈ s.pending) : a ∉ s.added :=
  fun hm => (List.nodup_append.mp h.nodup).2.2 a hm a ha rfl

theorem not_mem_items_of_held {a : Nat} (h : Wf s items) (ha : a ∈ held s) : a ∉ items := by
  intro hm
  have hn := (List.nodup_append.mp h.nodup).1
  rw [h.order] at hn
  have ht : a ∈ s.taken := h.taken_perm.symm.subset (List.mem_append_right _ ha)
  exact (List.nodup_append.mp hn).2.2 a ht a hm rfl

theorem appended_chain (h : Wf s items) {item : Nat} (hi : item ∈ s.pending)
    (hl : s.store.reg.first ≠ 0 → s.store.reg.last ≠ 0) :
    Chain (appended s.store item).mem WorkqEle.next (appended s.store item).reg.first
      (items ++ [item]) := by
  obtain ⟨d, hd⟩ := h.pending_cell item hi
  unfold appended
  split
  · rename_i hf
    have hn : items = [] := by
      have hc := chain_head h.chain
      simpa [hf] using hc
    subst hn
    exact ⟨rfl, ⟨0, d⟩, hd, rfl⟩
  · rename_i hf
    have hlast := h.last.resolve_left (hl hf)
    obtain ⟨init, rfl⟩ := List.getLast?_eq_some_iff.mp hlast
    have hnot : item ∉ init ++ [s.store.reg.last] := fun hm =>
      not_mem_added_of_pending h hi (mem_added_of_mem_items h hm)
    have hs := chain_snoc (f := fun e => { e with next := item }) h.chain (fun _ => rfl) hd rfl hnot
    simpa using hs

theorem appended_cell (h : Wf s items) {item a : Nat} {e : WorkqEle}
    (hl : s.store.reg.first ≠ 0 → s.store.reg.last ≠ 0) (ha : a ∉ items)
    (he : s.store.mem.cell a = some e) : (appended s.store item).mem.cell a = some e := by
  unfold appended
  split
  · exact he
  · rename_i hf
    have hlast := h.last.resolve_left (hl hf)
    have hne : a ≠ s.store.reg.last := by
      rintro rfl
      exact ha (last_mem hlast)
    simpa [hne] using he

@[simp] theorem appended_last (st : Store WorkqEle Workq) (item : Nat) :
    (appended st item).reg.last = item := by
  unfold appended
  split <;> rfl

@[simp] theorem appended_next (st : Store WorkqEle Workq) (item : Nat) :
    (appended st item).mem.next = st.mem.next := by
  unfold appended
  split <;> rfl

/-- Adding an element puts it behind the others. -/
theorem wf_enqueued (h : Wf s items) {item : Nat} (hi : item ∈ s.pending)
    (hl : s.store.reg.first ≠ 0 → s.store.reg.last ≠ 0) :
    Wf (enqueued s item) (items ++ [item]) := by
  have hperm : (s.added ++ [item] ++ s.pending.erase item).Perm (s.added ++ s.pending) := by
    rw [List.append_assoc]
    exact (List.perm_cons_erase hi).symm.append_left s.added
  constructor
  · exact appended_chain h hi hl
  · right
    simp [enqueued]
  · intro a ha
    have ha := List.mem_of_mem_erase ha
    obtain ⟨d, hd⟩ := h.pending_cell a ha
    refine ⟨d, appended_cell h hl (fun hm => ?_) hd⟩
    exact not_mem_added_of_pending h ha (mem_added_of_mem_items h hm)
  · intro a ha
    obtain ⟨e, he⟩ := h.held_cell a ha
    exact ⟨e, appended_cell h hl (not_mem_items_of_held h ha) he⟩
  · simp [enqueued, h.order]
  · exact hperm.nodup_iff.mpr h.nodup
  · intro a ha
    simp only [enqueued, appended_next] at ha ⊢
    rcases List.mem_append.mp ha with ha | ha
    · exact h.bound a ha
    · obtain ⟨d, hd⟩ := h.pending_cell item hi
      rw [List.mem_singleton.mp ha]
      exact Memory.lt_next_of_cell hd
  · exact h.taken_perm
  · exact h.handed_perm

/-- A server that finds the queue non-empty leaves with its first element. -/
theorem wf_take (h : Wf s items) {i : Nat} {pc : Server} {e : WorkqEle} {b : Bool} {wq : Workq}
    (hi : s.servers[i]? = some pc) (hpc : carried pc = none ∧ entered pc = none)
    (hf : s.store.reg.first ≠ 0) (he : s.store.mem.cell s.store.reg.first = some e)
    (hfirst : wq.first = e.next) (hlast : wq.last = 0) :
    Wf (withServer s i (.calling s.store.reg.first b) ⟨s.store.mem, wq⟩) items.tail := by
  obtain ⟨rest, hr, hset⟩ := filterMap_set carried hi
  obtain ⟨rest', hr', hset'⟩ := filterMap_set entered hi
  have hheld : (held s).Perm rest := by simpa [held, hpc.1] using hr
  have hcall : (inCall s).Perm rest' := by simpa [inCall, hpc.2] using hr'
  have hheld' : (held (withServer s i (.calling s.store.reg.first b) ⟨s.store.mem, wq⟩)).Perm
      (s.store.reg.first :: held s) := (hset _).trans (hheld.symm.cons _)
  have hcall' : (inCall (withServer s i (.calling s.store.reg.first b) ⟨s.store.mem, wq⟩)).Perm
      (inCall s) := (hset' _).trans hcall.symm
  cases items with
  | nil => exact absurd h.chain hf
  | cons a items =>
    obtain ⟨ha, e', he', hchain⟩ := h.chain
    rw [← ha, he] at he'
    cases he'
    constructor
    · simpa [withServer, recordTaken, setServer, hfirst] using hchain
    · left
      simpa [withServer, recordTaken, setServer] using hlast
    · exact h.pending_cell
    · intro c hc
      rcases List.mem_cons.mp (hheld'.subset hc) with rfl | hc
      · exact ⟨e, he⟩
      · exact h.held_cell c hc
    · simp [withServer, recordTaken, setServer, h.order, ha]
    · exact h.nodup
    · exact h.bound
    · refine ((h.taken_perm.append_right _).trans ?_).trans (hheld'.symm.append_left _)
      rw [List.append_assoc]
      exact (List.perm_append_singleton _ _).append_left _
    · exact h.handed_perm.trans (hcall'.symm.append_left _)

theorem wf_engineCall (h : Wf s items) {i we : Nat} {b : Bool}
    (hi : s.servers[i]? = some (.calling we b)) :
    Wf { setServer s i (.inEngine we b) with handed := s.handed ++ [we] } items := by
  obtain ⟨rest, hr, hset⟩ := filterMap_set entered hi
  have hcall : (inCall (setServer s i (.inEngine we b))).Perm (we :: inCall s) :=
    (hset (.inEngine we b)).trans (List.Perm.cons _ hr.symm)
  have hheld : held (setServer s i (.inEngine we b)) = held s := held_setServer hi rfl
  constructor
  · exact h.chain
  · exact h.last
  · exact h.pending_cell
  · change ∀ a ∈ held (setServer s i (.inEngine we b)), _
    rw [hheld]
    exact h.held_cell
  · exact h.order
  · exact h.nodup
  · exact h.bound
  · change s.taken.Perm (s.finished ++ held (setServer s i (.inEngine we b)))
    rw [hheld]
    exact h.taken_perm
  · refine ((h.handed_perm.append_right _).trans ?_).trans (hcall.symm.append_left _)
    rw [List.append_assoc]
    exact (List.perm_append_singleton _ _).append_left _

/-- The element is released only after its engine call, when nothing leads to it. -/
theorem wf_engineReturn (h : Wf s items) {i we : Nat} {b : Bool}
    (hi : s.servers[i]? = some (.inEngine we b)) :
    Wf { setServer s i (.relocking b) with
      store := ⟨s.store.mem.free we, s.store.reg⟩
      finished := s.finished ++ [we] } items := by
  obtain ⟨rest, hr, hset⟩ := filterMap_set carried hi
  obtain ⟨rest', hr', hset'⟩ := filterMap_set entered hi
  have hwe : we ∈ held s := mem_held hi rfl
  have hheld : (held s).Perm (we :: held (setServer s i (.relocking b))) :=
    hr.trans (List.Perm.cons _ (hset (.relocking b)).symm)
  have hcall : (inCall s).Perm (we :: inCall (setServer s i (.relocking b))) :=
    hr'.trans (List.Perm.cons _ (hset' (.relocking b)).symm)
  have htaken : s.taken.Nodup := by
    have hn := (List.nodup_append.mp h.nodup).1
    rw [h.order] at hn
    exact (List.nodup_append.mp hn).1
  have hnew : we ∉ held (setServer s i (.relocking b)) := by
    have hn := (List.nodup_append.mp (h.taken_perm.nodup_iff.mp htaken)).2.1
    exact (List.nodup_cons.mp (hheld.nodup_iff.mp hn)).1
  constructor
  · refine chain_congr (fun a ha => Memory.cell_free_ne _ ?_) h.chain
    rintro rfl
    exact not_mem_items_of_held h hwe ha
  · exact h.last
  · intro a ha
    obtain ⟨d, hd⟩ := h.pending_cell a ha
    refine ⟨d, (Memory.cell_free_ne _ ?_).trans hd⟩
    rintro rfl
    exact not_mem_added_of_pending h ha (mem_added_of_mem_held h hwe)
  · intro a ha
    obtain ⟨e, he⟩ := h.held_cell a (hheld.symm.subset (List.mem_cons_of_mem _ ha))
    refine ⟨e, (Memory.cell_free_ne _ ?_).trans he⟩
    rintro rfl
    exact hnew ha
  · exact h.order
  · exact h.nodup
  · exact h.bound
  · have hp := hheld.append_left s.finished
    rw [List.append_cons] at hp
    exact h.taken_perm.trans hp
  · have hp := hcall.append_left s.finished
    rw [List.append_cons] at hp
    exact h.handed_perm.trans hp

theorem queueView_withServer {i : Nat} {pc pc' : Server} {wq : Workq}
    (hi : s.servers[i]? = some pc) (hpc : carried pc = none ∧ entered pc = none)
    (hpc' : carried pc' = none ∧ entered pc' = none)
    (hf : wq.first = s.store.reg.first) (hl : wq.last = s.store.reg.last) :
    queueView (withServer s i pc' ⟨s.store.mem, wq⟩) = queueView s := by
  have hr : recordTaken pc' = id := by
    funext u
    cases pc' <;> first | rfl | simp [carried] at hpc'
  have hh := held_setServer hi (hpc'.1.trans hpc.1.symm)
  have hc := inCall_setServer hi (hpc'.2.trans hpc.2.symm)
  simp only [queueView, ← hh, ← hc, withServer, hr, id_eq]
  simp only [held, inCall, setServer, hf, hl]

@[simp] theorem outOfWait_first (pc : Server) (wq : Workq) : (outOfWait pc wq).first = wq.first := by
  cases pc <;> rfl

@[simp] theorem outOfWait_last (pc : Server) (wq : Workq) : (outOfWait pc wq).last = wq.last := by
  cases pc <;> rfl

/-- After a server's section the queue is the same, or it has lost its first element. -/
theorem wf_server (h : Wf s items) {i : Nat} {pc : Server} {r : Server × Bool}
    {st : Store WorkqEle Workq} (hi : s.servers[i]? = some pc) (hpc : (workqServer pc).isSome)
    (he : Effect pc s.store r st) : ∃ items', Wf (withServer s i r.1 st) items' := by
  have hc := carried_of_workqServer hpc
  cases he with
  | block | quit | expire =>
    refine ⟨items, wf_congr h (queueView_withServer hi hc ⟨rfl, rfl⟩ ?_ ?_)⟩ <;> simp
  | again => exact ⟨items, wf_congr h (queueView_withServer hi hc ⟨rfl, rfl⟩ rfl rfl)⟩
  | take e b hf he hn => exact ⟨items.tail, wf_take h hi hc hf he rfl rfl⟩

/-- The queue stays well-formed whatever happens, a crash included. -/
theorem trans_wf (h : Wf s items) {a : Act} (ht : Trans s a t) : ∃ items', Wf t items' := by
  cases ht with
  | refuse => exact ⟨items, h⟩
  | allocate d => exact ⟨items, wf_alloc h d⟩
  | crash => exact ⟨items, wf_congr h rfl⟩
  | addIdle item w hh hi hl hidle t ht =>
    exact ⟨_, wf_congr (wf_enqueued h hi hl) (queueView_signal ht)⟩
  | addCreate item hh hi hl hidle hc =>
    refine ⟨_, wf_congr (wf_enqueued h hi hl) ?_⟩
    simp [queueView, held, inCall, enqueued, List.filterMap_append, carried, entered]
  | addFull item hh hi hl hidle hc => exact ⟨_, wf_enqueued h hi hl⟩
  | server i pc r st hi hh hpc he =>
    obtain ⟨items', h'⟩ := wf_server h hi hpc he
    refine ⟨items', ?_⟩
    split
    · exact wf_congr h' queueView_broadcast
    · exact h'
  | engineCall i we b hi => exact ⟨items, wf_engineCall h hi⟩
  | engineReturn i we b hi => exact ⟨items, wf_engineReturn h hi⟩
  | spurious w hb => exact ⟨items, wf_congr h (queueView_wake w hb)⟩
  | expire i pc hi hpc =>
    refine ⟨items, wf_congr h (queueView_setServer hi ?_ ?_)⟩
    all_goals rcases hpc with rfl | ⟨b, rfl⟩ <;> rfl
  | destroyBegin | destroyPass | destroyAgain | destroyLeave | destroyEnd =>
    exact ⟨items, wf_congr h rfl⟩
  | destroyWait hh hd hc t ht =>
    subst ht
    refine ⟨items, wf_congr h ?_⟩
    split
    · exact queueView_broadcast (s := { s with store := _ })
    · rfl

theorem init_wf (threads : Int) : Wf (init threads) [] := by
  constructor <;> simp [init, workqInit, Chain, held, inCall]

theorem step_wf {a : Act} (h : ∃ items, Wf s items) (ht : step s a = some t) :
    ∃ items, Wf t items := by
  obtain ⟨items, h⟩ := h
  exact trans_wf h (step_trans h ht)

end C11AndC.WorkQueue
