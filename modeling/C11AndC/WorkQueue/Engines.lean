import C11AndC.WorkQueue.Requests

namespace C11AndC.WorkQueue

open C11AndC.Library

/-- What a step does to the servers, seen from outside. -/
structure Onward (s t : Sys) : Prop where
  exited : ∀ i : Nat, s.servers[i]? = some .exited → t.servers[i]? = some .exited
  length : s.servers.length ≤ t.servers.length

section Onward

variable {s t u : Sys} {a : Act}

theorem onward_congr (ht : t.servers = s.servers) : Onward s t :=
  ⟨fun _ hi => ht ▸ hi, Nat.le_of_eq (by rw [ht])⟩

theorem Onward.trans (h : Onward s t) (h' : Onward t u) : Onward s u :=
  ⟨fun i hi => h'.exited i (h.exited i hi), Nat.le_trans h.length h'.length⟩

theorem onward_set {i : Nat} {pc : Server} (pc' : Server) (hi : s.servers[i]? = some pc) (hpc : pc ≠ .exited)
    (ht : t.servers = s.servers.set i pc') : Onward s t := by
  constructor
  · intro j hj
    rw [ht, List.getElem?_set_ne]
    · exact hj
    · rintro rfl
      rw [hi] at hj
      exact hpc (Option.some.inj hj)
  · apply Nat.le_of_eq
    rw [ht, List.length_set]

theorem onward_map (ht : t.servers = s.servers.map wakeServer) : Onward s t := by
  constructor
  · intro j hj
    rw [ht, List.getElem?_map, hj]
    rfl
  · apply Nat.le_of_eq
    rw [ht, List.length_map]

theorem onward_wake (x : Waiter) (hb : isBlocked s x = true) : Onward s (wake s x) := by
  cases x with
  | server i =>
    have hi : s.servers[i]? = some .blocked := by simpa [isBlocked] using hb
    rw [wake_server hi]
    exact onward_set _ hi (by simp) rfl
  | destroyer => exact onward_congr rfl

theorem trans_onward (ht : Trans s a t) : Onward s t := by
  cases ht with
  | refuse | allocate | crash | addFull | destroyBegin | destroyPass | destroyAgain | destroyLeave | destroyEnd =>
    exact onward_congr rfl
  | addIdle item w hh hi hl hidle t ht =>
    have he : Onward s (enqueued s item) := onward_congr rfl
    obtain ⟨-, -, rfl⟩ | ⟨x, -, hb, rfl⟩ := signal_cases ht
    · exact he
    · exact he.trans (onward_wake x hb)
  | addCreate item =>
    constructor
    · intro j hj
      change (s.servers ++ [.starting])[j]? = some .exited
      rw [List.getElem?_append_left (List.getElem?_eq_some_iff.mp hj).1]
      exact hj
    · change s.servers.length ≤ (s.servers ++ [Server.starting]).length
      simp
  | server i pc r st hi hh hpc he =>
    have hne : pc ≠ .exited := by
      rintro rfl
      cases hpc
    have hw : Onward s (withServer s i r.1 st) := onward_set r.1 hi hne (withServer_servers i r.1 st)
    split
    · exact hw.trans (onward_map rfl)
    · exact hw
  | engineCall i we b hi => exact onward_set _ hi (by simp) rfl
  | engineReturn i we b hi => exact onward_set _ hi (by simp) rfl
  | spurious x hb => exact onward_wake x hb
  | expire i pc hi hpc =>
    apply onward_set _ hi _ rfl
    obtain rfl | ⟨b, rfl⟩ := hpc <;> simp
  | destroyWait hh hd hc t ht =>
    subst ht
    split
    · exact onward_map rfl
    · exact onward_congr rfl

theorem trans_handed (ha : ∀ i, a ≠ .engineCall i) (ht : Trans s a t) : t.handed = s.handed := by
  cases ht with
  | engineCall i => exact absurd rfl (ha i)
  | refuse | allocate | crash | addCreate | addFull | engineReturn | expire | destroyBegin | destroyPass
  | destroyAgain | destroyLeave | destroyEnd => rfl
  | addIdle item w hh hi hl hidle t ht =>
    obtain ⟨-, -, rfl⟩ | ⟨x, -, -, rfl⟩ := signal_cases ht
    · rfl
    · cases x <;> rfl
  | server i pc r st =>
    split <;> cases r.1 <;> rfl
  | spurious x => cases x <;> rfl
  | destroyWait hh hd hc t ht =>
    subst ht
    split <;> rfl

end Onward

variable {s t : State} {iterations : Nat} {threads : Int}

theorem sum_range_update (f g : Nat → Nat) {i n : Nat} (hi : i < n) (hg : ∀ j, j ≠ i → g j = f j)
    (hgi : g i = f i + 1) : ((List.range n).map g).sum = ((List.range n).map f).sum + 1 := by
  induction n with
  | zero => exact absurd hi (Nat.not_lt_zero i)
  | succ n ih =>
    simp only [List.range_succ, List.map_append, List.sum_append, List.map_cons, List.map_nil, List.sum_cons,
      List.sum_nil, Nat.add_zero]
    obtain hlt | rfl := Nat.lt_or_eq_of_le (Nat.lt_succ_iff.mp hi)
    · rw [ih hlt, hg n (Nat.ne_of_gt hlt)]
      omega
    · have hbelow : (List.range i).map g = (List.range i).map f :=
        List.map_congr_left fun j hj => hg j (Nat.ne_of_lt (List.mem_range.mp hj))
      rw [hbelow, hgi]
      omega

theorem sum_range_zero (f : Nat → Nat) {m n : Nat} (hmn : m ≤ n) (hf : ∀ i, m ≤ i → f i = 0) :
    ((List.range n).map f).sum = ((List.range m).map f).sum := by
  induction hmn with
  | refl => rfl
  | @step n hmn ih =>
    simp only [List.range_succ, List.map_append, List.sum_append, List.map_cons, List.map_nil, List.sum_cons,
      List.sum_nil, Nat.add_zero, hf n hmn, ih]

/-- The calls that the engines of the servers have counted. -/
structure Counted (s : State) : Prop where
  sum : ((List.range s.queue.servers.length).map s.calls).sum = s.queue.handed.length
  unborn : ∀ i, s.queue.servers.length ≤ i → s.engines i = none
  positive : ∀ i n, s.engines i = some n → 0 < n
  nodup : s.linked.Nodup
  linked : ∀ i ∈ s.linked, s.queue.servers[i]? = some .exited

theorem counted_onward (h : Counted s) (ho : Onward s.queue t.queue) (hh : t.queue.handed = s.queue.handed)
    (he : t.engines = s.engines) (hl : t.linked = s.linked) : Counted t := by
  have hcalls : t.calls = s.calls := by
    funext i
    rw [State.calls, he, State.calls]
  constructor
  case sum =>
    rw [hcalls, hh, ← h.sum]
    apply sum_range_zero s.calls ho.length
    intro i hi
    rw [State.calls, h.unborn i hi, Option.getD_none]
  case unborn =>
    rw [he]
    exact fun i hi => h.unborn i (Nat.le_trans ho.length hi)
  case positive => exact he ▸ h.positive
  case nodup => exact hl ▸ h.nodup
  case linked =>
    rw [hl]
    exact fun i hi => ho.exited i (h.linked i hi)

theorem counted_call (h : Counted s) {i we : Nat} {b : Bool} (hi : s.queue.servers[i]? = some (.calling we b))
    (hq : t.queue = { setServer s.queue i (.inEngine we b) with handed := s.queue.handed ++ [we] })
    (he : t.engines = Function.update s.engines i (some ((s.engines i).elim 1 (· + 1)))) (hl : t.linked = s.linked) :
    Counted t := by
  have hlt : i < s.queue.servers.length := (List.getElem?_eq_some_iff.mp hi).1
  have hlength : t.queue.servers.length = s.queue.servers.length := by
    rw [hq]
    exact List.length_set
  constructor
  case sum =>
    have hsum := sum_range_update s.calls t.calls hlt (fun j hj => ?_) ?_
    · rw [hlength, hsum, h.sum, hq, List.length_append, List.length_singleton]
    · rw [State.calls, he, Function.update_of_ne hj, State.calls]
    · rw [State.calls, he, Function.update_self, State.calls]
      cases s.engines i <;> rfl
  case unborn =>
    rw [hlength, he]
    intro j hj
    rw [Function.update_of_ne (by omega)]
    exact h.unborn j hj
  case positive =>
    rw [he]
    intro j n hn
    by_cases hj : j = i
    · subst hj
      rw [Function.update_self] at hn
      cases hn
      cases s.engines j <;> simp
    · rw [Function.update_of_ne hj] at hn
      exact h.positive j n hn
  case nodup => exact hl ▸ h.nodup
  case linked =>
    rw [hl, hq]
    exact fun j hj => (onward_set (.inEngine we b) hi (by simp) rfl).exited j (h.linked j hj)

theorem counted_link (h : Counted s) {i : Nat} (hd : destructor s i = some t) : Counted t := by
  obtain ⟨⟨hi, -, hl⟩, ht⟩ := Option.ite_none_right_eq_some.mp hd
  cases ht
  constructor
  case sum => exact h.sum
  case unborn => exact h.unborn
  case positive => exact h.positive
  case nodup => exact List.nodup_cons.mpr ⟨hl, h.nodup⟩
  case linked =>
    intro j hj
    obtain rfl | hj := List.mem_cons.mp hj
    · exact hi
    · exact h.linked j hj

def callers : List Caller := [.main, .thread]

/-- The items of the callers that are inside of `workq_add`. -/
def State.items (s : State) : List Nat := callers.filterMap fun c => (s.requesters c).item

/-- What holds of the program in every state that it reaches without a crash of the queue. -/
structure Sound (iterations : Nat) (threads : Int) (s : State) : Prop where
  closing : Closing threads s.queue
  valid : s.queue.destroyer = .absent → s.queue.store.reg.valid = workqValid
  begun : s.queue.destroyer ≠ .absent → ∀ c, (s.requesters c).count = iterations ∧ (s.requesters c).item = none
  requests : ∃ request value, Requests request value s
  pending : s.queue.pending.Perm s.items
  added : s.queue.added.length = (s.requesters .main).count + (s.requesters .thread).count
  counted : Counted s
  failed : s.failed = false

theorem trans_valid {u v : Sys} {a : Act} (ht : Trans u a v) (hd : v.destroyer = .absent) :
    u.destroyer = .absent ∧ v.store.reg.valid = u.store.reg.valid := by
  have hwake : ∀ (w : Sys) (x : Waiter), (wake w x).destroyer = .absent →
      w.destroyer = .absent ∧ (wake w x).store.reg.valid = w.store.reg.valid := by
    intro w x hw
    cases x with
    | server i => exact ⟨hw, rfl⟩
    | destroyer =>
      cases hd : w.destroyer <;> simp [wake, wakeDestroyer, hd] at hw
      exact ⟨rfl, rfl⟩
  have hvalid : ∀ item, (enqueued u item).store.reg.valid = u.store.reg.valid := by
    intro item
    simp only [enqueued, appended]
    split <;> rfl
  cases ht with
  | refuse | allocate | crash | engineCall | engineReturn | expire => exact ⟨hd, rfl⟩
  | addIdle item w hh hi hl hidle v hv =>
    obtain ⟨-, -, rfl⟩ | ⟨x, -, -, rfl⟩ := signal_cases hv
    · exact ⟨hd, hvalid item⟩
    · obtain ⟨habsent, hsame⟩ := hwake _ x hd
      exact ⟨habsent, hsame.trans (hvalid item)⟩
  | addCreate item => exact ⟨hd, hvalid item⟩
  | addFull item => exact ⟨hd, hvalid item⟩
  | server i pc r st hi hh hpc he =>
    have hst : st.reg.valid = u.store.reg.valid := by
      cases he <;> cases pc <;> rfl
    split at hd
    · rename_i hr
      obtain ⟨habsent, -⟩ := hwake (withServer u i r.1 st) .destroyer hd
      rw [withServer_destroyer] at habsent
      rw [if_pos hr]
      exact ⟨habsent, by rw [← hst]; cases r.1 <;> rfl⟩
    · rename_i hr
      rw [withServer_destroyer] at hd
      rw [if_neg hr]
      exact ⟨hd, by rw [← hst]; cases r.1 <;> rfl⟩
  | spurious x => exact hwake u x hd
  | destroyBegin | destroyWait | destroyPass | destroyAgain | destroyLeave | destroyEnd => cases hd

/-- What the steps that do not add keep of the list of elements. -/
theorem trans_pending {u v : Sys} {a : Act} (ha : isAdd a = false) (ht : Trans u a v) :
    v.pending = u.pending ∧ v.added = u.added := by
  cases ht with
  | refuse | allocate | crash | addIdle | addCreate | addFull => cases ha
  | engineCall | engineReturn | expire | destroyBegin | destroyPass | destroyAgain | destroyLeave | destroyEnd =>
    exact ⟨rfl, rfl⟩
  | server i pc r st =>
    split <;> cases r.1 <;> exact ⟨rfl, rfl⟩
  | spurious x => cases x <;> exact ⟨rfl, rfl⟩
  | destroyWait hh hd hc v hv =>
    subst hv
    split <;> exact ⟨rfl, rfl⟩

theorem trans_absent {u v : Sys} {a : Act} (ha : a ≠ .destroyBegin) (ht : Trans u a v)
    (hd : u.destroyer = .absent) : v.destroyer = .absent := by
  have hwake : ∀ (w : Sys) (x : Waiter), w.destroyer = .absent → (wake w x).destroyer = .absent := by
    intro w x hw
    cases x with
    | server i => exact hw
    | destroyer => simp [wake, wakeDestroyer, hw]
  cases ht with
  | refuse | allocate | crash | addCreate | addFull | engineCall | engineReturn | expire => exact hd
  | addIdle item w hh hi hl hidle v hv =>
    obtain ⟨-, -, rfl⟩ | ⟨x, -, -, rfl⟩ := signal_cases hv
    · exact hd
    · exact hwake _ x hd
  | server i pc r st =>
    split
    · exact hwake (withServer u i r.1 st) .destroyer (by rwa [withServer_destroyer])
    · rwa [withServer_destroyer]
  | spurious x => exact hwake u x hd
  | destroyBegin => exact absurd rfl ha
  | destroyWait hh he | destroyPass hh he | destroyAgain hh he | destroyLeave hh he | destroyEnd he =>
    rw [he] at hd
    cases hd

theorem not_crashed {u v : Sys} {a : Act} (ht : step u a = some v) : u.crashed = false := by
  cases hc : u.crashed with
  | false => rfl
  | true => simp [step, hc] at ht

/-- A step that adds, before the queue is destroyed. -/
theorem closing_add (hthreads : 1 ≤ threads) {u v : Sys} {a : Act} (h : Closing threads u)
    (hd : u.destroyer = .absent) (ha : a ≠ .destroyBegin) (ht : step u a = some v) (hc : v.crashed = false) :
    Closing threads v := by
  obtain ⟨items, hw⟩ := h.wf
  have htr := step_trans hw ht
  refine ⟨step_wf h.wf ht, trans_serversOk hthreads h.servers htr, hc, fun hg => ?_⟩
  have habsent := trans_absent ha htr hd
  simp [gone, habsent] at hg

theorem absent_of_busy (h : Sound iterations threads s) {c : Caller}
    (hc : (s.requesters c).count ≠ iterations ∨ (s.requesters c).item ≠ none) : s.queue.destroyer = .absent := by
  by_contra hd
  obtain ⟨hcount, hitem⟩ := h.begun hd c
  obtain hc | hc := hc
  · exact hc hcount
  · exact hc hitem

theorem items_put (c : Caller) (r : Requester) (hr : (s.requesters c).item = none)
    (ht : t.requesters = Function.update s.requesters c r) : t.items.Perm (r.item.toList ++ s.items) := by
  cases c with
  | main =>
    simp only [State.items, callers, List.filterMap_cons, List.filterMap_nil, ht, Function.update_self, hr]
    cases r.item <;> simp
  | thread =>
    simp only [State.items, callers, List.filterMap_cons, List.filterMap_nil, ht, Function.update_self, hr]
    cases r.item <;> cases hm : (s.requesters .main).item <;> simp [hm]
    exact List.Perm.swap ..

theorem items_clear (c : Caller) {item n : Nat} (hi : (s.requesters c).item = some item)
    (ht : t.requesters = Function.update s.requesters c ⟨n, none⟩) : s.items.Perm (item :: t.items) := by
  have hback : s.requesters = Function.update t.requesters c (s.requesters c) := by
    rw [ht, Function.update_idem, Function.update_eq_self]
  have hp := items_put (s := t) (t := s) c (s.requesters c) (by rw [ht, Function.update_self]) hback
  rwa [hi] at hp

theorem sound_request (hthreads : 1 ≤ threads) (h : Sound iterations threads s) {c : Caller} {p : Power}
    (ht : request iterations s c p = some t) : Sound iterations threads t := by
  obtain ⟨⟨hcount, hitem⟩, ht⟩ := Option.ite_none_right_eq_some.mp ht
  have hd := absent_of_busy h (.inl (Nat.ne_of_lt hcount))
  have hvalid := h.valid hd
  obtain ⟨q, hq, ht⟩ := Option.bind_eq_some_iff.mp ht
  rw [if_pos hvalid] at ht
  cases ht
  have hclosing := closing_add hthreads h.closing hd (by simp) hq
  obtain ⟨items, hw⟩ := h.closing.wf
  obtain ⟨request, value, hrequests⟩ := h.requests
  have hnew : q = { s.queue with
      store := ⟨s.queue.store.mem.alloc ⟨0, s.powers.next⟩, s.queue.store.reg⟩
      pending := s.queue.store.mem.next :: s.queue.pending } := by
    simpa [step, enabledStep, addBegin, within, new, hvalid, h.closing.crashed] using hq.symm
  constructor
  case closing => exact hclosing (by rw [hnew]; exact h.closing.crashed)
  case valid => exact fun _ => by rw [hnew]; exact hvalid
  case begun => exact fun hne => absurd (by rw [hnew]; exact hd) hne
  case requests => exact ⟨_, _, requests_alloc hrequests hw p hnew rfl rfl rfl⟩
  case pending =>
    rw [hnew]
    exact (h.pending.cons _).trans
      (items_put c ⟨(s.requesters c).count, some s.queue.store.mem.next⟩ hitem rfl).symm
  case added =>
    rw [hnew]
    refine h.added.trans ?_
    cases c <;> simp
  case counted =>
    have hservers : q.servers = s.queue.servers := by rw [hnew]
    have hhanded : q.handed = s.queue.handed := by rw [hnew]
    exact counted_onward h.counted (onward_congr hservers) hhanded rfl rfl
  case failed => exact h.failed

theorem sound_add (hthreads : 1 ≤ threads) (h : Sound iterations threads s) {c : Caller} {w : Option Waiter}
    (ht : add s c w = some t) (hc : t.queue.crashed = false) : Sound iterations threads t := by
  obtain ⟨item, hitem, ht⟩ := Option.bind_eq_some_iff.mp ht
  obtain ⟨q, hq, ht⟩ := Option.bind_eq_some_iff.mp ht
  cases ht
  have hd := absent_of_busy (c := c) h (.inr (by simp [hitem]))
  obtain ⟨items, hw⟩ := h.closing.wf
  obtain ⟨request, value, hrequests⟩ := h.requests
  have htr := step_trans hw hq
  have hitems := items_clear (s := s) (t := { s with
    queue := q, requesters := Function.update s.requesters c ⟨(s.requesters c).count + 1, none⟩ }) c hitem rfl
  have hqueue : q.pending = s.queue.pending.erase item ∧ q.added = s.queue.added ++ [item] := by
    cases htr with
    | crash => cases hc
    | addCreate | addFull => exact ⟨rfl, rfl⟩
    | addIdle _ _ hh hi hl hidle _ hs =>
      obtain ⟨-, -, rfl⟩ | ⟨x, -, -, rfl⟩ := signal_cases hs
      · exact ⟨rfl, rfl⟩
      · cases x <;> exact ⟨rfl, rfl⟩
  constructor
  case closing => exact closing_add hthreads h.closing hd (by simp) hq hc
  case valid =>
    intro habsent
    obtain ⟨hd', hv⟩ := trans_valid htr habsent
    exact hv.trans (h.valid hd')
  case begun => exact fun hne => absurd (trans_absent (by simp) htr hd) hne
  case requests =>
    refine ⟨request, value, requests_keeps hrequests (keeps_trans (by simp) (by simp) htr) rfl rfl ?_⟩
    exact hrequests.printed.trans (by rw [← trans_handed (by simp) htr])
  case pending =>
    have hperm := (h.pending.trans hitems).erase item
    rw [List.erase_cons_head, ← hqueue.1] at hperm
    exact hperm
  case added =>
    have hadded := h.added
    change q.added.length = _
    rw [hqueue.2, List.length_append, List.length_singleton]
    cases c <;> simp <;> omega
  case counted => exact counted_onward h.counted (trans_onward htr) (trans_handed (by simp) htr) rfl rfl
  case failed => exact h.failed

/-- What the program itself does beside the step of the queue. -/
def routine (s : State) : Act → State
  | .engineCall i => engineRoutine s i
  | .engineReturn i => engineFree s i
  | _ => s

theorem queueStep_cases {a : Act} (ht : queueStep iterations s a = some t) :
    isAdd a = false ∧ (a = .destroyBegin → joined iterations s = true) ∧
      ∃ q, step s.queue a = some q ∧ t = { routine s a with queue := q } := by
  cases a with
  | addBegin | addLocked => cases ht
  | destroyBegin =>
    obtain ⟨hj, ht⟩ := Option.ite_none_right_eq_some.mp ht
    obtain ⟨q, hq, rfl⟩ := Option.map_eq_some_iff.mp ht
    exact ⟨rfl, fun _ => hj, q, hq, rfl⟩
  | server | engineCall | engineReturn | spurious | expire | destroyLock | destroyWake | destroyEnd =>
    obtain ⟨q, hq, rfl⟩ := Option.map_eq_some_iff.mp ht
    exact ⟨rfl, by simp, q, hq, rfl⟩

theorem routine_requesters (s : State) (a : Act) :
    (routine s a).requesters = s.requesters ∧ (routine s a).linked = s.linked := by
  cases a with
  | engineCall i =>
    simp only [routine, engineRoutine]
    split <;> exact ⟨rfl, rfl⟩
  | engineReturn i =>
    simp only [routine, engineFree]
    split <;> exact ⟨rfl, rfl⟩
  | _ => exact ⟨rfl, rfl⟩

theorem joined_iff : joined iterations s = true ↔
    ∀ c, (s.requesters c).count = iterations ∧ (s.requesters c).item = none := by
  simp only [joined, decide_eq_true_eq, List.forall_mem_cons, List.not_mem_nil, false_implies, implies_true, and_true]
  constructor
  · rintro ⟨hmain, hthread⟩ c
    cases c with
    | main => exact hmain
    | thread => exact hthread
  · exact fun h => ⟨h .main, h .thread⟩

/-- The requests and the engines follow the servers. -/
theorem sound_routine {a : Act} (h : Sound iterations threads s) {q : Sys} (ha : isAdd a = false)
    (hq : step s.queue a = some q) :
    (∃ request value, Requests request value { routine s a with queue := q }) ∧
      Counted { routine s a with queue := q } ∧ (routine s a).failed = false := by
  obtain ⟨items, hw⟩ := h.closing.wf
  obtain ⟨request, value, hrequests⟩ := h.requests
  have htr := step_trans hw hq
  cases htr with
  | refuse | allocate | crash | addIdle | addCreate | addFull => cases ha
  | engineCall i we b hi =>
    have harg := argument_some hrequests hw hi rfl
    have hroutine : routine s (.engineCall i) = { s with
        engines := Function.update s.engines i (some ((s.engines i).elim 1 (· + 1)))
        printed := s.printed ++ [value we] } := by
      simp only [routine, engineRoutine, harg]
    rw [hroutine]
    have hkeep : Keeps s.queue _ := keeps_trans (by simp) (by simp) (.engineCall i we b hi)
    refine ⟨⟨request, value, requests_keeps hrequests hkeep rfl rfl ?_⟩,
      counted_call h.counted hi rfl rfl rfl, h.failed⟩
    rw [List.map_append, ← hrequests.printed]
    rfl
  | engineReturn i we b hi =>
    have harg := argument_some hrequests hw hi rfl
    have hroutine : routine s (.engineReturn i) = { s with powers := s.powers.free (request we) } := by
      simp only [routine, engineFree, harg]
    rw [hroutine]
    exact ⟨⟨request, value, requests_free hrequests hw (mem_held hi rfl) rfl rfl rfl rfl⟩,
      counted_onward h.counted (trans_onward (.engineReturn i we b hi)) rfl rfl rfl, h.failed⟩
  | server | spurious | expire | destroyBegin | destroyWait | destroyPass | destroyAgain | destroyLeave
    | destroyEnd =>
    have htr' := step_trans hw hq
    refine ⟨⟨request, value, requests_keeps hrequests (keeps_trans (by simp) (by simp) htr') rfl rfl ?_⟩,
      counted_onward h.counted (trans_onward htr') (trans_handed (by simp) htr') rfl rfl, h.failed⟩
    exact hrequests.printed.trans (by rw [← trans_handed (by simp) htr'])

theorem sound_queue (hthreads : 1 ≤ threads) (h : Sound iterations threads s) {a : Act}
    (ht : queueStep iterations s a = some t) : Sound iterations threads t := by
  obtain ⟨ha, hjoined, q, hq, rfl⟩ := queueStep_cases ht
  obtain ⟨items, hw⟩ := h.closing.wf
  have htr := step_trans hw hq
  obtain ⟨hpending, hadded⟩ := trans_pending ha htr
  obtain ⟨hrequests, hcounted, hfailed⟩ := sound_routine h ha hq
  obtain ⟨hrequesters, -⟩ := routine_requesters s a
  constructor
  case closing => exact closing_step hthreads h.closing ha hq
  case valid =>
    intro habsent
    obtain ⟨hd, hv⟩ := trans_valid htr habsent
    exact hv.trans (h.valid hd)
  case begun =>
    intro hne
    simp only [hrequesters]
    by_cases hd : s.queue.destroyer = .absent
    · apply joined_iff.mp (hjoined _)
      by_contra hno
      exact hne (trans_absent hno htr hd)
    · exact h.begun hd
  case requests => exact hrequests
  case pending =>
    change q.pending.Perm (callers.filterMap fun c => ((routine s a).requesters c).item)
    rw [hpending, hrequesters]
    exact h.pending
  case added =>
    change q.added.length = ((routine s a).requesters .main).count + ((routine s a).requesters .thread).count
    rw [hadded, hrequesters]
    exact h.added
  case counted => exact hcounted
  case failed => exact hfailed

theorem sound_destructor (h : Sound iterations threads s) {i : Nat} (ht : destructor s i = some t) :
    Sound iterations threads t := by
  have hcounted := counted_link h.counted ht
  obtain ⟨-, ht⟩ := Option.ite_none_right_eq_some.mp ht
  cases ht
  obtain ⟨request, value, hrequests⟩ := h.requests
  exact ⟨h.closing, h.valid, h.begun,
    ⟨request, value, requests_keeps hrequests (keeps_of_mem rfl rfl rfl rfl) rfl rfl hrequests.printed⟩,
    h.pending, h.added, hcounted, h.failed⟩

theorem sound_move (hthreads : 1 ≤ threads) (h : Sound iterations threads s) {m : Move}
    (ht : move iterations s m = some t) (hc : t.queue.crashed = false) : Sound iterations threads t := by
  simp only [move, h.failed, Bool.false_eq_true, if_false] at ht
  cases m with
  | request c p => exact sound_request hthreads h ht
  | add c w => exact sound_add hthreads h ht hc
  | queue a => exact sound_queue hthreads h ht
  | destructor i => exact sound_destructor h ht

/-- The queue has not crashed before a state in which it has not. -/
theorem move_crashed {m : Move} (ht : move iterations s m = some t) (hc : t.queue.crashed = false) :
    s.queue.crashed = false := by
  obtain ⟨-, ht⟩ := Option.ite_none_left_eq_some.mp ht
  cases m with
  | request c p =>
    obtain ⟨-, ht⟩ := Option.ite_none_right_eq_some.mp ht
    obtain ⟨q, hq, -⟩ := Option.bind_eq_some_iff.mp ht
    exact not_crashed hq
  | add c w =>
    obtain ⟨item, -, ht⟩ := Option.bind_eq_some_iff.mp ht
    obtain ⟨q, hq, -⟩ := Option.bind_eq_some_iff.mp ht
    exact not_crashed hq
  | queue a =>
    obtain ⟨-, -, q, hq, -⟩ := queueStep_cases ht
    exact not_crashed hq
  | destructor i =>
    obtain ⟨-, ht⟩ := Option.ite_none_right_eq_some.mp ht
    cases ht
    exact hc

theorem start_sound (hthreads : 1 ≤ threads) : Sound iterations threads (start threads) := by
  constructor
  case closing =>
    exact ⟨⟨[], init_wf threads⟩, init_serversOk hthreads, rfl, fun hg => by simp [gone, start, init] at hg⟩
  case valid => exact fun _ => rfl
  case begun => exact fun hne => absurd rfl hne
  case requests =>
    refine ⟨fun a => a, fun _ => ⟨0, 0⟩, fun a e he => ?_, fun a ha => ?_, fun a b ha => ?_, fun a ha => ?_,
      fun d p hd => ?_, List.Perm.refl _, rfl⟩
    · cases he
    · simp [known, start, init] at ha
    · simp [known, start, init] at ha
    · simp [known, start, init] at ha
    · cases hd
  case pending => exact List.Perm.refl _
  case added => rfl
  case counted =>
    refine ⟨rfl, fun _ _ => rfl, fun i n hn => ?_, List.nodup_nil, fun i hi => ?_⟩
    · cases hn
    · cases hi
  case failed => rfl

theorem run_sound (hthreads : 1 ≤ threads) {moves : List Move}
    (hr : run (move iterations) (start threads) moves = some s) (hc : s.queue.crashed = false) :
    Sound iterations threads s := by
  have hrun := run_invariant (fun s : State => s.queue.crashed = false → Sound iterations threads s) ?_
    (fun _ => start_sound hthreads) hr
  · exact hrun hc
  · exact fun u m v hu hv hcv => sound_move hthreads (hu (move_crashed hv hcv)) hv hcv

section Summary

variable {calls : Nat → Nat}

theorem summary_sum (count : Int) (sum : Nat) (es : List Nat) :
    (summary calls count sum es).2.2 = sum + (es.map calls).sum := by
  induction es generalizing count sum with
  | nil => rfl
  | cons e es ih =>
    rw [summary, ih, List.map_cons, List.sum_cons]
    omega

theorem summary_count (count : Int) (sum : Nat) (es : List Nat) :
    (summary calls count sum es).2.1 = count + es.length := by
  induction es generalizing count sum with
  | nil => simp [summary]
  | cons e es ih =>
    rw [summary, ih, List.length_cons]
    omega

end Summary

/-- The servers whose engines are not in the list. -/
def State.unlinked (s : State) : List Nat := (List.range s.queue.servers.length).filter fun i => i ∉ s.linked

theorem calls_split (h : Counted s) :
    (s.linked.map s.calls).sum + (s.unlinked.map s.calls).sum = s.queue.handed.length := by
  have hsub : ∀ i ∈ s.linked, i ∈ List.range s.queue.servers.length := fun i hi =>
    List.mem_range.mpr (List.getElem?_eq_some_iff.mp (h.linked i hi)).1
  have hlinked : ((List.range s.queue.servers.length).filter fun i => i ∈ s.linked).Perm s.linked := by
    apply (List.perm_ext_iff_of_nodup (List.nodup_range.filter _) h.nodup).mpr
    intro i
    simp only [List.mem_filter, decide_eq_true_eq]
    exact ⟨fun hi => hi.2, fun hi => ⟨hsub i hi, hi⟩⟩
  have hperm := List.filter_append_perm (fun i => decide (i ∈ s.linked)) (List.range s.queue.servers.length)
  have hsum := (hperm.map s.calls).sum_nat
  rw [List.map_append, List.sum_append, h.sum, (hlinked.map s.calls).sum_nat] at hsum
  simpa [State.unlinked] using hsum

/-- An engine that has not been linked has counted a call at least. -/
theorem unlinked_zero (h : Counted s) : (s.unlinked.map s.calls).sum = 0 ↔
    ∀ i, (s.engines i).isSome → i ∈ s.linked := by
  constructor
  · intro hz i hi
    obtain ⟨n, hn⟩ := Option.isSome_iff_exists.mp hi
    by_contra hl
    have hlt : i < s.queue.servers.length := by
      by_contra hge
      rw [h.unborn i (Nat.not_lt.mp hge)] at hn
      cases hn
    have hmem : i ∈ s.unlinked := by simp [State.unlinked, hlt, hl]
    have hcalls := List.sum_eq_zero_iff_forall_eq_nat.mp hz _ (List.mem_map_of_mem hmem)
    rw [State.calls, hn, Option.getD_some] at hcalls
    exact Nat.ne_of_gt (h.positive i n hn) hcalls
  · intro hl
    apply sum_map_zero
    intro i hi
    rw [State.calls]
    cases he : s.engines i with
    | none => rfl
    | some n =>
      have hlinked := hl i (by rw [he]; rfl)
      simp [State.unlinked, hlinked] at hi

/-- When `workq_destroy` has returned, every request has been computed once and no memory of a request is
left. The calls that `main` adds up are all of them exactly if the destructors have run for all servers
that called the engine, which nothing in the program makes sure of. -/
theorem engines_summed (iterations : Nat) (threads : Int) (hthreads : 1 ≤ threads) (moves : List Move) (s : State)
    (count : Int) (hr : run (move iterations) (start threads) moves = some s) (hc : s.queue.crashed = false)
    (hd : s.queue.destroyer = .returned) :
    s.failed = false ∧ s.asked.length = 2 * iterations ∧ s.printed.Perm s.asked ∧
      (∀ d, s.powers.cell d = none) ∧
      (summary s.calls count 0 s.linked).2.1 = count + s.linked.length ∧
      (summary s.calls count 0 s.linked).2.2 + (s.unlinked.map s.calls).sum = 2 * iterations ∧
      ((summary s.calls count 0 s.linked).2.2 = 2 * iterations ↔
        ∀ i, (s.engines i).isSome → i ∈ s.linked) := by
  have h := run_sound hthreads hr hc
  obtain ⟨items, hw⟩ := h.closing.wf
  obtain ⟨request, value, hrequests⟩ := h.requests
  have hbegun := h.begun (by simp [hd])
  have hfinished := finished_perm h.closing (.inr hd)
  have hexited := all_exited h.closing.servers.counts (h.closing.empty (.inr hd)).2
  have hhanded : s.queue.handed.Perm s.queue.added := by
    have hcall : inCall s.queue = [] := by
      rw [inCall, List.filterMap_eq_nil_iff]
      intro pc hm
      rw [hexited pc hm]
      rfl
    have hp := hw.handed_perm
    rw [hcall, List.append_nil] at hp
    exact hp.trans hfinished
  have hpending : s.queue.pending = [] := by
    have hp := h.pending
    simp only [State.items, callers, List.filterMap_cons, List.filterMap_nil, (hbegun _).2] at hp
    exact List.perm_nil.mp hp
  have hlength : s.queue.added.length = 2 * iterations := by
    rw [h.added, (hbegun .main).1, (hbegun .thread).1]
    omega
  have hasked := hrequests.asked
  rw [hpending, List.append_nil] at hasked
  have hsplit := calls_split h.counted
  rw [hhanded.length_eq, hlength] at hsplit
  have hzero := unlinked_zero h.counted
  rw [summary_sum, summary_count, Nat.zero_add]
  refine ⟨h.failed, ?_, ?_, ?_, rfl, hsplit, ?_⟩
  · rw [hasked.length_eq, List.length_map, hlength]
  · rw [hrequests.printed]
    exact (hhanded.map value).trans hasked.symm
  · intro d
    cases hcell : s.powers.cell d with
    | none => rfl
    | some p =>
      obtain ⟨a, ha, hf, -⟩ := hrequests.only d p hcell
      rw [known, hpending] at ha
      exact absurd (hfinished.mem_iff.mpr (ha.resolve_right (by simp))) hf
  · rw [← hzero]
    omega

/-- Two requests, which one server works off. It has returned, but its destructor has not run yet. -/
def lateDestructor : List Move :=
  [.request .main ⟨2, 3⟩, .add .main none, .request .thread ⟨5, 1⟩, .add .thread none] ++
    ([.server 0, .engineCall 0, .engineReturn 0, .server 0, .server 0, .engineCall 0, .engineReturn 0, .server 0,
      .server 0, .server 1, .destroyBegin, .destroyLock, .server 0, .server 1, .destroyWake,
      .destroyEnd] : List Act).map .queue

theorem engines_summed_late :
    ∃ s, run (move 1) (start 4) lateDestructor = some s ∧ s.printed.Perm s.asked ∧ s.asked.length = 2 ∧
      (summary s.calls 0 0 s.linked).2.2 = 0 ∧ (s.unlinked.map s.calls).sum = 2 := by
  have hf : (run (move 1) (start 4) lateDestructor).map
      (fun s => (s.queue.crashed, s.queue.destroyer, s.linked)) = some (false, .returned, []) := by decide
  obtain ⟨s, hs, hs'⟩ := Option.map_eq_some_iff.mp hf
  obtain ⟨hc, hd, hl⟩ : s.queue.crashed = false ∧ s.queue.destroyer = .returned ∧ s.linked = [] := by
    simpa using hs'
  obtain ⟨-, hasked, hprinted, -, -, hsum, -⟩ := engines_summed 1 4 (by decide) lateDestructor s 0 hs hc hd
  have hnone : (summary s.calls 0 0 s.linked).2.2 = 0 := by
    rw [hl]
    rfl
  rw [hnone, Nat.zero_add] at hsum
  exact ⟨s, hs, hprinted, hasked, hnone, hsum⟩

end C11AndC.WorkQueue
