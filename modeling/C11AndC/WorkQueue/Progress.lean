import C11AndC.Library.Progress
import C11AndC.WorkQueue.Shutdown

namespace C11AndC.WorkQueue

open C11AndC.Library

variable {s t : Sys} {a : Act} {items : List Nat} {threads : Int}

/-- The mutex has an owner between its steps only if that server is at the head of its loop. -/
def Owned (s : Sys) : Prop := ∀ i, s.servers[i]? = some .top ↔ s.holder = some i

theorem mutexAt_iff {i j : Nat} {pc : Server} : mutexAt i pc = some j ↔ pc = .top ∧ i = j := by
  cases pc <;> simp [mutexAt]

theorem owned_setServer (h : Owned s) {i : Nat} {pc : Server} (hi : s.servers[i]? = some pc)
    (pc' : Server) (hh : s.holder = mutexAt i pc) : Owned { setServer s i pc' with holder := mutexAt i pc' } := by
  intro j
  change (s.servers.set i pc')[j]? = some .top ↔ mutexAt i pc' = some j
  rw [mutexAt_iff, List.getElem?_set]
  by_cases hij : i = j
  · subst hij
    simp [(List.getElem?_eq_some_iff.mp hi).1]
  · rw [if_neg hij, h j, hh, mutexAt_iff]
    simp [hij]

/-- A step of a server that neither takes the mutex nor gives it back. -/
theorem owned_move (h : Owned s) {i : Nat} {pc pc' : Server} (hi : s.servers[i]? = some pc)
    (hpc : pc ≠ .top) (hpc' : pc' ≠ .top) : Owned (setServer s i pc') := by
  intro j
  change (s.servers.set i pc')[j]? = some .top ↔ s.holder = some j
  rw [← h j, List.getElem?_set]
  by_cases hij : i = j
  · subst hij
    rw [if_pos rfl, if_pos (List.getElem?_eq_some_iff.mp hi).1, hi]
    simp [hpc, hpc']
  · rw [if_neg hij]

theorem owned_congr (h : Owned s) (hs : t.servers = s.servers) (hh : t.holder = s.holder) : Owned t := by
  intro j
  rw [hs, hh]
  exact h j

theorem owned_broadcast (h : Owned s) : Owned (broadcast s) := by
  intro j
  change (s.servers.map wakeServer)[j]? = some .top ↔ s.holder = some j
  rw [← h j, List.getElem?_map]
  cases hj : s.servers[j]? with
  | none => simp
  | some pc => cases pc <;> simp [wakeServer]

theorem owned_wake (h : Owned s) (x : Waiter) (hb : isBlocked s x = true) : Owned (wake s x) := by
  cases x with
  | server i =>
    have hi : s.servers[i]? = some .blocked := by simpa [isBlocked] using hb
    rw [wake_server hi]
    exact owned_move h hi (by simp) (by simp [wakeServer])
  | destroyer => exact owned_congr h rfl rfl

theorem owned_withServer (h : Owned s) {i : Nat} {pc pc' : Server} {st : Store WorkqEle Workq}
    (hi : s.servers[i]? = some pc) (hh : s.holder = mutexAt i pc) : Owned (withServer s i pc' st) := by
  apply owned_congr (owned_setServer h hi pc' hh)
  · exact withServer_servers i pc' st
  · cases pc' <;> rfl

theorem trans_owned (h : Owned s) (ht : Trans s a t) : Owned t := by
  cases ht with
  | refuse => exact h
  | allocate | crash | addFull | destroyBegin | destroyPass | destroyAgain | destroyLeave | destroyEnd =>
    exact owned_congr h rfl rfl
  | addIdle item w hh hi hl hidle t ht =>
    have he : Owned (enqueued s item) := owned_congr h rfl rfl
    obtain ⟨-, -, rfl⟩ | ⟨x, -, hb, rfl⟩ := signal_cases ht
    · exact he
    · exact owned_wake he x hb
  | addCreate item hh =>
    intro j
    change (s.servers ++ [.starting])[j]? = some .top ↔ s.holder = some j
    rw [← h j, List.getElem?_append]
    split_ifs with hj
    · exact Iff.rfl
    · rw [List.getElem?_eq_none (Nat.not_lt.mp hj)]
      cases j - s.servers.length <;> simp
  | server i pc r st hi hh =>
    have hw : Owned (withServer s i r.1 st) := owned_withServer h hi hh
    split
    · exact owned_broadcast hw
    · exact hw
  | engineCall i we b hi => exact owned_congr (owned_move h hi (by simp) (by simp)) rfl rfl
  | engineReturn i we b hi => exact owned_congr (owned_move h hi (by simp) (by simp)) rfl rfl
  | spurious x hb => exact owned_wake h x hb
  | expire i pc hi hpc =>
    apply owned_move h hi _ (by simp)
    obtain rfl | ⟨b, rfl⟩ := hpc <;> simp
  | destroyWait hh hd hc t ht =>
    subst ht
    split
    · exact owned_congr (owned_broadcast h) rfl rfl
    · exact owned_congr h rfl rfl

theorem init_owned (threads : Int) : Owned (init threads) := by
  intro j
  simp [init]

/-- The steps of a server until it next blocks or exits, if it gets no further element. -/
def Server.rank : Server → Nat
  | .exited => 0
  | .blocked => 1
  | .woken _ | .starting | .top => 3
  | .relocking _ => 4
  | .inEngine _ _ => 5
  | .calling _ _ => 6

def Destroyer.rank (servers : Nat) : Destroyer → Nat
  | .absent | .returned => 0
  | .entering => 2 * servers + 4
  | .waiting => 2
  | .woken => 3
  | .leaving => 1

/-- The elements in the queue. -/
def Sys.queued (s : Sys) : Nat := s.added.length - s.taken.length

/-- The steps left until the queue has been destroyed, if no thread is woken without a reason. -/
def Sys.rest (s : Sys) : Nat :=
  4 * s.queued + (s.servers.map Server.rank).sum + s.destroyer.rank s.servers.length

theorem rank_wakeServer (pc : Server) : (wakeServer pc).rank ≤ pc.rank + 2 := by
  cases pc <;> simp [wakeServer, Server.rank]

theorem ranks_wake (l : List Server) :
    ((l.map wakeServer).map Server.rank).sum ≤ (l.map Server.rank).sum + 2 * l.length := by
  induction l with
  | nil => simp
  | cons pc l ih =>
    have hpc := rank_wakeServer pc
    simp only [List.map_cons, List.sum_cons, List.length_cons]
    omega

theorem map_wakeServer (l : List Server) (hb : .blocked ∉ l) : l.map wakeServer = l := by
  apply List.map_congr_left (g := id) _ |>.trans (List.map_id l)
  intro pc hm
  cases pc <;> first | rfl | exact absurd hm hb

/-- A server's own step, seen from the measure. -/
theorem rest_setServer {i : Nat} {pc : Server} (hi : s.servers[i]? = some pc) (pc' : Server) :
    (setServer s i pc').rest + pc.rank = s.rest + pc'.rank := by
  have hsum := sum_map_set Server.rank hi pc'
  simp only [Sys.rest, Sys.queued, setServer, List.length_set]
  omega

theorem rest_congr (hs : t.servers = s.servers) (ha : t.added = s.added) (ht : t.taken = s.taken)
    (hd : t.destroyer = s.destroyer) : t.rest = s.rest := by
  simp only [Sys.rest, Sys.queued, hs, ha, ht, hd]

theorem rest_wake (x : Waiter) (hb : isBlocked s x = true) : (wake s x).rest ≤ s.rest + 2 := by
  cases x with
  | server i =>
    have hi : s.servers[i]? = some .blocked := by simpa [isBlocked] using hb
    have hset := rest_setServer hi (wakeServer .blocked)
    rw [wake_server hi]
    simp only [wakeServer, Server.rank] at hset ⊢
    omega
  | destroyer =>
    have hd : s.destroyer = .waiting := by simpa [isBlocked] using hb
    simp only [Sys.rest, Sys.queued, wake, hd, wakeDestroyer, Destroyer.rank]
    omega

/-- A broadcast when no server blocks reaches the destroyer at most. -/
theorem rest_broadcast (hb : .blocked ∉ s.servers) : (broadcast s).rest ≤ s.rest + 1 := by
  have hd : (wakeDestroyer s.destroyer).rank s.servers.length ≤ s.destroyer.rank s.servers.length + 1 := by
    cases s.destroyer <;> simp [wakeDestroyer, Destroyer.rank]
  simp only [Sys.rest, Sys.queued, broadcast, map_wakeServer s.servers hb]
  omega

theorem rank_of_workqServer {pc : Server} (hpc : (workqServer pc).isSome) : 3 ≤ pc.rank := by
  cases pc <;> simp_all [workqServer, Server.rank]

theorem rest_lt {i : Nat} {pc : Server} (hi : s.servers[i]? = some pc) (pc' : Server) (hlt : pc'.rank < pc.rank) :
    (setServer s i pc').rest < s.rest := by
  have hset := rest_setServer hi pc'
  omega

theorem rest_withServer {i : Nat} {pc : Server} (st : Store WorkqEle Workq) (hpc : carried pc = none) :
    (withServer s i pc st).rest = (setServer s i pc).rest := by
  apply rest_congr (withServer_servers i pc st)
  · cases pc <;> rfl
  · cases pc <;> first | rfl | cases hpc
  · cases pc <;> rfl

theorem queued_pos (hw : Wf s items) (hf : s.store.reg.first ≠ 0) : s.taken.length < s.added.length := by
  rw [hw.order, List.length_append]
  have hitems : items ≠ [] := by
    rintro rfl
    exact hf hw.chain
  have hpos := List.length_pos_iff.mpr hitems
  omega

theorem rest_take (hw : Wf s items) (hf : s.store.reg.first ≠ 0) {i we : Nat} {b : Bool} {pc : Server}
    {st : Store WorkqEle Workq} (hi : s.servers[i]? = some pc) (hpc : 3 ≤ pc.rank) :
    (withServer s i (.calling we b) st).rest < s.rest := by
  have hqueued := queued_pos hw hf
  have hset := rest_setServer hi (.calling we b)
  have hrank : (Server.calling we b).rank = 6 := rfl
  have htake : (withServer s i (.calling we b) st).rest + 4 = (setServer s i (.calling we b)).rest := by
    simp only [Sys.rest, Sys.queued, withServer, recordTaken, setServer, List.length_append,
      List.length_singleton]
    omega
  omega

/-- The server exits, and what its broadcast can still wake is the destroyer. -/
theorem rest_quit (h : Counts threads s) (hq : s.store.reg.quit = true) {i : Nat} {pc : Server}
    {st : Store WorkqEle Workq} (hi : s.servers[i]? = some pc) (hpc : 3 ≤ pc.rank) (c : Bool) :
    (if c then broadcast (withServer s i .exited st) else withServer s i .exited st).rest < s.rest := by
  have hset := rest_setServer hi .exited
  have hrank : Server.exited.rank = 0 := rfl
  have hexit := rest_withServer (s := s) (i := i) st (rfl : carried .exited = none)
  have hblocked : .blocked ∉ (withServer s i .exited st).servers := by
    rw [withServer_servers]
    exact not_mem_setServer hi (h.quit hq) (by simp)
  have hup := rest_broadcast hblocked
  split
  · omega
  · omega

/-- A section of a server brings the end nearer: an element leaves the queue, or the server falls back. -/
theorem rest_server (h : Counts threads s) (hw : Wf s items) {i : Nat} {pc : Server} {r : Server × Bool}
    {st : Store WorkqEle Workq} (hi : s.servers[i]? = some pc) (hpc : (workqServer pc).isSome)
    (he : Effect pc s.store r st) :
    (if r.2 then broadcast (withServer s i r.1 st) else withServer s i r.1 st).rest < s.rest := by
  have hrank := rank_of_workqServer hpc
  cases he with
  | block hf hq =>
    simp only [Bool.false_eq_true, ↓reduceIte, rest_withServer _ (rfl : carried .blocked = none)]
    exact rest_lt hi _ (Nat.lt_of_lt_of_le (by decide) hrank)
  | take e b hf he hn => exact rest_take hw hf hi hrank
  | quit hf hq => exact rest_quit h hq hi hrank _
  | expire hf hq =>
    simp only [Bool.false_eq_true, ↓reduceIte, rest_withServer _ (rfl : carried .exited = none)]
    exact rest_lt hi _ (Nat.lt_of_lt_of_le (by decide) hrank)
  | again b hb =>
    subst hb
    simp only [Bool.false_eq_true, ↓reduceIte, rest_withServer _ (rfl : carried .top = none)]
    exact rest_lt hi _ (Nat.lt_succ_self 3)

/-- What a thread does once it is scheduled, as against what only happens to it. -/
def isWork : Act → Bool
  | .server _ | .engineCall _ | .engineReturn _ | .destroyLock | .destroyWake | .destroyEnd => true
  | _ => false

/-- The program from the call of `workq_destroy` on, after the last of `workq_add`. -/
def closingStep (s : Sys) (a : Act) : Option Sys := if isAdd a then none else step s a

theorem closingStep_eq {t : Sys} : closingStep s a = some t ↔ isAdd a = false ∧ step s a = some t := by
  unfold closingStep
  cases isAdd a <;> simp

theorem rest_destroyer {d : Destroyer} (hd : d.rank s.servers.length < s.destroyer.rank s.servers.length) :
    ({ s with destroyer := d } : Sys).rest < s.rest := by
  simp only [Sys.rest, Sys.queued]
  omega

theorem rest_destroyWait (hd : s.destroyer = .entering) (wq : Workq) (c : Prop) [Decidable c] :
    ({ (if c then broadcast { s with store := ⟨s.store.mem, wq⟩ } else { s with store := ⟨s.store.mem, wq⟩ }) with
      destroyer := .waiting } : Sys).rest < s.rest := by
  have hup := ranks_wake s.servers
  split
  · simp only [Sys.rest, Sys.queued, broadcast, hd, Destroyer.rank]
    omega
  · simp only [Sys.rest, Sys.queued, hd, Destroyer.rank]
    omega

theorem trans_down (h : ServersOk threads s) (hw : Wf s items) (ha : isWork a = true) (ht : Trans s a t) :
    t.rest < s.rest := by
  cases ht with
  | refuse | allocate | crash | addIdle | addCreate | addFull | spurious | expire | destroyBegin => cases ha
  | server i pc r st hi hh hpc he => exact rest_server h.counts hw hi hpc he
  | engineCall i we b hi => exact rest_lt hi (.inEngine we b) (Nat.lt_succ_self 5)
  | engineReturn i we b hi => exact rest_lt hi (.relocking b) (Nat.lt_succ_self 4)
  | destroyWait hh hd hc t ht =>
    subst ht
    exact rest_destroyWait hd _ _
  | destroyPass hh hd hc =>
    exact rest_destroyer (d := .leaving) (by simp only [hd, Destroyer.rank]; omega)
  | destroyAgain hh hd hc => exact rest_destroyer (by simp [hd, Destroyer.rank])
  | destroyLeave hh hd hc => exact rest_destroyer (by simp [hd, Destroyer.rank])
  | destroyEnd hd => exact rest_destroyer (by simp [hd, Destroyer.rank])

theorem trans_up (hd : s.destroyer ≠ .absent) (hadd : isAdd a = false) (ha : isWork a = false)
    (ht : Trans s a t) : t.rest ≤ s.rest + 2 := by
  cases ht with
  | refuse | allocate | crash | addIdle | addCreate | addFull => cases hadd
  | server | engineCall | engineReturn | destroyWait | destroyPass | destroyAgain | destroyLeave | destroyEnd =>
    cases ha
  | spurious x hb => exact rest_wake x hb
  | expire i pc hi hpc =>
    have hset := rest_setServer hi (.woken true)
    have hrank : (Server.woken true).rank = 3 := rfl
    obtain rfl | ⟨b, rfl⟩ := hpc
    · have hrank' : Server.blocked.rank = 1 := rfl
      omega
    · have hrank' : (Server.woken b).rank = 3 := rfl
      omega
  | destroyBegin habsent => exact absurd habsent hd

theorem trans_begun (hd : s.destroyer ≠ .absent) (ht : Trans s a t) : t.destroyer ≠ .absent := by
  have hwake : ∀ d : Destroyer, d ≠ .absent → wakeDestroyer d ≠ .absent := by
    intro d hne
    cases d <;> simp [wakeDestroyer] at hne ⊢
  cases ht with
  | refuse | allocate | crash | addCreate | addFull | engineCall | engineReturn | expire => exact hd
  | addIdle item w hh hi hl hidle t ht =>
    obtain ⟨-, -, rfl⟩ | ⟨x, -, -, rfl⟩ := signal_cases ht
    · exact hd
    · cases x with
      | server i => exact hd
      | destroyer => exact hwake _ hd
  | server i pc r st =>
    split
    · exact hwake _ (by rwa [withServer_destroyer])
    · rwa [withServer_destroyer]
  | spurious x hb =>
    cases x with
    | server i => exact hd
    | destroyer => exact hwake _ hd
  | destroyBegin | destroyWait | destroyPass | destroyAgain | destroyLeave | destroyEnd => simp

/-- What holds while the queue is being destroyed. -/
structure Ending (threads : Int) (s : Sys) : Prop where
  closing : Closing threads s
  owned : Owned s
  begun : s.destroyer ≠ .absent

theorem ending_descends (hthreads : 1 ≤ threads) :
    Descends closingStep isWork (Ending threads) 2 Sys.rest := by
  constructor
  case keep =>
    intro s a t h hs
    obtain ⟨ha, ht⟩ := closingStep_eq.mp hs
    obtain ⟨items, hw⟩ := h.closing.wf
    have htr := step_trans hw ht
    exact ⟨closing_step hthreads h.closing ha ht, trans_owned h.owned htr, trans_begun h.begun htr⟩
  case down =>
    intro s a t h hs hwork
    obtain ⟨-, ht⟩ := closingStep_eq.mp hs
    obtain ⟨items, hw⟩ := h.closing.wf
    exact trans_down h.closing.servers hw hwork (step_trans hw ht)
  case up =>
    intro s a t h hs hwork
    obtain ⟨ha, ht⟩ := closingStep_eq.mp hs
    obtain ⟨items, hw⟩ := h.closing.wf
    exact trans_up h.begun ha hwork (step_trans hw ht)

section Stuck

theorem within_isSome {β : Type} {p : Section β} {k : β → Sys → Option Sys} (hk : ∀ r u, (k r u).isSome) :
    (within s p k).isSome := by
  unfold within
  split
  · exact hk _ _
  · rfl

theorem serverStep_isSome {i : Nat} {pc : Server} (hi : s.servers[i]? = some pc) (hpc : (workqServer pc).isSome)
    (hh : s.holder = mutexAt i pc) : (serverStep s i).isSome := by
  obtain ⟨p, hp⟩ := Option.isSome_iff_exists.mp hpc
  simp only [serverStep, hi, hh, if_true, hp]
  exact within_isSome fun r u => rfl

/-- Nothing but the end of a server, or its wait, keeps it from going on. -/
theorem server_moves (ho : Owned s) (hfree : s.holder = none) {i : Nat} {pc : Server}
    (hi : s.servers[i]? = some pc) (hne : pc ≠ .exited) (hblocked : pc ≠ .blocked) :
    ∃ a, isWork a = true ∧ isAdd a = false ∧ (enabledStep s a).isSome := by
  have hmutex : mutexAt i pc = none := by
    cases hm : mutexAt i pc with
    | none => rfl
    | some j =>
      obtain ⟨rfl, rfl⟩ := mutexAt_iff.mp hm
      rw [(ho i).mp hi] at hfree
      cases hfree
  cases pc with
  | starting | top | woken | relocking =>
    exact ⟨.server i, rfl, rfl, serverStep_isSome hi rfl (hfree.trans hmutex.symm)⟩
  | calling we b =>
    apply Exists.intro (Act.engineCall i)
    simp only [enabledStep, engineCall, hi]
    exact ⟨rfl, rfl, within_isSome fun r u => rfl⟩
  | inEngine we b =>
    apply Exists.intro (Act.engineReturn i)
    simp only [enabledStep, engineReturn, hi]
    exact ⟨rfl, rfl, within_isSome fun r u => rfl⟩
  | blocked => exact absurd rfl hblocked
  | exited => exact absurd rfl hne

theorem owner_moves (ho : Owned s) {i : Nat} (hh : s.holder = some i) :
    ∃ a, isWork a = true ∧ isAdd a = false ∧ (enabledStep s a).isSome :=
  ⟨.server i, rfl, rfl, serverStep_isSome ((ho i).mpr hh) rfl hh⟩

theorem destroyer_moves (hfree : s.holder = none) (hne : s.destroyer ≠ .absent) (hend : s.destroyer ≠ .returned)
    (hwait : s.destroyer ≠ .waiting) : ∃ a, isWork a = true ∧ isAdd a = false ∧ (enabledStep s a).isSome := by
  cases hd : s.destroyer with
  | absent => exact absurd hd hne
  | returned => exact absurd hd hend
  | waiting => exact absurd hd hwait
  | entering =>
    apply Exists.intro Act.destroyLock
    simp only [enabledStep, destroyLock, hfree, hd, and_self, if_true]
    exact ⟨rfl, rfl, within_isSome fun r u => rfl⟩
  | woken =>
    apply Exists.intro Act.destroyWake
    simp only [enabledStep, destroyWake, hfree, hd, and_self, if_true]
    exact ⟨rfl, rfl, within_isSome fun r u => rfl⟩
  | leaving =>
    apply Exists.intro Act.destroyEnd
    simp [enabledStep, hd, isWork, isAdd]

/-- As long as `workq_destroy` has not returned, some thread can go on by itself. -/
theorem ending_moves (h : Ending threads s) (hend : s.destroyer ≠ .returned) :
    ∃ a, isWork a = true ∧ isAdd a = false ∧ (enabledStep s a).isSome := by
  cases hh : s.holder with
  | some i => exact owner_moves h.owned hh
  | none =>
    by_cases hwait : s.destroyer = .waiting
    · have hservers := h.closing.servers
      obtain ⟨pc, hm, hne⟩ := exists_live_of_counter hservers.counts (hservers.awaited.counter hwait)
      obtain ⟨i, hi⟩ := List.mem_iff_getElem?.mp hm
      apply server_moves h.owned hh hi hne
      rintro rfl
      exact hservers.counts.quit (hservers.awaited.quit (.inl hwait)) hm
    · exact destroyer_moves hh h.begun hend hwait

end Stuck

/-- The queue is gone: every request has been through the engine and no server is left. -/
structure Destroyed (s : Sys) : Prop where
  returned : s.destroyer = .returned
  crashed : s.crashed = false
  finished : s.finished.Perm s.added
  empty : s.store.reg.first = 0
  exited : ∀ pc ∈ s.servers, pc = .exited

theorem destroyed_of_stuck (h : Ending threads s) (hs : Stuck closingStep isWork s) : Destroyed s := by
  have hend : s.destroyer = .returned := by
    by_contra hne
    obtain ⟨a, hwork, hadd, hsome⟩ := ending_moves h hne
    have hnone := hs a hwork
    simp only [closingStep, step, hadd, h.closing.crashed, Bool.false_eq_true, if_false] at hnone
    rw [hnone] at hsome
    cases hsome
  obtain ⟨hf, hc⟩ := h.closing.empty (.inr hend)
  exact ⟨hend, h.closing.crashed, finished_perm h.closing (.inr hend), hf,
    all_exited h.closing.servers.counts hc⟩

theorem ranks_le (l : List Server) : (l.map Server.rank).sum ≤ l.length * 6 :=
  sum_map_le fun pc _ => by cases pc <;> simp [Server.rank]

/-- Once `workq_destroy` has been called after the last `workq_add`, the servers and the destroyer take a
bounded number of steps, two more for each wake-up without a reason and each deadline that passes. None
of them waits for ever, and when they are through the queue has been worked off and all servers are gone. -/
theorem shutdown_ends (threads : Int) (hthreads : 1 ≤ threads) (before : List Act) (s₀ s : Sys)
    (h₀ : run step (init threads) before = some s₀) (hc : s₀.crashed = false)
    (hs : step s₀ .destroyBegin = some s) :
    Completes closingStep isWork Destroyed s
      (4 * (s.added.length - s.taken.length) + 8 * s.servers.length + 4) 2 := by
  obtain ⟨⟨items, hw⟩, -⟩ := run_serversOk hthreads h₀
  have howned : Owned s₀ := by
    have hrun := run_invariant (fun u => (∃ items, Wf u items) ∧ Owned u) ?_ ⟨⟨[], init_wf threads⟩,
      init_owned threads⟩ h₀
    · exact hrun.2
    · rintro u a v ⟨⟨items, hu⟩, ho⟩ hv
      exact ⟨step_wf ⟨items, hu⟩ hv, trans_owned ho (step_trans hu hv)⟩
  have htr := step_trans hw hs
  have hbegun : s.destroyer = .entering := by
    cases htr
    rfl
  have hending : Ending threads s :=
    ⟨closing_begin hthreads h₀ hc hs, trans_owned howned htr, by simp [hbegun]⟩
  apply completes_of_descends (ending_descends hthreads) (fun u h hu => destroyed_of_stuck h hu) hending
  have hranks := ranks_le s.servers
  simp only [Sys.rest, Sys.queued, hbegun, Destroyer.rank]
  omega

theorem shutdown_ends_oneRequest :
    ∃ s₀ s, run step (init 1) oneRequest = some s₀ ∧ step s₀ .destroyBegin = some s ∧
      Completes closingStep isWork Destroyed s
        (4 * (s.added.length - s.taken.length) + 8 * s.servers.length + 4) 2 := by
  have hf : (run step (init 1) (oneRequest ++ [.destroyBegin])).map (·.destroyer) = some .entering := by decide
  have hcr : (run step (init 1) oneRequest).map (·.crashed) = some false := by decide
  obtain ⟨u, hu, -⟩ := Option.map_eq_some_iff.mp hf
  obtain ⟨s₀, h₀, h₁⟩ := run_append.mp hu
  obtain ⟨s, hs, -⟩ := run_cons.mp h₁
  have hc : s₀.crashed = false := by simpa [h₀] using hcr
  exact ⟨s₀, s, h₀, hs, shutdown_ends 1 (by decide) oneRequest s₀ s h₀ hc hs⟩

end C11AndC.WorkQueue
