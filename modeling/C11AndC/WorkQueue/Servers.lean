import C11AndC.WorkQueue.Fifo

namespace C11AndC.WorkQueue

open C11AndC.Library

variable {s t : Sys} {items : List Nat} {a : Act}

def live : Server → Bool
  | .exited => false
  | _ => true

/-- The server is inside the timed wait, be it blocked there or only short of the mutex. -/
def inWait : Server → Bool
  | .blocked | .woken _ => true
  | _ => false

/-- The counters tell what they are named for, and after `quit` nobody is left blocked. -/
structure Counts (threads : Int) (s : Sys) : Prop where
  parallelism : s.store.reg.parallelism = threads
  counter : s.store.reg.counter = s.servers.countP live
  idle : s.store.reg.idle = s.servers.countP inWait
  cap : s.store.reg.counter ≤ threads
  quit : s.store.reg.quit = true → .blocked ∉ s.servers

/-- The thread in `workq_destroy` waits with `quit` set, and blocks only while
servers are left to wake it. -/
structure Awaited (s : Sys) : Prop where
  quit : s.destroyer = .waiting ∨ s.destroyer = .woken → s.store.reg.quit = true
  counter : s.destroyer = .waiting → 0 < s.store.reg.counter

/-- As long as there is work, some server is on its way to it. -/
def Served (s : Sys) : Prop :=
  s.store.reg.first ≠ 0 → ∃ pc ∈ s.servers, pc ≠ .exited ∧ pc ≠ .blocked

variable {threads : Int}

theorem exists_live_of_counter (h : Counts threads s) (hc : 0 < s.store.reg.counter) :
    ∃ pc ∈ s.servers, pc ≠ .exited := by
  rw [h.counter] at hc
  obtain ⟨pc, hm, hl⟩ := List.countP_pos_iff.mp (Int.natCast_pos.mp hc)
  exact ⟨pc, hm, by rintro rfl; simp [live] at hl⟩

theorem mem_setServer {i : Nat} {pc pc' : Server} (hi : s.servers[i]? = some pc) :
    pc' ∈ (setServer s i pc').servers := by
  obtain ⟨l₁, l₂, -, hs, -⟩ := split_at hi
  simp [setServer, hs]

theorem not_mem_setServer {i : Nat} {pc pc' : Server} (hi : s.servers[i]? = some pc)
    (hb : .blocked ∉ s.servers) (hpc : pc' ≠ .blocked) :
    .blocked ∉ (setServer s i pc').servers := by
  obtain ⟨l₁, l₂, hl, hs, -⟩ := split_at hi
  rw [hl] at hb
  simp only [setServer, hs]
  simp only [List.mem_append, List.mem_cons, not_or] at hb ⊢
  exact ⟨hb.1, hpc.symm, hb.2.2⟩

/-- The counters follow one server from `pc` to `pc'`. -/
theorem counts_setServer (h : Counts threads s) {i : Nat} {pc pc' : Server}
    (hi : s.servers[i]? = some pc) (hlive : live pc' = live pc) (hwait : inWait pc' = inWait pc)
    (hne : pc' ≠ .blocked) : Counts threads (setServer s i pc') := by
  constructor
  · exact h.parallelism
  · refine h.counter.trans ?_
    have hc := countP_set live hi pc'
    rw [hlive] at hc
    simp only [setServer]
    omega
  · refine h.idle.trans ?_
    have hc := countP_set inWait hi pc'
    rw [hwait] at hc
    simp only [setServer]
    omega
  · exact h.cap
  · exact fun hq => not_mem_setServer hi (h.quit hq) hne

theorem countP_wakeServer (p : Server → Bool) (hp : p (.woken false) = p .blocked)
    (l : List Server) : (l.map wakeServer).countP p = l.countP p := by
  rw [List.countP_map]
  congr 1
  funext pc
  cases pc <;> first | rfl | exact hp

theorem blocked_not_mem_map (l : List Server) : .blocked ∉ l.map wakeServer := by
  intro hm
  obtain ⟨pc, -, hpc⟩ := List.mem_map.mp hm
  cases pc <;> simp [wakeServer] at hpc

theorem wakeServer_ne {pc : Server} (h : pc ≠ .exited) :
    wakeServer pc ≠ .exited ∧ wakeServer pc ≠ .blocked := by
  cases pc <;> simp_all [wakeServer]

theorem counts_broadcast (h : Counts threads s) : Counts threads (broadcast s) := by
  constructor
  · exact h.parallelism
  · rw [broadcast, countP_wakeServer live rfl]
    exact h.counter
  · rw [broadcast, countP_wakeServer inWait rfl]
    exact h.idle
  · exact h.cap
  · exact fun _ => blocked_not_mem_map _

theorem awaited_broadcast
    (h : s.destroyer = .waiting ∨ s.destroyer = .woken → s.store.reg.quit = true) :
    Awaited (broadcast s) := by
  constructor
  · intro hd
    refine h ?_
    cases hs : s.destroyer <;> simp_all [broadcast, wakeDestroyer]
  · intro hd
    cases hs : s.destroyer <;> simp [broadcast, wakeDestroyer, hs] at hd

theorem counts_wake (h : Counts threads s) (x : Waiter) (hb : isBlocked s x = true) :
    Counts threads (wake s x) := by
  cases x with
  | server i =>
    have hi : s.servers[i]? = some .blocked := by simpa [isBlocked] using hb
    rw [wake_server hi]
    exact counts_setServer h hi rfl rfl (by simp [wakeServer])
  | destroyer => exact ⟨h.parallelism, h.counter, h.idle, h.cap, h.quit⟩

theorem awaited_wake (h : Awaited s) (x : Waiter) : Awaited (wake s x) := by
  cases x with
  | server i => exact ⟨h.quit, h.counter⟩
  | destroyer =>
    have hb := awaited_broadcast h.quit
    exact ⟨hb.quit, hb.counter⟩

theorem served_broadcast (h : Served s) : Served (broadcast s) := by
  intro hf
  obtain ⟨pc, hm, hpc⟩ := h hf
  exact ⟨wakeServer pc, List.mem_map_of_mem hm, wakeServer_ne hpc.1⟩

theorem served_setServer {i : Nat} {pc pc' : Server} (hi : s.servers[i]? = some pc)
    (hne : pc' ≠ .exited ∧ pc' ≠ .blocked) : Served (setServer s i pc') :=
  fun _ => ⟨pc', mem_setServer hi, hne⟩

theorem served_wake (h : Served s) (x : Waiter) (hb : isBlocked s x = true) : Served (wake s x) := by
  cases x with
  | server i =>
    have hi : s.servers[i]? = some .blocked := by simpa [isBlocked] using hb
    rw [wake_server hi]
    exact served_setServer hi (by simp [wakeServer])
  | destroyer => exact h

theorem counts_enqueued (h : Counts threads s) (item : Nat) : Counts threads (enqueued s item) := by
  constructor
  · simpa [enqueued] using h.parallelism
  · simpa [enqueued] using h.counter
  · simpa [enqueued] using h.idle
  · simpa [enqueued] using h.cap
  · simpa [enqueued] using h.quit

theorem awaited_enqueued (h : Awaited s) (item : Nat) : Awaited (enqueued s item) := by
  constructor
  · simpa [enqueued] using h.quit
  · simpa [enqueued] using h.counter

theorem counts_signal (h : Counts threads s) {w : Option Waiter} (ht : signal s w = some t) :
    Counts threads t := by
  rcases signal_cases ht with ⟨-, -, rfl⟩ | ⟨x, -, hb, rfl⟩
  · exact h
  · exact counts_wake h x hb

/-- A signal made while servers wait leaves one of them awake: the one it
wakes, or one that was awake already if no server blocks any more. -/
theorem served_signal (h : Counts threads s) (ha : Awaited s) (hidle : 0 < s.store.reg.idle) {w : Option Waiter}
    (ht : signal s w = some t) : Served t := by
  have hwoken : .blocked ∉ s.servers → ∃ pc ∈ s.servers, pc ≠ .exited ∧ pc ≠ .blocked := by
    intro hb
    rw [h.idle] at hidle
    obtain ⟨pc, hm, hw⟩ := List.countP_pos_iff.mp (Int.natCast_pos.mp hidle)
    refine ⟨pc, hm, by rintro rfl; simp [inWait] at hw, by rintro rfl; exact hb hm⟩
  rcases signal_cases ht with ⟨-, hb, rfl⟩ | ⟨x, -, hb, rfl⟩
  · simp only [anyBlocked, Bool.or_eq_false_iff, List.contains_eq_mem, decide_eq_false_iff_not] at hb
    exact fun _ => hwoken hb.1
  · cases x with
    | server i =>
      have hi : s.servers[i]? = some .blocked := by simpa [isBlocked] using hb
      rw [wake_server hi]
      exact served_setServer hi (by simp [wakeServer])
    | destroyer =>
      have hd : s.destroyer = .waiting := by simpa [isBlocked] using hb
      exact fun _ => hwoken (h.quit (ha.quit (.inl hd)))

theorem outOfWait_idle {pc : Server} (hpc : (workqServer pc).isSome) (wq : Workq) :
    (outOfWait pc wq).idle = wq.idle - (if inWait pc then 1 else 0) := by
  cases pc <;> simp_all [outOfWait, inWait, workqServer]

@[simp] theorem outOfWait_quit (pc : Server) (wq : Workq) : (outOfWait pc wq).quit = wq.quit := by
  cases pc <;> rfl

@[simp] theorem outOfWait_counter (pc : Server) (wq : Workq) :
    (outOfWait pc wq).counter = wq.counter := by
  cases pc <;> rfl

@[simp] theorem outOfWait_parallelism (pc : Server) (wq : Workq) :
    (outOfWait pc wq).parallelism = wq.parallelism := by
  cases pc <;> rfl

theorem live_of_workqServer {pc : Server} (hpc : (workqServer pc).isSome) : live pc = true := by
  cases pc <;> simp_all [live, workqServer]

@[simp] theorem withServer_servers (i : Nat) (pc : Server) (st : Store WorkqEle Workq) :
    (withServer s i pc st).servers = (setServer s i pc).servers := by cases pc <;> rfl

@[simp] theorem withServer_destroyer (i : Nat) (pc : Server) (st : Store WorkqEle Workq) :
    (withServer s i pc st).destroyer = s.destroyer := by cases pc <;> rfl

/-- The counters after a server's section. -/
theorem counts_server (h : Counts threads s) {i : Nat} {pc : Server} {r : Server × Bool}
    {st : Store WorkqEle Workq} (hi : s.servers[i]? = some pc) (hpc : (workqServer pc).isSome)
    (he : Effect pc s.store r st) : Counts threads (withServer s i r.1 st) := by
  have hcap := h.cap
  have hl : ∀ pc', ((setServer s i pc').servers.countP live : Int) =
      s.store.reg.counter - 1 + (if live pc' then 1 else 0) := by
    intro pc'
    have hc := countP_set live hi pc'
    rw [live_of_workqServer hpc, ← h.counter] at hc
    simpa [setServer] using hc
  have hw : ∀ pc', ((setServer s i pc').servers.countP inWait : Int) =
      (outOfWait pc s.store.reg).idle + (if inWait pc' then 1 else 0) := by
    intro pc'
    have hc := countP_set inWait hi pc'
    rw [← h.idle] at hc
    rw [outOfWait_idle hpc]
    simpa [setServer] using hc
  have hq : ∀ pc', pc' ≠ .blocked → s.store.reg.quit = true →
      .blocked ∉ (setServer s i pc').servers :=
    fun pc' hne hq => not_mem_setServer hi (h.quit hq) hne
  cases he with
  | block hf hquit => constructor <;> simp [hl, hw, live, inWait, h.parallelism, hcap, hquit]
  | take e b hf he hn =>
    constructor <;> simp [hl, hw, live, inWait, h.parallelism, hcap]
    exact hq _ (by simp)
  | quit hf hquit =>
    constructor <;> simp [hl, hw, live, inWait, h.parallelism]
    · omega
    · exact hq _ (by simp)
  | expire hf hquit =>
    constructor <;> simp [hl, hw, live, inWait, h.parallelism]
    · omega
    · exact hq _ (by simp)
  | again b hb =>
    subst hb
    constructor <;> simp [hl, hw, live, inWait, h.parallelism, hcap, outOfWait]
    exact hq _ (by simp)

theorem counter_pos_of_live (h : Counts threads s) {i : Nat} {pc : Server}
    (hi : s.servers[i]? = some pc) (hpc : live pc = true) : 0 < s.store.reg.counter := by
  rw [h.counter]
  exact Int.natCast_pos.mpr (List.countP_pos_iff.mpr ⟨pc, List.mem_of_getElem? hi, hpc⟩)

/-- The last server to quit wakes the thread in `workq_destroy`. -/
theorem awaited_server (h : Counts threads s) (ha : Awaited s) {i : Nat} {pc : Server}
    {r : Server × Bool} {st : Store WorkqEle Workq} (hi : s.servers[i]? = some pc)
    (hpc : (workqServer pc).isSome) (he : Effect pc s.store r st) :
    Awaited (if r.2 then broadcast (withServer s i r.1 st) else withServer s i r.1 st) := by
  have hpos := counter_pos_of_live h hi (live_of_workqServer hpc)
  have hquit : st.reg.quit = s.store.reg.quit := by cases he <;> simp
  split
  · apply awaited_broadcast
    rw [withServer_destroyer, withServer_store, hquit]
    exact ha.quit
  · rename_i hb
    constructor
    · rw [withServer_destroyer, withServer_store, hquit]
      exact ha.quit
    · rw [withServer_destroyer, withServer_store]
      intro hd
      have hq := ha.quit (.inl hd)
      cases he with
      | block hf hn | expire hf hn => simp [hq] at hn
      | take => simpa using hpos
      | again => exact hpos
      | quit =>
        simp only [decide_eq_true_eq] at hb
        change 0 < s.store.reg.counter - 1
        omega

/-- A server blocks or exits only when it has seen the queue empty. -/
theorem served_server {i : Nat} {pc : Server} {r : Server × Bool}
    {st : Store WorkqEle Workq} (hi : s.servers[i]? = some pc)
    (he : Effect pc s.store r st) : Served (withServer s i r.1 st) := by
  unfold Served
  rw [withServer_store, withServer_servers]
  cases he with
  | block hf | quit hf | expire hf => simp [hf]
  | take => exact fun _ => ⟨_, mem_setServer hi, by simp⟩
  | again => exact fun _ => ⟨_, mem_setServer hi, by simp⟩

/-- What holds of the servers in every state of every run. -/
structure ServersOk (threads : Int) (s : Sys) : Prop where
  counts : Counts threads s
  awaited : Awaited s
  served : Served s

theorem counts_congr (h : Counts threads s) (hs : t.servers = s.servers)
    (hr : t.store.reg.parallelism = s.store.reg.parallelism ∧
      t.store.reg.counter = s.store.reg.counter ∧ t.store.reg.idle = s.store.reg.idle ∧
      (t.store.reg.quit = true → .blocked ∉ s.servers)) : Counts threads t := by
  obtain ⟨hp, hc, hi, hq⟩ := hr
  constructor
  · rw [hp]; exact h.parallelism
  · rw [hc, hs]; exact h.counter
  · rw [hi, hs]; exact h.idle
  · rw [hc]; exact h.cap
  · rw [hs]; exact hq

theorem blocked_not_mem_of_idle (h : Counts threads s) (hidle : s.store.reg.idle ≤ 0) :
    .blocked ∉ s.servers := by
  intro hm
  have hpos : 0 < s.servers.countP inWait := List.countP_pos_iff.mpr ⟨_, hm, rfl⟩
  have := h.idle
  omega

/-- With all servers busy and as many of them as allowed, nobody needs to be woken. -/
theorem served_full (hthreads : 1 ≤ threads) (h : Counts threads s)
    (hidle : s.store.reg.idle ≤ 0) (hfull : s.store.reg.parallelism ≤ s.store.reg.counter) :
    ∃ pc ∈ s.servers, pc ≠ .exited ∧ pc ≠ .blocked := by
  have hp := h.parallelism
  obtain ⟨pc, hm, hpc⟩ := exists_live_of_counter h (by omega)
  refine ⟨pc, hm, hpc, ?_⟩
  rintro rfl
  exact blocked_not_mem_of_idle h hidle hm

theorem counts_create (h : Counts threads s) {item : Nat}
    (hlt : s.store.reg.counter < s.store.reg.parallelism) :
    Counts threads { enqueued s item with
      store := ⟨(appended s.store item).mem, { (appended s.store item).reg with
        counter := s.store.reg.counter + 1 }⟩
      servers := s.servers ++ [.starting] } := by
  have hp := h.parallelism
  have hc := h.counter
  have hi := h.idle
  constructor
  · simpa using hp
  · simp [List.countP_append, live, hc]
  · simp [List.countP_append, inWait, hi]
  · change s.store.reg.counter + 1 ≤ threads
    omega
  · simpa using h.quit

theorem trans_serversOk (hthreads : 1 ≤ threads) (h : ServersOk threads s)
    (ht : Trans s a t) : ServersOk threads t := by
  obtain ⟨hc, ha, hs⟩ := h
  cases ht with
  | refuse => exact ⟨hc, ha, hs⟩
  | allocate | crash =>
    exact ⟨counts_congr hc rfl ⟨rfl, rfl, rfl, hc.quit⟩, ⟨ha.quit, ha.counter⟩, hs⟩
  | addIdle item w hh hi hl hidle t ht =>
    have he := awaited_enqueued ha item
    have hcnt := counts_enqueued hc item
    refine ⟨counts_signal hcnt ht, ?_, served_signal hcnt he (by simpa [enqueued] using hidle) ht⟩
    rcases signal_cases ht with ⟨-, -, rfl⟩ | ⟨x, -, -, rfl⟩
    · exact he
    · exact awaited_wake he x
  | addCreate item hh hi hl hidle hlt =>
    refine ⟨counts_create hc hlt, ?_, fun _ => ⟨.starting, by simp, by simp⟩⟩
    refine ⟨by simpa [enqueued] using ha.quit, fun hd => ?_⟩
    have hpos := ha.counter hd
    change 0 < s.store.reg.counter + 1
    omega
  | addFull item hh hi hl hidle hfull =>
    have hserved := served_full hthreads hc hidle hfull
    exact ⟨counts_enqueued hc item, awaited_enqueued ha item, fun _ => hserved⟩
  | server i pc r st hi hh hpc he =>
    have hcnt := counts_server hc hi hpc he
    refine ⟨?_, awaited_server hc ha hi hpc he, ?_⟩
    · split
      · exact counts_broadcast hcnt
      · exact hcnt
    · split
      · exact served_broadcast (served_server hi he)
      · exact served_server hi he
  | engineCall i we b hi =>
    have hcnt : Counts threads (setServer s i (.inEngine we b)) :=
      counts_setServer hc hi rfl rfl (by simp)
    exact ⟨counts_congr hcnt rfl ⟨rfl, rfl, rfl, hcnt.quit⟩, ⟨ha.quit, ha.counter⟩,
      fun _ => ⟨.inEngine we b, mem_setServer hi, by simp⟩⟩
  | engineReturn i we b hi =>
    have hcnt : Counts threads (setServer s i (.relocking b)) :=
      counts_setServer hc hi rfl rfl (by simp)
    exact ⟨counts_congr hcnt rfl ⟨rfl, rfl, rfl, hcnt.quit⟩, ⟨ha.quit, ha.counter⟩,
      fun _ => ⟨.relocking b, mem_setServer hi, by simp⟩⟩
  | spurious x hb => exact ⟨counts_wake hc x hb, awaited_wake ha x, served_wake hs x hb⟩
  | expire i pc hi hpc =>
    have hpc' : live pc = true ∧ inWait pc = true := by
      rcases hpc with rfl | ⟨b, rfl⟩ <;> exact ⟨rfl, rfl⟩
    exact ⟨counts_setServer hc hi hpc'.1.symm hpc'.2.symm (by simp), ⟨ha.quit, ha.counter⟩,
      served_setServer hi (by simp)⟩
  | destroyBegin | destroyPass | destroyLeave | destroyEnd =>
    exact ⟨counts_congr hc rfl ⟨rfl, rfl, rfl, hc.quit⟩, ⟨by simp, by simp⟩, hs⟩
  | destroyAgain hh hd hpos =>
    exact ⟨counts_congr hc rfl ⟨rfl, rfl, rfl, hc.quit⟩,
      ⟨fun _ => ha.quit (.inr hd), fun _ => hpos⟩, hs⟩
  | destroyWait hh hd hpos t ht =>
    subst ht
    split
    · have hcnt : Counts threads (broadcast s) := counts_broadcast hc
      exact ⟨counts_congr hcnt rfl ⟨rfl, rfl, rfl, fun _ => blocked_not_mem_map _⟩,
        ⟨fun _ => rfl, fun _ => hpos⟩, served_broadcast hs⟩
    · have hb := blocked_not_mem_of_idle hc (by omega)
      exact ⟨counts_congr hc rfl ⟨rfl, rfl, rfl, fun _ => hb⟩, ⟨fun _ => rfl, fun _ => hpos⟩, hs⟩

theorem init_serversOk (hthreads : 1 ≤ threads) : ServersOk threads (init threads) := by
  refine ⟨⟨rfl, rfl, rfl, ?_, by simp [init]⟩, ⟨by simp [init], by simp [init]⟩, fun h => absurd rfl h⟩
  change (0 : Int) ≤ threads
  omega

theorem run_serversOk (hthreads : 1 ≤ threads) {acts : List Act}
    (hr : run step (init threads) acts = some s) :
    (∃ items, Wf s items) ∧ ServersOk threads s := by
  refine run_invariant (fun s => (∃ items, Wf s items) ∧ ServersOk threads s) ?_
    ⟨⟨[], init_wf threads⟩, init_serversOk hthreads⟩ hr
  rintro s a t ⟨⟨items, hw⟩, h⟩ ht
  exact ⟨step_wf ⟨items, hw⟩ ht, trans_serversOk hthreads h (step_trans hw ht)⟩

/-- In every state of every run `counter` is the number of servers that have not
exited, `idle` the number of those inside the timed wait, and work in the queue is
never left to servers that all block without a signal. -/
theorem work_not_stranded (threads : Int) (hthreads : 1 ≤ threads) (acts : List Act) (s : Sys)
    (hr : run step (init threads) acts = some s) :
    s.store.reg.counter = s.servers.countP live ∧
      0 ≤ s.store.reg.idle ∧ s.store.reg.idle ≤ s.store.reg.counter ∧
      s.store.reg.counter ≤ s.store.reg.parallelism ∧
      s.store.reg.idle = s.servers.countP inWait ∧
      (s.store.reg.first ≠ 0 → ∃ pc ∈ s.servers, pc ≠ .exited ∧ pc ≠ .blocked) := by
  obtain ⟨-, h⟩ := run_serversOk hthreads hr
  have hle : s.servers.countP inWait ≤ s.servers.countP live := by
    refine List.countP_mono_left fun pc _ hw => ?_
    cases pc <;> first | rfl | simp [inWait] at hw
  have hi := h.counts.idle
  have hc := h.counts.counter
  have hp := h.counts.parallelism
  have hcap := h.counts.cap
  exact ⟨hc, by omega, by omega, by omega, hi, h.served⟩

def twoRequests : List Act := [.addBegin 10, .addLocked 1 none, .addBegin 20, .addLocked 2 none]

/-- Two requests reach a queue of one server before that server runs. -/
theorem work_not_stranded_twoRequests :
    ∃ s, run step (init 1) twoRequests = some s ∧ s.store.reg.first = 1 ∧
      ∃ pc ∈ s.servers, pc ≠ .exited ∧ pc ≠ .blocked := by
  have hf : (run step (init 1) twoRequests).map (·.store.reg.first) = some 1 := by decide
  obtain ⟨s, hs, hfirst⟩ := Option.map_eq_some_iff.mp hf
  have h := work_not_stranded 1 (by decide) twoRequests s hs
  exact ⟨s, hs, hfirst, h.2.2.2.2.2 (by simp [hfirst])⟩

end C11AndC.WorkQueue
