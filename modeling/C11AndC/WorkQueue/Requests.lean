import C11AndC.WorkQueue.Shutdown

namespace C11AndC.WorkQueue

open C11AndC.Library

/-- What a request asks for. -/
structure Power where
  value : Int
  power : Int
  deriving DecidableEq

/-- The threads that run `thread_routine`. -/
inductive Caller where
  | main
  | thread
  deriving DecidableEq

/-- A thread in its loop over `count`; it has an item while it is inside of `workq_add`. -/
structure Requester where
  count : Nat
  item : Option Nat

/-- The whole program. `engines` is what the servers have stored under `engine_key`, with the calls that
are counted there, and `linked` is the list from `engine_list_head` on. `failed` is an abort of the
program, or an access to a request that is not there, and `asked` only records the requests made. -/
structure State where
  queue : Sys
  powers : Memory Power
  engines : Nat → Option Nat
  linked : List Nat
  requesters : Caller → Requester
  asked : List Power
  printed : List Power
  failed : Bool

def start (threads : Int) : State :=
  ⟨init threads, Memory.empty, fun _ => none, [], fun _ => ⟨0, none⟩, [], [], false⟩

inductive Move where
  | request (c : Caller) (p : Power)
  | add (c : Caller) (woken : Option Waiter)
  | queue (a : Act)
  | destructor (i : Nat)

/-- The loop of `thread_routine` up to the mutex in `workq_add`. -/
def request (iterations : Nat) (s : State) (c : Caller) (p : Power) : Option State :=
  if (s.requesters c).count < iterations ∧ (s.requesters c).item = none then do
    let q ← step s.queue (.addBegin s.powers.next)
    let s' := { s with queue := q, powers := s.powers.alloc p, asked := s.asked ++ [p] }
    if s.queue.store.reg.valid = workqValid then
      return { s' with
        requesters := Function.update s.requesters c
          ⟨(s.requesters c).count, some s.queue.store.mem.next⟩ }
    else
      return { s' with failed := true }
  else
    none

def add (s : State) (c : Caller) (woken : Option Waiter) : Option State := do
  let item ← (s.requesters c).item
  let q ← step s.queue (.addLocked item woken)
  return { s with
    queue := q
    requesters := Function.update s.requesters c ⟨(s.requesters c).count + 1, none⟩ }

/-- The element that server `i` is with. -/
def element (s : State) (i : Nat) : Option Nat := (s.queue.servers[i]?).bind carried

/-- The request in it. -/
def argument (s : State) (i : Nat) : Option (Nat × Power) := do
  let we ← element s i
  let e ← s.queue.store.mem.cell we
  let p ← s.powers.cell e.data
  return (e.data, p)

/-- `engine_routine` up to the computation. -/
def engineRoutine (s : State) (i : Nat) : State :=
  match argument s i with
  | none => { s with failed := true }
  | some (_, p) => { s with
      engines := Function.update s.engines i (some ((s.engines i).elim 1 (· + 1)))
      printed := s.printed ++ [p] }

/-- Its `free`. -/
def engineFree (s : State) (i : Nat) : State :=
  match argument s i with
  | none => { s with failed := true }
  | some (a, _) => { s with powers := s.powers.free a }

/-- The destructor of `engine_key`, which runs when a server with an engine has returned. -/
def destructor (s : State) (i : Nat) : Option State :=
  if s.queue.servers[i]? = some .exited ∧ (s.engines i).isSome ∧ i ∉ s.linked then
    some { s with linked := i :: s.linked }
  else
    none

def joined (iterations : Nat) (s : State) : Bool :=
  decide (∀ c ∈ [Caller.main, Caller.thread], (s.requesters c).count = iterations ∧ (s.requesters c).item = none)

/-- The rest of the program: the servers, and `main` when it has joined the thread. -/
def queueStep (iterations : Nat) (s : State) (a : Act) : Option State :=
  match a with
  | .addBegin _ | .addLocked _ _ => none
  | .engineCall i => (step s.queue a).map fun q => { engineRoutine s i with queue := q }
  | .engineReturn i => (step s.queue a).map fun q => { engineFree s i with queue := q }
  | .destroyBegin => if joined iterations s then (step s.queue a).map fun q => { s with queue := q } else none
  | a => (step s.queue a).map fun q => { s with queue := q }

def move (iterations : Nat) (s : State) (m : Move) : Option State :=
  if s.failed then none else
  match m with
  | .request c p => request iterations s c p
  | .add c woken => add s c woken
  | .queue a => queueStep iterations s a
  | .destructor i => destructor s i

def State.calls (s : State) (i : Nat) : Nat := (s.engines i).getD 0

/-- The loop of `main` over the engines: the lines it prints, and `count` and `calls` behind it. The
source leaves the first value of `count` open. -/
def summary (calls : Nat → Nat) : Int → Nat → List Nat → List (Int × Nat) × Int × Nat
  | count, sum, [] => ([], count, sum)
  | count, sum, e :: es =>
    let r := summary calls (count + 1) (sum + calls e) es
    ((count + 1, calls e) :: r.1, r.2)

variable {s t : State} {iterations : Nat} {threads : Int}

/-- The elements that `workq_add` has been given. -/
def known (s : Sys) (a : Nat) : Prop := a ∈ s.added ∨ a ∈ s.pending

/-- The element `a` holds the request `value a` at `request a`, until a server has finished with it. There
are no other requests, and what the servers have been given has been printed. -/
structure Requests (request : Nat → Nat) (value : Nat → Power) (s : State) : Prop where
  data : ∀ a e, s.queue.store.mem.cell a = some e → e.data = request a
  fresh : ∀ a, known s.queue a → request a < s.powers.next
  distinct : ∀ a b, known s.queue a → known s.queue b → request a = request b → a = b
  there : ∀ a, known s.queue a → a ∉ s.queue.finished → s.powers.cell (request a) = some (value a)
  only : ∀ d p, s.powers.cell d = some p → ∃ a, known s.queue a ∧ a ∉ s.queue.finished ∧ request a = d
  asked : s.asked.Perm ((s.queue.added ++ s.queue.pending).map value)
  printed : s.printed = s.queue.handed.map value

/-- The steps of the queue leave the requests of the elements alone. -/
structure Keeps (s t : Sys) : Prop where
  cell : ∀ a e, t.store.mem.cell a = some e → ∃ e', s.store.mem.cell a = some e' ∧ e'.data = e.data
  perm : (t.added ++ t.pending).Perm (s.added ++ s.pending)
  finished : t.finished = s.finished

theorem known_iff {s : Sys} {a : Nat} : known s a ↔ a ∈ s.added ++ s.pending := List.mem_append.symm

theorem Keeps.known {s t : Sys} (h : Keeps s t) (a : Nat) : known t a ↔ known s a := by
  rw [known_iff, known_iff]
  exact h.perm.mem_iff

theorem keeps_of_mem {s t : Sys} (hm : t.store.mem = s.store.mem) (ha : t.added = s.added)
    (hp : t.pending = s.pending) (hf : t.finished = s.finished) : Keeps s t :=
  ⟨fun a e he => ⟨e, hm ▸ he, rfl⟩, by rw [ha, hp], hf⟩

theorem appended_data {st : Store WorkqEle Workq} {item a : Nat} {e : WorkqEle}
    (he : (appended st item).mem.cell a = some e) : ∃ e', st.mem.cell a = some e' ∧ e'.data = e.data := by
  unfold appended at he
  split at he
  · exact ⟨e, he, rfl⟩
  · by_cases ha : a = st.reg.last
    · subst ha
      rw [Memory.cell_modify_self, Option.map_eq_some_iff] at he
      obtain ⟨e', he', rfl⟩ := he
      exact ⟨e', he', rfl⟩
    · rw [Memory.cell_modify_ne _ ha] at he
      exact ⟨e, he, rfl⟩

theorem keeps_enqueued {s : Sys} {item : Nat} (hi : item ∈ s.pending) : Keeps s (enqueued s item) := by
  constructor
  case cell => exact fun a e he => appended_data he
  case finished => rfl
  case perm =>
    change (s.added ++ [item] ++ s.pending.erase item).Perm _
    rw [List.append_assoc]
    exact (List.perm_cons_erase hi).symm.append_left s.added

theorem Keeps.trans {s t u : Sys} (h : Keeps s t) (h' : Keeps t u) : Keeps s u := by
  constructor
  case cell =>
    intro a e he
    obtain ⟨e', he', hd⟩ := h'.cell a e he
    obtain ⟨e'', he'', hd'⟩ := h.cell a e' he'
    exact ⟨e'', he'', hd'.trans hd⟩
  case perm => exact h'.perm.trans h.perm
  case finished => exact h'.finished.trans h.finished

theorem keeps_wake {s : Sys} (x : Waiter) : Keeps s (wake s x) := by
  cases x <;> exact keeps_of_mem rfl rfl rfl rfl

/-- All steps but the allocation of an element and its release. -/
theorem keeps_trans {s t : Sys} {a : Act} (hbegin : ∀ d, a ≠ .addBegin d) (hreturn : ∀ i, a ≠ .engineReturn i)
    (ht : Trans s a t) : Keeps s t := by
  cases ht with
  | refuse d | allocate d => exact absurd rfl (hbegin d)
  | engineReturn i => exact absurd rfl (hreturn i)
  | crash | engineCall | expire | destroyBegin | destroyPass | destroyAgain | destroyLeave | destroyEnd =>
    exact keeps_of_mem rfl rfl rfl rfl
  | addIdle item w hh hi hl hidle t ht =>
    obtain ⟨-, -, rfl⟩ | ⟨x, -, -, rfl⟩ := signal_cases ht
    · exact keeps_enqueued hi
    · exact (keeps_enqueued hi).trans (keeps_wake x)
  | addCreate item hh hi => exact (keeps_enqueued hi).trans (keeps_of_mem rfl rfl rfl rfl)
  | addFull item hh hi => exact keeps_enqueued hi
  | server i pc r st hi hh hpc he =>
    have hmem : st.mem = s.store.mem := by cases he <;> rfl
    have hw : Keeps s (withServer s i r.1 st) := by
      apply keeps_of_mem
      · rw [withServer_store, hmem]
      all_goals cases r.1 <;> rfl
    split
    · exact hw.trans (keeps_of_mem rfl rfl rfl rfl)
    · exact hw
  | spurious x => exact keeps_wake x
  | destroyWait hh hd hc t ht =>
    subst ht
    split <;> exact keeps_of_mem rfl rfl rfl rfl

theorem requests_keeps {request : Nat → Nat} {value : Nat → Power} (h : Requests request value s)
    (hk : Keeps s.queue t.queue) (hp : t.powers = s.powers) (ha : t.asked = s.asked)
    (hprinted : t.printed = t.queue.handed.map value) : Requests request value t := by
  constructor
  case data =>
    intro a e he
    obtain ⟨e', he', hd⟩ := hk.cell a e he
    rw [← hd, h.data a e' he']
  case fresh => exact fun a ha => hp ▸ h.fresh a ((hk.known a).mp ha)
  case distinct => exact fun a b ha hb => h.distinct a b ((hk.known a).mp ha) ((hk.known b).mp hb)
  case there =>
    rw [hp, hk.finished]
    exact fun a ha => h.there a ((hk.known a).mp ha)
  case only =>
    rw [hp, hk.finished]
    intro d p hd
    obtain ⟨a, ha, hrest⟩ := h.only d p hd
    exact ⟨a, (hk.known a).mpr ha, hrest⟩
  case asked =>
    rw [ha]
    exact h.asked.trans (hk.perm.symm.map value)
  case printed => exact hprinted

theorem known_lt {s : Sys} {items : List Nat} (hw : Wf s items) {a : Nat} (ha : known s a) :
    a < s.store.mem.next := by
  obtain ha | ha := ha
  · exact hw.bound a ha
  · obtain ⟨d, hd⟩ := hw.pending_cell a ha
    exact Memory.lt_next_of_cell hd

theorem finished_known {s : Sys} {items : List Nat} (hw : Wf s items) {a : Nat} (ha : a ∈ s.finished) :
    known s a := by
  apply Or.inl
  rw [hw.order]
  exact List.mem_append_left _ (hw.taken_perm.symm.subset (List.mem_append_left _ ha))

theorem held_known {s : Sys} {items : List Nat} (hw : Wf s items) {a : Nat} (ha : a ∈ held s) :
    known s a ∧ a ∉ s.finished := by
  apply And.intro (.inl (mem_added_of_mem_held hw ha))
  intro hf
  have hn := (List.nodup_append.mp hw.nodup).1
  rw [hw.order] at hn
  have htaken := hw.taken_perm.nodup_iff.mp (List.nodup_append.mp hn).1
  exact (List.nodup_append.mp htaken).2.2 a hf a ha rfl

/-- A new request and the element for it. -/
theorem requests_alloc {request : Nat → Nat} {value : Nat → Power} {items : List Nat}
    (h : Requests request value s) (hw : Wf s.queue items)
    (p : Power) (hq : t.queue = { s.queue with
      store := ⟨s.queue.store.mem.alloc ⟨0, s.powers.next⟩, s.queue.store.reg⟩
      pending := s.queue.store.mem.next :: s.queue.pending }) (hp : t.powers = s.powers.alloc p)
    (ha : t.asked = s.asked ++ [p]) (hprinted : t.printed = s.printed) :
    Requests (Function.update request s.queue.store.mem.next s.powers.next)
      (Function.update value s.queue.store.mem.next p) t := by
  have hold : ∀ a, known s.queue a → Function.update request s.queue.store.mem.next s.powers.next a = request a :=
    fun a ha => Function.update_of_ne (Nat.ne_of_lt (known_lt hw ha)) ..
  have hvalue : ∀ a, known s.queue a → Function.update value s.queue.store.mem.next p a = value a :=
    fun a ha => Function.update_of_ne (Nat.ne_of_lt (known_lt hw ha)) ..
  have hknown : ∀ a, known t.queue a ↔ a = s.queue.store.mem.next ∨ known s.queue a := by
    intro a
    rw [hq]
    simp only [known, List.mem_cons]
    exact or_left_comm
  have hfinished : t.queue.finished = s.queue.finished := by rw [hq]
  have hnew : s.queue.store.mem.next ∉ s.queue.finished := fun hf =>
    Nat.lt_irrefl _ (known_lt hw (finished_known hw hf))
  constructor
  case data =>
    rw [hq]
    intro a e he
    by_cases ha : a = s.queue.store.mem.next
    · subst ha
      rw [Memory.cell_alloc_self] at he
      cases he
      rw [Function.update_self]
    · rw [Memory.cell_alloc_ne _ ha] at he
      rw [Function.update_of_ne ha]
      exact h.data a e he
  case fresh =>
    rw [hp]
    intro a ha
    obtain rfl | ha := (hknown a).mp ha
    · rw [Function.update_self]
      exact Nat.lt_succ_self _
    · rw [hold a ha]
      exact Nat.lt_succ_of_lt (h.fresh a ha)
  case distinct =>
    intro a b ha hb
    obtain rfl | ha := (hknown a).mp ha <;> obtain rfl | hb := (hknown b).mp hb
    · exact fun _ => rfl
    · rw [Function.update_self, hold b hb]
      exact fun he => absurd (h.fresh b hb) (he ▸ Nat.lt_irrefl _)
    · rw [Function.update_self, hold a ha]
      exact fun he => absurd (h.fresh a ha) (he ▸ Nat.lt_irrefl _)
    · rw [hold a ha, hold b hb]
      exact h.distinct a b ha hb
  case there =>
    rw [hp, hfinished]
    intro a ha hf
    obtain rfl | ha := (hknown a).mp ha
    · rw [Function.update_self, Function.update_self]
      exact Memory.cell_alloc_self ..
    · rw [hold a ha, hvalue a ha]
      exact Memory.kept_alloc _ _ _ _ (h.there a ha hf)
  case only =>
    rw [hp, hfinished]
    intro d p' hd
    by_cases hne : d = s.powers.next
    · subst hne
      exact ⟨_, (hknown _).mpr (.inl rfl), hnew, Function.update_self ..⟩
    · rw [Memory.cell_alloc_ne _ hne] at hd
      obtain ⟨a, ha, hf, rfl⟩ := h.only d p' hd
      exact ⟨a, (hknown a).mpr (.inr ha), hf, hold a ha⟩
  case asked =>
    have hmap : (s.queue.added ++ s.queue.pending).map (Function.update value s.queue.store.mem.next p) =
        (s.queue.added ++ s.queue.pending).map value :=
      List.map_congr_left fun a ha => hvalue a (known_iff.mpr ha)
    have hperm : (s.queue.added ++ s.queue.store.mem.next :: s.queue.pending).Perm
        (s.queue.store.mem.next :: (s.queue.added ++ s.queue.pending)) := List.perm_middle
    rw [ha, hq]
    apply List.Perm.trans _ (hperm.symm.map _)
    rw [List.map_cons, Function.update_self, hmap]
    exact (List.perm_append_singleton _ _).trans (h.asked.cons p)
  case printed =>
    rw [hprinted, h.printed, hq]
    apply List.map_congr_left
    intro a ha
    have hadded : a ∈ s.queue.added := by
      rw [hw.order]
      exact List.mem_append_left _ ((taken_handed hw).symm.subset (List.mem_append_left _ ha))
    exact (hvalue a (.inl hadded)).symm

/-- The request of a finished element goes with it. -/
theorem requests_free {request : Nat → Nat} {value : Nat → Power} {items : List Nat}
    (h : Requests request value s) (hw : Wf s.queue items) {i we : Nat} {b : Bool} (hwe : we ∈ held s.queue)
    (hq : t.queue = { setServer s.queue i (.relocking b) with
      store := ⟨s.queue.store.mem.free we, s.queue.store.reg⟩
      finished := s.queue.finished ++ [we] }) (hp : t.powers = s.powers.free (request we))
    (ha : t.asked = s.asked) (hprinted : t.printed = s.printed) : Requests request value t := by
  have hknown : ∀ a, known t.queue a ↔ known s.queue a := fun a => by rw [hq]; exact Iff.rfl
  have hfinished : ∀ a, a ∉ t.queue.finished ↔ a ∉ s.queue.finished ∧ a ≠ we := fun a => by
    rw [hq]
    simp [List.mem_append, not_or]
  have hwk := (held_known hw hwe).1
  constructor
  case data =>
    rw [hq]
    intro a e he
    have hne : a ≠ we := by
      rintro rfl
      rw [Memory.cell_free_self] at he
      cases he
    rw [Memory.cell_free_ne _ hne] at he
    exact h.data a e he
  case fresh =>
    rw [hp]
    exact fun a ha => h.fresh a ((hknown a).mp ha)
  case distinct => exact fun a b ha hb => h.distinct a b ((hknown a).mp ha) ((hknown b).mp hb)
  case there =>
    intro a ha hf
    rw [hknown] at ha
    obtain ⟨hf, hne⟩ := (hfinished a).mp hf
    rw [hp, Memory.cell_free_ne _ fun he => hne (h.distinct a we ha hwk he)]
    exact h.there a ha hf
  case only =>
    rw [hp]
    intro d p hd
    have hne : d ≠ request we := by
      rintro rfl
      rw [Memory.cell_free_self] at hd
      cases hd
    rw [Memory.cell_free_ne _ hne] at hd
    obtain ⟨a, ha, hf, rfl⟩ := h.only d p hd
    refine ⟨a, (hknown a).mpr ha, (hfinished a).mpr ⟨hf, ?_⟩, rfl⟩
    rintro rfl
    exact hne rfl
  case asked =>
    rw [ha, hq]
    exact h.asked
  case printed =>
    rw [hprinted, hq]
    exact h.printed

/-- A server that is with an element finds the request in it. -/
theorem argument_some {request : Nat → Nat} {value : Nat → Power} {items : List Nat}
    (h : Requests request value s) (hw : Wf s.queue items) {i we : Nat} {pc : Server}
    (hi : s.queue.servers[i]? = some pc) (hpc : carried pc = some we) :
    argument s i = some (request we, value we) := by
  have hheld := mem_held hi hpc
  obtain ⟨hknown, hfinished⟩ := held_known hw hheld
  obtain ⟨e, he⟩ := hw.held_cell we hheld
  have hdata := h.data we e he
  simp [argument, element, hi, hpc, he, hdata, h.there we hknown hfinished]

end C11AndC.WorkQueue
