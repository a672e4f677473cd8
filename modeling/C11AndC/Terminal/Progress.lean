import C11AndC.Terminal.Quit
import C11AndC.Library.Progress

namespace C11AndC.Terminal

open C11AndC.Library

/-- The steps that the threads take by themselves. -/
def isWork : Action → Bool
  | .server _ => true
  | .resume _ => true
  | _ => false

/-- The first requests have been served and released, in the order in which they came. No call of a client is
open but for the requests that are left, and if there are any, the last one before them was QUIT. -/
def Settled (s : State) : Prop :=
  ∃ handled left, s.appended = handled ++ left ∧ s.served = handled.map Call.request ∧
    (∀ c ∈ handled, (c.request, c.synchronous) ∈ s.released) ∧ (∀ c ∈ calls s, c ∈ left) ∧
    (left = [] ∨ ∃ before c, handled = before ++ [c] ∧ c.operation = .quit)

/-- No wake-up is lost: where a thread waits, what it waits for is still to come. -/
structure Attentive (s : State) : Prop where
  queue : s.server = .waiting → s.served = requests s
  last : ∀ r, s.server.hand = [r] → s.server.unserved = [] → s.served.getLast? = some r
  returned : s.server = .returned → ∃ c ∈ s.appended, c.operation = .quit ∧ s.served.getLast? = some c.request
  waiting : ∀ r operation, Client.waiting r operation ∈ s.clients → r ∉ s.served ∨ r ∈ s.server.hand

def Server.rank : Server → Nat
  | .reading _ => 1
  | .taken _ => 2
  | .starting => 3
  | .woken => 3
  | .finishing _ _ => 5
  | .processed _ _ => 6
  | .absent => 0
  | .waiting => 0
  | .returned => 0

def Client.rank : Client → Nat
  | .idle => 0
  | .waiting _ _ => 1
  | .woken _ _ => 2

/-- The steps that are left at most, six for each request that has not been served. -/
def State.rest (s : State) : Nat :=
  6 * (s.appended.length - s.served.length) + s.server.rank + (s.clients.map Client.rank).sum

/-- What the server thread does in its next step. -/
inductive Advances (s t : State) : Prop
  | idles (hs : s.server = .starting ∨ s.server = .woken) (ht : t.server = .waiting)
      (hall : s.served = requests s) (hserved : t.served = s.served) (hclients : t.clients = s.clients)
  | takes (r : Nat) (hs : s.server = .starting ∨ s.server = .woken) (ht : t.server = .taken r)
      (hserved : t.served = s.served) (hclients : t.clients = s.clients)
  | reads (r : Nat) (hs : s.server = .taken r) (ht : t.server = .reading r) (hserved : t.served = s.served)
      (hclients : t.clients = s.clients)
  | serves (r : Nat) (operation : Operation) (hs : s.server = .taken r ∨ s.server = .reading r)
      (ht : t.server = .processed r operation) (hserved : t.served = s.served ++ [r])
      (hclients : t.clients = s.clients)
  | holds (r : Nat) (operation : Operation) (hs : s.server = .processed r operation)
      (ht : t.server = .finishing r operation) (hserved : t.served = s.served) (hclients : t.clients = s.clients)
  | frees (c : Call) (operation : Operation) (hc : c ∈ s.appended) (hsync : c.synchronous = false)
      (hs : s.server = .processed c.request operation) (ht : t.server = nextRound operation)
      (hserved : t.served = s.served) (hclients : t.clients = s.clients)
  | finishes (r : Nat) (operation : Operation) (hs : s.server = .finishing r operation)
      (ht : t.server = nextRound operation) (hserved : t.served = s.served)
      (hclients : t.clients = s.clients.map (Client.signalDone r))

section Moves

variable {s t : State} {as : List Nat} {a : Action} {line : Option (List Char)} {r : Nat} {operation : Operation}

theorem takeRequest_advances (h : Inv as s) (hs : s.server = .starting ∨ s.server = .woken) :
    Advances s (within s takeRequest fun server s => { s with server := server }) := by
  cases as with
  | nil =>
    rw [within_ok (takeRequest_nil h.queue)]
    have hun : s.server.unserved = [] := by
      obtain hs | hs := hs
      · rw [hs]
        rfl
      · rw [hs]
        rfl
    have horder := h.order
    rw [hun, List.append_nil, List.append_nil] at horder
    exact .idles hs rfl horder.symm rfl rfl
  | cons r as =>
    obtain ⟨reg, hok, -⟩ := takeRequest_cons h.queue
    rw [within_ok hok]
    exact .takes r hs rfl rfl rfl

theorem routine_advances (h : Inv as s) (hs : ttyServerRoutine s line = some t) : Advances s t := by
  cases hserver : s.server with
  | absent | waiting | returned =>
    rw [ttyServerRoutine, hserver] at hs
    cases hs
  | starting =>
    rw [ttyServerRoutine, hserver] at hs
    cases hs
    exact takeRequest_advances h (.inl hserver)
  | woken =>
    rw [ttyServerRoutine, hserver] at hs
    cases hs
    exact takeRequest_advances h (.inr hserver)
  | taken r =>
    rw [ttyServerRoutine, hserver] at hs
    cases hs
    obtain ⟨c, hc, rfl, v, hv, -⟩ := hand_call (r := r) h (by rw [hserver]; exact List.mem_singleton_self _)
    by_cases hop : v.operation = .read
    · obtain ⟨prompts, hok⟩ := process_read hv hop
      rw [within_ok hok]
      exact .reads c.request hserver rfl (List.append_nil _) rfl
    · rw [within_ok (process_other hv hop)]
      exact .serves c.request v.operation (.inl hserver) rfl rfl rfl
  | reading r =>
    rw [ttyServerRoutine, hserver] at hs
    obtain ⟨-, hs⟩ := Option.ite_none_right_eq_some.mp hs
    cases hs
    obtain ⟨c, hc, rfl, v, hv, -⟩ := hand_call (r := r) h (by rw [hserver]; exact List.mem_singleton_self _)
    obtain ⟨st, hok, -⟩ := readText_ok hv line
    rw [within_ok hok]
    exact .serves c.request .read (.inr hserver) rfl rfl rfl
  | processed r operation =>
    rw [ttyServerRoutine, hserver] at hs
    cases hs
    obtain ⟨c, hc, rfl, v, hv, hf, -⟩ := hand_call (r := r) h (by rw [hserver]; exact List.mem_singleton_self _)
    cases hsync : v.synchronous with
    | true =>
      rw [within_ok (complete_sync hv hsync)]
      exact .holds c.request operation hserver rfl rfl rfl
    | false =>
      rw [within_ok (complete_async hv hsync)]
      exact .frees c operation hc (hf.synchronous.symm.trans hsync) hserver rfl rfl rfl
  | finishing r operation =>
    rw [ttyServerRoutine, hserver] at hs
    cases hs
    obtain ⟨c, hc, rfl, v, hv, -⟩ := hand_call (r := r) h (by rw [hserver]; exact List.mem_singleton_self _)
    rw [within_ok (finish_ok hv)]
    exact .finishes c.request operation hserver rfl rfl rfl

theorem rank_nextRound_le (operation : Operation) : (nextRound operation).rank ≤ 3 := by
  rw [nextRound]
  split_ifs
  · exact Nat.zero_le 3
  · exact Nat.le_refl 3

theorem rank_signalRequest_le (server : Server) : server.signalRequest.rank ≤ server.rank + 3 := by
  cases server with
  | waiting => exact Nat.le_refl 3
  | absent | starting | woken | taken | reading | processed | finishing | returned => exact Nat.le_add_right _ 3

theorem rank_wake_le (client : Client) : client.wake.rank ≤ client.rank + 1 := by
  cases client with
  | idle | woken => exact Nat.le_add_right _ 1
  | waiting => exact Nat.le_refl 2

/-- A request that is done wakes one client at most. -/
theorem sum_rank_signalDone_le {clients : List Client}
    (h : ((clients.filterMap Client.call).map Call.request).Nodup) :
    ((clients.map (Client.signalDone r)).map Client.rank).sum ≤ (clients.map Client.rank).sum + 1 := by
  have hnone : ∀ clients : List Client, r ∉ (clients.filterMap Client.call).map Call.request →
      clients.map (Client.signalDone r) = clients := by
    intro clients hr
    apply Eq.trans (List.map_congr_left _) (List.map_id clients)
    intro client hclient
    cases client with
    | idle | woken => rfl
    | waiting q operation =>
      apply if_neg
      intro hq
      subst hq
      exact hr (List.mem_map.mpr ⟨_, List.mem_filterMap.mpr ⟨_, hclient, rfl⟩, rfl⟩)
  induction clients with
  | nil => exact Nat.zero_le _
  | cons client clients ih =>
    simp only [List.map_cons, List.sum_cons]
    cases client with
    | idle =>
      have hrest := ih h
      simp only [Client.signalDone]
      omega
    | woken q operation =>
      have hrest := ih (List.nodup_cons.mp h).2
      simp only [Client.signalDone]
      omega
    | waiting q operation =>
      obtain ⟨hnot, hnodup⟩ := List.nodup_cons.mp h
      rw [Client.signalDone]
      split_ifs with hq
      · subst hq
        rw [hnone clients hnot]
        simp only [Client.rank]
        omega
      · have hrest := ih hnodup
        omega

theorem requests_distinct (h : Inv as s) : ((calls s).map Call.request).Nodup :=
  h.distinct.map_on fun c hc d hd he => call_unique h (h.calls c hc).1 (h.calls d hd).1 he

theorem length_served (h : Inv as s) :
    s.served.length + s.server.unserved.length + as.length = s.appended.length := by
  have hlen := congrArg List.length h.order
  rw [requests, List.length_map, List.length_append, List.length_append] at hlen
  exact hlen.symm

theorem rest_routine (hi : Inv as s) (hs : ttyServerRoutine s line = some t) : t.rest < s.rest := by
  obtain ⟨-, happ, -⟩ := routine_moves hi hs
  have hlen := length_served hi
  cases routine_advances hi hs with
  | idles hserver ht hall hserved hclients =>
    rw [State.rest, State.rest, happ, hserved, hclients, ht]
    obtain hserver | hserver := hserver
    all_goals
      simp only [hserver, Server.rank]
      omega
  | takes q hserver ht hserved hclients =>
    rw [State.rest, State.rest, happ, hserved, hclients, ht]
    obtain hserver | hserver := hserver
    all_goals
      simp only [hserver, Server.rank]
      omega
  | reads q hserver ht hserved hclients =>
    rw [State.rest, State.rest, happ, hserved, hclients, ht, hserver]
    simp only [Server.rank]
    omega
  | serves q o hserver ht hserved hclients =>
    rw [State.rest, State.rest, happ, hserved, hclients, ht, List.length_append, List.length_singleton]
    obtain hserver | hserver := hserver
    all_goals
      rw [hserver, Server.unserved, List.length_singleton] at hlen
      simp only [hserver, Server.rank]
      omega
  | holds q o hserver ht hserved hclients =>
    rw [State.rest, State.rest, happ, hserved, hclients, ht, hserver]
    simp only [Server.rank]
    omega
  | frees c o hc hsync hserver ht hserved hclients =>
    have hround := rank_nextRound_le o
    have hbefore : s.server.rank = 6 := by rw [hserver, Server.rank]
    rw [State.rest, State.rest, happ, hserved, hclients, ht]
    omega
  | finishes q o hserver ht hserved hclients =>
    have hround := rank_nextRound_le o
    have hsum := sum_rank_signalDone_le (r := q) (requests_distinct hi)
    have hbefore : s.server.rank = 5 := by rw [hserver, Server.rank]
    rw [State.rest, State.rest, happ, hserved, hclients, ht]
    omega

theorem rest_resume {i : Nat} (hi : Inv as s) (hcl : s.clients[i]? = some (.woken r operation)) :
    (resume s i r operation).rest < s.rest := by
  have hset := sum_map_set Client.rank hcl
  have hcall : (⟨r, operation, true⟩ : Call) ∈ calls s :=
    List.mem_filterMap.mpr ⟨_, List.mem_of_getElem? hcl, rfl⟩
  cases hi.phase _ (hi.calls _ hcall).1 with
  | pending w hp hw hf hd =>
    obtain ⟨v, hv, rfl⟩ := Option.map_eq_some_iff.mp hw
    rw [resume, within_ok (reply_wait hv (hd rfl).1)]
    have hsum := hset (.waiting r operation)
    simp only [State.rest, Client.rank] at hsum ⊢
    omega
  | done w hp hw hd =>
    obtain ⟨v, hv, rfl⟩ := Option.map_eq_some_iff.mp hw
    rw [resume, within_ok (reply_done hv hd)]
    have hsum := hset .idle
    simp only [State.rest, Client.rank] at hsum ⊢
    omega
  | released hp hv hn => exact absurd hcall hn

theorem rest_request_le {i : Nat} {v : Request} (hi : Inv as s) (hcl : s.clients[i]? = some .idle)
    (hnext : v.next = 0) : (request s i v).rest ≤ s.rest + 10 := by
  obtain ⟨st, hst, -⟩ := ttyServerRequest_ok hi.queue hnext
  rw [request, within_ok hst]
  have hserver : (if !s.store.reg.running then Server.starting else s.server.signalRequest).rank ≤
      s.server.rank + 3 := by
    split_ifs
    · exact Nat.le_add_left 3 _
    · exact rank_signalRequest_le _
  have hclient : ∀ client : Client, client = (if v.synchronous = true
      then Client.waiting s.store.mem.next v.operation else .idle) → client.rank ≤ 1 := by
    intro client hclient
    subst hclient
    split_ifs
    · exact Nat.le_refl 1
    · exact Nat.zero_le 1
  have hsum := sum_map_set Client.rank hcl
    (if v.synchronous = true then Client.waiting s.store.mem.next v.operation else .idle)
  have hle := hclient _ rfl
  simp only [State.rest, List.length_append, List.length_singleton] at hserver hsum hle ⊢
  omega

theorem rest_work (hi : Inv as s) (ha : isWork a = true) (hs : step s a = some t) : t.rest < s.rest := by
  obtain ⟨-, hs⟩ := Option.ite_none_left_eq_some.mp hs
  cases a with
  | request | wakeServer | wakeClient => cases ha
  | resume i =>
    simp only at hs
    split at hs
    · rename_i r operation hcl
      cases hs
      exact rest_resume hi hcl
    · cases hs
  | server line => exact rest_routine hi hs

theorem rest_other (hi : Inv as s) (ha : isWork a = false) (hs : step s a = some t) : t.rest ≤ s.rest + 10 := by
  obtain ⟨-, hs⟩ := Option.ite_none_left_eq_some.mp hs
  cases a with
  | server | resume => cases ha
  | request i operation sync prompt string garbage =>
    obtain ⟨⟨hcl, -⟩, hs⟩ := Option.ite_none_right_eq_some.mp hs
    cases hs
    exact rest_request_le hi hcl rfl
  | wakeServer =>
    cases hs
    have hsignal := rank_signalRequest_le s.server
    simp only [State.rest]
    omega
  | wakeClient i =>
    cases hs
    have hsum := sum_map_modify_le Client.rank s.clients i rank_wake_le
    simp only [State.rest]
    omega

/-- A call that is open waits for a request that has not been served. -/
theorem not_served_of_stuck (h : Inv as s) (hw : Attentive s) (hstuck : Stuck step isWork s)
    (hhand : s.server.hand = []) {c : Call} (hc : c ∈ calls s) : c.request ∉ s.served := by
  obtain ⟨client, hmem, hcall⟩ := List.mem_filterMap.mp hc
  cases client with
  | idle => cases hcall
  | waiting r operation =>
    cases hcall
    apply (hw.waiting r operation hmem).resolve_right
    rw [hhand]
    exact List.not_mem_nil
  | woken r operation =>
    obtain ⟨i, hi⟩ := List.mem_iff_getElem?.mp hmem
    have hresume := hstuck (.resume i) rfl
    rw [step, h.alive, if_neg Bool.false_ne_true] at hresume
    simp only [hi] at hresume
    cases hresume

theorem rests_of_stuck (h : Inv as s) (hstuck : Stuck step isWork s) :
    s.server = .absent ∨ s.server = .waiting ∨ s.server = .returned := by
  have hserver := hstuck (.server none) rfl
  rw [step, h.alive, if_neg Bool.false_ne_true] at hserver
  simp only [ttyServerRoutine] at hserver
  cases hs : s.server with
  | absent => exact .inl rfl
  | waiting => exact .inr (.inl rfl)
  | returned => exact .inr (.inr rfl)
  | starting | woken | taken | reading | processed | finishing =>
    rw [hs] at hserver
    cases hserver

theorem settled_of_stuck (h : Inv as s) (hq : QuitInv s) (hw : Attentive s) (hstuck : Stuck step isWork s) :
    Settled s := by
  have hrests := rests_of_stuck h hstuck
  have hhand : s.server.hand = [] ∧ s.server.unserved = [] := by
    obtain hs | hs | hs := hrests
    all_goals
      rw [hs]
      exact ⟨rfl, rfl⟩
  have horder := h.order
  rw [hhand.2, List.append_nil] at horder
  have happ := (List.take_append_drop s.served.length s.appended).symm
  have hserved : s.served = (s.appended.take s.served.length).map Call.request := by
    have htake := congrArg (List.take s.served.length) horder
    rw [List.take_left, requests, ← List.map_take] at htake
    exact htake.symm
  have hopen : ∀ c ∈ calls s, c.request ∉ s.served :=
    fun c hc => not_served_of_stuck h hw hstuck hhand.1 hc
  apply Exists.intro (s.appended.take s.served.length)
  apply Exists.intro (s.appended.drop s.served.length)
  refine ⟨happ, hserved, ?_, ?_, ?_⟩
  · intro c hc
    have hmem : c.request ∈ s.served := by
      rw [hserved]
      exact List.mem_map_of_mem hc
    cases h.phase c (List.mem_of_mem_take hc) with
    | pending v hp =>
      rw [hhand.1, List.nil_append] at hp
      exact absurd hp (not_mem_queue h (List.mem_append_left _ hmem))
    | done v hp hv hd hcall => exact absurd hmem (hopen c hcall)
    | released hp hv hcall hr => exact hr
  · intro c hc
    have hmem := (h.calls c hc).1
    rw [happ, List.mem_append] at hmem
    apply hmem.resolve_left
    intro htake
    apply hopen c hc
    rw [hserved]
    exact List.mem_map_of_mem htake
  · obtain hs | hs | hs := hrests
    · rw [(hq.absent hs).1]
      exact .inl List.drop_nil
    · left
      have hlen := congrArg List.length (hw.queue hs)
      rw [requests, List.length_map] at hlen
      exact List.drop_of_length_le (Nat.le_of_eq hlen.symm)
    · right
      obtain ⟨c, hc, hop, hlast⟩ := hw.returned hs
      rw [hserved, List.getLast?_map] at hlast
      obtain ⟨d, hd, hdc⟩ := Option.map_eq_some_iff.mp hlast
      have hmem := List.mem_of_mem_take (List.mem_of_getLast? hd)
      obtain ⟨before, hbefore⟩ := List.getLast?_eq_some_iff.mp hd
      rw [← call_unique h hmem hc hdc] at hop
      exact ⟨before, d, hbefore, hop⟩

end Moves

end C11AndC.Terminal
