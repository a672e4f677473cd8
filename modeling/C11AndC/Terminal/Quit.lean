import C11AndC.Terminal.Ownership

namespace C11AndC.Terminal

open C11AndC.Library

/-- While there are requests there is a server thread that has not returned. -/
def HasServer (s : State) : Prop :=
  s.store.reg.first ≠ 0 → s.server ≠ .absent ∧ s.server ≠ .returned

/-- The requests in the queue have a server, or they were made after a QUIT request that has been
served. -/
def ServedUntilQuit (s : State) : Prop :=
  ∃ as, Chain s.store.mem Request.next s.store.reg.first as ∧
    (as ≠ [] → (s.server ≠ .absent ∧ s.server ≠ .returned) ∨
      ∃ before c after, s.appended = before ++ c :: after ∧ c.operation = .quit ∧
        c.request ∈ s.served ∧ as ⊆ after.map Call.request)

/-- The operation that the server carries out, with its request. -/
def Server.handles : Server → Option (Nat × Operation)
  | .reading request => some (request, .read)
  | .processed request operation => some (request, operation)
  | .finishing request operation => some (request, operation)
  | _ => none

/-- What the server does next. -/
inductive Moves (s : State) : Server → Prop
  | idles {server : Server} (h : server.handles = none) (ha : server ≠ .absent)
      (hr : server ≠ .returned) : Moves s server
  | begins {server : Server} (c : Call) (hc : c ∈ s.appended)
      (h : server.handles = some (c.request, c.operation)) : Moves s server
  | goesOn {server : Server} {r : Nat} {operation : Operation}
      (h : s.server.handles = some (r, operation)) (h' : server.handles = some (r, operation)) :
      Moves s server
  | ends {r : Nat} {operation : Operation} (h : s.server.handles = some (r, operation))
      (hr : r ∈ s.served) : Moves s (nextRound operation)

/-- What is known of the call that the server carries out, and of what it has done before it
started and when it has returned. -/
structure QuitInv (s : State) : Prop where
  handles : ∀ r operation, s.server.handles = some (r, operation) →
    ∃ c ∈ s.appended, c.request = r ∧ c.operation = operation
  returned : s.server = .returned → ∃ c ∈ s.appended, c.request ∈ s.served ∧ c.operation = .quit
  absent : s.server = .absent → s.appended = [] ∧ s.store.reg.running = false

variable {s t : State} {as : List Nat} {a : Action} {line : Option (List Char)}

theorem moves_take {r : Server} {st : Store Request TtyServer} (h : Queue s.store as)
    (hok : takeRequest s.store = .ok (r, st)) : Moves s r := by
  cases as with
  | nil =>
    rw [takeRequest_nil h] at hok
    cases hok
    exact .idles rfl Server.noConfusion Server.noConfusion
  | cons a as =>
    obtain ⟨reg, hok', -⟩ := takeRequest_cons h
    rw [hok'] at hok
    cases hok
    exact .idles rfl Server.noConfusion Server.noConfusion

theorem routine_moves (h : Inv as s) (hs : ttyServerRoutine s line = some t) :
    Moves s t.server ∧ t.appended = s.appended ∧ s.served ⊆ t.served := by
  have htake : t = within s takeRequest (fun server s => { s with server := server }) →
      Moves s t.server ∧ t.appended = s.appended ∧ s.served ⊆ t.served := by
    rintro rfl
    obtain ⟨r, st, hok⟩ : ∃ r st, takeRequest s.store = .ok (r, st) := by
      cases as with
      | nil => exact ⟨_, _, takeRequest_nil h.queue⟩
      | cons a as =>
        obtain ⟨reg, hok, -⟩ := takeRequest_cons h.queue
        exact ⟨_, _, hok⟩
    rw [within_ok hok]
    exact ⟨moves_take h.queue hok, rfl, List.Subset.refl _⟩
  have hserved : ∀ r, r ∈ s.server.hand → s.server.unserved = [] → r ∈ s.served := by
    intro r hr hun
    have hm := h.hand r hr
    rwa [hun, List.append_nil] at hm
  cases hserver : s.server with
  | absent | waiting | returned =>
    rw [ttyServerRoutine, hserver] at hs
    cases hs
  | starting | woken =>
    rw [ttyServerRoutine, hserver] at hs
    exact htake (Option.some.inj hs).symm
  | taken r =>
    rw [ttyServerRoutine, hserver] at hs
    cases hs
    have hhand : s.server.hand = [r] := by rw [hserver]; rfl
    obtain ⟨c, hc, rfl, v, hv, hf, -⟩ := hand_call h (mem_hand hhand)
    have hco : v.operation = c.operation := hf.operation
    by_cases hop : v.operation = .read
    · obtain ⟨prompts, hok⟩ := process_read hv hop
      rw [within_ok hok]
      exact ⟨.begins c hc (by rw [← hco, hop]; rfl), rfl, List.subset_append_left ..⟩
    · rw [within_ok (process_other hv hop)]
      exact ⟨.begins c hc (by rw [← hco]; rfl), rfl, List.subset_append_left ..⟩
  | reading r =>
    rw [ttyServerRoutine, hserver] at hs
    obtain ⟨-, hs⟩ := Option.ite_none_right_eq_some.mp hs
    cases hs
    have hhand : s.server.hand = [r] := by rw [hserver]; rfl
    obtain ⟨c, hc, rfl, v, hv, -⟩ := hand_call h (mem_hand hhand)
    obtain ⟨st, hok, -⟩ := readText_ok hv line
    rw [within_ok hok]
    exact ⟨.goesOn (by rw [hserver]; rfl) rfl, rfl, List.subset_append_left ..⟩
  | processed r operation =>
    rw [ttyServerRoutine, hserver] at hs
    cases hs
    have hhand : s.server.hand = [r] := by rw [hserver]; rfl
    have hr := hserved r (mem_hand hhand) (by rw [hserver]; rfl)
    obtain ⟨c, hc, rfl, v, hv, -⟩ := hand_call h (mem_hand hhand)
    cases hsync : v.synchronous with
    | true =>
      rw [within_ok (complete_sync hv hsync)]
      exact ⟨.goesOn (by rw [hserver]; rfl) rfl, rfl, List.Subset.refl _⟩
    | false =>
      rw [within_ok (complete_async hv hsync)]
      exact ⟨.ends (by rw [hserver]; rfl) hr, rfl, List.Subset.refl _⟩
  | finishing r operation =>
    rw [ttyServerRoutine, hserver] at hs
    cases hs
    have hhand : s.server.hand = [r] := by rw [hserver]; rfl
    have hr := hserved r (mem_hand hhand) (by rw [hserver]; rfl)
    obtain ⟨c, hc, rfl, v, hv, -⟩ := hand_call h (mem_hand hhand)
    rw [within_ok (finish_ok hv)]
    exact ⟨.ends (by rw [hserver]; rfl) hr, rfl, List.Subset.refl _⟩

theorem moves_ne_absent {server : Server} (h : Moves s server) : server ≠ .absent := by
  cases h with
  | idles h ha hr => exact ha
  | begins c hc h =>
    rintro rfl
    cases h
  | goesOn h h' =>
    rintro rfl
    cases h'
  | ends h hr =>
    rw [nextRound]
    split_ifs <;> exact Server.noConfusion

theorem quitInv_routine (h : QuitInv s) (hi : Inv as s) (hs : ttyServerRoutine s line = some t) :
    QuitInv t := by
  obtain ⟨hm, happ, hserved⟩ := routine_moves hi hs
  refine ⟨fun r operation hr => ?_, fun hr => ?_, fun ha => absurd ha (moves_ne_absent hm)⟩
  · rw [happ]
    generalize t.server = server at hm hr
    cases hm with
    | idles hn =>
      rw [hn] at hr
      cases hr
    | begins c hc hb =>
      rw [hb] at hr
      cases hr
      exact ⟨c, hc, rfl, rfl⟩
    | goesOn hg hg' =>
      rw [hg'] at hr
      cases hr
      exact h.handles r operation hg
    | ends he =>
      rw [nextRound] at hr
      split_ifs at hr <;> cases hr
  · rw [happ]
    generalize t.server = server at hm hr
    subst hr
    generalize he : Server.returned = server at hm
    cases hm with
    | idles _ _ hn => exact absurd he.symm hn
    | begins c hc hb =>
      subst he
      cases hb
    | goesOn _ hg' =>
      subst he
      cases hg'
    | @ends r operation hg hr =>
      rw [nextRound] at he
      split_ifs at he with hop
      obtain ⟨c, hc, rfl, hco⟩ := h.handles r operation hg
      exact ⟨c, hc, hserved hr, hco.trans hop⟩

theorem handles_signalRequest (server : Server) :
    server.signalRequest.handles = server.handles := by
  cases server <;> rfl

theorem signalRequest_eq {server server' : Server} (hw : server' ≠ .woken)
    (h : server.signalRequest = server') : server = server' := by
  cases server with
  | waiting => exact absurd h.symm hw
  | _ => exact h

/-- What a state keeps that differs in the clients only. -/
theorem quitInv_frame (h : QuitInv s) (hserver : t.server = s.server)
    (happ : t.appended = s.appended) (hserved : t.served = s.served)
    (hrun : t.store.reg.running = s.store.reg.running) : QuitInv t := by
  refine ⟨?_, ?_, ?_⟩
  · rw [hserver, happ]
    exact h.handles
  · rw [hserver, happ, hserved]
    exact h.returned
  · rw [hserver, happ, hrun]
    exact h.absent

theorem quitInv_request {i : Nat} {v : Request} (h : QuitInv s) (hi : Inv as s) (hnext : v.next = 0) :
    QuitInv (request s i v) := by
  obtain ⟨st, hst, -⟩ := ttyServerRequest_ok hi.queue hnext
  rw [request, within_ok hst]
  have hserver : ∀ server : Server,
      server = (if !s.store.reg.running then .starting else s.server.signalRequest) →
        server.handles = s.server.handles ∧ server ≠ .absent ∧
          (server = .returned → s.server = .returned) := by
    rintro server rfl
    by_cases hstart : s.store.reg.running = true
    · rw [hstart]
      refine ⟨handles_signalRequest _, fun ha => ?_, signalRequest_eq Server.noConfusion⟩
      have hrun := (h.absent (signalRequest_eq Server.noConfusion ha)).2
      rw [hstart] at hrun
      cases hrun
    · have habs : s.server = .absent := by
        by_contra hne
        exact hstart (hi.running hne)
      rw [if_pos (by simpa using hstart), habs]
      exact ⟨rfl, Server.noConfusion, Server.noConfusion⟩
  obtain ⟨hh, ha, hr⟩ := hserver _ rfl
  refine ⟨fun r operation hro => ?_, fun hr' => ?_, fun ha' => absurd ha' ha⟩
  · obtain ⟨c, hc, hcr⟩ := h.handles r operation (hh.symm.trans hro)
    exact ⟨c, List.mem_append_left _ hc, hcr⟩
  · obtain ⟨c, hc, hcr⟩ := h.returned (hr hr')
    exact ⟨c, List.mem_append_left _ hc, hcr⟩

theorem quitInv_resume {i r : Nat} {operation : Operation} (h : QuitInv s) (hi : Inv as s)
    (hcl : s.clients[i]? = some (.woken r operation)) : QuitInv (resume s i r operation) := by
  obtain ⟨rest, hrest, -⟩ := filterMap_set Client.call hcl
  have hcall : (⟨r, operation, true⟩ : Call) ∈ calls s :=
    hrest.mem_iff.mpr (List.mem_append_left _ (List.mem_singleton.mpr rfl))
  cases hi.phase _ (hi.calls _ hcall).1 with
  | pending w hp hw hf hd =>
    obtain ⟨v, hv, rfl⟩ := Option.map_eq_some_iff.mp hw
    rw [resume, within_ok (reply_wait hv (hd rfl).1)]
    exact quitInv_frame h rfl rfl rfl rfl
  | done w hp hw hd =>
    obtain ⟨v, hv, rfl⟩ := Option.map_eq_some_iff.mp hw
    rw [resume, within_ok (reply_done hv hd)]
    exact quitInv_frame h rfl rfl rfl rfl
  | released hp hv hn => exact absurd hcall hn

theorem quitInv_step (h : QuitInv s) (hi : Inv as s) (hs : step s a = some t) : QuitInv t := by
  obtain ⟨-, hs⟩ := Option.ite_none_left_eq_some.mp hs
  cases a with
  | request i operation sync prompt string garbage =>
    obtain ⟨-, hs⟩ := Option.ite_none_right_eq_some.mp hs
    cases hs
    exact quitInv_request h hi rfl
  | resume i =>
    simp only at hs
    split at hs
    · rename_i r operation hcl
      cases hs
      exact quitInv_resume h hi hcl
    · cases hs
  | server line => exact quitInv_routine h hi hs
  | wakeServer =>
    cases hs
    refine ⟨?_, fun hr => ?_, fun ha => ?_⟩
    · rw [handles_signalRequest]
      exact h.handles
    · exact h.returned (signalRequest_eq Server.noConfusion hr)
    · exact h.absent (signalRequest_eq Server.noConfusion ha)
  | wakeClient i =>
    cases hs
    exact quitInv_frame h rfl rfl rfl rfl

theorem quitInv_init (clients : Nat) : QuitInv (init clients) := by
  refine ⟨fun r operation h => ?_, fun h => ?_, fun _ => ⟨rfl, rfl⟩⟩
  · cases h
  · cases h

/-- What is still in the queue behind a request that was served came after it. -/
theorem queue_after (h : Inv as s) (hun : s.server.unserved = []) {before after : List Call} {c : Call}
    (happ : s.appended = before ++ c :: after) (hc : c.request ∈ s.served) :
    as ⊆ after.map Call.request := by
  have horder := h.order
  have hnodup := h.nodup
  obtain ⟨xs, ys, hserved⟩ := List.append_of_mem hc
  have hreq : requests s = before.map Call.request ++ c.request :: after.map Call.request := by
    rw [requests, happ, List.map_append, List.map_cons]
  rw [hun, List.append_nil, hserved, hreq, List.append_assoc, List.cons_append] at horder
  rw [hreq] at hnodup
  obtain ⟨-, hcons, hdisj⟩ := List.nodup_append'.mp hnodup
  obtain ⟨-, -, hafter⟩ := (List.append_cons_inj_of_notMem
    (fun hm => hdisj hm (List.mem_cons_self ..)) (List.nodup_cons.mp hcons).1).mp horder
  rw [hafter]
  exact List.subset_append_right ..

theorem servedUntilQuit_of (h : Inv as s) (hq : QuitInv s) : ServedUntilQuit s := by
  refine ⟨as, h.queue.chain, fun hne => ?_⟩
  by_cases hr : s.server = .returned
  · obtain ⟨c, hc, hserved, hop⟩ := hq.returned hr
    obtain ⟨before, after, happ⟩ := List.append_of_mem hc
    exact .inr ⟨before, c, after, happ, hop, hserved, queue_after h (by rw [hr]; rfl) happ hserved⟩
  · refine .inl ⟨fun ha => hne ?_, hr⟩
    have happ := (hq.absent ha).1
    have horder := h.order
    rw [requests, happ] at horder
    exact (List.append_eq_nil_iff.mp horder.symm).2

/-- Whatever is requested and however the threads take turns, only a request made after a QUIT
request can be left without a server. -/
theorem terminal_servedUntilQuit (clients : Nat) (as : List Action) :
    Always step ServedUntilQuit (init clients) as := by
  refine always_of_each (fun s => (∃ bs, Inv bs s) ∧ QuitInv s) ?_ ?_
    ⟨⟨[], inv_init clients⟩, quitInv_init clients⟩ (each_of_forall fun _ _ => trivial)
  · rintro s a t ⟨⟨bs, hi⟩, hq⟩ - hs
    exact ⟨inv_step hi hs, quitInv_step hq hi hs⟩
  · rintro s ⟨⟨bs, hi⟩, hq⟩
    exact servedUntilQuit_of hi hq

/-- One client quits the server before the other one writes. -/
def quitThenWrite : List Action :=
  [.request 0 .quit true none none garbage, .request 1 .write false none (some ['o', 'k']) garbage,
    .server none, .server none, .server none, .server none]

theorem quit_strands : ∃ s, run step (init 2) quitThenWrite = some s ∧ s.store.reg.first = 2 ∧
    s.server = .returned ∧ ¬ HasServer s := by
  refine ⟨_, rfl, rfl, rfl, fun h => (h ?_).2 rfl⟩
  decide

end C11AndC.Terminal
