import C11AndC.Terminal.Sections
import C11AndC.Library.Lists
import Mathlib.Data.List.Nodup

namespace C11AndC.Terminal

open C11AndC.Library

/-- The request that the server has in its hands. -/
def Server.hand : Server → List Nat
  | .taken request => [request]
  | .reading request => [request]
  | .processed request _ => [request]
  | .finishing request _ => [request]
  | _ => []

/-- The request that the server has taken but not served yet. -/
def Server.unserved : Server → List Nat
  | .taken request => [request]
  | .reading request => [request]
  | _ => []

/-- The synchronous call that a client is in. -/
def Client.call : Client → Option Call
  | .idle => none
  | .waiting request operation => some ⟨request, operation, true⟩
  | .woken request operation => some ⟨request, operation, true⟩

def calls (s : State) : List Call := s.clients.filterMap Client.call

def requests (s : State) : List Nat := s.appended.map Call.request

/-- The request at an address, without its place in the queue. -/
def body (s : State) (a : Nat) : Option Request := (s.store.mem.cell a).map Request.body

/-- The server has left in the request what it read for it. -/
def TextOk (s : State) (c : Call) (text : List Char) : Prop :=
  c.operation = .read → ∃ line, (c.request, line) ∈ s.lines ∧ str text = lineText line

structure Fits (v : Request) (c : Call) : Prop where
  operation : v.operation = c.operation
  synchronous : v.synchronous = c.synchronous

/-- What becomes of a request: it waits for the server or is in the hands of the server, it
waits for its client, or it is released. -/
inductive Phase (as : List Nat) (s : State) (c : Call) : Prop
  | pending (v : Request) (hp : c.request ∈ s.server.hand ++ as) (hv : body s c.request = some v)
      (hf : Fits v c) (hd : c.synchronous = true → v.doneFlag = false ∧ c ∈ calls s)
      (ht : c.request ∈ s.served → TextOk s c v.text)
  | done (v : Request) (hp : c.request ∉ s.server.hand ++ as) (hv : body s c.request = some v)
      (hd : v.doneFlag = true) (hc : c ∈ calls s) (ht : TextOk s c v.text)
  | released (hp : c.request ∉ s.server.hand ++ as) (hv : s.store.mem.cell c.request = none)
      (hc : c ∉ calls s) (hr : (c.request, c.synchronous) ∈ s.released)

structure Inv (as : List Nat) (s : State) : Prop where
  alive : s.crashed = false
  running : s.server ≠ .absent → s.store.reg.running = true
  queue : Queue s.store as
  order : requests s = s.served ++ s.server.unserved ++ as
  nodup : (requests s).Nodup
  old : ∀ c ∈ s.appended, c.request < s.store.mem.next
  hand : ∀ a ∈ s.server.hand, a ∈ s.served ++ s.server.unserved
  finishing : ∀ a operation, s.server = .finishing a operation → ∃ c ∈ calls s, c.request = a
  phase : ∀ c ∈ s.appended, Phase as s c
  calls : ∀ c ∈ Terminal.calls s, c ∈ s.appended ∧ c.synchronous = true
  distinct : (Terminal.calls s).Nodup
  lines : (s.lines.map Prod.fst).Sublist s.served
  once : (s.released.map Prod.fst).Nodup
  released : ∀ x ∈ s.released, ∃ c ∈ s.appended, c.request = x.1 ∧ c.synchronous = x.2 ∧
    s.store.mem.cell x.1 = none
  returned : ∀ r ∈ s.returned, ⟨r.request, r.operation, true⟩ ∈ s.appended ∧
    r.request ∈ s.served ∧ (r.request, true) ∈ s.released ∧
    (r.operation = .read → ∃ line, (r.request, line) ∈ s.lines ∧ r.string = some (lineText line))

section Frames

variable {r : Nat} {as bs : List Nat} {s t : State} {c d : Call}

/-- A step that concerns only the request `r`. -/
structure Concerns (r : Nat) (as bs : List Nat) (s t : State) : Prop where
  pending : ∀ a, a ≠ r → (a ∈ t.server.hand ++ bs ↔ a ∈ s.server.hand ++ as)
  calls : ∀ c : Call, c.request ≠ r → (c ∈ calls t ↔ c ∈ Terminal.calls s)
  body : ∀ a, a ≠ r → body t a = Terminal.body s a
  served : ∀ a, a ≠ r → (a ∈ t.served ↔ a ∈ s.served)
  lines : s.lines ⊆ t.lines
  released : s.released ⊆ t.released

theorem textOk_mono {text : List Char} (h : s.lines ⊆ t.lines) (ht : TextOk s c text) :
    TextOk t c text := by
  intro hr
  obtain ⟨line, hl, he⟩ := ht hr
  exact ⟨line, h hl, he⟩

theorem cell_of_body {a : Nat} (h : body t a = body s a) (hs : s.store.mem.cell a = none) :
    t.store.mem.cell a = none := by
  rw [body, body, hs, Option.map_none] at h
  exact Option.map_eq_none_iff.mp h

theorem phase_frame (hf : Concerns r as bs s t) (hc : c.request ≠ r) (h : Phase as s c) :
    Phase bs t c := by
  cases h with
  | pending v hp hv hfit hd ht =>
    refine .pending v ((hf.pending _ hc).mpr hp) ((hf.body _ hc).trans hv) hfit ?_ ?_
    · intro hs
      exact ⟨(hd hs).1, (hf.calls c hc).mpr (hd hs).2⟩
    · intro hs
      exact textOk_mono hf.lines (ht ((hf.served _ hc).mp hs))
  | done v hp hv hd hcall ht =>
    exact .done v (fun hp' => hp ((hf.pending _ hc).mp hp')) ((hf.body _ hc).trans hv) hd
      ((hf.calls c hc).mpr hcall) (textOk_mono hf.lines ht)
  | released hp hv hcall hr =>
    exact .released (fun hp' => hp ((hf.pending _ hc).mp hp')) (cell_of_body (hf.body _ hc) hv)
      (fun hc' => hcall ((hf.calls c hc).mp hc')) (hf.released hr)

theorem call_unique (h : Inv as s) (hc : c ∈ s.appended) (hd : d ∈ s.appended)
    (he : c.request = d.request) : c = d :=
  List.inj_on_of_nodup_map h.nodup hc hd he

theorem mem_hand (h : s.server.hand = [r]) : r ∈ s.server.hand := by
  rw [h]
  exact List.mem_singleton.mpr rfl

theorem ne_absent (h : s.server.hand = [r]) : s.server ≠ .absent := by
  intro he
  rw [he] at h
  cases h

theorem ne_next (h : Inv as s) (hc : c ∈ s.appended) : c.request ≠ s.store.mem.next :=
  Nat.ne_of_lt (h.old c hc)

theorem mem_requests (hc : c ∈ s.appended) : c.request ∈ requests s := List.mem_map_of_mem hc

/-- The record and the call of the request that the server has in its hands. -/
theorem hand_call (h : Inv as s) (hr : r ∈ s.server.hand) :
    ∃ c ∈ s.appended, c.request = r ∧ ∃ v, s.store.mem.cell r = some v ∧ Fits v.body c ∧
      (c.synchronous = true → v.doneFlag = false ∧ c ∈ calls s) ∧
      (r ∈ s.served → TextOk s c v.text) := by
  have hmem : r ∈ requests s := by
    rw [h.order]
    exact List.mem_append_left _ (h.hand r hr)
  obtain ⟨c, hc, rfl⟩ := List.mem_map.mp hmem
  refine ⟨c, hc, rfl, ?_⟩
  cases h.phase c hc with
  | pending w hp hw hf hd ht =>
    obtain ⟨v, hv, rfl⟩ := Option.map_eq_some_iff.mp hw
    exact ⟨v, hv, hf, hd, ht⟩
  | done w hp | released hp => exact absurd (List.mem_append_left _ hr) hp

/-- A request is not in the queue if it is in the hands of the server or was served. -/
theorem not_mem_queue (h : Inv as s) (hr : r ∈ s.served ++ s.server.unserved) : r ∉ as := by
  have hn := h.nodup
  rw [h.order] at hn
  exact (List.nodup_append'.mp hn).2.2 hr

end Frames

section Steps

variable {r i : Nat} {as bs : List Nat} {s t : State} {c : Call} {server : Server}
  {clients : List Client} {operation : Operation}

/-- A thread goes on without touching a request. -/
theorem inv_control {printed : List (List Char)} (h : Inv as s) (habs : server ≠ .absent → s.server ≠ .absent)
    (hhand : server.hand = s.server.hand) (hun : server.unserved = s.server.unserved)
    (hfin : ∀ a operation, server = .finishing a operation → ∃ c ∈ calls s, c.request = a)
    (hcalls : (clients.filterMap Client.call).Perm (calls s)) :
    Inv as { s with server := server, clients := clients, printed := printed } := by
  refine ⟨h.alive, fun hs => h.running (habs hs), h.queue, ?_, h.nodup, h.old, ?_, ?_, ?_, ?_, ?_,
    h.lines, h.once, h.released, h.returned⟩
  · exact h.order.trans (by rw [hun])
  · intro a ha
    rw [hhand] at ha
    rw [hun]
    exact h.hand a ha
  · intro a operation hs
    obtain ⟨c, hc, hca⟩ := hfin a operation hs
    exact ⟨c, hcalls.mem_iff.mpr hc, hca⟩
  · intro c hc
    apply phase_frame (r := s.store.mem.next) _ (ne_next h hc) (h.phase c hc)
    refine ⟨?_, ?_, fun _ _ => rfl, fun _ _ => Iff.rfl, fun _ hx => hx, fun _ hx => hx⟩
    · intro a _
      rw [hhand]
    · exact fun c _ => hcalls.mem_iff
  · intro c hc
    exact h.calls c (hcalls.mem_iff.mp hc)
  · exact hcalls.nodup_iff.mpr h.distinct

/-- The server takes the first request. -/
theorem inv_take {reg : TtyServer} (h : Inv (r :: as) s) (hhand : s.server.hand = [])
    (habs : s.server ≠ .absent) (hrun : reg.running = s.store.reg.running)
    (hq : Queue ⟨s.store.mem, reg⟩ as) :
    Inv as { s with store := ⟨s.store.mem, reg⟩, server := .taken r } := by
  have hun : s.server.unserved = [] := by
    cases hs : s.server with
    | taken a | reading a => simp [hs, Server.hand] at hhand
    | absent | starting | waiting | woken | processed | finishing | returned => rfl
  refine ⟨h.alive, fun _ => hrun.trans (h.running habs), hq, ?_, h.nodup, h.old, ?_,
    fun _ _ => Server.noConfusion, ?_, h.calls, h.distinct, h.lines, h.once, h.released, h.returned⟩
  · have ho := h.order
    rw [hun, List.append_nil] at ho
    change requests s = s.served ++ [r] ++ as
    rw [ho, List.append_assoc]
    rfl
  · intro a ha
    exact List.mem_append_right _ ha
  · intro c hc
    have hp : c.request ∈ [r] ++ as ↔ c.request ∈ s.server.hand ++ r :: as := by rw [hhand]; rfl
    cases h.phase c hc with
    | pending v hp' hv hf hd ht => exact .pending v (hp.mpr hp') hv hf hd ht
    | done v hp' hv hd hcall ht => exact .done v (fun hp'' => hp' (hp.mp hp'')) hv hd hcall ht
    | released hp' hv hcall hr => exact .released (fun hp'' => hp' (hp.mp hp'')) hv hcall hr

/-- Only the request in the hands of the server is touched, which is not in the queue. -/
theorem queue_other {st : Store Request TtyServer} (h : Inv as s) (hr : r ∉ as)
    (hreg : st.reg = s.store.reg) (hother : ∀ a, a ≠ r → st.mem.cell a = s.store.mem.cell a) :
    Queue st as := by
  refine ⟨?_, ?_⟩
  · rw [hreg]
    apply chain_congr _ h.queue.chain
    intro a ha
    exact hother a (fun he => hr (he ▸ ha))
  · rw [hreg]
    exact h.queue.last

/-- The server has served the request in its hands. -/
theorem inv_serve {st : Store Request TtyServer} {v : Request} {text : List Char}
    {extra : List (Nat × Option (List Char))} {printed : List (List Char)} (h : Inv as s)
    (hhand : s.server.hand = [r]) (hun : s.server.unserved = [r])
    (hv : s.store.mem.cell r = some v) (hreg : st.reg = s.store.reg)
    (hnext : st.mem.next = s.store.mem.next) (hcell : st.mem.cell r = some { v with text := text })
    (hother : ∀ a, a ≠ r → st.mem.cell a = s.store.mem.cell a)
    (hextra : (extra.map Prod.fst).Sublist [r])
    (htext : v.operation = .read → ∃ line, (r, line) ∈ extra ∧ str text = lineText line) :
    Inv as { s with
      store := st, server := .processed r operation, served := s.served ++ [r]
      lines := s.lines ++ extra, printed := printed } := by
  have hmem : r ∈ s.served ++ s.server.unserved := h.hand r (mem_hand hhand)
  have hr := not_mem_queue h hmem
  have hf : Concerns r as as s { s with
      store := st, server := .processed r operation, served := s.served ++ [r]
      lines := s.lines ++ extra, printed := printed } := by
    refine ⟨?_, fun _ _ => Iff.rfl, ?_, ?_, ?_, fun _ hx => hx⟩
    · intro a _
      rw [hhand]
      rfl
    · intro a ha
      simp only [body, hother a ha]
    · intro a ha
      simp [ha]
    · exact List.subset_append_left _ _
  have hrun : st.reg.running = true := by
    rw [hreg]
    exact h.running (ne_absent hhand)
  refine ⟨h.alive, fun _ => hrun, queue_other h hr hreg hother, ?_, h.nodup, ?_, ?_,
    fun _ _ => Server.noConfusion, ?_, h.calls, h.distinct, ?_, h.once, ?_, ?_⟩
  · have ho := h.order
    rw [hun] at ho
    change requests s = s.served ++ [r] ++ [] ++ as
    rw [ho, List.append_nil]
  · intro c hc
    rw [hnext]
    exact h.old c hc
  · intro a ha
    exact List.mem_append_left _ (List.mem_append_right _ ha)
  · intro c hc
    by_cases hcr : c.request = r
    · obtain ⟨d, hd, hdr, w, hw, hfit, hdone, -⟩ := hand_call h (mem_hand hhand)
      cases call_unique h hc hd (hcr.trans hdr.symm)
      cases hv.symm.trans hw
      refine .pending { v with text := text, next := 0 } ?_ ?_ ⟨hfit.operation, hfit.synchronous⟩ hdone ?_
      · rw [hcr]
        exact List.mem_append_left _ (List.mem_singleton.mpr rfl)
      · simp only [body, hcr, hcell, Option.map_some]
        rfl
      · intro _ hop
        obtain ⟨line, hl, he⟩ := htext (hfit.operation.trans hop)
        exact ⟨line, List.mem_append_right _ (hcr ▸ hl), he⟩
    · exact phase_frame hf hcr (h.phase c hc)
  · rw [List.map_append]
    exact h.lines.append hextra
  · intro x hx
    obtain ⟨c, hc, hcx, hcs, hnone⟩ := h.released x hx
    have hxr : x.1 ≠ r := by
      rintro rfl
      rw [hv] at hnone
      cases hnone
    exact ⟨c, hc, hcx, hcs, (hother _ hxr).trans hnone⟩
  · intro x hx
    obtain ⟨hx₁, hx₂, hx₃, hx₄⟩ := h.returned x hx
    refine ⟨hx₁, List.mem_append_left _ hx₂, hx₃, fun hop => ?_⟩
    obtain ⟨line, hl, he⟩ := hx₄ hop
    exact ⟨line, List.mem_append_left _ hl, he⟩

/-- The server tells the client that its request is done. -/
theorem inv_finish (h : Inv as s) (hhand : s.server.hand = [r]) (hun : s.server.unserved = [])
    (hhand' : server.hand = []) (hun' : server.unserved = [])
    (hcalls : clients.filterMap Client.call = calls s) (hsync : ∃ c ∈ calls s, c.request = r) :
    Inv as { s with
      store := ⟨s.store.mem.modify r (fun v => { v with doneFlag := true }), s.store.reg⟩
      server := server, clients := clients } := by
  have hrh := mem_hand hhand
  have hmem := h.hand r hrh
  have hras := not_mem_queue h hmem
  have hother : ∀ a, a ≠ r →
      (s.store.mem.modify r (fun v => { v with doneFlag := true })).cell a = s.store.mem.cell a :=
    fun a ha => Memory.cell_modify_ne _ ha _
  obtain ⟨d, hd, hdr, v, hv, hfit, hdone, htext⟩ := hand_call h hrh
  have hf : Concerns r as as s { s with
      store := ⟨s.store.mem.modify r (fun v => { v with doneFlag := true }), s.store.reg⟩
      server := server, clients := clients } := by
    refine ⟨?_, ?_, ?_, fun _ _ => Iff.rfl, fun _ hx => hx, fun _ hx => hx⟩
    · intro a ha
      simp [hhand, hhand', ha]
    · intro c _
      rw [show calls { s with store := _, server := server, clients := clients } = calls s from hcalls]
    · intro a ha
      simp only [body, hother a ha]
  refine ⟨h.alive, fun _ => h.running (ne_absent hhand), queue_other h hras rfl hother, ?_, h.nodup,
    h.old, ?_, ?_, ?_, ?_, ?_, h.lines, h.once, ?_, h.returned⟩
  · exact h.order.trans (by rw [hun, hun'])
  · intro a ha
    rw [hhand'] at ha
    cases ha
  · rintro a operation rfl
    cases hhand'
  · intro c hc
    by_cases hcr : c.request = r
    · cases call_unique h hc hd (hcr.trans hdr.symm)
      obtain ⟨e, he, her⟩ := hsync
      obtain ⟨he, hs⟩ := h.calls e he
      cases call_unique h he hd (her.trans hdr.symm)
      refine .done { v with doneFlag := true, next := 0 } ?_ ?_ rfl ?_ ?_
      · rw [hhand', hcr]
        exact hras
      · simp only [body, hcr, Memory.cell_modify_self, hv, Option.map_some]
        rfl
      · change d ∈ clients.filterMap Client.call
        rw [hcalls]
        exact (hdone hs).2
      · apply htext
        rwa [hun, List.append_nil] at hmem
    · exact phase_frame hf hcr (h.phase c hc)
  · intro c hc
    exact h.calls c (hcalls ▸ hc)
  · change (clients.filterMap Client.call).Nodup
    rw [hcalls]
    exact h.distinct
  · intro x hx
    obtain ⟨c, hc, hcx, hcs, hnone⟩ := h.released x hx
    refine ⟨c, hc, hcx, hcs, ?_⟩
    by_cases hxr : x.1 = r
    · rw [hxr, hv] at hnone
      cases hnone
    · exact (hother _ hxr).trans hnone

/-- A request is released by the one who is responsible for it. -/
theorem inv_free {v : Request} {returned : List Return} (h : Inv as s) (hc : c ∈ s.appended)
    (hv : s.store.mem.cell c.request = some v) (hras : c.request ∉ as)
    (habs : server ≠ .absent → s.server ≠ .absent)
    (hfin : ∀ a operation, server = .finishing a operation → s.server = .finishing a operation)
    (hhand : ∀ a, a ∈ server.hand ↔ a ∈ s.server.hand ∧ a ≠ c.request)
    (hun : server.unserved = s.server.unserved)
    (hcalls : ∀ d, d ∈ clients.filterMap Client.call ↔ d ∈ calls s ∧ d ≠ c)
    (hdist : (clients.filterMap Client.call).Nodup)
    (hret : ∀ x ∈ returned, ⟨x.request, x.operation, true⟩ ∈ s.appended ∧ x.request ∈ s.served ∧
      (x.request, true) ∈ s.released ++ [(c.request, c.synchronous)] ∧ (x.operation = .read →
        ∃ line, (x.request, line) ∈ s.lines ∧ x.string = some (lineText line))) :
    Inv as { s with
      store := ⟨s.store.mem.free c.request, s.store.reg⟩, server := server, clients := clients
      released := s.released ++ [(c.request, c.synchronous)], returned := returned } := by
  have hother : ∀ a, a ≠ c.request →
      (s.store.mem.free c.request).cell a = s.store.mem.cell a :=
    fun a ha => Memory.cell_free_ne _ ha
  have hnew : c.request ∉ s.released.map Prod.fst := by
    intro hm
    obtain ⟨x, hx, hxc⟩ := List.mem_map.mp hm
    obtain ⟨-, -, -, -, hnone⟩ := h.released x hx
    rw [hxc, hv] at hnone
    cases hnone
  have hf : Concerns c.request as as s { s with
      store := ⟨s.store.mem.free c.request, s.store.reg⟩, server := server, clients := clients
      released := s.released ++ [(c.request, c.synchronous)], returned := returned } := by
    refine ⟨?_, ?_, ?_, fun _ _ => Iff.rfl, fun _ hx => hx, List.subset_append_left _ _⟩
    · intro a ha
      simp only [List.mem_append, hhand, ne_eq, ha, not_false_eq_true, and_true]
    · intro d hd
      have hne : d ≠ c := fun he => hd (by rw [he])
      exact (hcalls d).trans (and_iff_left hne)
    · intro a ha
      simp only [body, hother a ha]
  refine ⟨h.alive, fun hs => h.running (habs hs), queue_other h hras rfl hother, ?_, h.nodup, h.old, ?_,
    ?_, ?_, ?_, hdist, h.lines, ?_, ?_, hret⟩
  · exact h.order.trans (by rw [hun])
  · intro a ha
    rw [hun]
    exact h.hand a ((hhand a).mp ha).1
  · intro a operation hs
    change server = .finishing a operation at hs
    obtain ⟨d, hd, hda⟩ := h.finishing a operation (hfin a operation hs)
    have ha : a ∈ server.hand := by rw [hs]; exact List.mem_singleton.mpr rfl
    refine ⟨d, (hcalls d).mpr ⟨hd, ?_⟩, hda⟩
    rintro rfl
    exact ((hhand a).mp ha).2 hda.symm
  · intro d hd
    by_cases hdc : d.request = c.request
    · cases call_unique h hd hc hdc
      refine .released ?_ (Memory.cell_free_self ..) (fun hm => ((hcalls c).mp hm).2 rfl) ?_
      · simp only [List.mem_append, hhand, not_or]
        exact ⟨fun hm => hm.2 rfl, hras⟩
      · exact List.mem_append_right _ (List.mem_singleton.mpr rfl)
    · exact phase_frame hf hdc (h.phase d hd)
  · intro d hd
    exact h.calls d ((hcalls d).mp hd).1
  · rw [List.map_append, List.map_singleton]
    exact List.nodup_append'.mpr ⟨h.once, List.nodup_singleton _, List.disjoint_singleton.mpr hnew⟩
  · intro x hx
    obtain hx | hx := List.mem_append.mp hx
    · obtain ⟨d, hd, hdx, hds, hnone⟩ := h.released x hx
      have hxc : x.1 ≠ c.request := fun he => hnew (he ▸ List.mem_map_of_mem hx)
      exact ⟨d, hd, hdx, hds, (hother _ hxc).trans hnone⟩
    · cases List.mem_singleton.mp hx
      exact ⟨c, hc, rfl, rfl, Memory.cell_free_self ..⟩

theorem hand_signalRequest (server : Server) : server.signalRequest.hand = server.hand := by
  cases server <;> rfl

theorem unserved_signalRequest (server : Server) :
    server.signalRequest.unserved = server.unserved := by
  cases server <;> rfl

theorem finishing_signalRequest (h : server.signalRequest = .finishing r operation) :
    server = .finishing r operation := by
  cases server with
  | waiting => cases h
  | _ => exact h

/-- A new request is at the end of the queue. -/
theorem inv_append {st : Store Request TtyServer} {v : Request} (h : Inv as s)
    (hn : c.request = s.store.mem.next) (hq : Queue st (as ++ [c.request]))
    (hrun : st.reg.running = true) (hold : st.mem.next = s.store.mem.next + 1)
    (hnew : (st.mem.cell c.request).map Request.body = some v)
    (hother : ∀ a, a ≠ c.request →
      (st.mem.cell a).map Request.body = (s.store.mem.cell a).map Request.body)
    (hfit : Fits v c) (hdone : c.synchronous = true → v.doneFlag = false)
    (hhand : server.hand = s.server.hand) (hun : server.unserved = s.server.unserved)
    (hfin : ∀ a operation, server = .finishing a operation → s.server = .finishing a operation)
    (hcalls : (clients.filterMap Client.call).Perm
      ((if c.synchronous then [c] else []) ++ calls s)) :
    Inv (as ++ [c.request]) { s with
      store := st, server := server, clients := clients, appended := s.appended ++ [c] } := by
  have hfresh : ∀ d ∈ s.appended, d.request ≠ c.request := fun d hd => hn ▸ ne_next h hd
  have hmem : ∀ d, d ∈ clients.filterMap Client.call ↔
      (c.synchronous = true ∧ d = c) ∨ d ∈ calls s := by
    intro d
    rw [hcalls.mem_iff, List.mem_append]
    split_ifs with hs <;> simp [hs]
  have hserved : c.request ∉ s.served ++ s.server.unserved := by
    intro hm
    have hr : c.request ∈ requests s := by
      rw [h.order]
      exact List.mem_append_left _ hm
    obtain ⟨d, hd, he⟩ := List.mem_map.mp hr
    exact hfresh d hd he
  have hf : Concerns c.request as (as ++ [c.request]) s { s with
      store := st, server := server, clients := clients, appended := s.appended ++ [c] } := by
    refine ⟨?_, ?_, hother, fun _ _ => Iff.rfl, fun _ hx => hx, fun _ hx => hx⟩
    · intro a ha
      simp [hhand, ha]
    · intro d hd
      have hne : d ≠ c := fun he => hd (by rw [he])
      exact (hmem d).trans (by simp [hne])
  refine ⟨h.alive, fun _ => hrun, hq, ?_, ?_, ?_, ?_, ?_, ?_, ?_, ?_, h.lines, h.once, ?_, ?_⟩
  · change (s.appended ++ [c]).map Call.request = _
    rw [List.map_append, List.map_singleton, hun]
    change requests s ++ [c.request] = _
    rw [h.order, List.append_assoc]
  · change ((s.appended ++ [c]).map Call.request).Nodup
    rw [List.map_append, List.map_singleton]
    refine List.nodup_append'.mpr ⟨h.nodup, List.nodup_singleton _, List.disjoint_singleton.mpr ?_⟩
    intro hm
    obtain ⟨d, hd, he⟩ := List.mem_map.mp hm
    exact hfresh d hd he
  · intro d hd
    rw [hold]
    obtain hd | hd := List.mem_append.mp hd
    · exact Nat.lt_succ_of_lt (h.old d hd)
    · rw [List.mem_singleton.mp hd, hn]
      exact Nat.lt_succ_self _
  · intro a ha
    rw [hhand] at ha
    rw [hun]
    exact h.hand a ha
  · intro a operation hs
    obtain ⟨d, hd, hda⟩ := h.finishing a operation (hfin a operation hs)
    exact ⟨d, (hmem d).mpr (.inr hd), hda⟩
  · intro d hd
    obtain hd | hd := List.mem_append.mp hd
    · exact phase_frame hf (hfresh d hd) (h.phase d hd)
    · rw [List.mem_singleton.mp hd]
      refine .pending v ?_ hnew hfit ?_ ?_
      · simp
      · intro hs
        exact ⟨hdone hs, (hmem c).mpr (.inl ⟨hs, rfl⟩)⟩
      · intro hs
        exact absurd (List.mem_append_left _ hs) hserved
  · intro d hd
    obtain ⟨hs, rfl⟩ | hd := (hmem d).mp hd
    · exact ⟨List.mem_append_right _ (List.mem_singleton.mpr rfl), hs⟩
    · exact ⟨List.mem_append_left _ (h.calls d hd).1, (h.calls d hd).2⟩
  · refine hcalls.nodup_iff.mpr (List.nodup_append'.mpr ⟨?_, h.distinct, ?_⟩)
    · split_ifs <;> simp
    · intro d hd hd'
      split_ifs at hd
      · rw [List.mem_singleton.mp hd] at hd'
        exact hfresh c (h.calls c hd').1 rfl
      · cases hd
  · intro x hx
    obtain ⟨d, hd, hdx, hds, hnone⟩ := h.released x hx
    refine ⟨d, List.mem_append_left _ hd, hdx, hds, ?_⟩
    have he := hother x.1 (hdx ▸ hfresh d hd)
    rw [hnone] at he
    exact Option.map_eq_none_iff.mp he
  · intro x hx
    obtain ⟨hx₁, hx₂⟩ := h.returned x hx
    exact ⟨List.mem_append_left _ hx₁, hx₂⟩

theorem inv_request {v : Request} (h : Inv as s) (hi : s.clients[i]? = some .idle)
    (hnext : v.next = 0) (hdone : v.synchronous = true → v.doneFlag = false) :
    ∃ bs, Inv bs (request s i v) := by
  obtain ⟨st, hst, hq, hrun, hold, hnew, hother⟩ := ttyServerRequest_ok h.queue hnext
  obtain ⟨rest, hrest, hset⟩ := filterMap_set Client.call hi
  have hserver : ∀ server : Server,
      server = (if !s.store.reg.running then .starting else s.server.signalRequest) →
        server.hand = s.server.hand ∧ server.unserved = s.server.unserved ∧
          ∀ a operation, server = .finishing a operation → s.server = .finishing a operation := by
    rintro server rfl
    split_ifs with hstart
    · have habs : s.server = .absent := by
        by_contra hne
        rw [h.running hne] at hstart
        cases hstart
      rw [habs]
      exact ⟨rfl, rfl, by simp⟩
    · exact ⟨hand_signalRequest s.server, unserved_signalRequest s.server,
        fun _ _ => finishing_signalRequest⟩
  refine ⟨as ++ [s.store.mem.next], ?_⟩
  rw [request, within_ok hst]
  apply inv_append (c := ⟨s.store.mem.next, v.operation, v.synchronous⟩) h rfl hq hrun hold hnew hother
    ⟨rfl, rfl⟩ hdone (hserver _ rfl).1 (hserver _ rfl).2.1 (hserver _ rfl).2.2
  refine (hset _).trans (List.Perm.append ?_ hrest.symm)
  split_ifs with hs
  · rw [hs]
    exact List.Perm.refl _
  · exact List.Perm.refl _

theorem call_signalDone (done : Nat) (client : Client) :
    (client.signalDone done).call = client.call := by
  cases client with
  | waiting request operation =>
    rw [Client.signalDone]
    split_ifs <;> rfl
  | idle | woken => rfl

theorem call_wake (client : Client) : client.wake.call = client.call := by
  cases client <;> rfl

theorem hand_nextRound (operation : Operation) : (nextRound operation).hand = [] := by
  rw [nextRound]
  split_ifs <;> rfl

theorem unserved_nextRound (operation : Operation) : (nextRound operation).unserved = [] := by
  rw [nextRound]
  split_ifs <;> rfl

theorem calls_map {f : Client → Client} (hf : ∀ client, (f client).call = client.call) :
    (s.clients.map f).filterMap Client.call = calls s := by
  rw [List.filterMap_map]
  congr 1
  funext client
  exact hf client

/-- A client looks at its request again. -/
theorem inv_resume (h : Inv as s) (hi : s.clients[i]? = some (.woken r operation)) :
    Inv as (resume s i r operation) := by
  obtain ⟨rest, hrest, hset⟩ := filterMap_set Client.call hi
  have hcall : (⟨r, operation, true⟩ : Call) ∈ calls s :=
    hrest.mem_iff.mpr (List.mem_append_left _ (List.mem_singleton.mpr rfl))
  obtain ⟨hc, -⟩ := h.calls _ hcall
  cases h.phase _ hc with
  | pending w hp hw hf hd ht =>
    obtain ⟨v, hv, rfl⟩ := Option.map_eq_some_iff.mp hw
    rw [resume, within_ok (reply_wait hv (hd rfl).1)]
    exact inv_control h id rfl rfl h.finishing ((hset _).trans hrest.symm)
  | done w hp hw hd _ ht =>
    obtain ⟨v, hv, rfl⟩ := Option.map_eq_some_iff.mp hw
    rw [resume, within_ok (reply_done hv hd)]
    simp only [List.mem_append, not_or] at hp
    have hserved : r ∈ s.served := by
      have hm := mem_requests hc
      rw [h.order, List.mem_append, List.mem_append] at hm
      obtain (hm | hm) | hm := hm
      · exact hm
      · refine absurd ?_ hp.1
        cases hs : s.server with
        | taken a | reading a => rwa [hs] at hm
        | _ =>
          rw [hs] at hm
          cases hm
      · exact absurd hm hp.2
    have hdist := hrest.nodup_iff.mp h.distinct
    have hnew : ((s.clients.set i .idle).filterMap Client.call).Perm rest := hset .idle
    apply inv_free (c := ⟨r, operation, true⟩) h hc hv hp.2 id (fun _ _ => id)
    · intro a
      refine ⟨fun ha => ⟨ha, ?_⟩, And.left⟩
      rintro rfl
      exact hp.1 ha
    · rfl
    · intro d
      have hd : d ∈ calls s ↔ d = ⟨r, operation, true⟩ ∨ d ∈ rest :=
        hrest.mem_iff.trans List.mem_cons
      have hn : (⟨r, operation, true⟩ : Call) ∉ rest := (List.nodup_cons.mp hdist).1
      rw [hnew.mem_iff, hd]
      refine ⟨fun hm => ⟨.inr hm, ?_⟩, fun hm => hm.1.resolve_left hm.2⟩
      rintro rfl
      exact hn hm
    · exact hnew.nodup_iff.mpr (List.nodup_append'.mp hdist).2.1
    · intro x hx
      obtain hx | hx := List.mem_append.mp hx
      · obtain ⟨hx₁, hx₂, hx₃, hx₄⟩ := h.returned x hx
        exact ⟨hx₁, hx₂, List.mem_append_left _ hx₃, hx₄⟩
      · cases List.mem_singleton.mp hx
        refine ⟨hc, hserved, List.mem_append_right _ (List.mem_singleton.mpr rfl), fun hop => ?_⟩
        obtain ⟨line, hl, he⟩ := ht hop
        exact ⟨line, hl, by rw [if_pos hop]; exact congrArg some he⟩
  | released hp hv hn hr => exact absurd hcall hn

theorem inv_routine {line : Option (List Char)} (h : Inv as s)
    (hs : ttyServerRoutine s line = some t) : ∃ bs, Inv bs t := by
  have htake : s.server = .starting ∨ s.server = .woken →
      ∃ bs, Inv bs (within s takeRequest fun server s => { s with server := server }) := by
    intro hserver
    have hhand : s.server.hand = [] := by obtain hs | hs := hserver <;> rw [hs] <;> rfl
    have hun : s.server.unserved = [] := by obtain hs | hs := hserver <;> rw [hs] <;> rfl
    have habs : s.server ≠ .absent := by
      obtain hs | hs := hserver <;> rw [hs] <;> exact Server.noConfusion
    cases as with
    | nil =>
      rw [within_ok (takeRequest_nil h.queue)]
      exact ⟨[], inv_control h (fun _ => habs) hhand.symm hun.symm (fun _ _ => Server.noConfusion)
        (List.Perm.refl _)⟩
    | cons a as =>
      obtain ⟨reg, hok, hq, hrun⟩ := takeRequest_cons h.queue
      rw [within_ok hok]
      exact ⟨as, inv_take h hhand habs hrun hq⟩
  cases hserver : s.server with
  | absent | waiting | returned =>
    rw [ttyServerRoutine, hserver] at hs
    cases hs
  | starting =>
    rw [ttyServerRoutine, hserver] at hs
    cases hs
    exact htake (.inl hserver)
  | woken =>
    rw [ttyServerRoutine, hserver] at hs
    cases hs
    exact htake (.inr hserver)
  | taken r =>
    rw [ttyServerRoutine, hserver] at hs
    cases hs
    have hhand : s.server.hand = [r] := by rw [hserver]; rfl
    have hun : s.server.unserved = [r] := by rw [hserver]; rfl
    obtain ⟨c, hc, hcr, v, hv, hf, hd, ht⟩ := hand_call h (mem_hand hhand)
    by_cases hop : v.operation = .read
    · obtain ⟨prompts, hok⟩ := process_read hv hop
      simp only [within_ok hok, Server.serves, List.append_nil]
      exact ⟨as, inv_control h (fun _ => ne_absent hhand) hhand.symm hun.symm
        (fun _ _ => Server.noConfusion) (List.Perm.refl _)⟩
    · have hserve : ∀ texts, Inv as { s with
          server := .processed r v.operation, served := s.served ++ [r]
          lines := s.lines ++ [], printed := s.printed ++ texts } := fun texts =>
        inv_serve h hhand hun hv rfl rfl hv (fun _ _ => rfl) (List.nil_sublist _)
          (fun h => absurd h hop)
      simp only [List.append_nil] at hserve
      rw [within_ok (process_other hv hop)]
      exact ⟨as, hserve _⟩
  | reading r =>
    rw [ttyServerRoutine, hserver] at hs
    obtain ⟨-, hs⟩ := Option.ite_none_right_eq_some.mp hs
    cases hs
    have hhand : s.server.hand = [r] := by rw [hserver]; rfl
    have hun : s.server.unserved = [r] := by rw [hserver]; rfl
    obtain ⟨c, hc, hcr, v, hv, hf, hd, ht⟩ := hand_call h (mem_hand hhand)
    obtain ⟨st, hok, hreg, hnext, hcell, hother⟩ := readText_ok hv line
    rw [within_ok hok]
    refine ⟨as, inv_serve (s := s) h hhand hun hv hreg hnext hcell hother (List.Sublist.refl _) fun _ => ?_⟩
    exact ⟨line, List.mem_singleton.mpr rfl, str_answer v.text line⟩
  | processed r operation =>
    rw [ttyServerRoutine, hserver] at hs
    cases hs
    have hhand : s.server.hand = [r] := by rw [hserver]; rfl
    have hun : s.server.unserved = [] := by rw [hserver]; rfl
    obtain ⟨c, hc, rfl, v, hv, hf, hd, ht⟩ := hand_call h (mem_hand hhand)
    cases hsync : v.synchronous with
    | true =>
      simp only [within_ok (complete_sync hv hsync), Bool.false_eq_true, ↓reduceIte, List.append_nil]
      refine ⟨as, inv_control h (fun _ => ne_absent hhand) hhand.symm hun.symm ?_ (List.Perm.refl _)⟩
      intro a o ha
      cases ha
      exact ⟨c, (hd (hf.synchronous.symm.trans hsync)).2, rfl⟩
    | false =>
      have hcs : c.synchronous = false := hf.synchronous.symm.trans hsync
      have hcall : c ∉ calls s := by
        intro hm
        rw [(h.calls c hm).2] at hcs
        cases hcs
      rw [within_ok (complete_async hv hsync)]
      refine ⟨as, ?_⟩
      have hfree : Inv as { s with
          store := ⟨s.store.mem.free c.request, s.store.reg⟩, server := nextRound operation
          released := s.released ++ [(c.request, c.synchronous)] } :=
        inv_free h hc hv (not_mem_queue h (h.hand _ (mem_hand hhand)))
          (fun _ => ne_absent hhand) ?_ ?_ ?_ ?_ h.distinct ?_
      · rw [hcs] at hfree
        exact hfree
      · intro a o ha
        have hn := hand_nextRound operation
        rw [ha] at hn
        cases hn
      · intro a
        rw [hand_nextRound, hhand]
        simp
      · rw [unserved_nextRound, hun]
      · intro d
        refine ⟨fun hm => ⟨hm, ?_⟩, And.left⟩
        rintro rfl
        exact hcall hm
      · intro x hx
        obtain ⟨hx₁, hx₂, hx₃, hx₄⟩ := h.returned x hx
        exact ⟨hx₁, hx₂, List.mem_append_left _ hx₃, hx₄⟩
  | finishing r operation =>
    rw [ttyServerRoutine, hserver] at hs
    cases hs
    have hhand : s.server.hand = [r] := by rw [hserver]; rfl
    have hun : s.server.unserved = [] := by rw [hserver]; rfl
    obtain ⟨c, hc, hcr, v, hv, hf, hd, ht⟩ := hand_call h (mem_hand hhand)
    rw [within_ok (finish_ok hv)]
    refine ⟨as, inv_finish h hhand hun (hand_nextRound _) (unserved_nextRound _)
      (calls_map (call_signalDone r)) (h.finishing r operation hserver)⟩

theorem inv_step {a : Action} (h : Inv as s) (hs : step s a = some t) : ∃ bs, Inv bs t := by
  obtain ⟨-, hs⟩ := Option.ite_none_left_eq_some.mp hs
  cases a with
  | request i operation sync prompt string garbage =>
    obtain ⟨⟨hi, -⟩, hs⟩ := Option.ite_none_right_eq_some.mp hs
    cases hs
    refine inv_request h hi rfl fun hsync => ?_
    exact if_pos hsync
  | resume i =>
    simp only at hs
    split at hs
    · rename_i r operation hi
      cases hs
      exact ⟨as, inv_resume h hi⟩
    · cases hs
  | server line => exact inv_routine h hs
  | wakeServer =>
    cases hs
    refine ⟨as, inv_control h ?_ (hand_signalRequest _) (unserved_signalRequest _) ?_ (List.Perm.refl _)⟩
    · intro hne he
      rw [he] at hne
      exact hne rfl
    · exact fun a o ha => h.finishing a o (finishing_signalRequest ha)
  | wakeClient i =>
    cases hs
    refine ⟨as, inv_control h id rfl rfl h.finishing ?_⟩
    have hmap : ∀ l : List Client, l.filterMap Client.call = (l.map Client.call).filterMap id := by
      intro l
      rw [List.filterMap_map]
      rfl
    rw [hmap, map_modify call_wake, ← hmap]
    exact List.Perm.refl _

end Steps

theorem inv_init (clients : Nat) : Inv [] (init clients) := by
  have hcalls : calls (init clients) = [] := by
    rw [calls, List.filterMap_eq_nil_iff]
    intro client hclient
    rw [List.eq_of_mem_replicate hclient]
    rfl
  refine ⟨rfl, fun h => absurd rfl h, ⟨rfl, rfl⟩, rfl, List.nodup_nil, nofun, nofun, nofun, nofun, ?_,
    ?_, List.nil_sublist _, List.nodup_nil, nofun, nofun⟩
  · intro c hc
    rw [hcalls] at hc
    cases hc
  · rw [hcalls]
    exact List.nodup_nil

/-- What `malloc` may give. -/
def garbage : Request :=
  ⟨7, .other, true, true, List.replicate 32 '?', List.replicate 128 '?'⟩

end C11AndC.Terminal
