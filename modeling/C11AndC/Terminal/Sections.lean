import C11AndC.Terminal.Model
import C11AndC.Library.Chain

namespace C11AndC.Terminal

open C11AndC.Library

/-- A request without its place in the queue. -/
def Request.body (v : Request) : Request := { v with next := 0 }

/-- The string that the server leaves in a request for what `fgets` found. -/
def lineText : Option (List Char) → List Char
  | some line => dropNewline (str line)
  | none => []

/-- What the input of a line leaves in the text of a request. -/
def answer (text : List Char) : Option (List Char) → List Char
  | some line => chomp (fill text line)
  | none => chomp (text.set 0 nul)

variable {st : Store Request TtyServer} {as : List Nat} {request : Nat} {v : Request}
  {operation : Operation}

/-- The queue is a chain that ends in `last`. -/
structure Queue (st : Store Request TtyServer) (as : List Nat) : Prop where
  chain : Chain st.mem Request.next st.reg.first as
  last : st.reg.last = as.getLast?.getD 0

theorem within_ok {β : Type} {s : State} {p : Section β} {k : β → State → State} {r : β}
    {t : Store Request TtyServer} (h : p s.store = .ok (r, t)) :
    within s p k = k r { s with store := t } := by
  rw [within, h]

theorem body_modify {m : Memory Request} {f : Request → Request} (hf : ∀ v, (f v).body = v.body)
    (a b : Nat) : ((m.modify a f).cell b).map Request.body = (m.cell b).map Request.body := by
  by_cases hb : b = a
  · subst hb
    rw [Memory.cell_modify_self, Option.map_map]
    congr 1
    funext v
    exact hf v
  · rw [Memory.cell_modify_ne m hb]

theorem getLast?_concat_getD (as : List Nat) (a : Nat) : (as ++ [a]).getLast?.getD 0 = a := by simp

/-- A new request is at the end of the queue, and no other one is changed but for its link. -/
theorem ttyServerRequest_ok (h : Queue st as) (hv : v.next = 0) :
    ∃ t, ttyServerRequest v st = .ok ((st.mem.next, !st.reg.running), t) ∧
      Queue t (as ++ [st.mem.next]) ∧ t.reg.running = true ∧ t.mem.next = st.mem.next + 1 ∧
      (t.mem.cell st.mem.next).map Request.body = some v.body ∧
      ∀ a, a ≠ st.mem.next → (t.mem.cell a).map Request.body = (st.mem.cell a).map Request.body := by
  obtain ⟨hchain, hlast⟩ := h
  obtain rfl | ⟨bs, l, rfl⟩ := List.eq_nil_or_concat as
  · have hfirst : st.reg.first = 0 := hchain
    refine ⟨⟨st.mem.alloc v, ⟨st.mem.next, st.mem.next, true⟩⟩, ?_, ⟨?_, rfl⟩, rfl, rfl, ?_, ?_⟩
    · apply ok_of_wp_eq
      simp [ttyServerRequest, append, hfirst]
    · exact ⟨rfl, v, Memory.cell_alloc_self .., hv⟩
    · rw [Memory.cell_alloc_self, Option.map_some]
    · intro a ha
      rw [Memory.cell_alloc_ne _ ha]
  · rw [List.concat_eq_append] at hchain hlast ⊢
    rw [getLast?_concat_getD] at hlast
    obtain ⟨w, hw⟩ := cell_of_mem_chain hchain (List.mem_append_right bs (List.mem_singleton.mpr rfl))
    have hlt := Memory.ne_next_of_cell hw
    have hfirst : st.reg.first ≠ 0 := by
      intro h0
      rw [h0] at hchain
      have hhead := chain_head hchain
      simp at hhead
    have hchain' : Chain (st.mem.alloc v) Request.next st.reg.first (bs ++ [l]) := by
      apply chain_congr _ hchain
      intro a ha
      obtain ⟨w, hw⟩ := cell_of_mem_chain hchain ha
      exact Memory.cell_alloc_ne _ (Memory.ne_next_of_cell hw) v
    have hbody : ∀ w : Request, ({ w with next := st.mem.next } : Request).body = w.body := fun _ => rfl
    have hnext : ∀ w : Request, ({ w with next := st.mem.next } : Request).next = st.mem.next :=
      fun _ => rfl
    refine ⟨⟨(st.mem.alloc v).modify l (fun w => { w with next := st.mem.next }),
      ⟨st.reg.first, st.mem.next, true⟩⟩, ?_, ⟨?_, ?_⟩, rfl, rfl, ?_, ?_⟩
    · apply ok_of_wp_eq
      simp [ttyServerRequest, append, hfirst, hlast, hlt, hw]
    · rw [List.append_assoc]
      apply chain_snoc hchain' hnext (Memory.cell_alloc_self ..) hv
      intro hmem
      obtain ⟨w, hw⟩ := cell_of_mem_chain hchain hmem
      exact Memory.ne_next_of_cell hw rfl
    · rw [getLast?_concat_getD]
    · rw [body_modify hbody, Memory.cell_alloc_self, Option.map_some]
    · intro a ha
      rw [body_modify hbody, Memory.cell_alloc_ne _ ha]

theorem takeRequest_nil (h : Queue st []) : takeRequest st = .ok (.waiting, st) := by
  have hfirst : st.reg.first = 0 := h.chain
  apply ok_of_wp_eq
  simp [takeRequest, hfirst]

theorem takeRequest_cons (h : Queue st (request :: as)) :
    ∃ reg, takeRequest st = .ok (.taken request, ⟨st.mem, reg⟩) ∧ Queue ⟨st.mem, reg⟩ as ∧
      reg.running = st.reg.running := by
  obtain ⟨⟨hfirst, v, hv, hchain⟩, hlast⟩ := h
  have hne := Memory.ne_zero_of_cell hv
  refine ⟨{ st.reg with first := v.next, last := if v.next = 0 then 0 else st.reg.last }, ?_,
    ⟨hchain, ?_⟩, rfl⟩
  · apply ok_of_wp_eq
    by_cases hn : v.next = 0 <;> simp [takeRequest, hfirst, hne, hv, hn]
  · simp only
    cases as with
    | nil =>
      have hn : v.next = 0 := hchain
      rw [if_pos hn]
      rfl
    | cons a as =>
      obtain ⟨hn, w, hw, -⟩ := hchain
      rw [if_neg (hn ▸ Memory.ne_zero_of_cell hw), hlast, List.getLast?_cons_cons]

theorem process_read (h : st.mem.cell request = some v) (hop : v.operation = .read) :
    ∃ prompts, process request st = .ok ((.reading request, prompts), st) := by
  refine ⟨if 0 < strlen v.prompt then [str v.prompt] else [], ?_⟩
  apply ok_of_wp_eq
  simp [process, h, hop]

theorem process_other (h : st.mem.cell request = some v) (hop : v.operation ≠ .read) :
    process request st = .ok ((.processed request v.operation,
      if v.operation = .write then [str v.text] else []), st) := by
  apply ok_of_wp_eq
  cases hv : v.operation with
  | read => exact absurd hv hop
  | write | quit | other => simp [process, h, hv]

theorem str_answer (text : List Char) (line : Option (List Char)) :
    str (answer text line) = lineText line := by
  cases line with
  | none =>
    rw [answer, str_chomp]
    cases text <;> rfl
  | some line =>
    rw [answer, str_chomp, str_fill]
    rfl

theorem terminated_answer {text : List Char} {line : Option (List Char)}
    (h : (line.getD []).length < text.length) : Terminated (answer text line) text.length := by
  cases line with
  | none => exact terminated_chomp (terminated_set (Nat.zero_lt_of_lt h))
  | some line => exact terminated_chomp (terminated_fill h)

theorem readText_ok (h : st.mem.cell request = some v) (line : Option (List Char)) :
    ∃ t, readText request line st = .ok (.processed request .read, t) ∧ t.reg = st.reg ∧
      t.mem.next = st.mem.next ∧ t.mem.cell request = some { v with text := answer v.text line } ∧
      ∀ a, a ≠ request → t.mem.cell a = st.mem.cell a := by
  cases line with
  | none =>
    refine ⟨⟨(st.mem.modify request (fun v => { v with text := v.text.set 0 nul })).modify request
      (fun v => { v with text := chomp v.text }), st.reg⟩, ?_, rfl, rfl, by simp [h, answer],
      fun a ha => by simp [ha]⟩
    apply ok_of_wp_eq
    simp [readText, h]
  | some line =>
    refine ⟨⟨(st.mem.modify request (fun v => { v with text := fill v.text line })).modify request
      (fun v => { v with text := chomp v.text }), st.reg⟩, ?_, rfl, rfl, by simp [h, answer],
      fun a ha => by simp [ha]⟩
    apply ok_of_wp_eq
    simp [readText, h]

theorem complete_sync (h : st.mem.cell request = some v) (hs : v.synchronous = true) :
    complete request operation st = .ok ((.finishing request operation, false), st) := by
  apply ok_of_wp_eq
  simp [complete, h, hs]

theorem complete_async (h : st.mem.cell request = some v) (hs : v.synchronous = false) :
    complete request operation st =
      .ok ((nextRound operation, true), ⟨st.mem.free request, st.reg⟩) := by
  apply ok_of_wp_eq
  simp [complete, h, hs]

theorem finish_ok (h : st.mem.cell request = some v) :
    finish request operation st = .ok (nextRound operation,
      ⟨st.mem.modify request (fun v => { v with doneFlag := true }), st.reg⟩) := by
  apply ok_of_wp_eq
  simp [finish, h]

theorem reply_wait (h : st.mem.cell request = some v) (hd : v.doneFlag = false) :
    reply request operation st = .ok (none, st) := by
  apply ok_of_wp_eq
  simp [reply, h, hd]

theorem reply_done (h : st.mem.cell request = some v) (hd : v.doneFlag = true) :
    reply request operation st = .ok (some (if operation = .read then some (str v.text) else none),
      ⟨st.mem.free request, st.reg⟩) := by
  have htext : (if 0 < strlen v.text then str v.text else []) = str v.text := by
    cases hs : str v.text with
    | nil => simp
    | cons c cs => simp [strlen, hs]
  apply ok_of_wp_eq
  simp [reply, h, hd, htext]

end C11AndC.Terminal
