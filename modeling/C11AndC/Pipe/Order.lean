import C11AndC.Pipe.Model
import C11AndC.Library.Lists
import Mathlib.Tactic.SplitIfs

namespace C11AndC.Pipe

open C11AndC.Library

/-- The value that a stage has still to pass on. -/
def Stage.item (stage : Stage) : Option Int :=
  if stage.dataReady = true ∧ stage.thread ≠ .sent then some stage.data else none

/-- The results that the values in the stages will be, from the last stage to the first. -/
def flow : List (Option Int) → List Int
  | [] => []
  | item :: rest => flow rest ++ (item.map (· + (rest.length : Int))).toList

def Sender.pending : Sender → List Int
  | .idle => []
  | .sending value => [value]
  | .blocked value => [value]
  | .woken value => [value]

def items (s : State) : List (Option Int) := s.stages.map Stage.item

/-- What the pipe delivers: the results are the first of the values sent, in their order,
and the others are on their way. -/
structure Delivers (stages : Nat) (s : State) : Prop where
  order : s.results <+: s.started.map (· + (stages : Int))
  pending : s.started.map (· + (stages : Int)) =
    s.results ++ flow (items s) ++ s.sender.pending.map (· + (stages : Int))
  active : 0 ≤ s.active ∧ s.active = s.started.length - s.claimed

/-- Only the last stage is without a thread, and a thread that has the mutex has data to
send. -/
def StageOk (stages i : Nat) (stage : Stage) : Prop :=
  (stage.thread = .absent ↔ i = stages) ∧ (stage.thread.holds = true → stage.dataReady = true)

structure Inv (stages : Nat) (s : State) : Prop where
  size : s.stages.length = stages + 1
  stage : ∀ i stage, s.stages[i]? = some stage → StageOk stages i stage
  pending : s.started.map (· + (stages : Int)) =
    s.results ++ flow (items s) ++ s.sender.pending.map (· + (stages : Int))
  active : 0 ≤ s.active ∧ s.active = s.started.length - s.claimed

section Flow

theorem flow_cons (x : Option Int) (l : List (Option Int)) :
    flow (x :: l) = flow l ++ (x.map (· + (l.length : Int))).toList := rfl

/-- A value that goes on to the next stage with one added is the same result. -/
theorem flow_move {l : List (Option Int)} {i : Nat} {data : Int} (h : l[i]? = some (some data))
    (h' : l[i + 1]? = some none) :
    flow ((l.set (i + 1) (some (data + 1))).set i none) = flow l := by
  induction l generalizing i with
  | nil => simp at h
  | cons x l ih =>
    cases i with
    | zero =>
      cases l with
      | nil => simp at h'
      | cons y l =>
        simp only [List.getElem?_cons_zero, Option.some.injEq, List.getElem?_cons_succ] at h h'
        subst h h'
        simp only [List.set_cons_succ, List.set_cons_zero, flow, Option.map_none, Option.map_some,
          Option.toList_none, Option.toList_some, List.append_nil, List.length_cons]
        congr 2
        push_cast
        omega
    | succ i =>
      rw [List.set_cons_succ, List.set_cons_succ, flow, flow, ih h h', List.length_set,
        List.length_set]

theorem flow_put {l : List (Option Int)} (value : Int) (h : l[0]? = some none) :
    flow (l.set 0 (some value)) = flow l ++ [value + ((l.length - 1 : Nat) : Int)] := by
  cases l with
  | nil => simp at h
  | cons x l =>
    cases h
    simp [flow]

theorem flow_take {l : List (Option Int)} {data : Int} (h : l[l.length - 1]? = some (some data)) :
    flow l = data :: flow (l.set (l.length - 1) none) := by
  induction l with
  | nil => simp at h
  | cons x l ih =>
    cases l with
    | nil =>
      simp only [List.length_singleton, Nat.sub_self, List.getElem?_cons_zero,
        Option.some.injEq] at h
      subst h
      simp [flow]
    | cons y l =>
      have hlen : (x :: y :: l).length - 1 = (y :: l).length - 1 + 1 := by simp
      rw [hlen, List.getElem?_cons_succ] at h
      rw [hlen, List.set_cons_succ, flow_cons x (y :: l), flow_cons x, ih h, List.length_set,
        List.cons_append]

end Flow

section Stages

variable {stages : Nat} {l : List Stage} {i : Nat} {stage : Stage} {s t : State}

theorem stageOk_set (h : ∀ j x, l[j]? = some x → StageOk stages j x) (hx : StageOk stages i stage) :
    ∀ j x, (l.set i stage)[j]? = some x → StageOk stages j x := by
  intro j x hj
  obtain ⟨rfl, rfl⟩ | ⟨-, hj⟩ := getElem?_set_cases hj
  · exact hx
  · exact h j x hj

theorem stageOk_modify {f : Stage → Stage} (h : ∀ j x, l[j]? = some x → StageOk stages j x)
    (hf : ∀ x, l[i]? = some x → StageOk stages i x → StageOk stages i (f x)) :
    ∀ j x, (l.modify i f)[j]? = some x → StageOk stages j x := by
  intro j x hj
  rw [List.getElem?_modify] at hj
  obtain ⟨y, hy, hx⟩ := Option.map_eq_some_iff.mp hj
  split_ifs at hx with hij
  · subst hij hx
    exact hf y hy (h i y hy)
  · subst hx
    exact h j y hy

/-- A thread that moves without sending or clearing keeps its item. -/
theorem items_modify {f : Stage → Stage} (hf : ∀ x, l[i]? = some x → (f x).item = x.item) :
    (l.modify i f).map Stage.item = l.map Stage.item := by
  apply List.ext_getElem?
  intro j
  rw [List.getElem?_map, List.getElem?_map, List.getElem?_modify]
  by_cases hij : i = j
  · subst hij
    cases hl : l[i]? with
    | none => rfl
    | some x => simp [hf x hl]
  · simp [hij]

theorem item_signalReady (stage : Stage) :
    ({ stage with thread := stage.thread.signalReady } : Stage).item = stage.item := by
  obtain ⟨ready, data, thread⟩ := stage
  cases thread <;> simp [Stage.item, Thread.signalReady]

theorem item_signalAvail (stage : Stage) :
    ({ stage with thread := stage.thread.signalAvail } : Stage).item = stage.item := by
  obtain ⟨ready, data, thread⟩ := stage
  cases thread <;> simp [Stage.item, Thread.signalAvail]

theorem stageOk_signalReady (h : StageOk stages i stage) :
    StageOk stages i { stage with thread := stage.thread.signalReady } := by
  obtain ⟨ready, data, thread⟩ := stage
  cases thread <;> simpa [StageOk, Thread.signalReady, Thread.holds] using h

theorem stageOk_signalAvail (h : StageOk stages i stage) :
    StageOk stages i { stage with thread := stage.thread.signalAvail } := by
  obtain ⟨ready, data, thread⟩ := stage
  cases thread <;> simpa [StageOk, Thread.signalAvail, Thread.holds] using h

/-- What the values of a pipe depend on. -/
structure Alike (s t : State) : Prop where
  started : t.started = s.started
  results : t.results = s.results
  claimed : t.claimed = s.claimed
  active : t.active = s.active
  pending : t.sender.pending = s.sender.pending

theorem pending_signalReady (sender : Sender) : sender.signalReady.pending = sender.pending := by
  cases sender <;> rfl

theorem signalReady_spec (stages : Nat) (s : State) (i : Nat) : Alike s (s.signalReady i) ∧
    items (s.signalReady i) = items s ∧ (s.signalReady i).stages.length = s.stages.length ∧
    ((∀ j x, s.stages[j]? = some x → StageOk stages j x) →
      ∀ j x, (s.signalReady i).stages[j]? = some x → StageOk stages j x) := by
  cases i with
  | zero => exact ⟨⟨rfl, rfl, rfl, rfl, pending_signalReady s.sender⟩, rfl, rfl, fun h => h⟩
  | succ i =>
    refine ⟨⟨rfl, rfl, rfl, rfl, rfl⟩, ?_, List.length_modify .., fun h => ?_⟩
    · exact items_modify (fun x _ => item_signalReady x)
    · exact stageOk_modify h (fun x _ hx => stageOk_signalReady hx)

/-- A successful send puts the data into a stage that has none. -/
theorem pipeSend_spec (stages : Nat) {data : Int} {sent : Bool} (h : pipeSend s i data = some (sent, t)) :
    (sent = false ∧ t = s) ∨ (sent = true ∧ Alike s t ∧ t.sender = s.sender ∧
      (items s)[i]? = some none ∧ ∃ stage', t.stages = s.stages.set i stage' ∧
        stage'.item = some data ∧ ((∀ j x, s.stages[j]? = some x → StageOk stages j x) →
          StageOk stages i stage')) := by
  obtain ⟨stage, hst, h⟩ := Option.bind_eq_some_iff.mp h
  split_ifs at h with hheld hready
  · cases h
    exact .inl ⟨rfl, rfl⟩
  · cases h
    have hnone : (items s)[i]? = some none := by
      rw [items, List.getElem?_map, hst]
      simp [Stage.item, hready]
    generalize hstage : { stage with data := data, dataReady := true } = stage'
    have hitem : stage'.item = some data := by
      have hne : stage.thread ≠ .sent := fun he => hheld (by rw [he]; rfl)
      rw [← hstage]
      simp [Stage.item, hne]
    have hok : (∀ j x, s.stages[j]? = some x → StageOk stages j x) → StageOk stages i stage' := by
      intro h
      rw [← hstage]
      exact ⟨(h i stage hst).1, fun _ => rfl⟩
    have hthread : stage'.thread = stage.thread := by rw [← hstage]
    refine .inr ⟨rfl, ?_⟩
    unfold State.signalAvail
    split_ifs with habs
    · exact ⟨⟨rfl, rfl, rfl, rfl, rfl⟩, rfl, hnone, stage', rfl, hitem, hok⟩
    · refine ⟨⟨rfl, rfl, rfl, rfl, rfl⟩, rfl, hnone,
        { stage' with thread := stage'.thread.signalAvail }, ?_, ?_, fun h => ?_⟩
      · simp only [State.setThread, modify_set, hthread]
      · rw [item_signalAvail, hitem]
      · exact stageOk_signalAvail (hok h)

end Stages

section Steps

variable {stages : Nat} {s t : State} {i : Nat} {stage : Stage}

theorem inv_of (h : Inv stages s) (ha : Alike s t) (hsize : t.stages.length = s.stages.length)
    (hstage : ∀ j x, t.stages[j]? = some x → StageOk stages j x)
    (hflow : flow (items t) = flow (items s)) : Inv stages t := by
  refine ⟨hsize.trans h.size, hstage, ?_, ?_⟩
  · rw [ha.started, ha.results, ha.pending, hflow]
    exact h.pending
  · rw [ha.active, ha.started, ha.claimed]
    exact h.active

/-- A thread moves and keeps its item. -/
theorem inv_setThread {thread : Thread} (h : Inv stages s) (hst : s.stages[i]? = some stage)
    (hitem : ({ stage with thread := thread } : Stage).item = stage.item)
    (hok : StageOk stages i stage → StageOk stages i { stage with thread := thread }) :
    Inv stages (s.setThread i thread) := by
  refine inv_of h ⟨rfl, rfl, rfl, rfl, rfl⟩ (List.length_modify ..) ?_ ?_
  · apply stageOk_modify h.stage
    intro x hx hxok
    cases hst.symm.trans hx
    exact hok hxok
  · congr 1
    apply items_modify
    intro x hx
    cases hst.symm.trans hx
    exact hitem

theorem items_set {stage' : Stage} (h : t.stages = s.stages.set i stage') :
    items t = (items s).set i stage'.item := by
  rw [items, items, h, List.map_set]

/-- The thread of a stage sends its value on to the next one. -/
theorem inv_send {sent : Bool} {u : State} (h : Inv stages s) (hst : s.stages[i]? = some stage)
    (hth : stage.thread = .sending ∨ stage.thread = .wokenSending)
    (hs : pipeSend s (i + 1) (stage.data + 1) = some (sent, u)) :
    Inv stages (u.setThread i (if sent then .sent else .blocked)) := by
  have hok := h.stage i stage hst
  have hready : stage.dataReady = true := hok.2 (by obtain hth | hth := hth <;> rw [hth] <;> rfl)
  have hne : stage.thread ≠ .absent := by
    obtain hth | hth := hth <;> rw [hth] <;> exact Thread.noConfusion
  have hitem : stage.item = some stage.data := by
    obtain hth | hth := hth <;> simp [Stage.item, hready, hth]
  obtain ⟨rfl, rfl⟩ | ⟨rfl, ha, -, hnone, stage', hset, hitem', hok'⟩ := 
    pipeSend_spec stages hs
  · apply inv_setThread h hst
    · rw [hitem]
      simp [Stage.item, hready]
    · intro hok
      refine ⟨?_, fun _ => hready⟩
      rw [← hok.1]
      simp [hne]
  · have hstages : (u.setThread i .sent).stages =
        (s.stages.set (i + 1) stage').set i { stage with thread := .sent } := by
      have hget : (s.stages.set (i + 1) stage')[i]? = some stage := by
        rw [List.getElem?_set_ne (by omega), hst]
      obtain ⟨l₁, l₂, -, hset', hmod⟩ := split_at hget
      simp only [State.setThread, hset]
      rw [hmod, hset']
    refine inv_of h ⟨ha.started, ha.results, ha.claimed, ha.active, ha.pending⟩ ?_ ?_ ?_
    · simp only [↓reduceIte, hstages, List.length_set]
    · simp only [↓reduceIte, hstages]
      apply stageOk_set (stageOk_set h.stage (hok' h.stage))
      refine ⟨?_, fun _ => hready⟩
      rw [← hok.1]
      simp [hne]
    · have hitems : items (u.setThread i .sent) =
          ((items s).set (i + 1) (some (stage.data + 1))).set i none := by
        rw [items, hstages, List.map_set, List.map_set, hitem']
        simp [Stage.item, items]
      simp only [↓reduceIte, hitems]
      apply flow_move _ hnone
      rw [items, List.getElem?_map, hst, Option.map_some, hitem]

/-- The thread has sent its value and gives its stage free. -/
theorem inv_clear (h : Inv stages s) (hst : s.stages[i]? = some stage)
    (hth : stage.thread = .sent) :
    Inv stages (State.signalReady { s with
      stages := s.stages.set i { stage with dataReady := false, thread := .waiting } } i) := by
  have hok := h.stage i stage hst
  obtain ⟨ha, hitems, hlen, hstage⟩ := signalReady_spec stages { s with
    stages := s.stages.set i { stage with dataReady := false, thread := .waiting } } i
  refine inv_of h ⟨ha.started, ha.results, ha.claimed, ha.active, ha.pending⟩ ?_ ?_ ?_
  · rw [hlen, List.length_set]
  · apply hstage
    apply stageOk_set h.stage
    refine ⟨?_, fun hh => Bool.noConfusion hh⟩
    rw [← hok.1, hth]
    simp
  · rw [hitems]
    congr 1
    have hnone : stage.item = none := by simp [Stage.item, hth]
    have hnone' : ({ stage with dataReady := false, thread := .waiting } : Stage).item = none := by
      simp [Stage.item]
    rw [items, items, List.map_set, hnone', ← hnone]
    apply List.ext_getElem?
    intro j
    by_cases hij : i = j
    · subst hij
      have hlt := (List.getElem?_eq_some_iff.mp hst).1
      rw [List.getElem?_set_self (by rwa [List.length_map]), List.getElem?_map, hst, Option.map_some]
    · rw [List.getElem?_set_ne hij]

theorem inv_pipeStage (h : Inv stages s) (hs : pipeStage s i = some t) : Inv stages t := by
  obtain ⟨stage, hst, hs⟩ := Option.bind_eq_some_iff.mp hs
  have hloop : stage.thread = .starting ∨ stage.thread = .woken →
      Inv stages (s.setThread i (if stage.dataReady then .sending else .waiting)) := by
    intro hth
    have hne : stage.thread ≠ .absent := by
      obtain hth | hth := hth <;> rw [hth] <;> exact Thread.noConfusion
    have hns : stage.thread ≠ .sent := by
      obtain hth | hth := hth <;> rw [hth] <;> exact Thread.noConfusion
    apply inv_setThread h hst
    · split_ifs with hready <;> simp [Stage.item, hready, hns]
    · intro hok
      refine ⟨?_, ?_⟩
      · rw [← hok.1]
        split_ifs <;> simp [hne]
      · split_ifs with hready
        · exact fun _ => hready
        · exact fun hh => Bool.noConfusion hh
  cases hth : stage.thread with
  | starting =>
    rw [hth] at hs
    cases hs
    exact hloop (.inl hth)
  | woken =>
    rw [hth] at hs
    cases hs
    exact hloop (.inr hth)
  | sending =>
    rw [hth] at hs
    obtain ⟨⟨sent, u⟩, hu, hs⟩ := Option.bind_eq_some_iff.mp hs
    cases hs
    exact inv_send h hst (.inl hth) hu
  | wokenSending =>
    rw [hth] at hs
    obtain ⟨⟨sent, u⟩, hu, hs⟩ := Option.bind_eq_some_iff.mp hs
    cases hs
    exact inv_send h hst (.inr hth) hu
  | sent =>
    rw [hth] at hs
    cases hs
    exact inv_clear h hst hth
  | absent | waiting | blocked =>
    rw [hth] at hs
    cases hs

theorem inv_sender {sender : Sender} (h : Inv stages s)
    (hp : sender.pending = s.sender.pending) : Inv stages { s with sender := sender } :=
  inv_of h ⟨rfl, rfl, rfl, rfl, hp⟩ rfl h.stage rfl

theorem inv_collector {collector : Collector} (h : Inv stages s) :
    Inv stages { s with collector := collector } :=
  inv_of h ⟨rfl, rfl, rfl, rfl, rfl⟩ rfl h.stage rfl

/-- The sender puts its value into the first stage. -/
theorem inv_pipeStart (h : Inv stages s) (hs : pipeStart s = some t) : Inv stages t := by
  obtain ⟨value, hpend, sent, u, hu, rfl⟩ : ∃ value, s.sender.pending = [value] ∧ ∃ sent u,
      pipeSend s 0 value = some (sent, u) ∧
        t = { u with sender := if sent then .idle else .blocked value } := by
    unfold pipeStart at hs
    cases hsd : s.sender with
    | idle | blocked value => simp [hsd] at hs
    | sending value | woken value =>
      rw [hsd] at hs
      simp only [Option.bind_eq_bind, Option.bind_some] at hs
      obtain ⟨⟨sent, u⟩, hu, hs⟩ := Option.bind_eq_some_iff.mp hs
      cases hs
      exact ⟨value, rfl, sent, u, hu, rfl⟩
  obtain ⟨rfl, rfl⟩ | ⟨rfl, ha, -, hnone, stage', hset, hitem', hok'⟩ := pipeSend_spec stages hu
  · exact inv_sender h hpend.symm
  · have hitems := items_set hset
    have hlen : (items s).length = stages + 1 := by rw [items, List.length_map, h.size]
    refine ⟨?_, ?_, ?_, ?_⟩
    · simp only [hset, List.length_set]
      exact h.size
    · simp only [hset]
      exact stageOk_set h.stage (hok' h.stage)
    · have hflow := flow_put value hnone
      rw [hitem'] at hitems
      rw [hlen, Nat.add_sub_cancel] at hflow
      have hpending := h.pending
      rw [hpend] at hpending
      calc u.started.map (· + (stages : Int))
          = s.results ++ flow (items s) ++ [value + (stages : Int)] := by
            rw [ha.started, hpending, List.map_singleton]
        _ = s.results ++ flow ((items s).set 0 (some value)) := by
            rw [hflow, List.append_assoc]
        _ = u.results ++ flow (items u) ++ [] := by
            rw [hitems, ha.results, List.append_nil]
    · simp only [ha.active, ha.started, ha.claimed]
      exact h.active

/-- The collector takes the value of the last stage. -/
theorem inv_pipeResult (h : Inv stages s) (hs : pipeResult s = some t) : Inv stages t := by
  obtain ⟨stage, hst, hs⟩ := Option.bind_eq_some_iff.mp hs
  have hi : s.stages.length - 1 = stages := by rw [h.size, Nat.add_sub_cancel]
  rw [hi] at hst hs
  have hok := h.stage stages stage hst
  have habs : stage.thread = .absent := hok.1.mpr rfl
  split_ifs at hs with hready
  · cases hs
    obtain ⟨ha, hitems, hlen, hstage⟩ := signalReady_spec stages { s with
      stages := s.stages.set stages { stage with dataReady := false }
      results := s.results ++ [stage.data]
      collector := .idle } stages
    have hitem : stage.item = some stage.data := by simp [Stage.item, hready, habs]
    have hilen : (items s).length - 1 = stages := by rw [items, List.length_map, hi]
    have hget : (items s)[(items s).length - 1]? = some (some stage.data) := by
      rw [hilen, items, List.getElem?_map, hst, Option.map_some, hitem]
    have hflow := flow_take hget
    refine ⟨?_, ?_, ?_, ?_⟩
    · rw [hlen, List.length_set]
      exact h.size
    · apply hstage
      apply stageOk_set h.stage
      refine ⟨hok.1, fun hh => ?_⟩
      simp only [habs] at hh
      exact Bool.noConfusion hh
    · rw [ha.started, ha.results, ha.pending, hitems, h.pending, hflow, hilen]
      simp only [items, List.map_set]
      simp [Stage.item]
    · rw [ha.active, ha.started, ha.claimed]
      exact h.active
  · cases hs
    exact inv_collector h

theorem inv_step {a : Action} (h : Inv stages s) (hs : step s a = some t) : Inv stages t := by
  cases a with
  | start value =>
    simp only [step] at hs
    split_ifs at hs with hidle
    cases hs
    have hpend := h.pending
    have hactive := h.active
    rw [hidle] at hpend
    refine ⟨h.size, h.stage, ?_, ?_, ?_⟩
    · simp only [List.map_append, hpend, Sender.pending, List.map_nil, List.append_nil,
        List.map_cons]
      rfl
    · simp only
      omega
    · simp only [List.length_append, List.length_singleton]
      omega
  | send => exact inv_pipeStart h hs
  | stage i => exact inv_pipeStage h hs
  | claim =>
    simp only [step] at hs
    split_ifs at hs
    cases hs
    unfold claim
    split_ifs with hle
    · exact h
    · have hactive := h.active
      refine ⟨h.size, h.stage, h.pending, ?_, ?_⟩
      · simp only
        omega
      · simp only
        omega
  | collect =>
    simp only [step] at hs
    split_ifs at hs
    exact inv_pipeResult h hs
  | wakeStage i =>
    obtain ⟨stage, hst, hs⟩ := Option.bind_eq_some_iff.mp hs
    cases hs
    apply inv_setThread h hst
    · exact (item_signalReady { stage with thread := stage.thread.signalAvail }).trans
        (item_signalAvail stage)
    · exact fun hok => stageOk_signalReady (stageOk_signalAvail hok)
  | wakeSender =>
    cases hs
    exact inv_sender h (pending_signalReady s.sender)
  | wakeCollector =>
    cases hs
    exact inv_collector h

end Steps

theorem flow_replicate_none (n : Nat) : flow (List.replicate n none) = [] := by
  induction n with
  | zero => rfl
  | succ n ih =>
    rw [List.replicate_succ, flow_cons, ih]
    rfl

theorem inv_pipeCreate (stages : Nat) : Inv stages (pipeCreate stages) := by
  have hitems : items (pipeCreate stages) = List.replicate (stages + 1) none := by
    simp [items, pipeCreate, Stage.item, List.replicate_succ']
  refine ⟨by simp [pipeCreate], ?_, ?_, by simp [pipeCreate]⟩
  · intro i stage hi
    obtain hi | ⟨rfl, rfl⟩ := getElem?_snoc_cases hi
    · rw [List.getElem?_replicate] at hi
      obtain ⟨hi', hstage⟩ := Option.ite_none_right_eq_some.mp hi
      cases hstage
      exact ⟨⟨Thread.noConfusion, fun he => absurd he (Nat.ne_of_lt hi')⟩, Bool.noConfusion⟩
    · rw [List.length_replicate]
      exact ⟨⟨fun _ => rfl, fun _ => rfl⟩, Bool.noConfusion⟩
  · rw [hitems, flow_replicate_none]
    rfl

/-- Under every schedule the results come in the order in which the values were sent, each
increased by the number of the stages. -/
theorem pipe_delivers (stages : Nat) (as : List Action) (s : State)
    (hr : run step (pipeCreate stages) as = some s) : Delivers stages s := by
  have h : Inv stages s := run_invariant (Inv stages) (fun _ _ _ h hs => inv_step h hs)
    (inv_pipeCreate stages) hr
  refine ⟨⟨flow (items s) ++ s.sender.pending.map (· + (stages : Int)), ?_⟩, h.pending, h.active⟩
  rw [h.pending, List.append_assoc]

/-- The second value is sent while the first one is still in its stage. -/
def twoValues : List Action :=
  [.stage 0, .start 5, .send, .start 8, .send, .stage 0, .stage 0, .stage 0, .send, .claim,
    .collect, .stage 1, .stage 1, .stage 1, .collect]

theorem pipe_delivers_twoValues :
    ∃ s, run step (pipeCreate 2) twoValues = some s ∧ s.started = [5, 8] ∧ s.results = [7] ∧
      Delivers 2 s :=
  ⟨_, rfl, rfl, rfl, pipe_delivers 2 twoValues _ rfl⟩

end C11AndC.Pipe
