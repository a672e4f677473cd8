import C11AndC.Library.Progress
import C11AndC.Pipe.Order

namespace C11AndC.Pipe

open C11AndC.Library

/-- Everything that can happen, but for what a wait without end and a mutex keep from happening. -/
inductive Trans (s : State) : Action → State → Prop
  | start (value : Int) (h : s.sender = .idle) : Trans s (.start value)
      { s with active := s.active + 1, started := s.started ++ [value], sender := .sending value }
  | put (value : Int) (stage : Stage) (hs : s.sender = .sending value ∨ s.sender = .woken value)
      (h : s.stages[0]? = some stage) (hheld : stage.thread.holds = false) (hready : stage.dataReady = false) :
      Trans s .send { s with
        stages := s.stages.set 0 ⟨true, value, stage.thread.signalAvail⟩
        collector := if stage.thread = .absent then s.collector.signalAvail else s.collector
        sender := .idle }
  | full (value : Int) (stage : Stage) (hs : s.sender = .sending value ∨ s.sender = .woken value)
      (h : s.stages[0]? = some stage) (hready : stage.dataReady = true) :
      Trans s .send { s with sender := .blocked value }
  | wait (i : Nat) (stage : Stage) (h : s.stages[i]? = some stage)
      (ht : stage.thread = .starting ∨ stage.thread = .woken) :
      Trans s (.stage i) (s.setThread i (if stage.dataReady then .sending else .waiting))
  | pass (i : Nat) (stage next : Stage) (h : s.stages[i]? = some stage)
      (ht : stage.thread = .sending ∨ stage.thread = .wokenSending) (hn : s.stages[i + 1]? = some next)
      (hheld : next.thread.holds = false) (hready : next.dataReady = false) :
      Trans s (.stage i) { s with
        stages := (s.stages.set (i + 1) ⟨true, stage.data + 1, next.thread.signalAvail⟩).set i
          { stage with thread := .sent }
        collector := if next.thread = .absent then s.collector.signalAvail else s.collector }
  | block (i : Nat) (stage next : Stage) (h : s.stages[i]? = some stage)
      (ht : stage.thread = .sending ∨ stage.thread = .wokenSending) (hn : s.stages[i + 1]? = some next)
      (hready : next.dataReady = true) : Trans s (.stage i) (s.setThread i .blocked)
  | clear (i : Nat) (stage : Stage) (h : s.stages[i]? = some stage) (ht : stage.thread = .sent) :
      Trans s (.stage i) (State.signalReady
        { s with stages := s.stages.set i { stage with dataReady := false, thread := .waiting } } i)
  | claim (h : s.collector = .idle) (ha : 0 < s.active) : Trans s .claim
      { s with active := s.active - 1, claimed := s.claimed + 1, collector := .taking }
  | noClaim : Trans s .claim s
  | take (i : Nat) (stage : Stage) (hc : s.collector = .taking ∨ s.collector = .woken)
      (hi : i = s.stages.length - 1) (h : s.stages[i]? = some stage) (hready : stage.dataReady = true) :
      Trans s .collect (State.signalReady
        { s with
          stages := s.stages.set i { stage with dataReady := false }
          results := s.results ++ [stage.data]
          collector := .idle } i)
  | empty (i : Nat) (stage : Stage) (hc : s.collector = .taking ∨ s.collector = .woken)
      (hi : i = s.stages.length - 1) (h : s.stages[i]? = some stage) (hready : stage.dataReady = false) :
      Trans s .collect { s with collector := .blocked }
  | wakeStage (i : Nat) (stage : Stage) (h : s.stages[i]? = some stage) :
      Trans s (.wakeStage i) (s.setThread i stage.thread.signalAvail.signalReady)
  | wakeSender : Trans s .wakeSender { s with sender := s.sender.signalReady }
  | wakeCollector : Trans s .wakeCollector { s with collector := s.collector.signalAvail }

section Cases

variable {s t : State} {i : Nat} {data : Int} {sent : Bool}

/-- A send changes the stage that it is for, and the collector if it is the last one. -/
theorem pipeSend_cases (h : pipeSend s i data = some (sent, t)) : ∃ stage, s.stages[i]? = some stage ∧
    stage.thread.holds = false ∧ ((stage.dataReady = true ∧ sent = false ∧ t = s) ∨
      (stage.dataReady = false ∧ sent = true ∧ t = { s with
        stages := s.stages.set i ⟨true, data, stage.thread.signalAvail⟩
        collector := if stage.thread = .absent then s.collector.signalAvail else s.collector })) := by
  obtain ⟨stage, hst, h⟩ := Option.bind_eq_some_iff.mp h
  apply Exists.intro stage
  apply And.intro hst
  split_ifs at h with hheld hready
  · cases h
    exact ⟨Bool.eq_false_iff.mpr hheld, .inl ⟨hready, rfl, rfl⟩⟩
  · cases h
    refine ⟨Bool.eq_false_iff.mpr hheld, .inr ⟨Bool.eq_false_iff.mpr hready, rfl, ?_⟩⟩
    unfold State.signalAvail
    split_ifs with habs
    · rw [habs]
      obtain ⟨ready, d, thread⟩ := stage
      cases habs
      rfl
    · simp only [State.setThread, modify_set]

theorem pipeStart_cases (h : pipeStart s = some t) : Trans s .send t := by
  obtain ⟨value, hs, sent, u, hu, rfl⟩ : ∃ value, (s.sender = .sending value ∨ s.sender = .woken value) ∧
      ∃ sent u, pipeSend s 0 value = some (sent, u) ∧
        t = { u with sender := if sent then .idle else .blocked value } := by
    unfold pipeStart at h
    cases hsd : s.sender with
    | idle | blocked value => simp [hsd] at h
    | sending value | woken value =>
      rw [hsd] at h
      simp only [Option.bind_eq_bind, Option.bind_some] at h
      obtain ⟨⟨sent, u⟩, hu, h⟩ := Option.bind_eq_some_iff.mp h
      cases h
      exact ⟨value, by simp, sent, u, hu, rfl⟩
  obtain ⟨stage, hst, hheld, ⟨hready, rfl, rfl⟩ | ⟨hready, rfl, rfl⟩⟩ := pipeSend_cases hu
  · exact .full value stage hs hst hready
  · exact .put value stage hs hst hheld hready

theorem pipeStage_cases (h : pipeStage s i = some t) : Trans s (.stage i) t := by
  obtain ⟨stage, hst, h⟩ := Option.bind_eq_some_iff.mp h
  have hsend : stage.thread = .sending ∨ stage.thread = .wokenSending → ∀ sent u,
      pipeSend s (i + 1) (stage.data + 1) = some (sent, u) →
        Trans s (.stage i) (u.setThread i (if sent then .sent else .blocked)) := by
    intro ht sent u hu
    obtain ⟨next, hn, hheld, ⟨hready, rfl, rfl⟩ | ⟨hready, rfl, rfl⟩⟩ := pipeSend_cases hu
    · exact .block i stage next hst ht hn hready
    · have hpass := Trans.pass i stage next hst ht hn hheld hready
      have hget : (s.stages.set (i + 1) ⟨true, stage.data + 1, next.thread.signalAvail⟩)[i]? = some stage := by
        rw [List.getElem?_set_ne (by omega), hst]
      obtain ⟨l₁, l₂, -, hset, hmod⟩ := split_at hget
      rw [hset] at hpass
      simpa only [State.setThread, hmod, if_true] using hpass
  cases hth : stage.thread with
  | starting =>
    rw [hth] at h
    cases h
    exact .wait i stage hst (.inl hth)
  | woken =>
    rw [hth] at h
    cases h
    exact .wait i stage hst (.inr hth)
  | sending =>
    rw [hth] at h
    obtain ⟨⟨sent, u⟩, hu, h⟩ := Option.bind_eq_some_iff.mp h
    cases h
    exact hsend (.inl hth) sent u hu
  | wokenSending =>
    rw [hth] at h
    obtain ⟨⟨sent, u⟩, hu, h⟩ := Option.bind_eq_some_iff.mp h
    cases h
    exact hsend (.inr hth) sent u hu
  | sent =>
    rw [hth] at h
    cases h
    exact .clear i stage hst hth
  | absent | waiting | blocked =>
    rw [hth] at h
    cases h

theorem step_trans {a : Action} (h : step s a = some t) : Trans s a t := by
  cases a with
  | start value =>
    obtain ⟨hidle, h⟩ := Option.ite_none_right_eq_some.mp h
    cases h
    exact .start value hidle
  | send => exact pipeStart_cases h
  | stage i => exact pipeStage_cases h
  | claim =>
    obtain ⟨hidle, h⟩ := Option.ite_none_right_eq_some.mp h
    cases h
    unfold Pipe.claim
    split_ifs with ha
    · exact .noClaim
    · exact .claim hidle (Int.not_le.mp ha)
  | collect =>
    obtain ⟨hc, h⟩ := Option.ite_none_right_eq_some.mp h
    obtain ⟨stage, hst, h⟩ := Option.bind_eq_some_iff.mp h
    split_ifs at h with hready
    · cases h
      exact .take _ stage hc rfl hst hready
    · cases h
      exact .empty _ stage hc rfl hst (Bool.eq_false_iff.mpr hready)
  | wakeStage i =>
    obtain ⟨stage, hst, h⟩ := Option.bind_eq_some_iff.mp h
    cases h
    exact .wakeStage i stage hst
  | wakeSender =>
    cases h
    exact .wakeSender
  | wakeCollector =>
    cases h
    exact .wakeCollector

end Cases

/-- No thread waits for what it has already: data in its stage, or room in the next one. -/
structure Awake (s : State) : Prop where
  waiting : ∀ (i : Nat) stage, s.stages[i]? = some stage → stage.thread = .waiting → stage.dataReady = false
  blocked : ∀ (i : Nat) stage next, s.stages[i]? = some stage → stage.thread = .blocked →
    s.stages[i + 1]? = some next → next.dataReady = true
  sender : ∀ value stage, s.sender = .blocked value → s.stages[0]? = some stage → stage.dataReady = true
  collector : ∀ stage, s.collector = .blocked → s.stages[s.stages.length - 1]? = some stage →
    stage.dataReady = false
  claimed : s.claimed = s.results.length + if s.collector = .idle then 0 else 1

section Awake

variable {stages : Nat} {s t : State} {i : Nat} {stage : Stage}

theorem signalAvail_waiting (thread : Thread) : thread.signalAvail ≠ .waiting := by
  cases thread <;> simp [Thread.signalAvail]

theorem signalAvail_blocked {thread : Thread} : thread.signalAvail = .blocked ↔ thread = .blocked := by
  cases thread <;> simp [Thread.signalAvail]

theorem signalReady_blocked (thread : Thread) : thread.signalReady ≠ .blocked := by
  cases thread <;> simp [Thread.signalReady]

theorem signalReady_waiting {thread : Thread} : thread.signalReady = .waiting ↔ thread = .waiting := by
  cases thread <;> simp [Thread.signalReady]

theorem sender_signalReady (sender : Sender) (value : Int) : sender.signalReady ≠ .blocked value := by
  cases sender <;> simp [Sender.signalReady]

theorem collector_signalAvail (collector : Collector) :
    collector.signalAvail ≠ .blocked ∧ (collector.signalAvail = .idle ↔ collector = .idle) := by
  cases collector <;> simp [Collector.signalAvail]

/-- Nobody waits for room in the stage. -/
def Unawaited (s : State) (i : Nat) : Prop :=
  (∀ (j : Nat) x, j + 1 = i → s.stages[j]? = some x → x.thread ≠ .blocked) ∧
    (i = 0 → ∀ value, s.sender ≠ .blocked value)

/-- One stage changes, and its thread is not left to wait for nothing. The others keep their waits. -/
theorem awake_set {stage' : Stage} (h : Awake s) (hst : s.stages[i]? = some stage)
    (ht : t.stages = s.stages.set i stage') (hwait : stage'.thread = .waiting → stage'.dataReady = false)
    (hblock : stage'.thread = .blocked → ∀ next, s.stages[i + 1]? = some next → next.dataReady = true)
    (hready : (stage.dataReady = true → stage'.dataReady = true) ∨ Unawaited s i)
    (hsender : ∀ value, t.sender = .blocked value → s.sender = .blocked value)
    (hcollector : t.collector = .blocked → s.collector = .blocked ∧
      (i = s.stages.length - 1 → stage'.dataReady = stage.dataReady))
    (hclaimed : t.claimed = t.results.length + if t.collector = .idle then 0 else 1) : Awake t := by
  constructor
  case waiting =>
    rw [ht]
    intro j x hj hx
    obtain ⟨rfl, rfl⟩ | ⟨-, hj⟩ := getElem?_set_cases hj
    · exact hwait hx
    · exact h.waiting j x hj hx
  case blocked =>
    rw [ht]
    intro j x y hj hx hy
    obtain ⟨rfl, rfl⟩ | ⟨-, hj'⟩ := getElem?_set_cases hj
    · rw [List.getElem?_set_ne (Nat.ne_of_lt (Nat.lt_succ_self _))] at hy
      exact hblock hx y hy
    · obtain ⟨hi, rfl⟩ | ⟨-, hy'⟩ := getElem?_set_cases hy
      · obtain hready | ⟨hfree, -⟩ := hready
        · exact hready (h.blocked j x stage hj' hx (hi ▸ hst))
        · exact absurd hx (hfree j x hi hj')
      · exact h.blocked j x y hj' hx hy'
  case sender =>
    rw [ht]
    intro value x hs hx
    have hs' := hsender value hs
    obtain ⟨rfl, rfl⟩ | ⟨-, hx⟩ := getElem?_set_cases hx
    · obtain hready | ⟨-, hfree⟩ := hready
      · exact hready (h.sender value stage hs' hst)
      · exact absurd hs' (hfree rfl value)
    · exact h.sender value x hs' hx
  case collector =>
    rw [ht, List.length_set]
    intro x hc hx
    obtain ⟨hc, hsame⟩ := hcollector hc
    obtain ⟨hi, rfl⟩ | ⟨-, hx⟩ := getElem?_set_cases hx
    · rw [hsame hi.symm]
      exact h.collector stage hc (hi ▸ hst)
    · exact h.collector x hc hx
  case claimed => exact hclaimed

theorem setThread_stages (thread : Thread) (hst : s.stages[i]? = some stage) :
    (s.setThread i thread).stages = s.stages.set i { stage with thread := thread } := by
  obtain ⟨l₁, l₂, -, hset, hmod⟩ := split_at hst
  simp only [State.setThread, hset, hmod]

/-- A thread moves on, with its stage and the others left as they are. -/
theorem awake_setThread {thread : Thread} (h : Awake s) (hst : s.stages[i]? = some stage)
    (hwait : thread = .waiting → stage.dataReady = false)
    (hblock : thread = .blocked → ∀ next, s.stages[i + 1]? = some next → next.dataReady = true) :
    Awake (s.setThread i thread) :=
  awake_set h hst (setThread_stages _ hst) hwait hblock (.inl fun hr => hr) (fun _ hs => hs)
    (fun hc => ⟨hc, fun _ => rfl⟩) h.claimed

theorem signalReady_stages (h : s.stages[i]? = some stage) : (s.signalReady (i + 1)).stages =
    s.stages.set i { stage with thread := stage.thread.signalReady } := by
  obtain ⟨l₁, l₂, -, hset, hmod⟩ := split_at h
  simp only [State.signalReady, hset, hmod]

theorem awake_signalReady (h : Awake s) (i : Nat) : Awake (s.signalReady i) := by
  cases i with
  | zero =>
    constructor
    case sender => exact fun value x hs => absurd hs (sender_signalReady s.sender value)
    case waiting => exact h.waiting
    case blocked => exact h.blocked
    case collector => exact h.collector
    case claimed => exact h.claimed
  | succ i =>
    cases hst : s.stages[i]? with
    | none =>
      have hsame : s.signalReady (i + 1) = s := by
        simp only [State.signalReady, List.modify_eq_self (List.getElem?_eq_none_iff.mp hst)]
      rw [hsame]
      exact h
    | some stage =>
      apply awake_set h hst (signalReady_stages hst)
      · exact fun hw => h.waiting i stage hst (signalReady_waiting.mp hw)
      · exact fun hb => absurd hb (signalReady_blocked _)
      · exact .inl fun hr => hr
      · exact fun _ hs => hs
      · exact fun hc => ⟨hc, fun _ => rfl⟩
      · exact h.claimed

theorem unawaited_signalReady (s : State) (i : Nat) : Unawaited (s.signalReady i) i := by
  apply And.intro
  · rintro j x rfl hx
    change (s.stages.modify j _)[j]? = some x at hx
    rw [List.getElem?_modify_eq] at hx
    obtain ⟨y, -, rfl⟩ := Option.map_eq_some_iff.mp hx
    exact signalReady_blocked _
  · rintro rfl value
    exact sender_signalReady s.sender value

/-- The signal on `ready` does not meet the stage that it is for. -/
theorem signalReady_set (s : State) (i : Nat) (stage' : Stage) (results : List Int) (collector : Collector) :
    State.signalReady { s with stages := s.stages.set i stage', results := results, collector := collector } i =
      { s.signalReady i with
        stages := (s.signalReady i).stages.set i stage', results := results, collector := collector } := by
  cases i with
  | zero => rfl
  | succ i =>
    have hstages : (s.stages.set (i + 1) stage').modify i (fun stage =>
        { stage with thread := stage.thread.signalReady }) = (s.stages.modify i (fun stage =>
          { stage with thread := stage.thread.signalReady })).set (i + 1) stage' := by
      apply List.ext_getElem?
      intro j
      simp only [List.getElem?_modify, List.getElem?_set, List.length_modify]
      by_cases hj : i + 1 = j
      · subst hj
        simp
      · simp [hj]
    simp only [State.signalReady, hstages]

/-- The stage itself is what it was. -/
theorem signalReady_get (s : State) (i : Nat) : (s.signalReady i).stages[i]? = s.stages[i]? := by
  cases i with
  | zero => rfl
  | succ i =>
    change (s.stages.modify i _)[i + 1]? = s.stages[i + 1]?
    rw [List.getElem?_modify]
    simp

theorem last_iff (hi : Inv stages s) (hst : s.stages[i]? = some stage) :
    stage.thread = .absent ↔ i = s.stages.length - 1 := by
  rw [hi.size, Nat.add_sub_cancel]
  exact (hi.stage i stage hst).1

/-- Data for a stage wakes the thread, or the collector, that waits for it. -/
theorem awake_fill (h : Awake s) (hi : Inv stages s) (data : Int) (hst : s.stages[i]? = some stage)
    (hheld : stage.thread.holds = false) : Awake { s with
      stages := s.stages.set i ⟨true, data, stage.thread.signalAvail⟩
      collector := if stage.thread = .absent then s.collector.signalAvail else s.collector } := by
  obtain ⟨hblocked, hidle⟩ := collector_signalAvail s.collector
  apply awake_set h hst rfl
  · exact fun hw => absurd hw (signalAvail_waiting _)
  · intro hb
    rw [signalAvail_blocked.mp hb] at hheld
    cases hheld
  · exact .inl fun _ => rfl
  · exact fun _ hs => hs
  · intro hc
    split_ifs at hc with habs
    · exact absurd hc hblocked
    · exact ⟨hc, fun hl => absurd ((last_iff hi hst).mpr hl) habs⟩
  · have hclaimed := h.claimed
    by_cases habs : stage.thread = .absent
    · simpa only [habs, if_true, hidle] using hclaimed
    · simpa only [habs, if_false] using hclaimed

theorem awake_sender {sender : Sender} (h : Awake s)
    (hs : ∀ value stage, sender = .blocked value → s.stages[0]? = some stage → stage.dataReady = true) :
    Awake { s with sender := sender } :=
  ⟨h.waiting, h.blocked, hs, h.collector, h.claimed⟩

theorem trans_awake {a : Action} (h : Awake s) (hi : Inv stages s) (ht : Trans s a t) : Awake t := by
  cases ht with
  | start value hidle => exact ⟨h.waiting, h.blocked, fun _ _ hs => (nomatch hs), h.collector, h.claimed⟩
  | put value stage hs hst hheld hready =>
    exact awake_sender (awake_fill h hi value hst hheld) fun _ _ hs => nomatch hs
  | full value stage hs hst hready =>
    apply awake_sender h
    intro v x _ hx
    cases hst.symm.trans hx
    exact hready
  | wait i stage hst ht =>
    apply awake_setThread h hst
    · cases hr : stage.dataReady <;> simp
    · cases stage.dataReady <;> simp
  | pass i stage next hst ht hn hheld hready =>
    have hget : (s.stages.set (i + 1) ⟨true, stage.data + 1, next.thread.signalAvail⟩)[i]? = some stage := by
      rw [List.getElem?_set_ne (by omega), hst]
    have hfill := awake_fill h hi (stage.data + 1) hn hheld
    exact awake_set hfill hget rfl (fun hw => nomatch hw) (fun hb => nomatch hb) (.inl fun hr => hr)
      (fun _ hs => hs) (fun hc => ⟨hc, fun _ => rfl⟩) hfill.claimed
  | block i stage next hst ht hn hready =>
    apply awake_setThread h hst
    · exact fun hw => nomatch hw
    · intro _ x hx
      cases hn.symm.trans hx
      exact hready
  | clear i stage hst ht =>
    have hlast : ¬ i = s.stages.length - 1 := fun hl => by
      rw [(last_iff hi hst).mpr hl] at ht
      cases ht
    have hready := awake_signalReady h i
    have hlen : (s.signalReady i).stages.length = s.stages.length := (signalReady_spec stages s i).2.2.1
    rw [signalReady_set s i _ s.results s.collector]
    apply awake_set hready ((signalReady_get s i).trans hst) rfl
    · exact fun _ => rfl
    · exact fun hb => nomatch hb
    · exact .inr (unawaited_signalReady s i)
    · exact fun _ hs => hs
    · have hcollector : (s.signalReady i).collector = s.collector := by cases i <;> rfl
      rw [hcollector, hlen]
      exact fun hc => ⟨hc, fun hl => absurd hl hlast⟩
    · have hclaimed : (s.signalReady i).claimed = s.claimed := by cases i <;> rfl
      exact hclaimed.trans h.claimed
  | claim hidle ha =>
    have hclaimed := h.claimed
    rw [hidle] at hclaimed
    refine ⟨h.waiting, h.blocked, h.sender, fun _ hc => (nomatch hc), ?_⟩
    simpa using hclaimed
  | noClaim => exact h
  | take i stage hc hl hst hr =>
    have hready := awake_signalReady h i
    rw [signalReady_set s i _ (s.results ++ [stage.data]) .idle]
    apply awake_set hready ((signalReady_get s i).trans hst) rfl
    · exact fun _ => rfl
    · intro hb
      have habs := (last_iff hi hst).mpr hl
      rw [habs] at hb
      cases hb
    · exact .inr (unawaited_signalReady s i)
    · exact fun _ hs => hs
    · exact fun hc => nomatch hc
    · have hclaimed : (s.signalReady i).claimed = s.claimed := by cases i <;> rfl
      have hne : s.collector ≠ .idle := by obtain hc | hc := hc <;> simp [hc]
      have hold := h.claimed
      rw [if_neg hne] at hold
      rw [hclaimed, List.length_append, List.length_singleton]
      exact hold
  | empty i stage hc hl hst hr =>
    have hne : s.collector ≠ .idle := by obtain hc | hc := hc <;> simp [hc]
    have hclaimed := h.claimed
    rw [if_neg hne] at hclaimed
    refine ⟨h.waiting, h.blocked, h.sender, fun x _ hx => ?_, hclaimed⟩
    rw [← hl] at hx
    cases hst.symm.trans hx
    exact hr
  | wakeStage i stage hst =>
    apply awake_setThread h hst
    · intro hw
      exact absurd (signalReady_waiting.mp hw) (signalAvail_waiting _)
    · exact fun hb => absurd hb (signalReady_blocked _)
  | wakeSender => exact awake_sender h fun v _ hs => absurd hs (sender_signalReady s.sender v)
  | wakeCollector =>
    obtain ⟨hblocked, hidle⟩ := collector_signalAvail s.collector
    refine ⟨h.waiting, h.blocked, h.sender, fun _ hc => absurd hc hblocked, ?_⟩
    simpa only [hidle] using h.claimed

end Awake

def Thread.rank : Thread → Nat
  | .starting | .woken | .sent => 2
  | .sending | .wokenSending => 1
  | .absent | .waiting | .blocked => 0

def Sender.rank (stages : Nat) : Sender → Nat
  | .idle => 0
  | .blocked _ => 4 * (stages + 2)
  | .sending _ | .woken _ => 4 * (stages + 2) + 1

def Collector.rank : Collector → Nat
  | .taking | .woken => 1
  | .idle | .blocked => 0

/-- The hops that the values have before them, the one out of the last stage included. -/
def hops : List (Option Int) → Nat
  | [] => 0
  | item :: rest => hops rest + if item.isSome then rest.length + 1 else 0

/-- The steps left at most, if nothing is started, claimed or woken without a reason. -/
def State.rest (stages : Nat) (s : State) : Nat :=
  4 * hops (items s) + (s.stages.map (·.thread.rank)).sum + s.sender.rank stages + s.collector.rank

section Rest

variable {stages : Nat} {s t : State} {i : Nat} {stage : Stage}

theorem hops_set {l : List (Option Int)} {i : Nat} {old : Option Int} (new : Option Int) (h : l[i]? = some old) :
    hops (l.set i new) + (if old.isSome then l.length - i else 0) =
      hops l + if new.isSome then l.length - i else 0 := by
  induction l generalizing i with
  | nil => cases h
  | cons x l ih =>
    cases i with
    | zero =>
      cases h
      simp only [List.set_cons_zero, hops, List.length_cons, Nat.sub_zero]
      omega
    | succ i =>
      have hrest := ih h
      simp only [List.set_cons_succ, hops, List.length_cons, List.length_set, Nat.add_sub_add_right]
      omega

theorem items_length (s : State) : (items s).length = s.stages.length := List.length_map ..

variable (stages) in
/-- How one stage tells in the measure. -/
theorem rest_set {stage' : Stage} (hst : s.stages[i]? = some stage) (ht : t.stages = s.stages.set i stage') :
    t.rest stages + 4 * (if stage.item.isSome then s.stages.length - i else 0) + stage.thread.rank +
        s.sender.rank stages + s.collector.rank =
      s.rest stages + 4 * (if stage'.item.isSome then s.stages.length - i else 0) + stage'.thread.rank +
        t.sender.rank stages + t.collector.rank := by
  have hitems := items_set ht
  have hget : (items s)[i]? = some stage.item := by rw [items, List.getElem?_map, hst, Option.map_some]
  have hhops := hops_set stage'.item hget
  have hranks := sum_map_set (fun x : Stage => x.thread.rank) hst stage'
  rw [← ht] at hranks
  rw [← hitems, items_length] at hhops
  simp only [State.rest]
  omega

variable (stages) in
/-- A thread that moves on with its item. -/
theorem rest_setThread (thread : Thread) (hst : s.stages[i]? = some stage)
    (hitem : ({ stage with thread := thread } : Stage).item = stage.item) :
    (s.setThread i thread).rest stages + stage.thread.rank = s.rest stages + thread.rank := by
  have hset := rest_set stages hst (setThread_stages thread hst)
  rw [hitem] at hset
  change _ + s.sender.rank stages + s.collector.rank = _ + thread.rank + s.sender.rank stages + s.collector.rank
    at hset
  omega

theorem rank_signalReady (thread : Thread) : thread.signalReady.rank ≤ thread.rank + 1 := by
  cases thread <;> simp [Thread.signalReady, Thread.rank]

theorem rank_signalAvail (thread : Thread) : thread.signalAvail.rank ≤ thread.rank + 2 := by
  cases thread <;> simp [Thread.signalAvail, Thread.rank]

variable (stages) in
theorem sender_rank (sender : Sender) : sender.signalReady.rank stages ≤ sender.rank stages + 1 := by
  cases sender <;> simp [Sender.signalReady, Sender.rank]

theorem collector_rank (collector : Collector) : collector.signalAvail.rank ≤ collector.rank + 1 := by
  cases collector <;> simp [Collector.signalAvail, Collector.rank]

variable (stages) in
theorem rest_signalReady (s : State) (i : Nat) : (s.signalReady i).rest stages ≤ s.rest stages + 1 := by
  cases i with
  | zero =>
    have hsender := sender_rank stages s.sender
    simp only [State.rest, State.signalReady, items]
    omega
  | succ i =>
    cases hst : s.stages[i]? with
    | none =>
      have hsame : s.signalReady (i + 1) = s := by
        simp only [State.signalReady, List.modify_eq_self (List.getElem?_eq_none_iff.mp hst)]
      rw [hsame]
      exact Nat.le_succ _
    | some stage =>
      have hset := rest_set stages hst (signalReady_stages hst)
      rw [item_signalReady] at hset
      have hrank := rank_signalReady stage.thread
      change _ + s.sender.rank stages + s.collector.rank = _ + s.sender.rank stages + s.collector.rank at hset
      simp only at hset
      omega

variable (stages) in
/-- Data for an empty stage, with the thread or the collector that it wakes. -/
theorem rest_fill (data : Int) (hst : s.stages[i]? = some stage) (hheld : stage.thread.holds = false)
    (hready : stage.dataReady = false) : ({ s with
      stages := s.stages.set i ⟨true, data, stage.thread.signalAvail⟩
      collector := if stage.thread = .absent then s.collector.signalAvail else s.collector } : State).rest stages ≤
        s.rest stages + 4 * (s.stages.length - i) + 2 := by
  have hset := rest_set stages (t := { s with
    stages := s.stages.set i ⟨true, data, stage.thread.signalAvail⟩
    collector := if stage.thread = .absent then s.collector.signalAvail else s.collector }) hst rfl
  have hold : stage.item = none := by simp [Stage.item, hready]
  have hnew : (⟨true, data, stage.thread.signalAvail⟩ : Stage).item = some data := by
    cases hth : stage.thread <;> simp [Stage.item, Thread.signalAvail, hth, Thread.holds] at hheld ⊢
  have hcollector := collector_rank s.collector
  have hthread := rank_signalAvail stage.thread
  rw [hold, hnew] at hset
  simp only [Option.isSome_none, Option.isSome_some, if_true, Bool.false_eq_true, if_false] at hset
  by_cases habs : stage.thread = .absent
  · simp only [habs, if_true, Thread.signalAvail] at hset ⊢
    omega
  · simp only [habs, if_false] at hset ⊢
    omega

/-- What a thread does by itself. -/
def isWork : Action → Bool
  | .send | .stage _ | .collect => true
  | _ => false

theorem lt_length (h : Inv stages s) (hst : s.stages[i]? = some stage) : i < stages + 1 := by
  rw [← h.size]
  exact (List.getElem?_eq_some_iff.mp hst).1

theorem item_sending (h : Inv stages s) (hst : s.stages[i]? = some stage)
    (ht : stage.thread = .sending ∨ stage.thread = .wokenSending) : stage.item = some stage.data := by
  have hready : stage.dataReady = true := (h.stage i stage hst).2 (by obtain ht | ht := ht <;> rw [ht] <;> rfl)
  obtain ht | ht := ht <;> simp [Stage.item, ht, hready]

theorem trans_down {a : Action} (h : Inv stages s) (ha : isWork a = true) (ht : Trans s a t) :
    t.rest stages < s.rest stages := by
  cases ht with
  | start | claim | noClaim | wakeStage | wakeSender | wakeCollector => cases ha
  | put value stage hs hst hheld hready =>
    have hfill := rest_fill stages value hst hheld hready
    have hsender : s.sender.rank stages = 4 * (stages + 2) + 1 := by
      obtain hs | hs := hs <;> rw [hs] <;> rfl
    simp only [State.rest, items, h.size] at hfill ⊢
    change _ + Sender.rank stages .idle + _ < _
    simp only [hsender] at hfill ⊢
    simp only [Sender.rank]
    omega
  | full value stage hs hst hready =>
    have hsender : s.sender.rank stages = 4 * (stages + 2) + 1 := by
      obtain hs | hs := hs <;> rw [hs] <;> rfl
    have hblocked : (Sender.blocked value).rank stages = 4 * (stages + 2) := rfl
    simp only [State.rest, items, hsender, hblocked]
    omega
  | wait i stage hst ht =>
    have hrank : stage.thread.rank = 2 := by obtain ht | ht := ht <;> rw [ht] <;> rfl
    have hlt : (if stage.dataReady then Thread.sending else .waiting).rank ≤ 1 := by
      split_ifs <;> simp [Thread.rank]
    have hset := rest_setThread stages (if stage.dataReady then .sending else .waiting) hst
      (by cases hr : stage.dataReady <;> obtain ht | ht := ht <;> simp [Stage.item, hr, ht])
    omega
  | pass i stage next hst ht hn hheld hready =>
    have hget : (s.stages.set (i + 1) ⟨true, stage.data + 1, next.thread.signalAvail⟩)[i]? = some stage := by
      rw [List.getElem?_set_ne (by omega), hst]
    have hfill := rest_fill stages (stage.data + 1) hn hheld hready
    have hset := rest_set stages (s := { s with
        stages := s.stages.set (i + 1) ⟨true, stage.data + 1, next.thread.signalAvail⟩
        collector := if next.thread = .absent then s.collector.signalAvail else s.collector })
      (t := { s with
        stages := (s.stages.set (i + 1) ⟨true, stage.data + 1, next.thread.signalAvail⟩).set i
          { stage with thread := .sent }
        collector := if next.thread = .absent then s.collector.signalAvail else s.collector }) hget rfl
    have hitem := item_sending h hst ht
    have hnew : ({ stage with thread := .sent } : Stage).item = none := by simp [Stage.item]
    have hrank : stage.thread.rank = 1 := by obtain ht | ht := ht <;> rw [ht] <;> rfl
    have hlt := lt_length h hn
    rw [hitem, hnew, hrank] at hset
    simp only [Option.isSome_none, Option.isSome_some, if_true, Bool.false_eq_true, if_false, List.length_set,
      h.size, Thread.rank] at hset
    rw [h.size] at hfill
    omega
  | block i stage next hst ht hn hready =>
    have hrank : stage.thread.rank = 1 := by obtain ht | ht := ht <;> rw [ht] <;> rfl
    have hready' := (h.stage i stage hst).2 (by obtain ht | ht := ht <;> rw [ht] <;> rfl)
    have hset := rest_setThread stages .blocked hst
      (by obtain ht | ht := ht <;> simp [Stage.item, hready', ht])
    have hblocked : Thread.blocked.rank = 0 := rfl
    omega
  | clear i stage hst ht =>
    have hup := rest_signalReady stages
      { s with stages := s.stages.set i { stage with dataReady := false, thread := .waiting } } i
    have hset := rest_set stages
      (t := { s with stages := s.stages.set i { stage with dataReady := false, thread := .waiting } }) hst rfl
    have hitem : stage.item = none := by simp [Stage.item, ht]
    have hnew : ({ stage with dataReady := false, thread := .waiting } : Stage).item = none := by simp [Stage.item]
    rw [hitem, hnew, ht] at hset
    simp only [Thread.rank] at hset
    omega
  | take i stage hc hl hst hready =>
    have hup := rest_signalReady stages { s with
      stages := s.stages.set i { stage with dataReady := false }
      results := s.results ++ [stage.data]
      collector := .idle } i
    have hset := rest_set stages (t := { s with
      stages := s.stages.set i { stage with dataReady := false }
      results := s.results ++ [stage.data]
      collector := .idle }) hst rfl
    have habs := (last_iff h hst).mpr hl
    have hitem : stage.item = some stage.data := by simp [Stage.item, habs, hready]
    have hnew : ({ stage with dataReady := false } : Stage).item = none := by simp [Stage.item]
    have hlast : s.stages.length - i = 1 := by
      rw [hl, h.size]
      omega
    rw [hitem, hnew, hlast] at hset
    simp only [Option.isSome_none, Option.isSome_some, if_true, Bool.false_eq_true, if_false,
      Collector.rank] at hset
    omega
  | empty i stage hc hl hst hready =>
    have hrank : s.collector.rank = 1 := by obtain hc | hc := hc <;> rw [hc] <;> rfl
    have hblocked : Collector.blocked.rank = 0 := rfl
    simp only [State.rest, items, hrank, hblocked]
    omega

theorem trans_up {a : Action} (ha : isWork a = false) (ht : Trans s a t) :
    t.rest stages ≤ s.rest stages + (4 * stages + 9) := by
  cases ht with
  | put | full | wait | pass | block | clear | take | empty => cases ha
  | start value hidle =>
    simp only [State.rest, items, hidle, Sender.rank]
    omega
  | claim hidle hactive =>
    simp only [State.rest, items, hidle, Collector.rank]
    omega
  | noClaim => omega
  | wakeStage i stage hst =>
    have hset := rest_setThread stages stage.thread.signalAvail.signalReady hst
      ((item_signalReady { stage with thread := stage.thread.signalAvail }).trans (item_signalAvail stage))
    have hrank := rank_signalReady stage.thread.signalAvail
    have hrank' := rank_signalAvail stage.thread
    omega
  | wakeSender =>
    have hrank := sender_rank stages s.sender
    simp only [State.rest, items]
    omega
  | wakeCollector =>
    have hrank := collector_rank s.collector
    simp only [State.rest, items]
    omega

end Rest

section Stuck

variable {stages : Nat} {s : State}

/-- A thread whose next stage is empty and not locked can go on, unless its own stage is empty. -/
theorem stage_moves (h : Inv stages s) (ha : Awake s) (hstuck : Stuck step isWork s) {i : Nat} {stage next : Stage}
    (hst : s.stages[i]? = some stage) (hn : s.stages[i + 1]? = some next) (hready : next.dataReady = false)
    (hheld : next.thread.holds = false) : stage.dataReady = false ∧ stage.thread.holds = false := by
  have hnone : pipeStage s i = none := hstuck (.stage i) rfl
  simp only [pipeStage, hst, Option.bind_eq_bind, Option.bind_some] at hnone
  cases hth : stage.thread with
  | absent =>
    have hi := (h.stage i stage hst).1.mp hth
    have hlt := lt_length h hn
    omega
  | waiting => exact ⟨ha.waiting i stage hst hth, rfl⟩
  | blocked =>
    rw [ha.blocked i stage next hst hth hn] at hready
    cases hready
  | starting | woken | sending | wokenSending | sent => simp [hth, pipeSend, hn, hready, hheld] at hnone

theorem all_empty (h : Inv stages s) (ha : Awake s) (hstuck : Stuck step isWork s) {last : Stage}
    (hlast : s.stages[stages]? = some last) (hready : last.dataReady = false) :
    ∀ k i stage, i + k = stages → s.stages[i]? = some stage →
      stage.dataReady = false ∧ stage.thread.holds = false := by
  intro k
  induction k with
  | zero =>
    rintro i stage rfl hst
    cases hlast.symm.trans hst
    apply And.intro hready
    rw [(h.stage _ _ hlast).1.mpr rfl]
    rfl
  | succ k ih =>
    intro i stage hi hst
    have hlt : i + 1 < s.stages.length := by
      rw [h.size]
      omega
    obtain ⟨hr, hheld⟩ := ih (i + 1) _ (by omega) (List.getElem?_eq_getElem hlt)
    exact stage_moves h ha hstuck hst (List.getElem?_eq_getElem hlt) hr hheld

theorem flow_empty {l : List (Option Int)} (h : ∀ x ∈ l, x = none) : flow l = [] := by
  induction l with
  | nil => rfl
  | cons x l ih =>
    rw [flow_cons, ih fun y hy => h y (List.mem_cons_of_mem _ hy), h x (List.mem_cons_self ..)]
    rfl

/-- When no thread can go on, nobody waits for a result that has been claimed. -/
theorem idle_of_stuck (h : Inv stages s) (ha : Awake s) (hstuck : Stuck step isWork s) :
    s.collector = .idle := by
  have hlt : stages < s.stages.length := by
    rw [h.size]
    exact Nat.lt_succ_self _
  have hlast : s.stages[s.stages.length - 1]? = some s.stages[stages] := by
    rw [h.size, Nat.add_sub_cancel]
    exact List.getElem?_eq_getElem hlt
  have hcollect : s.collector ≠ .taking ∧ s.collector ≠ .woken := by
    have hnone := hstuck .collect rfl
    apply And.intro
    all_goals
      intro hc
      cases hr : s.stages[stages].dataReady <;> simp [step, pipeResult, hc, hlast, hr] at hnone
  by_contra hidle
  have hblocked : s.collector = .blocked := by
    cases hc : s.collector with
    | idle => exact absurd hc hidle
    | taking => exact absurd hc hcollect.1
    | woken => exact absurd hc hcollect.2
    | blocked => rfl
  have hempty := all_empty h ha hstuck (List.getElem?_eq_getElem hlt) (ha.collector _ hblocked hlast)
  have hzero : 0 < s.stages.length := Nat.lt_of_le_of_lt (Nat.zero_le _) hlt
  obtain ⟨hr, hheld⟩ := hempty stages 0 _ (Nat.zero_add _) (List.getElem?_eq_getElem hzero)
  have hsender : s.sender.pending = [] := by
    have hnone : pipeStart s = none := hstuck .send rfl
    cases hs : s.sender with
    | idle => rfl
    | blocked value =>
      rw [ha.sender value _ hs (List.getElem?_eq_getElem hzero)] at hr
      cases hr
    | sending value | woken value =>
      simp [pipeStart, hs, pipeSend, List.getElem?_eq_getElem hzero, hr, hheld] at hnone
  have hflow : flow (items s) = [] := by
    apply flow_empty
    intro x hx
    obtain ⟨stage, hm, rfl⟩ := List.mem_map.mp hx
    obtain ⟨i, hi⟩ := List.mem_iff_getElem?.mp hm
    have hle := lt_length h hi
    obtain ⟨hr, -⟩ := hempty (stages - i) i stage (by omega) hi
    simp [Stage.item, hr]
  have hpending := congrArg List.length h.pending
  have hactive := h.active
  have hclaimed := ha.claimed
  rw [hflow, hsender] at hpending
  rw [if_neg hidle] at hclaimed
  simp only [List.length_map, List.append_nil, List.map_nil] at hpending
  omega

end Stuck

/-- All the results that have been claimed have been returned. -/
structure Served (stages : Nat) (s : State) : Prop where
  collector : s.collector = .idle
  results : s.results = (s.started.take s.claimed).map (· + (stages : Int))

theorem served_of_stuck {stages : Nat} {s : State} (h : Inv stages s) (ha : Awake s)
    (hstuck : Stuck step isWork s) : Served stages s := by
  have hidle := idle_of_stuck h ha hstuck
  have hclaimed := ha.claimed
  rw [if_pos hidle, Nat.add_zero] at hclaimed
  apply Served.mk hidle
  rw [List.map_take, h.pending, hclaimed, List.append_assoc, List.take_left]

theorem pipeCreate_thread {stages i : Nat} {stage : Stage} (h : (pipeCreate stages).stages[i]? = some stage) :
    stage.thread = .starting ∨ stage.thread = .absent := by
  obtain h | ⟨-, rfl⟩ := getElem?_snoc_cases h
  · rw [List.getElem?_replicate] at h
    obtain ⟨-, h⟩ := Option.ite_none_right_eq_some.mp h
    cases h
    exact .inl rfl
  · exact .inr rfl

theorem awake_pipeCreate (stages : Nat) : Awake (pipeCreate stages) := by
  constructor
  case claimed => rfl
  case sender => exact fun _ _ hs => nomatch hs
  case collector => exact fun _ hc => nomatch hc
  case waiting =>
    intro i stage hst ht
    obtain h | h := pipeCreate_thread hst <;> rw [h] at ht <;> cases ht
  case blocked =>
    intro i stage next hst ht
    obtain h | h := pipeCreate_thread hst <;> rw [h] at ht <;> cases ht

theorem hops_replicate_none (n : Nat) : hops (List.replicate n none) = 0 := by
  induction n with
  | zero => rfl
  | succ n ih =>
    rw [List.replicate_succ, hops, ih]
    rfl

/-- The threads of the stages only have to see that their stages are empty. -/
theorem rest_pipeCreate (stages : Nat) : (pipeCreate stages).rest stages = 2 * stages := by
  have hitems : items (pipeCreate stages) = List.replicate (stages + 1) none := by
    simp [items, pipeCreate, Stage.item, List.replicate_succ']
  rw [State.rest, hitems, hops_replicate_none]
  simp [pipeCreate, Thread.rank, Sender.rank, Collector.rank, Nat.mul_comm]

/-- A claimed result is always delivered: the threads cannot block each other for good, and between two
calls from outside they take a bounded number of steps until all results that have been claimed are there. -/
theorem pipe_serves (stages : Nat) :
    Completes step isWork (Served stages) (pipeCreate stages) (2 * stages) (4 * stages + 9) := by
  have hdescends : Descends step isWork (fun s => Inv stages s ∧ Awake s) (4 * stages + 9) (State.rest stages) := by
    constructor
    case keep => exact fun s a t h ht => ⟨inv_step h.1 ht, trans_awake h.2 h.1 (step_trans ht)⟩
    case down => exact fun s a t h ht ha => trans_down h.1 ha (step_trans ht)
    case up => exact fun s a t h ht ha => trans_up ha (step_trans ht)
  apply completes_of_descends hdescends (fun s h hstuck => served_of_stuck h.1 h.2 hstuck)
  · exact ⟨inv_pipeCreate stages, awake_pipeCreate stages⟩
  · exact Nat.le_of_eq (rest_pipeCreate stages)

end C11AndC.Pipe
