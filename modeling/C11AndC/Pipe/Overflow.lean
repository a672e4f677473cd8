import C11AndC.Pipe.Order

namespace C11AndC.Pipe.Overflow

open C11AndC.Library

/-- `queue[nextPosition] = data`: the call of `pipe_send` it is of, what the scan has found, and where it goes. -/
structure Store where
  call : Nat
  found : Option Nat
  place : Nat
  data : Int
  deriving DecidableEq

/-- The pipe with the queue of the numbers that found the first stage busy; the stores are recorded. -/
structure State where
  pipe : Pipe.State
  queue : List Int
  stores : List Store
  deriving DecidableEq

def init (stages : Nat) : State := ⟨pipeCreate stages, List.replicate 10 0, []⟩

/-- The first entry that is zero. -/
def scan (queue : List Int) : Option Nat := queue.findIdx? (· == 0)

/-- The scan and the store; `junk` is what `nextPosition` holds when it is not set. What a store behind the end of
the array does is left out. -/
def enqueue (junk : Nat) (data : Int) (s : State) : State :=
  let found := scan s.queue
  let nextPosition := found.getD junk
  { s with
    queue := s.queue.set nextPosition data
    stores := s.stores ++ [⟨s.pipe.started.length, found, nextPosition, data⟩] }

/-- A step of the pipe. A send to the first stage that does not get through stores its number before it waits. -/
def step (s : State) (x : Action × Nat) : Option State := do
  let pipe ← Pipe.step s.pipe x.1
  match x.1, pipe.sender with
  | .send, .blocked value => return enqueue x.2 value { s with pipe := pipe }
  | _, _ => return { s with pipe := pipe }

/-- Each store goes to an entry that the scan has found, and no two calls store to the same entry. -/
structure Good (s : State) : Prop where
  found : ∀ x ∈ s.stores, x.found = some x.place ∧ x.place < 10
  own : s.stores.Pairwise (fun x y => x.place = y.place → x.call = y.call)

/-- The first stage has data. -/
def Busy (s : Pipe.State) : Prop := ∃ stage, s.stages[0]? = some stage ∧ stage.dataReady = true

/-- Fewer than ten numbers other than zero are stored, and no zero is stored for another call. -/
def HasEntry (s : State) : Prop :=
  (s.stores.filter (·.data ≠ 0)).length < 10 ∧ ∀ x ∈ s.stores, x.data = 0 → x.call = s.pipe.started.length

section Senders

variable {s t u : Pipe.State} {a : Action} {i : Nat} {data value : Int} {sent : Bool}

theorem pipeSend_alike (h : pipeSend s i data = some (sent, t)) : Alike s t := by
  obtain ⟨-, rfl⟩ | ⟨-, ha, -⟩ := pipeSend_spec 0 h
  · exact ⟨rfl, rfl, rfl, rfl, rfl⟩
  · exact ha

theorem pipeSend_busy (h : pipeSend s 0 data = some (sent, t)) : sent = false ↔ Busy s := by
  obtain ⟨stage, hst, h⟩ := Option.bind_eq_some_iff.mp h
  have hbusy : Busy s ↔ stage.dataReady = true := by simp [Busy, hst]
  split_ifs at h with hheld hready
  · cases h
    exact iff_of_true rfl (hbusy.mpr hready)
  · cases h
    exact iff_of_false Bool.noConfusion fun hb => hready (hbusy.mp hb)

theorem pipeStage_alike (h : pipeStage s i = some t) : Alike s t := by
  obtain ⟨stage, -, h⟩ := Option.bind_eq_some_iff.mp h
  cases hth : stage.thread with
  | starting | woken =>
    rw [hth] at h
    cases h
    exact ⟨rfl, rfl, rfl, rfl, rfl⟩
  | sending | wokenSending =>
    rw [hth] at h
    obtain ⟨⟨sent, u⟩, hu, h⟩ := Option.bind_eq_some_iff.mp h
    cases h
    exact ⟨(pipeSend_alike hu).started, (pipeSend_alike hu).results, (pipeSend_alike hu).claimed,
      (pipeSend_alike hu).active, (pipeSend_alike hu).pending⟩
  | sent =>
    rw [hth] at h
    cases h
    exact ⟨(signalReady_spec 0 _ i).1.started, (signalReady_spec 0 _ i).1.results, (signalReady_spec 0 _ i).1.claimed,
      (signalReady_spec 0 _ i).1.active, (signalReady_spec 0 _ i).1.pending⟩
  | absent | waiting | blocked =>
    rw [hth] at h
    cases h

/-- The call of `pipe_start` that is under way, with its number. -/
theorem step_send (h : Pipe.step s .send = some t) : ∃ value, s.sender.pending = [value] ∧ t.started = s.started ∧
    ((Busy s ∧ t.sender = .blocked value) ∨ (¬ Busy s ∧ t.sender = .idle)) := by
  change pipeStart s = some t at h
  unfold pipeStart at h
  cases hsd : s.sender with
  | idle | blocked value => simp [hsd] at h
  | sending value | woken value =>
    rw [hsd] at h
    simp only [Option.bind_eq_bind, Option.bind_some] at h
    obtain ⟨⟨sent, u⟩, hu, h⟩ := Option.bind_eq_some_iff.mp h
    cases h
    refine ⟨value, rfl, (pipeSend_alike hu).started, ?_⟩
    have hbusy := pipeSend_busy hu
    cases sent with
    | false => exact Or.inl ⟨hbusy.mp rfl, rfl⟩
    | true => exact Or.inr ⟨fun hb => Bool.noConfusion (hbusy.mpr hb), rfl⟩

theorem step_start (h : Pipe.step s (.start value) = some t) : t.started = s.started ++ [value] := by
  simp only [Pipe.step] at h
  split_ifs at h
  cases h
  rfl

/-- The other actions leave the calls of `pipe_start` as they are. -/
theorem step_other (h : Pipe.step s a = some t) (hsend : a ≠ .send) (hstart : ∀ value, a ≠ .start value) :
    t.started = s.started ∧ t.sender.pending = s.sender.pending := by
  cases a with
  | start value => exact absurd rfl (hstart value)
  | send => exact absurd rfl hsend
  | stage i => exact ⟨(pipeStage_alike h).started, (pipeStage_alike h).pending⟩
  | claim =>
    simp only [Pipe.step] at h
    split_ifs at h
    cases h
    unfold claim
    split_ifs <;> exact ⟨rfl, rfl⟩
  | collect =>
    simp only [Pipe.step] at h
    split_ifs at h
    obtain ⟨stage, -, h⟩ := Option.bind_eq_some_iff.mp h
    split_ifs at h
    · cases h
      exact ⟨(signalReady_spec 0 _ _).1.started, (signalReady_spec 0 _ _).1.pending⟩
    · cases h
      exact ⟨rfl, rfl⟩
  | wakeStage i =>
    obtain ⟨stage, -, h⟩ := Option.bind_eq_some_iff.mp h
    cases h
    exact ⟨rfl, rfl⟩
  | wakeSender =>
    cases h
    exact ⟨rfl, pending_signalReady s.sender⟩
  | wakeCollector =>
    cases h
    exact ⟨rfl, rfl⟩

/-- A step starts a call, or keeps those there are. -/
theorem step_calls (h : Pipe.step s a = some t) : (∃ value, t.started = s.started ++ [value]) ∨
    (t.started = s.started ∧ ∀ value, t.sender.pending = [value] → s.sender.pending = [value]) := by
  by_cases hstart : ∃ value, a = .start value
  · obtain ⟨value, rfl⟩ := hstart
    exact Or.inl ⟨value, step_start h⟩
  · refine Or.inr ?_
    by_cases hsend : a = .send
    · subst hsend
      obtain ⟨value, hpending, hstarted, ⟨-, hsender⟩ | ⟨-, hsender⟩⟩ := step_send h
      · rw [hsender, hpending]
        exact ⟨hstarted, fun _ hv => hv⟩
      · rw [hsender]
        exact ⟨hstarted, fun _ hv => by cases hv⟩
    · obtain ⟨hstarted, hpending⟩ := step_other h hsend fun value hx => hstart ⟨value, hx⟩
      exact ⟨hstarted, fun value hv => hpending ▸ hv⟩

end Senders

/-- The numbers other than zero that are stored, in their order. -/
def State.kept (s : State) : List Int := (s.stores.filter (·.data ≠ 0)).map (·.data)

/-- The stores of a call are of its number. -/
structure Calls (s : State) : Prop where
  le : ∀ x ∈ s.stores, x.call ≤ s.pipe.started.length
  data : ∀ value, s.pipe.sender.pending = [value] → ∀ x ∈ s.stores, x.call = s.pipe.started.length → x.data = value

/-- The queue while all stores are good: the numbers other than zero come first, and a zero is behind them. -/
structure Filled (s : State) : Prop where
  queue : s.queue = s.kept ++ List.replicate (10 - s.kept.length) 0
  le : s.kept.length ≤ 10
  place : ∀ x ∈ s.stores, if x.data = 0 then x.place = s.kept.length else x.place < s.kept.length

section Queue

variable {s t : State} {x : Action × Nat} {junk : Nat} {value : Int}

theorem kept_length (s : State) : s.kept.length = (s.stores.filter (·.data ≠ 0)).length := List.length_map ..

theorem ne_zero_of_kept (h : value ∈ s.kept) : value ≠ 0 := by
  obtain ⟨x, hx, rfl⟩ := List.mem_map.mp h
  simpa using (List.mem_filter.mp hx).2

/-- The scan finds the entry behind the numbers that are kept. -/
theorem scan_eq (h : Filled s) : scan s.queue = if s.kept.length < 10 then some s.kept.length else none := by
  have hnone : s.kept.findIdx? (· == 0) = none := by
    refine List.findIdx?_eq_none_iff.mpr fun y hy => ?_
    simpa using ne_zero_of_kept hy
  rw [scan, h.queue, List.findIdx?_append, hnone, List.findIdx?_replicate]
  by_cases hlt : s.kept.length < 10
  · have hpos : 0 < 10 - s.kept.length := by omega
    simp [hlt, hpos]
  · have hpos : ¬ 0 < 10 - s.kept.length := by omega
    simp [hlt, hpos]

theorem kept_enqueue (s : State) (junk : Nat) (value : Int) :
    (enqueue junk value s).kept = if value = 0 then s.kept else s.kept ++ [value] := by
  by_cases hz : value = 0 <;> simp [State.kept, enqueue, hz]

/-- What holds of the stores after a send: what held before, and what holds of the new one. -/
theorem forall_stores {P : Store → Prop} : (∀ x ∈ (enqueue junk value s).stores, P x) ↔
    (∀ x ∈ s.stores, P x) ∧ P ⟨s.pipe.started.length, scan s.queue, (scan s.queue).getD junk, value⟩ := by
  rw [enqueue, List.forall_mem_append, List.forall_mem_singleton]

theorem good_of_enqueue (h : Good (enqueue junk value s)) : Good s :=
  ⟨(forall_stores.mp h.found).1, (List.pairwise_append.mp h.own).1⟩

/-- A store is good exactly if an entry is left and no zero of another call is in it. -/
theorem good_enqueue (hf : Filled s) (hg : Good s) : Good (enqueue junk value s) ↔ HasEntry s := by
  have hscan := scan_eq hf
  rw [HasEntry, ← kept_length]
  constructor
  · intro h
    have hnew := (forall_stores.mp h.found).2
    have hlt : s.kept.length < 10 := by
      by_contra hge
      rw [hscan, if_neg hge] at hnew
      cases hnew.1
    refine ⟨hlt, fun x hx hz => ?_⟩
    have hplace := hf.place x hx
    rw [if_pos hz] at hplace
    refine (List.pairwise_append.mp h.own).2.2 x hx _ (List.mem_singleton_self _) ?_
    rw [hplace, hscan, if_pos hlt, Option.getD_some]
  · rintro ⟨hlt, hzero⟩
    rw [if_pos hlt] at hscan
    refine ⟨forall_stores.mpr ⟨hg.found, ?_⟩,
      List.pairwise_append.mpr ⟨hg.own, List.pairwise_singleton _ _, fun x hx y hy => ?_⟩⟩
    · simp only [hscan, Option.getD_some]
      exact ⟨trivial, hlt⟩
    · rw [List.mem_singleton.mp hy]
      simp only [hscan, Option.getD_some]
      intro hplace
      refine hzero x hx ?_
      by_contra hne
      have := hf.place x hx
      rw [if_neg hne] at this
      omega

/-- The numbers come first again after a good store. -/
theorem filled_enqueue (hc : Calls s) (hp : s.pipe.sender.pending = [value]) (hf : Filled s) (he : HasEntry s) :
    Filled (enqueue junk value s) := by
  have hscan := scan_eq hf
  rw [HasEntry, ← kept_length] at he
  obtain ⟨hlt, hzero⟩ := he
  rw [if_pos hlt] at hscan
  have hqueue : (enqueue junk value s).queue = s.kept ++ value :: List.replicate (10 - s.kept.length - 1) 0 := by
    obtain ⟨n, hn⟩ := Nat.exists_eq_succ_of_ne_zero (show 10 - s.kept.length ≠ 0 by omega)
    simp only [enqueue, hscan, Option.getD_some]
    rw [hf.queue, List.set_append_right _ _ (Nat.le_refl _), Nat.sub_self, hn, List.replicate_succ,
      List.set_cons_zero, Nat.succ_sub_one]
  by_cases hz : value = 0
  · subst hz
    have hkept : (enqueue junk 0 s).kept = s.kept := by rw [kept_enqueue, if_pos rfl]
    refine ⟨?_, by rw [hkept]; exact hf.le, ?_⟩
    · rw [hqueue, hkept, ← List.replicate_succ]
      congr 2
      omega
    · rw [hkept]
      refine forall_stores.mpr ⟨hf.place, ?_⟩
      simp only [hscan, Option.getD_some, if_true]
  · have hkept : (enqueue junk value s).kept = s.kept ++ [value] := by rw [kept_enqueue, if_neg hz]
    have hlen : (s.kept ++ [value]).length = s.kept.length + 1 := by rw [List.length_append, List.length_singleton]
    refine ⟨?_, by rw [hkept, hlen]; exact hlt, ?_⟩
    · rw [hqueue, hkept, hlen, List.append_assoc, List.singleton_append, Nat.sub_sub]
    · rw [hkept, hlen]
      refine forall_stores.mpr ⟨fun x hx => ?_, ?_⟩
      · have hne : x.data ≠ 0 := fun h0 => hz ((hc.data value hp x hx (hzero x hx h0)).symm.trans h0)
        have hplace := hf.place x hx
        rw [if_neg hne] at hplace ⊢
        omega
      · rw [if_neg hz]
        simp only [hscan, Option.getD_some]
        exact Nat.lt_succ_self _

end Queue

section Runs

variable {s t : State} {x : Action × Nat}

/-- A step makes a store exactly if it is a send that finds the first stage busy. -/
theorem step_cases (h : step s x = some t) : ∃ pipe, Pipe.step s.pipe x.1 = some pipe ∧
    ((x.1 = .send ∧ Busy s.pipe ∧ ∃ value, s.pipe.sender.pending = [value] ∧ pipe.started = s.pipe.started ∧
      pipe.sender = .blocked value ∧ t = enqueue x.2 value { s with pipe := pipe }) ∨
    (¬ (x.1 = .send ∧ Busy s.pipe) ∧ t = { s with pipe := pipe })) := by
  obtain ⟨a, junk⟩ := x
  obtain ⟨pipe, hp, h⟩ := Option.bind_eq_some_iff.mp h
  refine ⟨pipe, hp, ?_⟩
  by_cases hsend : a = .send
  · subst hsend
    obtain ⟨value, hpending, hstarted, ⟨hbusy, hsender⟩ | ⟨hbusy, hsender⟩⟩ := step_send hp
    · simp only [hsender] at h
      cases h
      exact Or.inl ⟨rfl, hbusy, value, hpending, hstarted, hsender, rfl⟩
    · simp only [hsender] at h
      cases h
      exact Or.inr ⟨fun hb => hbusy hb.2, rfl⟩
  · refine Or.inr ⟨fun hb => hsend hb.1, ?_⟩
    cases a with
    | send => exact absurd rfl hsend
    | start | stage | claim | collect | wakeStage | wakeSender | wakeCollector =>
      cases h
      rfl

theorem calls_pipe {pipe : Pipe.State} {a : Action} (hc : Calls s) (h : Pipe.step s.pipe a = some pipe) :
    Calls { s with pipe := pipe } := by
  obtain ⟨value, hstarted⟩ | ⟨hstarted, hpending⟩ := step_calls h
  · have hlen : pipe.started.length = s.pipe.started.length + 1 := by
      rw [hstarted, List.length_append, List.length_singleton]
    refine ⟨fun x hx => ?_, fun value _ x hx hcall => ?_⟩
    · exact hlen ▸ Nat.le_succ_of_le (hc.le x hx)
    · have hle := hc.le x hx
      change x.call = pipe.started.length at hcall
      omega
  · exact ⟨fun x hx => hstarted ▸ hc.le x hx,
      fun value hv x hx hcall => hc.data value (hpending value hv) x hx (hstarted ▸ hcall)⟩

theorem calls_enqueue {value : Int} {junk : Nat} (hc : Calls s) (hp : s.pipe.sender.pending = [value]) :
    Calls (enqueue junk value s) := by
  refine ⟨forall_stores.mpr ⟨hc.le, Nat.le_refl _⟩, fun value' hv => ?_⟩
  cases hp.symm.trans hv
  exact forall_stores.mpr ⟨hc.data value hp, fun _ => rfl⟩

/-- What holds in the runs whose stores are good up to here. -/
structure Inv (s : State) : Prop where
  calls : Calls s
  filled : Good s → Filled s

theorem inv_init (stages : Nat) : Inv (init stages) :=
  ⟨⟨fun _ hx => absurd hx List.not_mem_nil, fun _ _ _ hx => absurd hx List.not_mem_nil⟩,
    fun _ => ⟨rfl, Nat.zero_le _, fun _ hx => absurd hx List.not_mem_nil⟩⟩

theorem good_init (stages : Nat) : Good (init stages) :=
  ⟨fun _ hx => absurd hx List.not_mem_nil, List.Pairwise.nil⟩

/-- A step keeps the invariant, and its store is good exactly under the condition. -/
theorem inv_step (hi : Inv s) (h : step s x = some t) :
    Inv t ∧ (Good s → (Good t ↔ (x.1 = .send ∧ Busy s.pipe → HasEntry s))) := by
  obtain ⟨pipe, hp, ⟨hsend, hbusy, value, -, hstarted, hsender, rfl⟩ | ⟨hno, rfl⟩⟩ := step_cases h
  · have hcalls : Calls { s with pipe := pipe } := calls_pipe hi.calls hp
    have hpending : pipe.sender.pending = [value] := by
      rw [hsender]
      rfl
    have hentry : HasEntry { s with pipe := pipe } ↔ HasEntry s := by simp only [HasEntry, hstarted]
    have hgood : ∀ {s'}, Good s' → s'.stores = s.stores → Good s := fun hg he => ⟨he ▸ hg.found, he ▸ hg.own⟩
    have hfilled : Good s → Filled { s with pipe := pipe } := fun hg =>
      ⟨(hi.filled hg).queue, (hi.filled hg).le, (hi.filled hg).place⟩
    refine ⟨⟨calls_enqueue hcalls hpending, fun hg => ?_⟩, fun hg => ?_⟩
    · have hs : Good s := hgood (good_of_enqueue hg) rfl
      exact filled_enqueue hcalls hpending (hfilled hs) ((good_enqueue (hfilled hs) (good_of_enqueue hg)).mp hg)
    · rw [good_enqueue (hfilled hg) ⟨hg.found, hg.own⟩, hentry]
      exact ⟨fun he _ => he, fun he => he ⟨hsend, hbusy⟩⟩
  · refine ⟨⟨calls_pipe hi.calls hp, fun hg => ?_⟩, fun hg => ?_⟩
    · have hf := hi.filled ⟨hg.found, hg.own⟩
      exact ⟨hf.queue, hf.le, hf.place⟩
    · exact iff_of_true ⟨hg.found, hg.own⟩ fun hb => absurd hb hno

end Runs

/-- The stores of a run stay in the array and apart from each other exactly if each send that finds the first stage
busy has an entry left. -/
theorem stores_iff (stages : Nat) (as : List (Action × Nat)) :
    Always step Good (init stages) as ↔
      Each step (fun s x => x.1 = .send ∧ Busy s.pipe → HasEntry s) (init stages) as := by
  apply always_iff_each (fun s => Inv s ∧ Good s) _ (fun s hs => hs.2) _ ⟨inv_init stages, good_init stages⟩
  · exact fun s x t hs hc ht => ⟨(inv_step hs.1 ht).1, ((inv_step hs.1 ht).2 hs.2).mpr hc⟩
  · exact fun s x t hs ht hgood => ((inv_step hs.1 ht).2 hs.2).mp hgood

/-- Actions for which an unset `nextPosition` holds `1000`. -/
def unset (as : List Action) : List (Action × Nat) := as.map fun a => (a, 1000)

/-- The first stage is busy with `1`, and the wait of the call for `2` ends ten times without a signal. -/
def waits : List (Action × Nat) :=
  unset ([.start 1, .send, .start 2, .send] ++ (List.replicate 10 [.wakeSender, .send]).flatten)

/-- The call for `0` waits once, and after it the call for `5`. -/
def zeros : List (Action × Nat) :=
  unset [.start 1, .send, .start 0, .send, .stage 0, .stage 0, .stage 0, .send, .start 5, .send]

/-- The last of eleven stores has no entry, and the stored zero does not keep its entry. -/
theorem stores_waits : ¬ Always step Good (init 3) waits ∧ ¬ Always step Good (init 3) zeros ∧
    (run step (init 3) waits).map (fun t => t.stores[10]?) = some (some ⟨2, none, 1000, 2⟩) ∧
    (run step (init 3) zeros).map (·.stores) = some [⟨2, some 0, 0, 0⟩, ⟨3, some 0, 0, 5⟩] := by
  have hwaits : (run step (init 3) waits).map (fun t => t.stores[10]?) = some (some ⟨2, none, 1000, 2⟩) := by decide
  have hzeros : (run step (init 3) zeros).map (·.stores) = some [⟨2, some 0, 0, 0⟩, ⟨3, some 0, 0, 5⟩] := by decide
  refine ⟨fun h => ?_, fun h => ?_, hwaits, hzeros⟩
  · obtain ⟨t, ht, hstore⟩ := Option.map_eq_some_iff.mp hwaits
    cases ((always_run h ht).found _ (List.mem_of_getElem? hstore)).1
  · obtain ⟨t, ht, hstores⟩ := Option.map_eq_some_iff.mp hzeros
    have hown := (always_run h ht).own
    rw [hstores] at hown
    exact absurd hown (by decide)

end C11AndC.Pipe.Overflow
