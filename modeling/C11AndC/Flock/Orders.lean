import C11AndC.Flock.Answers

namespace C11AndC.Flock

open C11AndC.Library C11AndC.Crew

variable {c : Config} {stdin : List Char} {s t : State} {i : Nat}

section Endings

theorem length_threads (h : Inv c stdin s) : s.threads.length = c.prompts.length := by
  have hlen := congrArg List.length h.reads.prompts
  rwa [List.length_map] at hlen

/-- The string of a thread that has returned comes from the line that it has read. -/
theorem lookup_of_returned {prompt string : List Char} (h : Inv c stdin s)
    (hi : s.threads[i]? = some ⟨prompt, .returned string⟩) :
    ∃ line, (turns s.log).lookup i = some line ∧ string = response c i line := by
  obtain ⟨line, hline, hstring⟩ := Option.map_eq_some_iff.mp (h.reads.strings i _ hi).symm
  exact ⟨line, hline, hstring.symm⟩

theorem order_perm (h : Inv c stdin s) (he : Ended s) :
    ((turns s.log).map Prod.fst).Perm (List.range c.prompts.length) := by
  apply (List.perm_ext_iff_of_nodup h.reads.once List.nodup_range).mpr
  intro i
  rw [List.mem_range, ← length_threads h]
  constructor
  · intro hi
    obtain ⟨p, hp, rfl⟩ := List.mem_map.mp hi
    exact h.reads.within p hp
  · intro hi
    have hget := List.getElem?_eq_getElem hi
    obtain ⟨string, hreturned⟩ := he.threads _ (List.mem_of_getElem? hget)
    generalize s.threads[i] = u at hget hreturned
    obtain ⟨prompt, place⟩ := u
    cases hreturned
    obtain ⟨line, hline, -⟩ := lookup_of_returned h hget
    rw [List.lookup_eq_some_iff] at hline
    obtain ⟨l₁, l₂, heq, -⟩ := hline
    rw [heq, List.map_append]
    exact List.mem_append_right _ List.mem_cons_self

theorem answered_of_ended (h : Inv c stdin s) (he : Ended s) :
    Answered c stdin ((turns s.log).map Prod.fst) s.log := by
  have hlen : (turns s.log).length = c.prompts.length := by
    have hperm := (order_perm h he).length_eq
    rwa [List.length_map, List.length_range] at hperm
  have hturns : ((turns s.log).map Prod.fst).zip (pieces c.prompts.length stdin) = turns s.log := by
    refine (List.zip_of_prod rfl ?_).symm
    rw [h.reads.lines, hlen]
  constructor
  case turns => exact hturns.symm
  case talk =>
    apply h.talks.closed
    intro u hu hp
    obtain ⟨string, hreturned⟩ := he.threads u hu
    rw [hp] at hreturned
    cases hreturned
  case main =>
    obtain ⟨done, hdone, hjoined, htexts⟩ := h.joins.printed
    rw [he.main] at hdone htexts
    rw [hturns, htexts, ← hdone]
    simp only [Main.announced, Main.unjoined, List.append_nil, List.flatMap_map]
    apply List.flatMap_congr
    intro p hp
    obtain ⟨i, string⟩ := p
    have hreturned := hjoined _ hp
    rw [joined] at hreturned
    cases hi : s.threads[i]? with
    | none =>
      rw [hi] at hreturned
      cases hreturned
    | some u =>
      obtain ⟨prompt, place⟩ := u
      cases place with
      | returned string' =>
        rw [hi] at hreturned
        cases hreturned
        obtain ⟨line, hline, rfl⟩ := lookup_of_returned h hi
        rw [hline, str_response]
        rfl
      | absent | begun | input | locked | prompted | answered | released | leaving =>
        rw [hi] at hreturned
        cases hreturned

end Endings

section Schedules

theorem log_extends {as : List Action} (hr : run (step c) s as = some t) : s.log <+: t.log := by
  apply run_invariant (fun u => s.log <+: u.log) _ (List.prefix_refl s.log) hr
  intro u a v hprefix hs
  cases turn_of_step hs with
  | creates | created | joins | locksInput | locksOutput | unlocksOutput | unlocksInput => exact hprefix
  | waits | prints | prompts | reads | returns => exact hprefix.trans (List.prefix_append _ _)

/-- `main` creates the threads one after the other. -/
theorem run_create (c : Config) (stdin : List Char) {count : Nat} (hc : count ≤ c.prompts.length) :
    ∃ as s, run (step c) (init c stdin) as = some s ∧ s.main = .creating count ∧ s.inputOwner = none ∧
      s.outputOwner = none ∧ s.log = [] ∧ ∀ u ∈ s.threads, u.place = .absent ∨ u.place = .begun := by
  induction count with
  | zero =>
    refine ⟨[], init c stdin, rfl, rfl, rfl, rfl, rfl, ?_⟩
    intro u hu
    obtain ⟨prompt, -, rfl⟩ := List.mem_map.mp hu
    exact .inl rfl
  | succ count ih =>
    obtain ⟨as, s, hr, hm, hinput, houtput, hlog, hplaces⟩ := ih (Nat.le_of_succ_le hc)
    have hinv := run_invariant (Inv c stdin) (fun _ _ _ h hs => inv_turn h (turn_of_step hs)) (inv_init c stdin) hr
    have hlt : count < s.threads.length := by
      rw [length_threads hinv]
      exact hc
    obtain ⟨u, hu, hstep⟩ : ∃ u : State, u = { s with
        threads := s.threads.set count { s.threads[count] with place := .begun }
        main := .creating (count + 1) } ∧ step c s .main = some u := by
      refine ⟨_, rfl, ?_⟩
      simp only [step, mainStep, hm, List.getElem?_eq_getElem hlt]
    refine ⟨as ++ [.main], u, run_append.mpr ⟨s, hr, run_cons.mpr ⟨u, hstep, rfl⟩⟩, ?_⟩
    rw [hu]
    exact ⟨rfl, hinput, houtput, hlog, mem_set_cases hplaces (.inr rfl)⟩

/-- The steps of one thread, without those of others in between. -/
theorem run_turn {prompt : List Char} (hi : s.threads[i]? = some ⟨prompt, .begun⟩) (hinput : s.inputOwner = none)
    (houtput : s.outputOwner = none) :
    run (step c) s (List.replicate 7 (.thread i)) = some { s with
      stdin := s.stdin.drop (upto 127 s.stdin).length
      threads := s.threads.set i ⟨prompt, .returned (response c i (upto 127 s.stdin))⟩
      log := s.log ++ [.write (some i) prompt] ++ [.read i (upto 127 s.stdin)] ++
        [.write (some i) (returningText prompt)] } := by
  have hlt := (List.getElem?_eq_some_iff.mp hi).1
  obtain ⟨input, inputOwner, outputOwner, threads, main, log⟩ := s
  cases hinput
  cases houtput
  simp only [List.replicate, run, step, promptRoutine, hi, Option.bind_some, if_true, List.getElem?_set_self hlt,
    List.set_set]

/-- From a state in which they have all just begun, the threads can take their turns in any order. -/
theorem run_order {order : List Nat} (horder : order.Nodup) (hinput : s.inputOwner = none)
    (houtput : s.outputOwner = none) (hbegun : ∀ i ∈ order, ∃ prompt, s.threads[i]? = some ⟨prompt, .begun⟩) :
    ∃ as t, run (step c) s as = some t ∧ (turns t.log).map Prod.fst = (turns s.log).map Prod.fst ++ order := by
  induction order generalizing s with
  | nil => exact ⟨[], s, rfl, (List.append_nil _).symm⟩
  | cons i order ih =>
    obtain ⟨hnot, horder⟩ := List.nodup_cons.mp horder
    obtain ⟨prompt, hi⟩ := hbegun i List.mem_cons_self
    have hturn := run_turn (c := c) hi hinput houtput
    generalize hu : State.mk _ _ _ _ _ _ = u at hturn
    have hrest : ∀ j ∈ order, ∃ prompt, u.threads[j]? = some ⟨prompt, .begun⟩ := by
      intro j hj
      obtain ⟨prompt', hprompt⟩ := hbegun j (List.mem_cons_of_mem i hj)
      refine ⟨prompt', ?_⟩
      rw [← hu, List.getElem?_set_ne]
      · exact hprompt
      · rintro rfl
        exact hnot hj
    obtain ⟨as, t, hr, hturns⟩ := ih horder (by rw [← hu]; exact hinput) (by rw [← hu]; exact houtput) hrest
    refine ⟨_, t, run_append.mpr ⟨u, hturn, hr⟩, ?_⟩
    rw [hturns, ← hu, turns_write, turns_read, turns_write, List.map_append, List.append_assoc]
    rfl

end Schedules

/-- Under every schedule the threads come to an end, and each of them reads a line right behind its prompt; what
`main` prints are the responses that belong to the threads. Any order of the threads is possible. -/
theorem prompts_answered (c : Config) (stdin : List Char) :
    Completes (step c) (fun _ => true) Ended (init c stdin) (11 * c.prompts.length + 1) 0 ∧
      (∀ as t, run (step c) (init c stdin) as = some t → Ended t →
        ∃ order, order.Perm (List.range c.prompts.length) ∧ Answered c stdin order t.log) ∧
      ∀ order : List Nat, order.Perm (List.range c.prompts.length) →
        ∃ as t, run (step c) (init c stdin) as = some t ∧ Ended t ∧ Answered c stdin order t.log := by
  have hdescends : Descends (step c) (fun _ => true) (Inv c stdin) 0 State.rest := by
    constructor
    case keep => exact fun _ _ _ h hs => inv_turn h (turn_of_step hs)
    case down => exact fun _ _ _ h hs _ => rest_turn h (turn_of_step hs)
    case up => exact fun _ _ _ _ _ ha => absurd ha Bool.noConfusion
  have hcompletes : Completes (step c) (fun _ => true) Ended (init c stdin) (11 * c.prompts.length + 1) 0 :=
    completes_of_descends hdescends (fun _ h hstuck => ended_of_stuck h hstuck) (inv_init c stdin)
      (Nat.le_of_eq (rest_init c stdin))
  have hinv : ∀ {as t}, run (step c) (init c stdin) as = some t → Inv c stdin t :=
    hdescends.run_keep (inv_init c stdin)
  refine ⟨hcompletes, ?_, ?_⟩
  · intro as t hr he
    exact ⟨_, order_perm (hinv hr) he, answered_of_ended (hinv hr) he⟩
  · intro order horder
    obtain ⟨as, s, hr, hm, hinput, houtput, hlog, hplaces⟩ := run_create c stdin (Nat.le_refl _)
    have hs := hinv hr
    have hbegun : ∀ i ∈ order, ∃ prompt, s.threads[i]? = some ⟨prompt, .begun⟩ := by
      intro i hi
      have hlt : i < s.threads.length := by
        rw [length_threads hs]
        exact List.mem_range.mp (horder.subset hi)
      have hget := List.getElem?_eq_getElem hlt
      have hplace : s.threads[i].place = .begun := by
        apply (hplaces _ (List.mem_of_getElem? hget)).resolve_left
        intro habsent
        obtain ⟨count, hcount, hle⟩ := (hs.starts i _ hget).mp habsent
        rw [hm] at hcount
        cases hcount
        rw [length_threads hs] at hlt
        omega
      refine ⟨s.threads[i].prompt, hget.trans ?_⟩
      rw [← hplace]
    obtain ⟨bs, t, hbs, hturns⟩ := run_order (horder.nodup_iff.mpr List.nodup_range) hinput houtput hbegun
    obtain ⟨cs, u, hcs, hu, hdone⟩ := hcompletes.reaches (run_append.mpr ⟨s, hr, hbs⟩)
    have hall := run_append.mpr ⟨t, run_append.mpr ⟨s, hr, hbs⟩, hu⟩
    -- The order is a part of the order of the whole run, and has the same length.
    have hprefix : order <+: (turns u.log).map Prod.fst := by
      have hsub := ((log_extends hu).filterMap Event.turn?).map Prod.fst
      rw [← turns, ← turns, hturns, hlog] at hsub
      exact hsub
    have hperm := order_perm (hinv hall) hdone
    have heq := hprefix.eq_of_length (horder.length_eq.trans hperm.length_eq.symm)
    refine ⟨_, u, hall, hdone, ?_⟩
    rw [heq]
    exact answered_of_ended (hinv hall) hdone

end C11AndC.Flock
