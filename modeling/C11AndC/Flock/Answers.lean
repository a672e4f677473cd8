import C11AndC.Flock.Model
import C11AndC.Library.Owner
import C11AndC.Library.Progress

namespace C11AndC.Flock

open C11AndC.Library C11AndC.Crew

/-- What the calls of `fgets` take from the input one after the other. -/
def pieces : Nat → List Char → List (List Char)
  | 0, _ => []
  | n + 1, stdin => upto 127 stdin :: pieces n (stdin.drop (upto 127 stdin).length)

/-- What is left of the input behind them. -/
def after : Nat → List Char → List Char
  | 0, stdin => stdin
  | n + 1, stdin => after n (stdin.drop (upto 127 stdin).length)

/-- The response to a prompt: the line up to an end mark in it, without the newline. -/
def answer (line : List Char) : List Char := dropNewline (str line)

def Event.turn? : Event → Option (Nat × List Char)
  | .read i line => some (i, line)
  | .write _ _ => none

def Event.mainText? : Event → Option (List Char)
  | .write none text => some text
  | .write (some _) _ | .read _ _ => none

/-- Who has read which line, in their order. -/
def turns (log : List Event) : List (Nat × List Char) := log.filterMap Event.turn?

/-- The lines that `main` has printed. -/
def mainTexts (log : List Event) : List (List Char) := log.filterMap Event.mainText?

/-- What happens at the terminal without anything else in between. -/
inductive Block (c : Config) : List Event → Prop where
  | dialogue (i : Nat) (prompt line : List Char) (hi : c.prompts[i]? = some prompt) :
      Block c [.write (some i) prompt, .read i line]
  | returning (i : Nat) (prompt : List Char) (hi : c.prompts[i]? = some prompt) :
      Block c [.write (some i) (returningText prompt)]
  | main (text : List Char) : Block c [.write none text]

/-- The log is put together from blocks: each line is read right behind the prompt of the thread that reads it. -/
def Undisturbed (c : Config) (log : List Event) : Prop :=
  ∃ blocks : List (List Event), log = blocks.flatten ∧ ∀ b ∈ blocks, Block c b

/-- The threads have read the pieces of the input in the given order, and `main` prints what each of them has
read. -/
structure Answered (c : Config) (stdin : List Char) (order : List Nat) (log : List Event) : Prop where
  turns : turns log = order.zip (pieces c.prompts.length stdin)
  talk : Undisturbed c log
  main : mainTexts log = c.joins.flatMap fun i =>
    [waitingText i, threadText i (answer (((order.zip (pieces c.prompts.length stdin)).lookup i).getD []))]

/-- `main` has joined all threads, and they have returned. -/
structure Ended (s : State) : Prop where
  main : s.main = .waiting []
  threads : ∀ t ∈ s.threads, ∃ string, t.place = .returned string

def Thread.holdsInput (t : Thread) : Bool :=
  match t.place with
  | .input | .locked | .prompted | .answered _ | .released _ => true
  | .absent | .begun | .leaving _ | .returned _ => false

def Thread.holdsOutput (t : Thread) : Bool :=
  match t.place with
  | .locked | .prompted | .answered _ => true
  | .absent | .begun | .input | .released _ | .leaving _ | .returned _ => false

def Thread.string? (t : Thread) : Option (List Char) :=
  match t.place with
  | .absent | .begun | .input | .locked | .prompted => none
  | .answered string | .released string | .leaving string | .returned string => some string

/-- The steps that a thread takes from its place. -/
def Place.rank : Place → Nat
  | .absent | .begun => 7
  | .input => 6
  | .locked => 5
  | .prompted => 4
  | .answered _ => 3
  | .released _ => 2
  | .leaving _ => 1
  | .returned _ => 0

def Main.rank (threads : Nat) : Main → Nat
  | .creating count => threads - count + 1 + 3 * threads
  | .waiting joins => 3 * joins.length
  | .joining _ joins => 3 * joins.length + 2
  | .printing _ _ joins => 3 * joins.length + 1

def State.rest (s : State) : Nat := (s.threads.map (fun t => t.place.rank)).sum + s.main.rank s.threads.length

/-- The threads that `main` has not joined. -/
def Main.unjoined (c : Config) : Main → List Nat
  | .creating _ => c.joins
  | .waiting joins => joins
  | .joining i joins | .printing i _ joins => i :: joins

/-- The line that `main` has printed for the thread that it joins. -/
def Main.announced : Main → List (List Char)
  | .creating _ | .waiting _ => []
  | .joining i _ | .printing i _ _ => [waitingText i]

/-- What one step can do. -/
inductive Turn (c : Config) (s : State) : State → Prop
  | creates {count t} (hm : s.main = .creating count) (hi : s.threads[count]? = some t) :
      Turn c s { s with threads := s.threads.set count { t with place := .begun }, main := .creating (count + 1) }
  | created {count} (hm : s.main = .creating count) (hi : s.threads[count]? = none) :
      Turn c s { s with main := .waiting c.joins }
  | waits {i joins} (hm : s.main = .waiting (i :: joins)) (ho : s.outputOwner = none) :
      Turn c s { s with main := .joining i joins, log := s.log ++ [.write none (waitingText i)] }
  | joins {i joins string} (hm : s.main = .joining i joins) (hj : joined s.threads i = some string) :
      Turn c s { s with main := .printing i string joins }
  | prints {i string joins} (hm : s.main = .printing i string joins) (ho : s.outputOwner = none) :
      Turn c s { s with main := .waiting joins, log := s.log ++ [.write none (threadText i (str string))] }
  | locksInput {i prompt} (hi : s.threads[i]? = some ⟨prompt, .begun⟩) (ho : s.inputOwner = none) :
      Turn c s { s with inputOwner := some i, threads := s.threads.set i ⟨prompt, .input⟩ }
  | locksOutput {i prompt} (hi : s.threads[i]? = some ⟨prompt, .input⟩) (ho : s.outputOwner = none) :
      Turn c s { s with outputOwner := some i, threads := s.threads.set i ⟨prompt, .locked⟩ }
  | prompts {i prompt} (hi : s.threads[i]? = some ⟨prompt, .locked⟩) :
      Turn c s { s with
        threads := s.threads.set i ⟨prompt, .prompted⟩
        log := s.log ++ [.write (some i) prompt] }
  | reads {i prompt} (hi : s.threads[i]? = some ⟨prompt, .prompted⟩) :
      Turn c s { s with
        stdin := s.stdin.drop (upto 127 s.stdin).length
        threads := s.threads.set i ⟨prompt, .answered (response c i (upto 127 s.stdin))⟩
        log := s.log ++ [.read i (upto 127 s.stdin)] }
  | unlocksOutput {i prompt string} (hi : s.threads[i]? = some ⟨prompt, .answered string⟩) :
      Turn c s { s with outputOwner := none, threads := s.threads.set i ⟨prompt, .released string⟩ }
  | unlocksInput {i prompt string} (hi : s.threads[i]? = some ⟨prompt, .released string⟩) :
      Turn c s { s with inputOwner := none, threads := s.threads.set i ⟨prompt, .leaving string⟩ }
  | returns {i prompt string} (hi : s.threads[i]? = some ⟨prompt, .leaving string⟩) (ho : s.outputOwner = none) :
      Turn c s { s with
        threads := s.threads.set i ⟨prompt, .returned string⟩
        log := s.log ++ [.write (some i) (returningText prompt)] }

/-- The lines are the pieces of the input, each thread has read one of them at most, and those that have come
so far have their string. -/
structure Reads (c : Config) (stdin rest : List Char) (threads : List Thread) (log : List Event) : Prop where
  lines : (turns log).map Prod.snd = pieces (turns log).length stdin
  rest : rest = after (turns log).length stdin
  once : ((turns log).map Prod.fst).Nodup
  within : ∀ p ∈ turns log, p.1 < threads.length
  prompts : threads.map Thread.prompt = c.prompts
  strings : ∀ i t, threads[i]? = some t → t.string? = ((turns log).lookup i).map (response c i)

/-- A prompt without its response is the last entry of the log. -/
structure Talks (c : Config) (threads : List Thread) (log : List Event) : Prop where
  closed : (∀ t ∈ threads, t.place ≠ .prompted) → Undisturbed c log
  opened : ∀ i prompt, threads[i]? = some ⟨prompt, .prompted⟩ →
    ∃ earlier, Undisturbed c earlier ∧ log = earlier ++ [.write (some i) prompt]

/-- `main` has printed what the threads that it has joined have returned. -/
structure Joins (c : Config) (threads : List Thread) (main : Main) (log : List Event) : Prop where
  printed : ∃ done : List (Nat × List Char), done.map Prod.fst ++ main.unjoined c = c.joins ∧
    (∀ p ∈ done, joined threads p.1 = some p.2) ∧
    mainTexts log = done.flatMap (fun p => [waitingText p.1, threadText p.1 (str p.2)]) ++ main.announced
  printing : ∀ i string joins, main = .printing i string joins → joined threads i = some string

/-- The threads from `count` on have not been created. -/
def Starts (threads : List Thread) (main : Main) : Prop :=
  ∀ i t, threads[i]? = some t → (t.place = .absent ↔ ∃ count, main = .creating count ∧ count ≤ i)

structure Inv (c : Config) (stdin : List Char) (s : State) : Prop where
  input : Owned Thread.holdsInput s.inputOwner s.threads
  output : Owned Thread.holdsOutput s.outputOwner s.threads
  reads : Reads c stdin s.stdin s.threads s.log
  talks : Talks c s.threads s.log
  joins : Joins c s.threads s.main s.log
  starts : Starts s.threads s.main

section Parts

variable {c : Config} {stdin rest : List Char} {threads : List Thread} {log : List Event} {main : Main} {i : Nat}
  {old new : Thread} {prompt line : List Char}

theorem pieces_succ (n : Nat) (stdin : List Char) :
    pieces (n + 1) stdin = pieces n stdin ++ [upto 127 (after n stdin)] := by
  induction n generalizing stdin with
  | zero => rfl
  | succ n ih => exact congrArg (upto 127 stdin :: ·) (ih _)

theorem after_succ (n : Nat) (stdin : List Char) :
    after (n + 1) stdin = (after n stdin).drop (upto 127 (after n stdin)).length := by
  induction n generalizing stdin with
  | zero => rfl
  | succ n ih => exact ih _

/-- The string of a thread reads as the answer, whatever was in it before. -/
theorem str_response (c : Config) (i : Nat) (line : List Char) : str (response c i line) = answer line := by
  rw [response]
  split_ifs with hline
  · have hfresh := c.fresh_length i
    cases hf : c.fresh i with
    | nil =>
      rw [hf] at hfresh
      cases hfresh
    | cons ch cs =>
      subst hline
      exact if_pos rfl
  · rw [str_chomp, str_fill]
    rfl

theorem turns_write (log : List Event) (author : Option Nat) (text : List Char) :
    turns (log ++ [.write author text]) = turns log := by
  rw [turns, List.filterMap_append]
  exact List.append_nil _

theorem turns_read (log : List Event) (i : Nat) (line : List Char) :
    turns (log ++ [.read i line]) = turns log ++ [(i, line)] := List.filterMap_append

theorem mainTexts_main (log : List Event) (text : List Char) :
    mainTexts (log ++ [.write none text]) = mainTexts log ++ [text] := List.filterMap_append

theorem mainTexts_write (log : List Event) (i : Nat) (text : List Char) :
    mainTexts (log ++ [.write (some i) text]) = mainTexts log := by
  rw [mainTexts, List.filterMap_append]
  exact List.append_nil _

theorem mainTexts_read (log : List Event) (i : Nat) (line : List Char) :
    mainTexts (log ++ [.read i line]) = mainTexts log := by
  rw [mainTexts, List.filterMap_append]
  exact List.append_nil _

theorem undisturbed_snoc {block : List Event} (h : Undisturbed c log) (hb : Block c block) :
    Undisturbed c (log ++ block) := by
  obtain ⟨blocks, rfl, hblocks⟩ := h
  refine ⟨blocks ++ [block], by simp, ?_⟩
  intro b hmem
  obtain hmem | hmem := List.mem_append.mp hmem
  · exact hblocks b hmem
  · rw [List.mem_singleton.mp hmem]
    exact hb

/-- A step in which nothing is read. -/
theorem reads_set {log' : List Event} (h : Reads c stdin rest threads log) (hi : threads[i]? = some old)
    (hprompt : new.prompt = old.prompt) (hstring : new.string? = old.string?) (hlog : turns log' = turns log) :
    Reads c stdin rest (threads.set i new) log' := by
  constructor
  case lines =>
    rw [hlog]
    exact h.lines
  case rest =>
    rw [hlog]
    exact h.rest
  case once =>
    rw [hlog]
    exact h.once
  case within =>
    rw [hlog, List.length_set]
    exact h.within
  case prompts =>
    rw [List.map_set, hprompt]
    apply Eq.trans _ h.prompts
    have hget : (threads.map Thread.prompt)[i]? = some old.prompt := by
      rw [List.getElem?_map, hi, Option.map_some]
    obtain ⟨hlt, heq⟩ := List.getElem?_eq_some_iff.mp hget
    rw [← heq]
    exact List.set_getElem_self hlt
  case strings =>
    intro j u hj
    rw [hlog]
    obtain ⟨rfl, rfl⟩ | ⟨-, hj⟩ := getElem?_set_cases hj
    · rw [hstring]
      exact h.strings j old hi
    · exact h.strings j u hj

theorem reads_log {log' : List Event} (h : Reads c stdin rest threads log) (hlog : turns log' = turns log) :
    Reads c stdin rest threads log' := by
  constructor
  case prompts => exact h.prompts
  all_goals rw [hlog]
  case lines => exact h.lines
  case rest => exact h.rest
  case once => exact h.once
  case within => exact h.within
  case strings => exact h.strings

theorem reads_line (h : Reads c stdin rest threads log) (hi : threads[i]? = some ⟨prompt, .prompted⟩) :
    Reads c stdin (rest.drop (upto 127 rest).length)
      (threads.set i ⟨prompt, .answered (response c i (upto 127 rest))⟩) (log ++ [.read i (upto 127 rest)]) := by
  have hnew : (turns log).lookup i = none := Option.map_eq_none_iff.mp (h.strings i _ hi).symm
  have hprompts := h.prompts
  constructor
  case lines =>
    rw [turns_read, List.map_append, List.length_append, h.lines, List.length_singleton, pieces_succ, ← h.rest]
    rfl
  case rest =>
    rw [turns_read, List.length_append, List.length_singleton, after_succ, ← h.rest]
  case once =>
    rw [turns_read, List.map_append]
    apply List.nodup_append.mpr
    refine ⟨h.once, List.pairwise_singleton _ i, ?_⟩
    intro j hj k hk heq
    rw [List.mem_singleton.mp hk] at heq
    obtain ⟨p, hp, rfl⟩ := List.mem_map.mp hj
    have hne := List.lookup_eq_none_iff.mp hnew p hp
    rw [heq] at hne
    exact absurd hne (by simp)
  case within =>
    intro p hp
    rw [List.length_set]
    rw [turns_read] at hp
    obtain hp | hp := List.mem_append.mp hp
    · exact h.within p hp
    · rw [List.mem_singleton.mp hp]
      exact (List.getElem?_eq_some_iff.mp hi).1
  case prompts =>
    rw [← hprompts, List.map_set]
    have hget : (threads.map Thread.prompt)[i]? = some prompt := by
      rw [List.getElem?_map, hi, Option.map_some]
    obtain ⟨hlt, heq⟩ := List.getElem?_eq_some_iff.mp hget
    simp only [← heq]
    exact List.set_getElem_self hlt
  case strings =>
    intro j u hj
    rw [turns_read, List.lookup_append]
    obtain ⟨rfl, rfl⟩ | ⟨hne, hj⟩ := getElem?_set_cases hj
    · rw [hnew, Option.none_or, List.lookup_cons_self]
      rfl
    · have hother : [(i, upto 127 rest)].lookup j = none := List.lookup_eq_none_iff.mpr (by simpa using hne)
      rw [h.strings j u hj, hother, Option.or_none]

/-- A step of a thread to another place than that behind its prompt, in which it prints nothing. -/
theorem talks_set (h : Talks c threads log) (hi : threads[i]? = some old) (hold : old.place ≠ .prompted)
    (hnew : new.place ≠ .prompted) : Talks c (threads.set i new) log := by
  constructor
  case closed =>
    intro hquiet
    apply h.closed
    intro u hu
    obtain ⟨j, hj⟩ := List.getElem?_of_mem hu
    by_cases hij : j = i
    · subst hij
      rw [hi] at hj
      cases hj
      exact hold
    · apply hquiet
      apply List.mem_of_getElem? (i := j)
      rw [List.getElem?_set_ne (Ne.symm hij)]
      exact hj
  case opened =>
    intro j prompt hj
    obtain ⟨-, rfl⟩ | ⟨-, hj⟩ := getElem?_set_cases hj
    · exact absurd rfl hnew
    · exact h.opened j prompt hj

/-- While the lock is free, nobody is between a prompt and its response. -/
theorem not_prompted (h : Owned Thread.holdsOutput none threads) {u : Thread} (hu : u ∈ threads) :
    u.place ≠ .prompted := by
  obtain ⟨j, hj⟩ := List.getElem?_of_mem hu
  have hfree := h.free hj
  intro hp
  rw [Thread.holdsOutput, hp] at hfree
  cases hfree

theorem talks_closed (hlog : Undisturbed c log) (h : ∀ u ∈ threads, u.place ≠ .prompted) : Talks c threads log := by
  constructor
  case closed => exact fun _ => hlog
  case opened =>
    intro j prompt hj
    exact absurd rfl (h _ (List.mem_of_getElem? hj))

theorem mem_set_cases {P : Thread → Prop} (h : ∀ u ∈ threads, P u) (hnew : P new) : ∀ u ∈ threads.set i new, P u := by
  intro u hu
  obtain hu | rfl := List.mem_or_eq_of_mem_set hu
  · exact h u hu
  · exact hnew

theorem joined_set {j : Nat} {string : List Char} (hi : threads[i]? = some old)
    (hold : ∀ string, old.place ≠ .returned string) (h : joined threads j = some string) :
    joined (threads.set i new) j = some string := by
  have hij : i ≠ j := by
    rintro rfl
    obtain ⟨prompt, place⟩ := old
    cases place with
    | returned string => exact hold string rfl
    | absent | begun | input | locked | prompted | answered | released | leaving =>
      rw [joined, hi] at h
      cases h
  rw [joined, List.getElem?_set_ne hij]
  exact h

/-- A step of a thread does not concern what `main` has printed. -/
theorem joins_set {log' : List Event} (h : Joins c threads main log) (hi : threads[i]? = some old)
    (hold : ∀ string, old.place ≠ .returned string) (hlog : mainTexts log' = mainTexts log) :
    Joins c (threads.set i new) main log' := by
  obtain ⟨done, hdone, hjoined, htexts⟩ := h.printed
  constructor
  case printed =>
    refine ⟨done, hdone, ?_, hlog.trans htexts⟩
    intro p hp
    exact joined_set hi hold (hjoined p hp)
  case printing =>
    intro j string joins hm
    exact joined_set hi hold (h.printing j string joins hm)

theorem starts_set (h : Starts threads main) (hi : threads[i]? = some old) (hold : old.place ≠ .absent)
    (hnew : new.place ≠ .absent) : Starts (threads.set i new) main := by
  intro j u hj
  obtain ⟨rfl, rfl⟩ | ⟨-, hj⟩ := getElem?_set_cases hj
  · exact iff_of_false hnew fun hm => hold ((h j old hi).mpr hm)
  · exact h j u hj

theorem joins_main (main' : Main) (h : Joins c threads main log) (hu : main'.unjoined c = main.unjoined c)
    (ha : main'.announced = main.announced)
    (hp : ∀ i string joins, main' = .printing i string joins → joined threads i = some string) :
    Joins c threads main' log := by
  obtain ⟨done, hdone, hjoined, htexts⟩ := h.printed
  constructor
  case printed =>
    refine ⟨done, ?_, hjoined, ?_⟩
    · rw [hu]
      exact hdone
    · rw [ha]
      exact htexts
  case printing => exact hp

theorem joins_wait {joins : List Nat} (h : Joins c threads (.waiting (i :: joins)) log) :
    Joins c threads (.joining i joins) (log ++ [.write none (waitingText i)]) := by
  obtain ⟨done, hdone, hjoined, htexts⟩ := h.printed
  constructor
  case printed =>
    refine ⟨done, hdone, hjoined, ?_⟩
    rw [mainTexts_main, htexts, Main.announced, List.append_nil]
    rfl
  case printing =>
    intro j string joins' hm
    cases hm

theorem joins_print {string : List Char} {joins : List Nat} (h : Joins c threads (.printing i string joins) log) :
    Joins c threads (.waiting joins) (log ++ [.write none (threadText i (str string))]) := by
  obtain ⟨done, hdone, hjoined, htexts⟩ := h.printed
  constructor
  case printed =>
    refine ⟨done ++ [(i, string)], ?_, ?_, ?_⟩
    · rw [List.map_append, List.append_assoc]
      exact hdone
    · intro p hp
      obtain hp | hp := List.mem_append.mp hp
      · exact hjoined p hp
      · rw [List.mem_singleton.mp hp]
        exact h.printing i string joins rfl
    · rw [mainTexts_main, htexts, List.flatMap_append, List.append_assoc]
      exact (List.append_nil _).symm
  case printing =>
    intro j string joins' hm
    cases hm

theorem starts_main {main' : Main} (h : Starts threads main) (hm : ∀ count, main ≠ .creating count)
    (hm' : ∀ count, main' ≠ .creating count) : Starts threads main' := by
  intro j u hj
  apply (h j u hj).trans
  exact iff_of_false (fun ⟨count, hcount, _⟩ => hm count hcount) fun ⟨count, hcount, _⟩ => hm' count hcount

end Parts

section Steps

variable {c : Config} {stdin : List Char} {s t : State} {a : Action} {i : Nat}

theorem turn_of_mainStep (hs : mainStep c s = some t) : Turn c s t := by
  cases hm : s.main with
  | creating count =>
    simp only [mainStep, hm] at hs
    cases hi : s.threads[count]? with
    | none =>
      rw [hi] at hs
      cases hs
      exact .created hm hi
    | some u =>
      rw [hi] at hs
      cases hs
      exact .creates hm hi
  | waiting joins =>
    simp only [mainStep, hm] at hs
    cases joins with
    | nil => cases hs
    | cons i joins =>
      obtain ⟨ho, hs⟩ := Option.ite_none_right_eq_some.mp hs
      cases hs
      exact .waits hm ho
  | joining i joins =>
    simp only [mainStep, hm] at hs
    obtain ⟨string, hj, hs⟩ := Option.map_eq_some_iff.mp hs
    cases hs
    exact .joins hm hj
  | printing i string joins =>
    simp only [mainStep, hm] at hs
    obtain ⟨ho, hs⟩ := Option.ite_none_right_eq_some.mp hs
    cases hs
    exact .prints hm ho

theorem turn_of_step (hs : step c s a = some t) : Turn c s t := by
  cases a with
  | main => exact turn_of_mainStep hs
  | thread i =>
    obtain ⟨⟨prompt, place⟩, hi, hs⟩ := Option.bind_eq_some_iff.mp hs
    cases place with
    | absent | returned => cases hs
    | begun =>
      obtain ⟨ho, hs⟩ := Option.ite_none_right_eq_some.mp hs
      cases hs
      exact .locksInput hi ho
    | input =>
      obtain ⟨ho, hs⟩ := Option.ite_none_right_eq_some.mp hs
      cases hs
      exact .locksOutput hi ho
    | locked =>
      cases hs
      exact .prompts hi
    | prompted =>
      cases hs
      exact .reads hi
    | answered string =>
      cases hs
      exact .unlocksOutput hi
    | released string =>
      cases hs
      exact .unlocksInput hi
    | leaving string =>
      obtain ⟨ho, hs⟩ := Option.ite_none_right_eq_some.mp hs
      cases hs
      exact .returns hi ho

theorem inv_init (c : Config) (stdin : List Char) : Inv c stdin (init c stdin) := by
  have hthread : ∀ t ∈ (init c stdin).threads, t.place = .absent := by
    intro t ht
    obtain ⟨prompt, -, rfl⟩ := List.mem_map.mp ht
    rfl
  constructor
  case input =>
    apply owned_none
    intro t ht
    rw [Thread.holdsInput, hthread t ht]
  case output =>
    apply owned_none
    intro t ht
    rw [Thread.holdsOutput, hthread t ht]
  case reads =>
    constructor
    · rfl
    · rfl
    · exact List.nodup_nil
    · exact fun p hp => absurd hp List.not_mem_nil
    · exact List.map_map.trans (List.map_id _)
    · intro i t hi
      rw [Thread.string?, hthread t (List.mem_of_getElem? hi)]
      rfl
  case talks =>
    apply talks_closed
    · exact ⟨[], rfl, fun b hb => absurd hb List.not_mem_nil⟩
    · intro t ht hp
      rw [hthread t ht] at hp
      cases hp
  case joins =>
    constructor
    · exact ⟨[], rfl, fun p hp => absurd hp List.not_mem_nil, rfl⟩
    · intro i string joins hm
      cases hm
  case starts =>
    intro i t hi
    exact iff_of_true (hthread t (List.mem_of_getElem? hi)) ⟨0, rfl, Nat.zero_le i⟩

/-- While nobody has the lock of `stdout`, the log can be gone on with. -/
theorem talks_snoc {threads : List Thread} {block : List Event} (h : Inv c stdin s) (ho : s.outputOwner = none)
    (hb : Block c block) (hthreads : ∀ u ∈ threads, u.place ≠ .prompted) : Talks c threads (s.log ++ block) := by
  have hfree := h.output
  rw [ho] at hfree
  apply talks_closed _ hthreads
  apply undisturbed_snoc _ hb
  apply h.talks.closed
  intro u hu
  exact not_prompted hfree hu

theorem prompt_at {prompt : List Char} {place : Place} (h : Inv c stdin s)
    (hi : s.threads[i]? = some ⟨prompt, place⟩) : c.prompts[i]? = some prompt := by
  rw [← h.reads.prompts, List.getElem?_map, hi, Option.map_some]

/-- Behind the owner of the lock nobody is between a prompt and its response. -/
theorem others_not_prompted {u : Thread} {j : Nat} (h : Inv c stdin s) {old : Thread} (hi : s.threads[i]? = some old)
    (hold : old.holdsOutput = true) (hj : s.threads[j]? = some u) (hne : j ≠ i) : u.place ≠ .prompted := by
  intro hp
  have hu : u.holdsOutput = true := by
    rw [Thread.holdsOutput, hp]
  have hown := h.output.owner_eq hj hu
  rw [h.output.owner_eq hi hold] at hown
  cases hown
  exact hne rfl

theorem talks_prompt {prompt : List Char} (h : Inv c stdin s) (hi : s.threads[i]? = some ⟨prompt, .locked⟩) :
    Talks c (s.threads.set i ⟨prompt, .prompted⟩) (s.log ++ [.write (some i) prompt]) := by
  have hlog : Undisturbed c s.log := by
    apply h.talks.closed
    intro u hu
    obtain ⟨j, hj⟩ := List.getElem?_of_mem hu
    by_cases hij : j = i
    · subst hij
      rw [hi] at hj
      cases hj
      exact Place.noConfusion
    · exact others_not_prompted h hi rfl hj hij
  constructor
  case closed =>
    intro hquiet
    have hself := List.getElem?_set_self (a := (⟨prompt, .prompted⟩ : Thread)) (List.getElem?_eq_some_iff.mp hi).1
    exact absurd rfl (hquiet _ (List.mem_of_getElem? hself))
  case opened =>
    intro j prompt' hj
    obtain ⟨rfl, hu⟩ | ⟨hne, hj⟩ := getElem?_set_cases hj
    · cases hu
      exact ⟨s.log, hlog, rfl⟩
    · exact absurd rfl (others_not_prompted h hi rfl hj hne)

theorem talks_response {prompt line string : List Char} (h : Inv c stdin s)
    (hi : s.threads[i]? = some ⟨prompt, .prompted⟩) :
    Talks c (s.threads.set i ⟨prompt, .answered string⟩) (s.log ++ [.read i line]) := by
  obtain ⟨earlier, hearlier, hlog⟩ := h.talks.opened i prompt hi
  apply talks_closed
  · rw [hlog, List.append_assoc]
    exact undisturbed_snoc hearlier (.dialogue i prompt line (prompt_at h hi))
  · intro u hu
    obtain ⟨j, hj⟩ := List.getElem?_of_mem hu
    obtain ⟨-, rfl⟩ | ⟨hne, hj⟩ := getElem?_set_cases hj
    · exact Place.noConfusion
    · exact others_not_prompted h hi rfl hj hne

theorem inv_turn (h : Inv c stdin s) (ht : Turn c s t) : Inv c stdin t := by
  cases ht with
  | @creates count u hm hi =>
    obtain ⟨prompt, place⟩ := u
    have hplace : place = .absent := (h.starts count _ hi).mpr ⟨count, hm, Nat.le_refl count⟩
    subst hplace
    constructor
    case input => exact h.input.keep hi rfl
    case output => exact h.output.keep hi rfl
    case reads => exact reads_set h.reads hi rfl rfl rfl
    case talks => exact talks_set h.talks hi Place.noConfusion Place.noConfusion
    case joins =>
      have hjoins : Joins c (s.threads.set count ⟨prompt, .begun⟩) s.main s.log :=
        joins_set h.joins hi (fun _ => Place.noConfusion) rfl
      rw [hm] at hjoins
      apply joins_main (.creating (count + 1)) hjoins rfl rfl
      intro j string joins hmain
      cases hmain
    case starts =>
      intro j v hj
      obtain ⟨rfl, rfl⟩ | ⟨hne, hj⟩ := getElem?_set_cases hj
      · refine iff_of_false Place.noConfusion ?_
        rintro ⟨count', hcount, hle⟩
        cases hcount
        omega
      · rw [h.starts j v hj, hm]
        constructor
        · rintro ⟨count', hcount, hle⟩
          cases hcount
          exact ⟨count + 1, rfl, by omega⟩
        · rintro ⟨count', hcount, hle⟩
          cases hcount
          exact ⟨count, rfl, by omega⟩
  | @created count hm hi =>
    constructor
    case input => exact h.input
    case output => exact h.output
    case reads => exact h.reads
    case talks => exact h.talks
    case joins =>
      have hjoins := h.joins
      rw [hm] at hjoins
      apply joins_main (.waiting c.joins) hjoins rfl rfl
      intro j string joins hmain
      cases hmain
    case starts =>
      intro j v hj
      rw [h.starts j v hj, hm]
      constructor
      · rintro ⟨count', hcount, hle⟩
        cases hcount
        have hlen := List.getElem?_eq_none_iff.mp hi
        have hlt : j < s.threads.length := (List.getElem?_eq_some_iff.mp hj).1
        omega
      · rintro ⟨count', hcount, -⟩
        cases hcount
  | @waits i joins hm ho =>
    have hfree := h.output
    rw [ho] at hfree
    constructor
    case input => exact h.input
    case output => exact h.output
    case reads => exact reads_log h.reads (turns_write _ _ _)
    case talks => exact talks_snoc h ho (.main _) fun u hu => not_prompted hfree hu
    case joins =>
      have hjoins := h.joins
      rw [hm] at hjoins
      exact joins_wait hjoins
    case starts =>
      apply starts_main h.starts
      · rw [hm]
        exact fun _ => Main.noConfusion
      · exact fun _ => Main.noConfusion
  | @joins i joins string hm hj =>
    constructor
    case input => exact h.input
    case output => exact h.output
    case reads => exact h.reads
    case talks => exact h.talks
    case joins =>
      have hjoins := h.joins
      rw [hm] at hjoins
      apply joins_main (.printing i string joins) hjoins rfl rfl
      intro j string' joins' hmain
      cases hmain
      exact hj
    case starts =>
      apply starts_main h.starts
      · rw [hm]
        exact fun _ => Main.noConfusion
      · exact fun _ => Main.noConfusion
  | @prints i string joins hm ho =>
    have hfree := h.output
    rw [ho] at hfree
    constructor
    case input => exact h.input
    case output => exact h.output
    case reads => exact reads_log h.reads (turns_write _ _ _)
    case talks => exact talks_snoc h ho (.main _) fun u hu => not_prompted hfree hu
    case joins =>
      have hjoins := h.joins
      rw [hm] at hjoins
      exact joins_print hjoins
    case starts =>
      apply starts_main h.starts
      · rw [hm]
        exact fun _ => Main.noConfusion
      · exact fun _ => Main.noConfusion
  | @locksInput i prompt hi ho =>
    have hfree := h.input
    rw [ho] at hfree
    constructor
    case input => exact hfree.take hi rfl
    case output => exact h.output.keep hi rfl
    case reads => exact reads_set h.reads hi rfl rfl rfl
    case talks => exact talks_set h.talks hi Place.noConfusion Place.noConfusion
    case joins => exact joins_set h.joins hi (fun _ => Place.noConfusion) rfl
    case starts => exact starts_set h.starts hi Place.noConfusion Place.noConfusion
  | @locksOutput i prompt hi ho =>
    have hfree := h.output
    rw [ho] at hfree
    constructor
    case input => exact h.input.keep hi rfl
    case output => exact hfree.take hi rfl
    case reads => exact reads_set h.reads hi rfl rfl rfl
    case talks => exact talks_set h.talks hi Place.noConfusion Place.noConfusion
    case joins => exact joins_set h.joins hi (fun _ => Place.noConfusion) rfl
    case starts => exact starts_set h.starts hi Place.noConfusion Place.noConfusion
  | @prompts i prompt hi =>
    constructor
    case input => exact h.input.keep hi rfl
    case output => exact h.output.keep hi rfl
    case reads => exact reads_set h.reads hi rfl rfl (turns_write _ _ _)
    case talks => exact talks_prompt h hi
    case joins => exact joins_set h.joins hi (fun _ => Place.noConfusion) (mainTexts_write _ _ _)
    case starts => exact starts_set h.starts hi Place.noConfusion Place.noConfusion
  | @reads i prompt hi =>
    constructor
    case input => exact h.input.keep hi rfl
    case output => exact h.output.keep hi rfl
    case reads => exact reads_line h.reads hi
    case talks => exact talks_response h hi
    case joins => exact joins_set h.joins hi (fun _ => Place.noConfusion) (mainTexts_read _ _ _)
    case starts => exact starts_set h.starts hi Place.noConfusion Place.noConfusion
  | @unlocksOutput i prompt string hi =>
    constructor
    case input => exact h.input.keep hi rfl
    case output => exact h.output.give hi rfl rfl
    case reads => exact reads_set h.reads hi rfl rfl rfl
    case talks => exact talks_set h.talks hi Place.noConfusion Place.noConfusion
    case joins => exact joins_set h.joins hi (fun _ => Place.noConfusion) rfl
    case starts => exact starts_set h.starts hi Place.noConfusion Place.noConfusion
  | @unlocksInput i prompt string hi =>
    constructor
    case input => exact h.input.give hi rfl rfl
    case output => exact h.output.keep hi rfl
    case reads => exact reads_set h.reads hi rfl rfl rfl
    case talks => exact talks_set h.talks hi Place.noConfusion Place.noConfusion
    case joins => exact joins_set h.joins hi (fun _ => Place.noConfusion) rfl
    case starts => exact starts_set h.starts hi Place.noConfusion Place.noConfusion
  | @returns i prompt string hi ho =>
    have hfree := h.output
    rw [ho] at hfree
    constructor
    case input => exact h.input.keep hi rfl
    case output => exact h.output.keep hi rfl
    case reads => exact reads_set h.reads hi rfl rfl (turns_write _ _ _)
    case talks =>
      apply talks_snoc h ho (.returning i prompt (prompt_at h hi))
      exact mem_set_cases (fun u hu => not_prompted hfree hu) Place.noConfusion
    case joins => exact joins_set h.joins hi (fun _ => Place.noConfusion) (mainTexts_write _ _ _)
    case starts => exact starts_set h.starts hi Place.noConfusion Place.noConfusion

theorem rest_set {old new : Thread} (hi : s.threads[i]? = some old) (hlt : new.place.rank < old.place.rank) :
    ((s.threads.set i new).map (fun t => t.place.rank)).sum < (s.threads.map (fun t => t.place.rank)).sum := by
  have hsum := sum_map_set (fun t => t.place.rank) hi new
  omega

theorem rest_turn (h : Inv c stdin s) (ht : Turn c s t) : t.rest < s.rest := by
  cases ht with
  | @creates count u hm hi =>
    obtain ⟨prompt, place⟩ := u
    have hplace : place = .absent := (h.starts count _ hi).mpr ⟨count, hm, Nat.le_refl count⟩
    subst hplace
    have hsum := sum_map_set (fun t : Thread => t.place.rank) hi ⟨prompt, .begun⟩
    have hlt := (List.getElem?_eq_some_iff.mp hi).1
    simp only [State.rest, hm, Main.rank, List.length_set, Place.rank] at hsum ⊢
    omega
  | @created count hm hi =>
    have hperm := c.joins_perm.length_eq
    have hthreads := congrArg List.length h.reads.prompts
    rw [List.length_range] at hperm
    rw [List.length_map] at hthreads
    simp only [State.rest, hm, Main.rank]
    omega
  | @waits i joins hm ho =>
    simp only [State.rest, hm, Main.rank, List.length_cons]
    omega
  | @joins i joins string hm hj =>
    simp only [State.rest, hm, Main.rank]
    omega
  | @prints i string joins hm ho =>
    simp only [State.rest, hm, Main.rank]
    omega
  | locksInput hi ho | locksOutput hi ho | prompts hi | reads hi | unlocksOutput hi | unlocksInput hi
  | returns hi ho =>
    simp only [State.rest, List.length_set]
    apply Nat.add_lt_add_right
    apply rest_set hi
    simp only [Place.rank]
    omega

theorem rest_init (c : Config) (stdin : List Char) : (init c stdin).rest = 11 * c.prompts.length + 1 := by
  have hsum : (c.prompts.map (fun _ => 7)).sum = c.prompts.length * 7 := by simp
  simp only [State.rest, init, List.map_map, List.length_map, Main.rank]
  have hmap : c.prompts.map ((fun t : Thread => t.place.rank) ∘ fun prompt => ⟨prompt, .absent⟩) =
      c.prompts.map (fun _ => 7) := rfl
  rw [hmap, hsum]
  omega

theorem thread_stuck {u : Thread} (hstuck : Stuck (step c) (fun _ => true) s) (hi : s.threads[i]? = some u) :
    promptRoutine c s i u = none := by
  have hnone := hstuck (.thread i) rfl
  rwa [step, hi, Option.bind_some] at hnone

/-- A thread that waits for `stdin` or `stdout` waits for one that can go on. -/
theorem locks_free (h : Inv c stdin s) (hstuck : Stuck (step c) (fun _ => true) s) :
    s.inputOwner = none ∧ s.outputOwner = none := by
  have houtput : s.outputOwner = none := by
    rw [Option.eq_none_iff_forall_ne_some]
    intro i ho
    have hown := h.output
    rw [ho] at hown
    obtain ⟨⟨prompt, place⟩, hi, hholds⟩ := hown.entry
    have hnone := thread_stuck hstuck hi
    cases place with
    | locked | prompted | answered => cases hnone
    | absent | begun | input | released | leaving | returned => cases hholds
  refine ⟨?_, houtput⟩
  rw [Option.eq_none_iff_forall_ne_some]
  intro i ho
  have hown := h.input
  rw [ho] at hown
  obtain ⟨⟨prompt, place⟩, hi, hholds⟩ := hown.entry
  have hnone := thread_stuck hstuck hi
  cases place with
  | input =>
    rw [promptRoutine, if_pos houtput] at hnone
    cases hnone
  | locked | prompted | answered | released => cases hnone
  | absent | begun | leaving | returned => cases hholds

theorem returned_of_stuck {u : Thread} (h : Inv c stdin s) (hstuck : Stuck (step c) (fun _ => true) s)
    (hi : s.threads[i]? = some u) : u.place = .absent ∨ ∃ string, u.place = .returned string := by
  obtain ⟨hinput, houtput⟩ := locks_free h hstuck
  have hnone := thread_stuck hstuck hi
  obtain ⟨prompt, place⟩ := u
  cases place with
  | absent => exact .inl rfl
  | returned string => exact .inr ⟨string, rfl⟩
  | begun =>
    rw [promptRoutine, if_pos hinput] at hnone
    cases hnone
  | input | leaving =>
    simp only [promptRoutine, if_pos houtput] at hnone
    cases hnone
  | locked | prompted | answered | released => cases hnone

theorem ended_of_stuck (h : Inv c stdin s) (hstuck : Stuck (step c) (fun _ => true) s) : Ended s := by
  obtain ⟨-, houtput⟩ := locks_free h hstuck
  have hnone : mainStep c s = none := hstuck .main rfl
  have hmain : s.main = .waiting [] := by
    cases hm : s.main with
    | creating count =>
      simp only [mainStep, hm] at hnone
      cases hi : s.threads[count]? with
      | none =>
        rw [hi] at hnone
        cases hnone
      | some u =>
        rw [hi] at hnone
        cases hnone
    | waiting joins =>
      cases joins with
      | nil => rfl
      | cons i joins =>
        simp only [mainStep, hm, if_pos houtput] at hnone
        cases hnone
    | joining i joins =>
      -- The thread that is joined has been created, and so it has returned.
      obtain ⟨done, hdone, -⟩ := h.joins.printed
      have hmem : i ∈ c.joins := by
        rw [← hdone, hm]
        exact List.mem_append_right _ List.mem_cons_self
      have hlt : i < s.threads.length := by
        have hlen := congrArg List.length h.reads.prompts
        rw [List.length_map] at hlen
        rw [hlen]
        exact List.mem_range.mp (c.joins_perm.subset hmem)
      have hi := List.getElem?_eq_getElem hlt
      obtain habsent | ⟨string, hreturned⟩ := returned_of_stuck h hstuck hi
      · obtain ⟨count, hcount, -⟩ := (h.starts i _ hi).mp habsent
        rw [hm] at hcount
        cases hcount
      · generalize s.threads[i] = u at hi hreturned
        obtain ⟨prompt, place⟩ := u
        cases hreturned
        simp only [mainStep, hm, joined, hi, Option.map_some] at hnone
        cases hnone
    | printing i string joins =>
      simp only [mainStep, hm, if_pos houtput] at hnone
      cases hnone
  constructor
  case main => exact hmain
  case threads =>
    intro u hu
    obtain ⟨i, hi⟩ := List.getElem?_of_mem hu
    obtain habsent | hreturned := returned_of_stuck h hstuck hi
    · obtain ⟨count, hcount, -⟩ := (h.starts i u hi).mp habsent
      rw [hmain] at hcount
      cases hcount
    · exact hreturned

end Steps

end C11AndC.Flock
