import C11AndC.Library.Progress
import C11AndC.PipeStream.Model

namespace C11AndC.PipeStream

open C11AndC.Library

def copies (c : Config) (k : Nat) : List Char := (List.replicate k (copy c)).flatten

/-- All that `writer` is called for. -/
def text (c : Config) : List Char := copies c c.count.toNat

/-- What `writer` still has to put into the pipe. -/
def Writer.left (c : Config) : Writer → List Char
  | .testing count => copies c count.toNat
  | .flushing count text => text ++ copies c (count - 1).toNat
  | .sleeping count => copies c (count - 1).toNat
  | .returned => []

/-- Every character is in one of the places on its way, in its order. -/
def State.whole (c : Config) (s : State) : List Char :=
  s.out ++ (s.line ++ (s.stream ++ (s.pipe ++ s.writer.left c)))

structure Inv (c : Config) (s : State) : Prop where
  whole : s.whole c = text c
  pending : ∀ count text, s.writer = .flushing count text → text ≠ []
  ended : s.reader = .returned → s.writer = .returned ∧ s.pipe = [] ∧ s.stream = [] ∧ s.line = []

/-- The steps of the parent beside the pieces that it writes. -/
def Writer.steps : Writer → Nat
  | .testing count => 3 * count.toNat + 1
  | .flushing count _ => 3 * (count - 1).toNat + 3
  | .sleeping count => 3 * (count - 1).toNat + 2
  | .returned => 0

def Reader.steps : Reader → Nat
  | .starting => 2
  | .reading => 1
  | .returned => 0

/-- A bound of the steps to come: each character takes at most one from a place to the next. -/
def State.rest (c : Config) (s : State) : Nat :=
  4 * (s.writer.left c).length + 3 * s.pipe.length + 2 * s.stream.length + s.line.length +
    s.writer.steps + s.reader.steps

def Stuck (c : Config) (s : State) : Prop := ∀ a, step c s a = none

variable {c : Config} {s t : State}

section Texts

theorem copies_toNat {count : Int} (h : 0 < count) :
    copies c count.toNat = copy c ++ copies c (count - 1).toNat := by
  have hn : count.toNat = (count - 1).toNat + 1 := by omega
  rw [hn, copies, List.replicate_succ, List.flatten_cons, copies]

theorem copy_ne_nil : copy c ≠ [] := List.append_ne_nil_of_right_ne_nil _ (List.cons_ne_nil _ _)

theorem nul_not_mem_text : nul ∉ text c := by
  intro h
  obtain ⟨l, hl, hn⟩ := List.mem_flatten.mp h
  rw [List.eq_of_mem_replicate hl, copy, List.mem_append] at hn
  obtain hn | hn := hn
  · exact nul_not_mem_str _ hn
  · exact absurd (List.mem_singleton.mp hn) (by decide)

/-- `fputs` prints all of what `fgets` has stored. -/
theorem str_line (h : s.whole c = text c) : str s.line = s.line := by
  apply str_eq
  intro hn
  apply nul_not_mem_text (c := c)
  rw [← h]
  exact List.mem_append_right _ (List.mem_append_left _ hn)

theorem left_written (count : Int) (rest : List Char) :
    Writer.left c (if rest = [] then .sleeping count else .flushing count rest) =
      rest ++ copies c (count - 1).toNat := by
  split_ifs with h
  · rw [h]
    rfl
  · rfl

theorem steps_written (count : Int) (rest : List Char) :
    Writer.steps (if rest = [] then .sleeping count else .flushing count rest) ≤ 3 * (count - 1).toNat + 3 := by
  split_ifs
  · exact Nat.le_succ _
  · exact Nat.le_refl _

end Texts

section Steps

theorem turn_whole (h : Turn c s t) (hs : s.whole c = text c) : t.whole c = text c := by
  rw [← hs]
  have hline := str_line hs
  cases h with
  | test hw hc => simp only [State.whole, hw, Writer.left, copies_toNat hc]
  | @finish count hw hc =>
    have hzero : count.toNat = 0 := Int.toNat_of_nonpos hc
    simp only [State.whole, hw, Writer.left, hzero]
    rfl
  | write hw =>
    simp only [State.whole, hw, left_written]
    simp only [Writer.left, List.append_assoc]
  | wake hw => simp only [State.whole, hw, Writer.left]
  | start => rfl
  | print | eof => simp only [State.whole, hline, List.nil_append, List.append_assoc]
  | store _ hs => simp only [State.whole, hs, List.append_assoc, List.cons_append, List.nil_append]
  | read _ hs hp => simp only [State.whole, hs, hp, List.nil_append, List.append_assoc]

theorem turn_pending (h : Turn c s t) (hs : ∀ count text, s.writer = .flushing count text → text ≠ [])
    (count : Int) (text : List Char) (ht : t.writer = .flushing count text) : text ≠ [] := by
  cases h with
  | test =>
    cases ht
    exact copy_ne_nil
  | finish | wake => cases ht
  | write =>
    simp only at ht
    split_ifs at ht with hr
    cases ht
    exact hr
  | start | print | store | read | eof => exact hs count text ht

theorem turn_ended (h : Turn c s t)
    (hs : s.reader = .returned → s.writer = .returned ∧ s.pipe = [] ∧ s.stream = [] ∧ s.line = [])
    (ht : t.reader = .returned) : t.writer = .returned ∧ t.pipe = [] ∧ t.stream = [] ∧ t.line = [] := by
  cases h with
  | test hw | finish hw | write hw | wake hw =>
    have hret := (hs ht).1
    rw [hw] at hret
    cases hret
  | start => cases ht
  | print hr | store hr | read hr =>
    have hret := hr.symm.trans ht
    cases hret
  | eof hr hst hp hw => exact ⟨hw, hp, hst, rfl⟩

theorem inv_init : Inv c (init c) := by
  constructor
  case whole => rfl
  case pending => exact fun count text h => by cases h
  case ended => exact fun h => by cases h

theorem turn_rest (h : Turn c s t) : t.rest c < s.rest c := by
  cases h with
  | test hw hc =>
    simp only [State.rest, hw, Writer.left, copies_toNat hc, Writer.steps]
    omega
  | finish hw =>
    simp only [State.rest, hw, Writer.left, Writer.steps, List.length_nil]
    omega
  | @write count front rest hw hf =>
    have hpos := List.length_pos_iff.mpr hf
    have hsteps := steps_written count rest
    have hold : s.writer.steps = 3 * (count - 1).toNat + 3 := congrArg Writer.steps hw
    have hleft : s.writer.left c = front ++ rest ++ copies c (count - 1).toNat := congrArg (Writer.left c) hw
    simp only [State.rest, left_written, hold, hleft, List.length_append]
    omega
  | wake hw =>
    simp only [State.rest, hw, Writer.left, Writer.steps]
    omega
  | start hr =>
    simp only [State.rest, hr, Reader.steps]
    omega
  | print hr hl =>
    have hpos := List.length_pos_iff.mpr hl
    simp only [State.rest, List.length_nil]
    omega
  | store hr hs =>
    simp only [State.rest, hs, List.length_cons, List.length_append, List.length_nil]
    omega
  | read hr hs hp hf =>
    have hpos := List.length_pos_iff.mpr hf
    simp only [State.rest, hs, hp, List.length_append, List.length_nil]
    omega
  | eof hr =>
    simp only [State.rest, hr, List.length_nil, Reader.steps]
    omega

/-- Every step brings the end nearer. -/
theorem descends (c : Config) : Descends (step c) (fun _ => true) (Inv c) 0 (State.rest c) := by
  constructor
  case keep =>
    intro s a t hs ht
    have hturn := turn_of_step ht
    exact ⟨turn_whole hturn hs.whole, turn_pending hturn hs.pending, turn_ended hturn hs.ended⟩
  case down => exact fun s a t _ ht _ => turn_rest (turn_of_step ht)
  case up =>
    intro s a t _ _ ha
    cases ha

end Steps

section Ends

/-- A parent that cannot go on has returned or found the pipe full. -/
theorem writer_stuck (h : Stuck c s) (hs : Inv c s) : s.writer = .returned ∨ s.pipe ≠ [] := by
  have hstep := h (.writer 1)
  rw [step, writerStep] at hstep
  cases hw : s.writer with
  | testing count =>
    simp only [hw] at hstep
    split_ifs at hstep
  | flushing count text =>
    right
    intro hp
    have hpos := List.length_pos_iff.mpr (hs.pending count text hw)
    have hcap := c.capacity_pos
    rw [hw, hp] at hstep
    simp only [List.length_nil] at hstep
    rw [if_pos (by omega)] at hstep
    cases hstep
  | sleeping count =>
    simp only [hw] at hstep
    cases hstep
  | returned => exact .inl rfl

theorem reader_stuck (h : Stuck c s) (hs : Inv c s) : s.reader = .returned := by
  have hstep := h (.reader 1)
  have hwriter := writer_stuck h hs
  rw [step, readerStep] at hstep
  cases hr : s.reader with
  | starting =>
    simp only [hr] at hstep
    cases hstep
  | returned => rfl
  | reading =>
    exfalso
    simp only [hr] at hstep
    by_cases hfull : isFull s.line = true
    case pos =>
      rw [if_pos hfull] at hstep
      cases hstep
    rw [if_neg hfull] at hstep
    cases hst : s.stream with
    | cons char stream =>
      simp only [hst] at hstep
      cases hstep
    | nil =>
      simp only [hst] at hstep
      split_ifs at hstep with hp hw hn
      · exact hwriter.elim hw (fun hne => hne hp)
      · have hpos := List.length_pos_iff.mpr hp
        have hbuf := c.bufsiz_pos
        exact hn ⟨Nat.one_pos, hpos, hbuf⟩

/-- However the text is cut into pieces on its way and whatever the order of the steps of both processes, what the
child has printed is a part of what `writer` is called for, and the processes take a bounded number of steps; where
they cannot go on both have returned, and all has been printed. -/
theorem copies_text (c : Config) (as : List Action) (s : State) (hr : run (step c) (init c) as = some s) :
    as.length ≤ 4 * (text c).length + 3 * c.count.toNat + 3 ∧ s.out <+: text c ∧
      (Stuck c s → s.writer = .returned ∧ s.reader = .returned ∧ s.out = text c) := by
  have hinv := (descends c).run_keep inv_init hr
  refine ⟨?_, ?_, fun h => ?_⟩
  · have hrest := (descends c).run_length inv_init hr
    have hinit : (init c).rest c = 4 * (text c).length + 3 * c.count.toNat + 3 := by
      simp only [State.rest, init, Writer.left, text, Writer.steps, Reader.steps, List.length_nil]
      omega
    omega
  · exact ⟨_, hinv.whole⟩
  · have hreader := reader_stuck h hinv
    obtain ⟨hwriter, hpipe, hstream, hline⟩ := hinv.ended hreader
    have hwhole := hinv.whole
    rw [State.whole, hwriter, hpipe, hstream, hline] at hwhole
    refine ⟨hwriter, hreader, ?_⟩
    simpa [Writer.left] using hwhole

/-- One copy of `a` through a pipe that holds one character. -/
def narrow : Config := ⟨['a'], 1, 1, 4096, Nat.one_pos, Nat.succ_pos _⟩

def narrowRun : List Action :=
  [.writer 0, .reader 0, .writer 1, .reader 1, .writer 1, .reader 0, .reader 1, .reader 0, .writer 0, .reader 0,
    .writer 0, .reader 0]

theorem copies_text_narrow : narrowRun.length ≤ 14 ∧ ['a', '\n'] <+: text narrow :=
  have h := copies_text narrow narrowRun ⟨.returned, [], .returned, [], [], ['a', '\n']⟩ (by decide)
  ⟨h.1, h.2.1⟩

end Ends

end C11AndC.PipeStream
