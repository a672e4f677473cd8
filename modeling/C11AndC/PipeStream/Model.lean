import C11AndC.Library.CString
import C11AndC.Library.Runs

namespace C11AndC.PipeStream

open C11AndC.Library

/-- What `main` writes, and how much the pipe and the buffer of the input stream hold. -/
structure Config where
  message : List Char
  count : Int
  capacity : Nat
  bufsiz : Nat
  capacity_pos : 0 < capacity
  bufsiz_pos : 0 < bufsiz

/-- `sizeof (buffer)` in `reader`. -/
def BUFFER : Nat := 1024

/-- Where `writer` is, with its counter; `text` is what `fflush` still has to write. -/
inductive Writer where
  | testing (count : Int)
  | flushing (count : Int) (text : List Char)
  | sleeping (count : Int)
  | returned
  deriving DecidableEq

/-- Where `reader` is; at the start the child still has the end for writing open. -/
inductive Reader where
  | starting
  | reading
  | returned
  deriving DecidableEq

/-- The pipe, the buffer of the input stream, what `fgets` has stored so far, and what has been printed. -/
structure State where
  writer : Writer
  pipe : List Char
  reader : Reader
  stream : List Char
  line : List Char
  out : List Char
  deriving DecidableEq

def init (c : Config) : State := ⟨.testing c.count, [], .starting, [], [], []⟩

/-- What `fprintf` puts into the stream for one copy. -/
def copy (c : Config) : List Char := str c.message ++ ['\n']

/-- The next step of the parent. A call of `fflush` may write its text piece by piece: `n` is the size of the next
one. After the last copy the end for writing is closed. -/
def writerStep (c : Config) (n : Nat) (s : State) : Option State :=
  match s.writer with
  | .testing count =>
      if 0 < count then some { s with writer := .flushing count (copy c) }
      else some { s with writer := .returned }
  | .flushing count text =>
      if 0 < n ∧ n ≤ text.length ∧ s.pipe.length + n ≤ c.capacity then
        some { s with
          writer := if text.drop n = [] then .sleeping count else .flushing count (text.drop n)
          pipe := s.pipe ++ text.take n }
      else none
  | .sleeping count => some { s with writer := .testing (count - 1) }
  | .returned => none

/-- `fgets` has come to the end of a line or of its buffer. -/
def isFull (line : List Char) : Bool := line.getLast? = some '\n' ∨ line.length + 1 = BUFFER

/-- The next step of the child. The stream is filled by calls of `read`: `n` is how much the next one gives. At the
end of the input `fgets` returns what it has stored, and `feof` ends the loop. -/
def readerStep (c : Config) (n : Nat) (s : State) : Option State :=
  match s.reader with
  | .starting => some { s with reader := .reading }
  | .reading =>
      if isFull s.line then some { s with line := [], out := s.out ++ str s.line }
      else
        match s.stream with
        | char :: stream => some { s with stream := stream, line := s.line ++ [char] }
        | [] =>
            if s.pipe = [] then
              if s.writer = .returned then
                some { s with reader := .returned, line := [], out := s.out ++ str s.line }
              else none
            else if 0 < n ∧ n ≤ s.pipe.length ∧ n ≤ c.bufsiz then
              some { s with stream := s.pipe.take n, pipe := s.pipe.drop n }
            else none
  | .returned => none

inductive Action where
  | writer (n : Nat)
  | reader (n : Nat)
  deriving DecidableEq

def step (c : Config) (s : State) : Action → Option State
  | .writer n => writerStep c n s
  | .reader n => readerStep c n s

/-- What a step can do: the text goes from the parent into the pipe, from there into the stream, the line and the
output. -/
inductive Turn (c : Config) (s : State) : State → Prop
  | test {count : Int} (hw : s.writer = .testing count) (hc : 0 < count) :
      Turn c s { s with writer := .flushing count (copy c) }
  | finish {count : Int} (hw : s.writer = .testing count) (hc : count ≤ 0) : Turn c s { s with writer := .returned }
  | write {count : Int} {front rest : List Char} (hw : s.writer = .flushing count (front ++ rest)) (hf : front ≠ []) :
      Turn c s { s with
        writer := if rest = [] then .sleeping count else .flushing count rest
        pipe := s.pipe ++ front }
  | wake {count : Int} (hw : s.writer = .sleeping count) : Turn c s { s with writer := .testing (count - 1) }
  | start (hr : s.reader = .starting) : Turn c s { s with reader := .reading }
  | print (hr : s.reader = .reading) (hl : s.line ≠ []) :
      Turn c s { s with line := [], out := s.out ++ str s.line }
  | store {char : Char} {stream : List Char} (hr : s.reader = .reading) (hs : s.stream = char :: stream) :
      Turn c s { s with stream := stream, line := s.line ++ [char] }
  | read {front rest : List Char} (hr : s.reader = .reading) (hs : s.stream = []) (hp : s.pipe = front ++ rest)
      (hf : front ≠ []) : Turn c s { s with stream := front, pipe := rest }
  | eof (hr : s.reader = .reading) (hs : s.stream = []) (hp : s.pipe = []) (hw : s.writer = .returned) :
      Turn c s { s with reader := .returned, line := [], out := s.out ++ str s.line }

variable {c : Config} {s t : State} {a : Action} {n : Nat}

theorem turn_of_writer (h : writerStep c n s = some t) : Turn c s t := by
  rw [writerStep] at h
  cases hw : s.writer with
  | testing count =>
    simp only [hw] at h
    split_ifs at h with hc
    · cases h
      exact .test hw hc
    · cases h
      exact .finish hw (Int.not_lt.mp hc)
  | flushing count text =>
    simp only [hw] at h
    by_cases hn : 0 < n ∧ n ≤ text.length ∧ s.pipe.length + n ≤ c.capacity
    case neg =>
      rw [if_neg hn] at h
      cases h
    rw [if_pos hn] at h
    obtain ⟨hpos, hle, -⟩ := hn
    cases h
    apply Turn.write (hw.trans (congrArg _ (List.take_append_drop n text).symm))
    intro he
    rw [List.take_eq_nil_iff] at he
    obtain rfl | rfl := he
    · exact Nat.lt_irrefl 0 hpos
    · exact absurd hle (Nat.not_le.mpr hpos)
  | sleeping count =>
    simp only [hw] at h
    cases h
    exact .wake hw
  | returned =>
    simp only [hw] at h
    cases h

theorem ne_nil_of_isFull {line : List Char} (h : isFull line = true) : line ≠ [] := by
  rintro rfl
  cases h

theorem turn_of_reader (h : readerStep c n s = some t) : Turn c s t := by
  rw [readerStep] at h
  cases hr : s.reader with
  | starting =>
    simp only [hr] at h
    cases h
    exact .start hr
  | returned =>
    simp only [hr] at h
    cases h
  | reading =>
    simp only [hr] at h
    by_cases hfull : isFull s.line = true
    case pos =>
      rw [if_pos hfull] at h
      cases h
      simpa only [hr] using Turn.print hr (ne_nil_of_isFull hfull)
    rw [if_neg hfull] at h
    cases hs : s.stream with
    | cons char stream =>
      simp only [hs] at h
      cases h
      simpa only [hr] using Turn.store hr hs
    | nil =>
      simp only [hs] at h
      split_ifs at h with hp hw hn
      · cases h
        simpa only [hs, hp, hw] using Turn.eof hr hs hp hw
      · obtain ⟨hpos, hle, -⟩ := hn
        cases h
        have hfront : s.pipe.take n ≠ [] := by
          rw [ne_eq, List.take_eq_nil_iff, not_or]
          exact ⟨Nat.ne_of_gt hpos, hp⟩
        simpa only [hr] using Turn.read hr hs (List.take_append_drop n s.pipe).symm hfront

theorem turn_of_step (h : step c s a = some t) : Turn c s t := by
  cases a with
  | writer n => exact turn_of_writer h
  | reader n => exact turn_of_reader h

end C11AndC.PipeStream
