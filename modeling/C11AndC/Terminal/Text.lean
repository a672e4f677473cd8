import C11AndC.Terminal.Sections

namespace C11AndC.Terminal

open C11AndC.Library

/-- What `fgets` can deliver into `request->text`. -/
structure Line where
  text : List Char
  size : text.length < 128

/-- The arrays of `client_routine`, and what `malloc` gives for its two requests. -/
structure Arrays where
  prompt : List Char
  string : List Char
  formatted : List Char
  read : Request
  write : Request
  promptSize : prompt.length = 32
  stringSize : string.length = 128
  formattedSize : formatted.length = 128
  readSize : read.prompt.length = 32 ∧ read.text.length = 128
  writeSize : write.prompt.length = 32 ∧ write.text.length = 128

/-- `strcpy`, and `sprintf` with the text that it makes. -/
def strcpy (buffer text : List Char) : Section (List Char) :=
  if text.length < buffer.length then pure (fill buffer text) else fault

def promptText (number : Int32) : List Char :=
  ['H', 'o', 'l', 'y', ' ', 'C', 'l', 'i', 'e', 'n', 't', ' '] ++ decimal number.toInt ++ ['>', ' ']

def formattedText (number index : Int32) (string : List Char) : List Char :=
  '(' :: decimal number.toInt ++ '#' :: decimal index.toInt ++ [')', ' '] ++ string

/-- The buffers of a READ: the prompt of the client, the request as it was made and as it was
answered, and the string of the client. -/
structure Read where
  prompt : List Char
  made : Request
  answered : Request
  string : List Char

/-- The buffers of a WRITE: the formatted text and the request, with what is printed. -/
structure Write where
  formatted : List Char
  made : Request
  printed : List (List Char)

/-- A client reads a line. -/
def clientRead (arrays : Arrays) (number : Int32) (line : Option Line) : Section Read := do
  let prompt ← strcpy arrays.prompt (promptText number)
  let request ← new (newRequest arrays.read .read true (some (str prompt)) none)
  let made ← load request
  let _ ← process request
  let _ ← readText request (line.map Line.text)
  let answered ← load request
  let _ ← finish request .read
  match ← reply request .read with
  | some (some text) =>
      let string ← strcpy arrays.string text
      pure ⟨prompt, made, answered, string⟩
  | _ => fault

/-- A client writes what it has read. -/
def clientWrite (arrays : Arrays) (number index : Int32) (string : List Char) : Section Write := do
  let formatted ← strcpy arrays.formatted (formattedText number index (str string))
  let request ← new (newRequest arrays.write .write false none (some (str formatted)))
  let made ← load request
  let r ← process request
  let _ ← complete request .write
  pure ⟨formatted, made, r.2⟩

/-- What `client_routine` does with a line, up to the write with the given index, and what the
server does for it. There is no write for an empty line. -/
def clientLine (arrays : Arrays) (number index : Int32) (line : Option Line) :
    Section (Read × Option Write) := do
  let read ← clientRead arrays number line
  if strlen read.string = 0 then
    pure (read, none)
  else
    let write ← clientWrite arrays number index read.string
    pure (read, some write)

/-- The line as the client reads it, without its newline. -/
def Line.string (line : Option Line) : List Char := lineText (line.map Line.text)

structure Read.Intact (r : Read) (line : Option Line) : Prop where
  prompt : Terminated r.prompt 32
  madePrompt : Terminated r.made.prompt 32
  madeText : Terminated r.made.text 128
  answered : Terminated r.answered.text 128
  string : Terminated r.string 128
  line : str r.string = Line.string line

structure Write.Intact (w : Write) (number index : Int32) (line : Option Line) : Prop where
  formatted : Terminated w.formatted 128
  madePrompt : Terminated w.made.prompt 32
  madeText : Terminated w.made.text 128
  printed : w.printed = [formattedText number index (Line.string line)]

/-- All buffers hold their strings, and what is printed for a line is the line behind the numbers
of the client and of the round. -/
structure Intact (number index : Int32) (line : Option Line) (r : Read × Option Write) : Prop where
  read : r.1.Intact line
  writes : r.2 = none ↔ Line.string line = []
  write : ∀ w, r.2 = some w → w.Intact number index line

variable {arrays : Arrays} {number index : Int32} {line : Option Line}
  {st : Store Request TtyServer} {buffer text : List Char}

theorem wp_strcpy {Q : List Char → Store Request TtyServer → Prop} :
    wp (strcpy buffer text) Q st ↔ text.length < buffer.length ∧ Q (fill buffer text) st := by
  rw [strcpy, wp_ite, wp_pure, wp_fault]
  tauto

theorem length_promptText (number : Int32) : (promptText number).length < 32 := by
  have hl := number.le_toInt
  have hu := number.toInt_lt
  have hd : (decimal number.toInt).length ≤ 10 + 1 := length_decimal_le (by decide) (by omega)
  simp only [promptText, List.length_append, List.length_cons, List.length_nil]
  omega

theorem nul_not_mem_promptText (number : Int32) : nul ∉ promptText number := by
  rw [promptText, List.mem_append, List.mem_append, not_or, not_or]
  exact ⟨⟨by decide, nul_not_mem_decimal _⟩, by decide⟩

theorem nul_not_mem_formattedText (h : nul ∉ text) : nul ∉ formattedText number index text := by
  simp only [formattedText, List.mem_append, List.mem_cons, List.cons_append, not_or]
  exact ⟨by decide, ⟨⟨nul_not_mem_decimal _, by decide, nul_not_mem_decimal _⟩,
    by decide, by decide, List.not_mem_nil⟩, h⟩

theorem length_formattedText : (formattedText number index text).length =
    (decimal number.toInt).length + (decimal index.toInt).length + 4 + text.length := by
  simp only [formattedText, List.length_append, List.length_cons, List.cons_append, List.length_nil]
  omega

theorem terminated_newRequest {garbage : Request} (operation : Operation) (sync : Bool)
    (prompt string : Option (List Char)) (hg : garbage.prompt.length = 32 ∧ garbage.text.length = 128)
    (hp : ∀ p, prompt = some p → p.length < 32) (hs : ∀ s, string = some s → s.length < 128) :
    Terminated (newRequest garbage operation sync prompt string).prompt 32 ∧
      Terminated (newRequest garbage operation sync prompt string).text 128 := by
  obtain ⟨hgp, hgt⟩ := hg
  have hset : Terminated (garbage.text.set 0 nul) 128 := hgt ▸ terminated_set (by omega)
  constructor
  · cases prompt with
    | none => exact hgp ▸ terminated_set (by omega)
    | some p => exact hgp ▸ terminated_strncpy (hp p rfl) (by omega)
  · cases operation with
    | write =>
      cases string with
      | none => exact hset
      | some s => exact hgt ▸ terminated_strncpy (hs s rfl) (by omega)
    | read | quit | other => exact hset

theorem str_newRequest_write (garbage : Request) (sync : Bool) (prompt : Option (List Char))
    (h : nul ∉ text) (hl : text.length < 128) :
    str (newRequest garbage .write sync prompt (some text)).text = text := str_strncpy h hl

theorem length_string (line : Option Line) : (Line.string line).length < 128 := by
  cases line with
  | none => decide
  | some line =>
    have hpre := str_prefix line.text
    have hstr := hpre.length_le
    have hlt := line.size
    change (dropNewline (str line.text)).length < 128
    rw [dropNewline]
    split_ifs
    · rw [List.length_dropLast]
      omega
    · omega

theorem nul_not_mem_string (line : Option Line) : nul ∉ Line.string line := by
  rw [Line.string, ← str_answer []]
  exact nul_not_mem_str _

theorem clientRead_intact (arrays : Arrays) (number : Int32) (line : Option Line) :
    wp (clientRead arrays number line) (fun r _ => r.Intact line) st := by
  have hlen := length_promptText number
  have hprompt : str (fill arrays.prompt (promptText number)) = promptText number := by
    rw [str_fill, str_eq (nul_not_mem_promptText number)]
  have hput : Terminated (fill arrays.prompt (promptText number)) 32 :=
    arrays.promptSize ▸ terminated_fill (arrays.promptSize.symm ▸ hlen)
  rw [clientRead, wp_bind, wp_strcpy, hprompt]
  refine ⟨arrays.promptSize.symm ▸ hlen, ?_⟩
  obtain ⟨hvp, hvt⟩ := terminated_newRequest .read true (some (promptText number)) none arrays.readSize
    (fun p hp => by cases hp; exact hlen) (fun s hs => by cases hs)
  generalize hv : newRequest arrays.read .read true (some (promptText number)) none = v at hvp hvt
  have hop : v.operation = .read := by rw [← hv]; rfl
  have hmade : (⟨st.mem.alloc v, st.reg⟩ : Store Request TtyServer).mem.cell st.mem.next = some v :=
    Memory.cell_alloc_self ..
  obtain ⟨prompts, hprocess⟩ := process_read hmade hop
  obtain ⟨t, hread, -, -, hcell, -⟩ := readText_ok hmade (line.map Line.text)
  have hanswer : Terminated (answer v.text (line.map Line.text)) 128 := by
    rw [← hvt.length]
    apply terminated_answer
    rw [hvt.length]
    cases line with
    | none => exact Nat.zero_lt_succ _
    | some line => exact line.size
  have hdone : (t.mem.modify st.mem.next (fun v => { v with doneFlag := true })).cell st.mem.next =
      some { v with text := answer v.text (line.map Line.text), doneFlag := true } := by
    rw [Memory.cell_modify_self, hcell]
    rfl
  rw [wp_bind, wp_new, wp_bind, wp_load]
  refine ⟨v, hmade, ?_⟩
  rw [wp_bind, wp_of_ok hprocess, wp_bind, wp_of_ok hread, wp_bind, wp_load]
  refine ⟨_, hcell, ?_⟩
  rw [wp_bind, wp_of_ok (finish_ok hcell), wp_bind, wp_of_ok (reply_done hdone rfl)]
  simp only [↓reduceIte, str_answer]
  have hstring := length_string line
  rw [wp_bind, wp_strcpy, wp_pure, arrays.stringSize]
  refine ⟨hstring, hput, hvp, hvt, hanswer, ?_, ?_⟩
  · exact arrays.stringSize ▸ terminated_fill (arrays.stringSize.symm ▸ hstring)
  · exact (str_fill ..).trans (str_eq (nul_not_mem_string line))

/-- A write keeps its text exactly when the array for the formatted text is large enough. -/
theorem clientWrite_intact_iff (arrays : Arrays) (number index : Int32) (line : Option Line)
    (st : Store Request TtyServer) {string : List Char} (hs : str string = Line.string line) :
    wp (clientWrite arrays number index string) (fun w _ => w.Intact number index line) st ↔
      (formattedText number index (Line.string line)).length < 128 := by
  rw [clientWrite, wp_bind, wp_strcpy, hs, arrays.formattedSize, and_iff_left_iff_imp]
  intro hlen
  have hnul : nul ∉ formattedText number index (Line.string line) :=
    nul_not_mem_formattedText (nul_not_mem_string line)
  rw [str_fill, str_eq hnul]
  have hput : Terminated (fill arrays.formatted (formattedText number index (Line.string line))) 128 :=
    arrays.formattedSize ▸ terminated_fill (arrays.formattedSize.symm ▸ hlen)
  obtain ⟨hvp, hvt⟩ := terminated_newRequest .write false none
    (some (formattedText number index (Line.string line))) arrays.writeSize
    (fun p hp => by cases hp) (fun s hs => by cases hs; exact hlen)
  have htext := str_newRequest_write arrays.write false none hnul hlen
  generalize hv : newRequest arrays.write .write false none
    (some (formattedText number index (Line.string line))) = v at hvp hvt htext
  have hop : v.operation = .write := by rw [← hv]; rfl
  have hsync : v.synchronous = false := by rw [← hv]; rfl
  have hmade : (⟨st.mem.alloc v, st.reg⟩ : Store Request TtyServer).mem.cell st.mem.next = some v :=
    Memory.cell_alloc_self ..
  have hprocess := process_other hmade (by rw [hop]; decide)
  rw [hop, htext] at hprocess
  rw [wp_bind, wp_new, wp_bind, wp_load]
  refine ⟨v, hmade, ?_⟩
  rw [wp_bind, wp_of_ok hprocess, wp_bind, wp_of_ok (complete_async hmade hsync), wp_pure]
  exact ⟨hput, hvp, hvt, rfl⟩

theorem clientLine_intact (arrays : Arrays) (number index : Int32) (line : Option Line)
    (st : Store Request TtyServer) :
    wp (clientLine arrays number index line) (fun r _ => Intact number index line r) st ↔
      Line.string line = [] ∨ (formattedText number index (Line.string line)).length < 128 := by
  obtain ⟨r, t, hread, hr⟩ : wp (clientRead arrays number line) (fun r _ => r.Intact line) st :=
    clientRead_intact arrays number line
  rw [clientLine, wp_bind, wp_of_ok hread, strlen, hr.line]
  by_cases hempty : Line.string line = []
  · rw [hempty]
    simp only [List.length_nil, ↓reduceIte, wp_pure, true_or, iff_true]
    exact ⟨hr, ⟨fun _ => hempty, fun _ => rfl⟩, fun w hw => by cases hw⟩
  · rw [if_neg (by rwa [List.length_eq_zero_iff]), wp_bind, or_iff_right hempty,
      ← clientWrite_intact_iff arrays number index line t hr.line]
    simp only [wp_pure]
    constructor
    · exact fun h => wp_mono h fun w _ hw => hw.write w rfl
    · refine fun h => wp_mono h fun w _ hw => ⟨hr, ⟨(nomatch ·), fun he => absurd he hempty⟩, ?_⟩
      rintro _ he
      cases he
      exact hw

/-- Everything on the way of a line fits its buffers, and the line is printed as it should be,
exactly when the line is empty or leaves room for the two numbers. -/
theorem clientLine_intact_iff (arrays : Arrays) (number index : Int32) (line : Option Line)
    (st : Store Request TtyServer) :
    wp (clientLine arrays number index line) (fun r _ => Intact number index line r) st ↔
      Line.string line = [] ∨
        (decimal number.toInt).length + (decimal index.toInt).length + 4 + (Line.string line).length < 128 := by
  rw [clientLine_intact, length_formattedText]

/-- What the stack and `malloc` may give. -/
def someArrays : Arrays where
  prompt := List.replicate 32 '?'
  string := List.replicate 128 '?'
  formatted := List.replicate 128 '?'
  read := ⟨7, .other, true, true, List.replicate 32 '?', List.replicate 128 '?'⟩
  write := ⟨7, .other, true, true, List.replicate 32 '?', List.replicate 128 '?'⟩
  promptSize := rfl
  stringSize := rfl
  formattedSize := rfl
  readSize := ⟨rfl, rfl⟩
  writeSize := ⟨rfl, rfl⟩

/-- As much of a long line as `fgets` delivers. -/
def longLine : Line := ⟨List.replicate 127 'x', by simp⟩

/-- `sprintf` writes behind the end of `formatted`. -/
theorem clientLine_overflows : ¬ wp (clientLine someArrays 0 0 (some longLine))
    (fun r _ => Intact 0 0 (some longLine) r) ⟨Memory.empty, ⟨0, 0, false⟩⟩ := by
  have hstring : Line.string (some longLine) = List.replicate 127 'x' := by decide +kernel
  rw [clientLine_intact, hstring, length_formattedText, List.length_replicate]
  intro h
  obtain h | h := h
  · cases h
  · omega

end C11AndC.Terminal
