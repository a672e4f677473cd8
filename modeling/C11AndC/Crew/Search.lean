import C11AndC.Library.CString
import Mathlib.Data.List.Infix

namespace C11AndC.Crew

open C11AndC.Library

/-- An open file: what is left of it, and the two indicators. -/
structure Stream where
  rest : List Char
  eof : Bool
  error : Bool

/-- At most `n` characters, up to a newline and with it. -/
def upto : Nat → List Char → List Char
  | 0, _ => []
  | _, [] => []
  | n + 1, c :: cs => if c = '\n' then [c] else c :: upto n cs

/-- Whether `fgets` returns its buffer, and what it leaves in it. -/
def fgets (buffer : List Char) (size : Nat) (stream : Stream) : Bool × List Char × Stream :=
  let line := upto (size - 1) stream.rest
  let ended := line.length < size - 1 ∧ line.getLast? ≠ some '\n'
  (line ≠ [], if line = [] then buffer else fill buffer line,
    { stream with rest := stream.rest.drop line.length, eof := stream.eof || ended })

/-- Whether `strstr` finds the string. -/
def strstr (buffer string : List Char) : Bool := (str buffer).tails.any fun cs => string.isPrefixOf cs

/-- The loop that reads a file; the answer is whether it prints that it has found the string. -/
def searchFile : Nat → List Char → List Char → Stream → Option Bool
  | 0, _, _, _ => none
  | steps + 1, string, buffer, search =>
    let (bufptr, buffer, search) := fgets buffer 256 search
    if bufptr = false ∧ search.eof then some false
    else if bufptr = false ∧ search.error then some false
    else if strstr buffer string then some true
    else searchFile steps string buffer search

/-- With any sufficient number of rounds the answer is `found`. -/
def Searched (string buffer contents : List Char) (found : Bool) : Prop :=
  ∃ N, ∀ steps, N ≤ steps → searchFile steps string buffer ⟨contents, false, false⟩ = some found

/-- The string is somewhere in a line where it does not reach over a multiple of 255 characters,
counted from the start of the line. -/
def Aligned (string contents : List Char) : Prop :=
  ∃ before line after, contents = before ++ (line ++ (string ++ after)) ∧
    (before = [] ∨ before.getLast? = some '\n') ∧ '\n' ∉ line ∧ line.length % 255 + string.length ≤ 255

/-- What `upto` takes: a line with its end, or `n` characters of it, or what is left. -/
inductive Taken (n : Nat) : List Char → List Char → Prop where
  | line (l q : List Char) (hl : l.length < n) (hnew : '\n' ∉ l) : Taken n (l ++ ['\n']) q
  | part (p q : List Char) (hp : p.length = n) (hnew : '\n' ∉ p) : Taken n p q
  | last (p : List Char) (hp : p.length < n) (hnew : '\n' ∉ p) : Taken n p []

section Pieces

variable {string buffer contents p q l cs : List Char} {n : Nat}

theorem upto_taken (n : Nat) (cs : List Char) : ∃ q, cs = upto n cs ++ q ∧ Taken n (upto n cs) q := by
  induction n generalizing cs with
  | zero => exact ⟨cs, rfl, .part [] cs rfl List.not_mem_nil⟩
  | succ n ih =>
    cases cs with
    | nil => exact ⟨[], rfl, .last [] (Nat.succ_pos n) List.not_mem_nil⟩
    | cons c cs =>
      rw [upto]
      split_ifs with hc
      · subst hc
        exact ⟨cs, rfl, .line [] cs (Nat.succ_pos n) List.not_mem_nil⟩
      · obtain ⟨q, hq, ht⟩ := ih cs
        refine ⟨q, congrArg (c :: ·) hq, ?_⟩
        have hnew : ∀ {l : List Char}, '\n' ∉ l → '\n' ∉ c :: l := by
          intro l hl hmem
          obtain he | hmem := List.mem_cons.mp hmem
          · exact hc he.symm
          · exact hl hmem
        generalize upto n cs = p at ht
        cases ht with
        | line l q hl hl' => exact .line (c :: l) q (Nat.succ_lt_succ hl) (hnew hl')
        | part p q hp hp' => exact .part (c :: p) q (congrArg Nat.succ hp) (hnew hp')
        | last p hp hp' => exact .last (c :: p) (Nat.succ_lt_succ hp) (hnew hp')

/-- Text without a newline at the start of a line that ends does not reach over the end. -/
theorem prefix_line (h : p ++ cs = l ++ '\n' :: q) (hp : '\n' ∉ p) : p <+: l := by
  obtain ⟨a, rfl, -⟩ | ⟨a, rfl, ha⟩ := List.append_eq_append_iff.mp h
  · exact List.prefix_append p a
  · cases a with
    | nil => simp
    | cons c a =>
      obtain ⟨rfl, -⟩ := List.cons.inj ha
      exact absurd (List.mem_append_right _ (List.mem_cons_self ..)) hp

/-- Where a line starts behind a newline, what was taken before is behind it. -/
theorem taken_before (ht : Taken n p q) (h : p ++ q = l ++ cs) (hl : l.getLast? = some '\n') :
    ∃ a, l = p ++ a ∧ q = a ++ cs := by
  have hmem : '\n' ∈ l := List.mem_of_getLast? hl
  obtain h' | ⟨a, rfl, ha⟩ := List.append_eq_append_iff.mp h
  · exact h'
  · have hnil : a = [] := by
      obtain rfl | ⟨a, x, rfl⟩ := List.eq_nil_or_concat a
      · rfl
      · rw [List.concat_eq_append, ← List.append_assoc] at ht
        generalize hp : l ++ a ++ [x] = p at ht
        cases ht with
        | line l' q _ hnew =>
          obtain ⟨rfl, -⟩ := List.append_inj' hp rfl
          exact absurd (List.mem_append_left a hmem) hnew
        | part p q _ hnew => exact absurd (hp ▸ List.mem_append_left _ (List.mem_append_left _ hmem)) hnew
        | last p _ hnew => exact absurd (hp ▸ List.mem_append_left _ (List.mem_append_left _ hmem)) hnew
    subst hnil
    exact ⟨[], by simp, by simpa using ha.symm⟩

theorem aligned_taken (ht : Taken 255 p q) (hnew : '\n' ∉ string) (h : Aligned string (p ++ q)) :
    string <:+: p ∨ Aligned string q := by
  obtain ⟨before, line, after, h, hbefore, hline, hlen⟩ := h
  obtain rfl | hbefore := hbefore
  · rw [List.nil_append, ← List.append_assoc] at h
    have hboth : '\n' ∉ line ++ string := by simp [hline, hnew]
    cases ht with
    | line l q _ _ =>
      rw [List.append_assoc] at h
      obtain ⟨a, rfl⟩ := prefix_line h.symm hboth
      exact .inl ⟨line, a ++ ['\n'], by simp⟩
    | part p q hp _ =>
      by_cases hlt : line.length < 255
      · rw [Nat.mod_eq_of_lt hlt] at hlen
        obtain ⟨a, rfl⟩ := List.prefix_of_prefix_length_le (List.prefix_append (line ++ string) after)
          (h ▸ List.prefix_append p q) (by rw [List.length_append]; omega)
        exact .inl ⟨line, a, rfl⟩
      · rw [List.append_assoc] at h
        obtain ⟨a, rfl⟩ := List.prefix_of_prefix_length_le (List.prefix_append p q)
          (h ▸ List.prefix_append line _) (by omega)
        rw [List.append_assoc, List.append_cancel_left_eq] at h
        rw [List.length_append, hp, Nat.add_mod_left] at hlen
        exact .inr ⟨[], a, after, h, .inl rfl, fun hmem => hline (List.mem_append_right _ hmem), hlen⟩
    | last p _ _ =>
      rw [List.append_nil] at h
      exact .inl ⟨line, after, h.symm⟩
  · obtain ⟨a, rfl, hq⟩ := taken_before ht h hbefore
    refine .inr ⟨a, line, after, hq, ?_, hline, hlen⟩
    obtain rfl | ⟨a, x, rfl⟩ := List.eq_nil_or_concat a
    · exact .inl rfl
    · right
      simpa using hbefore

theorem taken_length (ht : Taken n p q) : p.length ≤ n := by
  cases ht with
  | line l q hl _ =>
    rw [List.length_append]
    exact hl
  | part p q hp _ => exact hp.le
  | last p hp _ => exact hp.le

/-- A newline is only at the end of what is taken. -/
theorem taken_front (ht : Taken n (l ++ cs) q) (hcs : cs ≠ []) : '\n' ∉ l := by
  generalize hp : l ++ cs = p at ht
  cases ht with
  | line l' q _ hnew =>
    obtain rfl | ⟨a, x, rfl⟩ := List.eq_nil_or_concat cs
    · exact absurd rfl hcs
    · rw [List.concat_eq_append, ← List.append_assoc] at hp
      obtain ⟨rfl, -⟩ := List.append_inj' hp rfl
      exact fun hmem => hnew (List.mem_append_left a hmem)
  | part p q _ hnew => exact fun hmem => hnew (hp ▸ List.mem_append_left cs hmem)
  | last p _ hnew => exact fun hmem => hnew (hp ▸ List.mem_append_left cs hmem)

theorem aligned_of_infix (ht : Taken 255 p q) (hs : string ≠ []) (h : string <:+: p) :
    Aligned string (p ++ q) := by
  obtain ⟨x, y, rfl⟩ := h
  have hpos := List.length_pos_iff.mpr hs
  have hlen := taken_length ht
  simp only [List.length_append] at hlen
  refine ⟨[], x, y ++ q, by simp, .inl rfl, ?_, ?_⟩
  · rw [List.append_assoc] at ht
    exact taken_front ht (List.append_ne_nil_of_left_ne_nil hs y)
  · rw [Nat.mod_eq_of_lt (by omega)]
    omega

theorem aligned_of_rest (ht : Taken 255 p q) (hs : string ≠ []) (h : Aligned string q) :
    Aligned string (p ++ q) := by
  obtain ⟨before, line, after, hq, hbefore, hline, hlen⟩ := h
  obtain rfl | hbefore := hbefore
  · cases ht with
    | line l q _ _ => exact ⟨l ++ ['\n'], line, after, by rw [hq]; rfl, .inr (by simp), hline, hlen⟩
    | part p q hp hnew =>
      refine ⟨[], p ++ line, after, by rw [hq]; simp, .inl rfl, by simp [hnew, hline], ?_⟩
      rwa [List.length_append, hp, Nat.add_mod_left]
    | last p _ _ => exact absurd hq.symm (by simp [hs])
  · refine ⟨p ++ before, line, after, by rw [hq]; simp, .inr ?_, hline, hlen⟩
    rw [List.getLast?_append, hbefore, Option.some_or]

theorem not_aligned_nil (hs : string ≠ []) : ¬ Aligned string [] := by
  rintro ⟨before, line, after, h, -⟩
  exact absurd h.symm (by simp [hs])

/-- An aligned string is in what is taken, or aligned in the rest. -/
theorem aligned_iff (ht : Taken 255 p q) (hs : string ≠ []) (hnew : '\n' ∉ string) :
    Aligned string (p ++ q) ↔ string <:+: p ∨ Aligned string q := by
  constructor
  · exact aligned_taken ht hnew
  · rintro (h | h)
    · exact aligned_of_infix ht hs h
    · exact aligned_of_rest ht hs h

theorem strstr_fill (hline : nul ∉ p) (buffer : List Char) :
    strstr (fill buffer p) string = true ↔ string <:+: p := by
  rw [strstr, str_fill, str_eq hline, List.any_eq_true, List.infix_iff_prefix_suffix]
  simp only [List.mem_tails, List.isPrefixOf_iff_prefix]
  exact ⟨fun ⟨t, hs, hp⟩ => ⟨t, hp, hs⟩, fun ⟨t, hp, hs⟩ => ⟨t, hs, hp⟩⟩

theorem upto_eq_nil (h : upto 255 cs = []) : cs = [] := by
  cases cs with
  | nil => rfl
  | cons c cs =>
    rw [upto] at h
    split_ifs at h

/-- One round at the end of the file. -/
theorem searchFile_end (steps : Nat) (string buffer : List Char) (eof : Bool) :
    searchFile (steps + 1) string buffer ⟨[], eof, false⟩ = some false := by
  simp [searchFile, fgets, upto]

/-- One round before it. -/
theorem searchFile_round (hcs : cs ≠ []) (hnul : nul ∉ cs) (h : cs = upto 255 cs ++ q)
    (string buffer : List Char) (eof : Bool) :
    ∃ eof', ∀ steps, searchFile (steps + 1) string buffer ⟨cs, eof, false⟩ =
      if string <:+: upto 255 cs then some true
      else searchFile steps string (fill buffer (upto 255 cs)) ⟨q, eof', false⟩ := by
  have hne : upto 255 cs ≠ [] := fun hnil => hcs (upto_eq_nil hnil)
  have hdrop : cs.drop (upto 255 cs).length = q :=
    (congrArg (List.drop (upto 255 cs).length) h).trans List.drop_left
  have hline : nul ∉ upto 255 cs := fun hmem => hnul (h ▸ List.mem_append_left q hmem)
  refine ⟨eof || decide ((upto 255 cs).length < 255 ∧ (upto 255 cs).getLast? ≠ some '\n'), fun steps => ?_⟩
  have hstrstr : (strstr (fill buffer (upto 255 cs)) string = true) = (string <:+: upto 255 cs) :=
    propext (strstr_fill hline buffer)
  simp [searchFile, fgets, hne, hdrop, hstrstr]

/-- The loop ends, and finds what is aligned. -/
theorem searchFile_spec (hs : string ≠ []) (hnew : '\n' ∉ string) (hnul : nul ∉ cs) (buffer : List Char)
    (eof : Bool) : ∃ found N, (∀ steps, N ≤ steps → searchFile steps string buffer ⟨cs, eof, false⟩ = some found) ∧
      (found = true ↔ Aligned string cs) := by
  induction hn : cs.length using Nat.strong_induction_on generalizing cs buffer eof with
  | _ n ih =>
    by_cases hcs : cs = []
    · subst hcs
      refine ⟨false, 1, fun steps hsteps => ?_, iff_of_false Bool.false_ne_true (not_aligned_nil hs)⟩
      obtain ⟨steps, rfl⟩ := Nat.exists_eq_succ_of_ne_zero (Nat.ne_of_gt hsteps)
      exact searchFile_end steps string buffer eof
    · obtain ⟨q, hq, ht⟩ := upto_taken 255 cs
      have haligned := aligned_iff ht hs hnew
      rw [← hq] at haligned
      obtain ⟨eof', hround⟩ := searchFile_round hcs hnul hq string buffer eof
      by_cases hfound : string <:+: upto 255 cs
      · refine ⟨true, 1, fun steps hsteps => ?_, iff_of_true rfl (haligned.mpr (.inl hfound))⟩
        obtain ⟨steps, rfl⟩ := Nat.exists_eq_succ_of_ne_zero (Nat.ne_of_gt hsteps)
        rw [Nat.succ_eq_add_one, hround, if_pos hfound]
      · have hlt : q.length < n := by
          have hpos := List.length_pos_iff.mpr fun hnil => hcs (upto_eq_nil hnil)
          have hlen := congrArg List.length hq
          rw [List.length_append] at hlen
          omega
        have hnul' : nul ∉ q := fun hmem => hnul (hq ▸ List.mem_append_right _ hmem)
        obtain ⟨found, N, hN, hiff⟩ := ih q.length hlt hnul' (fill buffer (upto 255 cs)) eof' rfl
        refine ⟨found, N + 1, fun steps hsteps => ?_, ?_⟩
        · obtain ⟨steps, rfl⟩ := Nat.exists_eq_succ_of_ne_zero (Nat.ne_of_gt (Nat.zero_lt_of_lt hsteps))
          rw [Nat.succ_eq_add_one, hround, if_neg hfound]
          exact hN steps (Nat.le_of_succ_le_succ hsteps)
        · rw [hiff, haligned, or_iff_right hfound]

theorem searched_unique {found found' : Bool} (h : Searched string buffer contents found)
    (h' : Searched string buffer contents found') : found = found' := by
  obtain ⟨N, hN⟩ := h
  obtain ⟨N', hN'⟩ := h'
  have he := hN (max N N') (Nat.le_max_left ..)
  rw [hN' (max N N') (Nat.le_max_right ..)] at he
  exact (Option.some.inj he).symm

theorem infix_of_aligned (h : Aligned string contents) : string <:+: contents := by
  obtain ⟨before, line, after, rfl, -⟩ := h
  exact ⟨before ++ line, after, by simp⟩

end Pieces

/-- The loop ends, and the string is found wherever it is exactly if it does not occur or one of its
occurrences is aligned. -/
theorem search_finds_iff (string contents buffer : List Char) (hs : string ≠ []) (hnew : '\n' ∉ string)
    (hnul : nul ∉ contents) :
    (∃ found, Searched string buffer contents found ∧ (found = true ↔ string <:+: contents)) ↔
      (string <:+: contents → Aligned string contents) := by
  obtain ⟨found, N, hN, hiff⟩ := searchFile_spec hs hnew hnul buffer false
  constructor
  · rintro ⟨found', hfound', hiff'⟩ hoccurs
    obtain rfl := searched_unique hfound' ⟨N, hN⟩
    exact hiff.mp (hiff'.mpr hoccurs)
  · exact fun h => ⟨found, ⟨N, hN⟩, hiff.trans ⟨infix_of_aligned, h⟩⟩

theorem search_finds_iff_short :
    (∃ found, Searched ['a'] [] ['b', 'a', '\n'] found ∧ (found = true ↔ ['a'] <:+: ['b', 'a', '\n'])) ↔
      (['a'] <:+: ['b', 'a', '\n'] → Aligned ['a'] ['b', 'a', '\n']) :=
  search_finds_iff _ _ _ (by decide) (by decide) (by decide)

theorem not_aligned_long : ¬ Aligned ['x', 'y'] (List.replicate 254 'a' ++ ['x', 'y']) := by
  rintro ⟨before, line, after, h, hbefore, -, hlen⟩
  rw [← List.append_assoc] at h
  have hall : before ++ line = List.replicate 254 'a' := by
    obtain ⟨a, ha, hxy⟩ | ⟨a, ha, hxy⟩ := List.append_eq_append_iff.mp h
    · obtain rfl : a = [] := by
        have hlength := congrArg List.length hxy
        simp only [List.length_append, List.length_cons, List.length_nil] at hlength
        exact List.length_eq_zero_iff.mp (by omega)
      rw [ha, List.append_nil]
    · cases a with
      | nil => rw [ha, List.append_nil]
      | cons c a =>
        obtain ⟨rfl, -⟩ := List.cons.inj hxy
        have hmem : 'x' ∈ List.replicate 254 'a' := ha ▸ List.mem_append_right _ (List.mem_cons_self ..)
        exact absurd (List.eq_of_mem_replicate hmem) (by decide)
  obtain rfl | hbefore := hbefore
  · rw [List.nil_append] at hall
    rw [hall, List.length_replicate] at hlen
    exact absurd hlen (by decide)
  · have hmem : '\n' ∈ List.replicate 254 'a' := hall ▸ List.mem_append_left _ (List.mem_of_getLast? hbefore)
    exact absurd (List.eq_of_mem_replicate hmem) (by decide)

/-- A line of 256 characters whose last two are the string: the first piece ends between them. -/
theorem search_finds_wrong :
    ¬ ∃ found, Searched ['x', 'y'] (List.replicate 256 nul) (List.replicate 254 'a' ++ ['x', 'y']) found ∧
      (found = true ↔ ['x', 'y'] <:+: List.replicate 254 'a' ++ ['x', 'y']) := by
  rintro ⟨found, hfound, hiff⟩
  have hnul : nul ∉ List.replicate 254 'a' ++ ['x', 'y'] := by
    rw [List.mem_append, not_or]
    exact ⟨fun hmem => absurd (List.eq_of_mem_replicate hmem) (by decide), by decide⟩
  obtain ⟨found', N, hN, haligned⟩ := searchFile_spec (List.cons_ne_nil 'x' ['y']) (by decide) hnul
    (List.replicate 256 nul) false
  obtain rfl := searched_unique hfound ⟨N, hN⟩
  exact not_aligned_long (haligned.mp (hiff.mpr (List.suffix_append _ _).isInfix))

end C11AndC.Crew
