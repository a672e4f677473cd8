import Mathlib.Algebra.Ring.Nat
import Mathlib.Data.List.Basic

namespace C11AndC.Library

/-- The end mark of a string in an array of characters. -/
def nul : Char := Char.ofNat 0

/-- The string that an array holds: what is before the end mark. -/
def str : List Char → List Char
  | [] => []
  | c :: cs => if c = nul then [] else c :: str cs

def strlen (buffer : List Char) : Nat := (str buffer).length

/-- Copy at most `n` characters of a string to the start of an array, and fill up with
end marks. -/
def strncpy (buffer string : List Char) (n : Nat) : List Char :=
  (string ++ List.replicate n nul).take n ++ buffer.drop n

/-- Copy all characters to the start of an array, with an end mark. -/
def fill (buffer line : List Char) : List Char := line ++ nul :: buffer.drop (line.length + 1)

/-- Cut the array off before a newline that ends its string. -/
def chomp (buffer : List Char) : List Char :=
  if 0 < strlen buffer ∧ buffer[strlen buffer - 1]? = some '\n' then
    buffer.set (strlen buffer - 1) nul
  else buffer

/-- A line without the newline at its end. -/
def dropNewline (line : List Char) : List Char :=
  if line.getLast? = some '\n' then line.dropLast else line

/-- What `%d` prints. -/
def decimal : Int → List Char
  | .ofNat n => Nat.toDigits 10 n
  | .negSucc n => '-' :: Nat.toDigits 10 (n + 1)

/-- An array of the given size that holds the end of its string. -/
structure Terminated (buffer : List Char) (size : Nat) : Prop where
  length : buffer.length = size
  ends : nul ∈ buffer

variable {xs ys buffer string : List Char} {n : Nat}

theorem str_append_nul : str (xs ++ nul :: ys) = str xs := by
  induction xs with
  | nil => rfl
  | cons x xs ih => simp only [List.cons_append, str, ih]

theorem str_eq (h : nul ∉ xs) : str xs = xs := by
  induction xs with
  | nil => rfl
  | cons x xs ih =>
    simp only [List.mem_cons, not_or] at h
    rw [str, if_neg (Ne.symm h.1), ih h.2]

theorem nul_not_mem_str (xs : List Char) : nul ∉ str xs := by
  induction xs with
  | nil => exact List.not_mem_nil
  | cons x xs ih =>
    rw [str]
    split_ifs with hx
    · exact List.not_mem_nil
    · simp only [List.mem_cons, not_or]
      exact ⟨Ne.symm hx, ih⟩

theorem str_prefix (xs : List Char) : str xs <+: xs := by
  induction xs with
  | nil => exact List.prefix_rfl
  | cons x xs ih =>
    rw [str]
    split_ifs
    · exact List.nil_prefix
    · exact (List.prefix_cons_inj x).mpr ih

theorem str_fill (buffer line : List Char) : str (fill buffer line) = str line := str_append_nul

theorem str_chomp (buffer : List Char) : str (chomp buffer) = dropNewline (str buffer) := by
  obtain ⟨rest, hrest⟩ := str_prefix buffer
  have hnul := nul_not_mem_str buffer
  rw [chomp, dropNewline, strlen]
  obtain hs | ⟨l, x, hs⟩ := List.eq_nil_or_concat (str buffer)
  · simp [hs]
  · rw [hs, List.concat_eq_append] at hrest hnul ⊢
    have hget : buffer[(l ++ [x]).length - 1]? = some x := by
      rw [← hrest]
      simp
    have hset : buffer.set ((l ++ [x]).length - 1) nul = l ++ nul :: rest := by
      rw [← hrest]
      simp
    rw [hget, hset, List.getLast?_concat, List.dropLast_concat]
    by_cases hx : x = '\n'
    · rw [if_pos ⟨by simp, by rw [hx]⟩, if_pos (by rw [hx]), str_append_nul]
      exact str_eq fun h => hnul (List.mem_append_left _ h)
    · rw [if_neg (by simpa using hx), if_neg (by simpa using hx), hs, List.concat_eq_append]

theorem str_strncpy (h : nul ∉ string) (hn : string.length < n) :
    str (strncpy buffer string n) = string := by
  obtain ⟨k, rfl⟩ : ∃ k, n = string.length + (k + 1) := ⟨n - string.length - 1, by omega⟩
  rw [strncpy, List.take_length_add_append, List.take_replicate, Nat.min_eq_left (by omega),
    List.replicate_succ, List.append_assoc, List.cons_append, str_append_nul, str_eq h]

theorem length_strncpy (hn : n ≤ buffer.length) : (strncpy buffer string n).length = buffer.length := by
  simp only [strncpy, List.length_append, List.length_take, List.length_replicate, List.length_drop]
  omega

theorem terminated_strncpy (hs : string.length < n) (hn : n ≤ buffer.length) :
    Terminated (strncpy buffer string n) buffer.length := by
  refine ⟨length_strncpy hn, ?_⟩
  obtain ⟨k, rfl⟩ : ∃ k, n = string.length + (k + 1) := ⟨n - string.length - 1, by omega⟩
  rw [strncpy, List.take_length_add_append, List.take_replicate, Nat.min_eq_left (by omega),
    List.replicate_succ]
  simp

theorem terminated_fill (h : string.length < buffer.length) :
    Terminated (fill buffer string) buffer.length := by
  refine ⟨?_, by simp [fill]⟩
  simp only [fill, List.length_append, List.length_cons, List.length_drop]
  omega

theorem terminated_set {i : Nat} (h : i < buffer.length) :
    Terminated (buffer.set i nul) buffer.length :=
  ⟨List.length_set, List.mem_set h nul⟩

theorem terminated_chomp (h : Terminated buffer n) : Terminated (chomp buffer) n := by
  rw [chomp]
  split_ifs with hs
  · refine ⟨List.length_set.trans h.length, List.mem_set ?_ nul⟩
    obtain ⟨hlt, -⟩ := List.getElem?_eq_some_iff.mp hs.2
    exact hlt
  · exact h

theorem nul_not_mem_decimal (n : Int) : nul ∉ decimal n := by
  have hdigits : ∀ n : Nat, nul ∉ Nat.toDigits 10 n := by
    intro n h
    have hd := Nat.isDigit_of_mem_toDigits (by decide) (by decide) h
    revert hd
    decide
  cases n with
  | ofNat n => exact hdigits n
  | negSucc n =>
    rw [decimal, List.mem_cons, not_or]
    exact ⟨by decide, hdigits (n + 1)⟩

theorem length_decimal_le {n : Int} {k : Nat} (hk : 0 < k) (hn : n.natAbs < 10 ^ k) :
    (decimal n).length ≤ k + 1 := by
  cases n with
  | ofNat n => exact Nat.le_succ_of_le ((Nat.length_toDigits_le_iff (by decide) hk).mpr hn)
  | negSucc n => exact Nat.succ_le_succ ((Nat.length_toDigits_le_iff (by decide) hk).mpr hn)

end C11AndC.Library
