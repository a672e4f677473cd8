import C11AndC.Socket.Model

namespace C11AndC.Socket

open C11AndC.Library

/-- The messages that are to be printed. -/
def upToQuit : List (List Char) → List (List Char)
  | [] => []
  | m :: ms => if m = quit then [m] else m :: upToQuit ms

def texts (printed : List Line) : List (List Char) :=
  printed.filterMap fun
    | .text s => some s
    | .waiting => none

/-- What the outcome should be; `printed` is what has been printed before. -/
def Delivers (messages : List (List Char)) (printed : List Line) (o : Outcome) : Prop :=
  ∃ printed', o = .returns printed' (if quit ∈ messages then 1 else 0) ∧
    texts printed' = texts printed ++ upToQuit messages

/-- `server` works whatever the memory holds beforehand. -/
def Correct (messages : List (List Char)) (rounds : Nat → Round) : Prop :=
  ∀ junk, let stream := messages.flatMap writeText
    Delivers messages [] (server rounds junk (stream.length + 1) 0 stream [])

/-- The buffer can be read after it has been freed, and does not hold `quit`. -/
def Round.freedOk (r : Round) : Prop := ∃ t, r.freed = some t ∧ t ≠ quit

/-- Until `server` returns, each call of `read` gives all that it is asked for, and no message is
too long for its length. -/
def FullReads (rounds : Nat → Round) : Nat → List (List Char) → Prop
  | _, [] => True
  | i, m :: ms => m.length + 1 < 2147483648 ∧ 4 ≤ (rounds i).header ∧
      m.length + 1 ≤ max 1 (rounds i).body ∧
      (m = quit ∨ (rounds i).freedOk ∧ FullReads rounds (i + 1) ms)

section Ints

variable {n : Nat}

theorem byte_toNat (n : Nat) : (byte n).toNat = n % 256 := by
  have hlt : n % 256 < 256 := Nat.mod_lt _ (by decide)
  have hvalid : (n % 256).isValidChar := .inl (by omega)
  rw [byte, Char.ofNat, dif_pos hvalid]
  rfl

/-- A number of 32 bits, as an `int`. -/
theorem bmod_eq (n : Int) : Int.bmod n 4294967296 =
    if n % 4294967296 < 2147483648 then n % 4294967296 else n % 4294967296 - 4294967296 := by
  simp [Int.bmod]

theorem intOf_eq (n : Nat) : intOf n =
    if (n : Int) % 4294967296 < 2147483648 then (n : Int) % 4294967296
    else (n : Int) % 4294967296 - 4294967296 := bmod_eq n

theorem toInt_eq {header : List Char} (h : header.foldr (fun c n => c.toNat + 256 * n) 0 = n) :
    toInt header = intOf n := by
  subst h
  rfl

theorem foldr_bytes (a b c d : Nat) :
    [byte a, byte b, byte c, byte d].foldr (fun c n => c.toNat + 256 * n) 0 =
      a % 256 + 256 * (b % 256 + 256 * (c % 256 + 256 * (d % 256))) := by
  simp only [List.foldr_cons, List.foldr_nil, byte_toNat]
  omega

theorem bytes_sum (n : Int) :
    (bytes n).foldr (fun c n => c.toNat + 256 * n) 0 = (n % 4294967296).toNat := by
  have hlow : 0 ≤ n % 4294967296 := by omega
  simp only [bytes, foldr_bytes]
  omega

theorem toInt_intOf (n : Nat) : toInt (bytes (intOf n)) = intOf n := by
  rw [toInt_eq (bytes_sum _), intOf_eq, intOf_eq]
  split <;> split <;> omega

theorem intOf_small (h : n < 2147483648) : intOf n = n := by
  rw [intOf_eq]
  split <;> omega

theorem intOf_large (h : 2147483648 ≤ n) : intOf n < n := by
  rw [intOf_eq]
  split <;> omega

end Ints

section Rounds

variable {xs rest m : List Char} {ms : List (List Char)} {junk : Nat → UInt8} {rounds : Nat → Round}
  {printed : List Line} {n size i : Nat} {o : Outcome}

theorem read_full (hn : xs.length = n) (hsize : n ≤ max 1 size) :
    read (xs ++ rest) n size junk = (n, xs, rest) := by
  subst hn
  have htake : (xs ++ rest).take (min xs.length (max 1 size)) = xs := by
    rw [Nat.min_eq_left hsize, List.take_left']
    rfl
  simp only [read, htake, Nat.sub_self, List.range_zero, List.map_nil, List.append_nil, List.drop_left']

theorem read_count (hxs : xs ≠ []) (hn : n ≠ 0) : (read xs n size junk).1 ≠ 0 := by
  have hpos := List.length_pos_iff.mpr hxs
  simp only [read, List.length_take]
  omega

/-- Memory for the runs that are to fail: lengths made of it are negative, texts do not end. -/
def spoiled : Nat → Junk := fun _ => ⟨fun _ => 255, fun _ => 120⟩

theorem toInt_neg (a b c : Nat) : toInt [byte a, byte b, byte c, byte 255] < 0 := by
  rw [toInt_eq (foldr_bytes a b c 255), intOf_eq]
  split <;> omega

theorem header_short (hsize : size < 4) (v : Int) :
    toInt (read (bytes v ++ rest) 4 size (spoiled i).length).2.1 < 0 := by
  obtain hk | hk | hk : min 4 (max 1 size) = 1 ∨ min 4 (max 1 size) = 2 ∨ min 4 (max 1 size) = 3 := by omega
  · have hread : (read (bytes v ++ rest) 4 size (spoiled i).length).2.1 =
        [byte (v % 4294967296).toNat, byte 255, byte 255, byte 255] := by
      simp only [read, hk]
      rfl
    rw [hread]
    exact toInt_neg ..
  · have hread : (read (bytes v ++ rest) 4 size (spoiled i).length).2.1 =
        [byte (v % 4294967296).toNat, byte ((v % 4294967296).toNat / 256), byte 255, byte 255] := by
      simp only [read, hk]
      rfl
    rw [hread]
    exact toInt_neg ..
  · have hread : (read (bytes v ++ rest) 4 size (spoiled i).length).2.1 =
        [byte (v % 4294967296).toNat, byte ((v % 4294967296).toNat / 256),
          byte ((v % 4294967296).toNat / 65536), byte 255] := by
      simp only [read, hk]
      rfl
    rw [hread]
    exact toInt_neg ..

theorem body_short (hnul : nul ∉ m) (hk : min n (max 1 size) ≤ m.length) :
    nul ∉ (read ((m ++ [nul]).take n ++ rest) n size (spoiled i).text).2.1 := by
  have htake : ((m ++ [nul]).take n ++ rest).take (min n (max 1 size)) = m.take (min n (max 1 size)) := by
    have hlen : min n (max 1 size) ≤ ((m ++ [nul]).take n).length := by
      rw [List.length_take, List.length_append, List.length_singleton]
      omega
    rw [List.take_append_of_le_length hlen, List.take_take, Nat.min_assoc, Nat.min_comm (max 1 size),
      ← Nat.min_assoc, Nat.min_self, List.take_append_of_le_length hk]
  have hjunk : byte (120 : UInt8).toNat ≠ nul := by decide
  simp only [read, htake, List.mem_append, List.mem_map, not_or, not_exists, not_and]
  exact ⟨fun h => hnul (List.mem_of_mem_take h), fun _ _ => hjunk⟩

/-- A round in which the calls of `read` give all that they are asked for. -/
theorem server_full {junk : Nat → Junk} (hnul : nul ∉ m) (hlen : m.length + 1 < 2147483648)
    (hheader : 4 ≤ (rounds i).header) (hbody : m.length + 1 ≤ max 1 (rounds i).body) :
    server rounds junk (n + 1) i (writeText m ++ rest) printed =
      if m = quit then .returns (printed ++ [.waiting, .text m]) 1
      else
        match (rounds i).freed with
        | none => .undefined
        | some freed =>
          if freed = quit then .returns (printed ++ [.waiting, .text m]) 1
          else server rounds junk n (i + 1) rest (printed ++ [.waiting, .text m]) := by
  have hint := toInt_intOf (m.length + 1)
  have hsmall : intOf (m.length + 1) = (m.length + 1 : Nat) := intOf_small hlen
  rw [hsmall] at hint
  have htext : (m ++ [nul]).take (m.length + 1) = m ++ [nul] := by
    rw [List.take_of_length_le]
    simp
  have hwrite : writeText m ++ rest = bytes (m.length + 1 : Nat) ++ ((m ++ [nul]) ++ rest) := by
    rw [writeText, hsmall, Int.toNat_natCast, htext, List.append_assoc]
  have hheader' : read (bytes (m.length + 1 : Nat) ++ ((m ++ [nul]) ++ rest)) 4 (rounds i).header
      (junk i).length = (4, bytes (m.length + 1 : Nat), (m ++ [nul]) ++ rest) :=
    read_full rfl (by omega)
  have hbody' : read ((m ++ [nul]) ++ rest) (m.length + 1) (rounds i).body (junk i).text =
      (m.length + 1, m ++ [nul], rest) := read_full (by simp) hbody
  have hstr : str (m ++ [nul]) = m := by rw [str_append_nul, str_eq hnul]
  have hpos : ¬ ((m.length + 1 : Nat) : Int) ≤ 0 := by omega
  have hmem : ¬ nul ∉ m ++ [nul] := by simp
  rw [server, hwrite, hheader']
  simp only [hint, Int.toNat_natCast, hbody', hstr, if_neg hpos, if_neg hmem]
  rfl

/-- A round in which one of them does not, in memory that is not as luck would have it. -/
theorem server_short (hnul : nul ∉ m)
    (hshort : ¬ (m.length + 1 < 2147483648 ∧ 4 ≤ (rounds i).header ∧ m.length + 1 ≤ max 1 (rounds i).body)) :
    server rounds spoiled (n + 1) i (writeText m ++ rest) printed = .undefined := by
  have hcount : (read (writeText m ++ rest) 4 (rounds i).header (spoiled i).length).1 ≠ 0 :=
    read_count (fun h => List.cons_ne_nil _ _ h) (by decide)
  rw [server]
  simp only [if_neg hcount]
  rw [writeText, List.append_assoc]
  by_cases hheader : 4 ≤ (rounds i).header
  · have hread : ∀ more, read (bytes (intOf (m.length + 1)) ++ more) 4 (rounds i).header (spoiled i).length =
        (4, bytes (intOf (m.length + 1)), more) := fun more => read_full rfl (by omega)
    simp only [hread, toInt_intOf]
    by_cases hpos : intOf (m.length + 1) ≤ 0
    · rw [if_pos hpos]
    · rw [if_neg hpos]
      have hlarge : min (intOf (m.length + 1)).toNat (max 1 (rounds i).body) ≤ m.length := by
        by_cases hlen : m.length + 1 < 2147483648
        · have hbody : ¬ m.length + 1 ≤ max 1 (rounds i).body := fun hbody => hshort ⟨hlen, hheader, hbody⟩
          omega
        · have hint := intOf_large (Nat.not_lt.mp hlen)
          omega
      rw [if_pos (body_short hnul hlarge)]
  · rw [if_pos (Int.le_of_lt (header_short (Nat.not_le.mp hheader) _))]

theorem delivers_cons (hm : m ≠ quit) :
    Delivers (m :: ms) printed o ↔ Delivers ms (printed ++ [.waiting, .text m]) o := by
  have hmem : quit ∈ m :: ms ↔ quit ∈ ms := by simp [Ne.symm hm]
  simp only [Delivers, hmem, upToQuit, if_neg hm, texts, List.filterMap_append, List.filterMap_cons,
    List.filterMap_nil, List.append_assoc, List.singleton_append]

theorem not_delivers_undefined : ¬ Delivers ms printed .undefined := fun ⟨_, h, _⟩ => Outcome.noConfusion h

theorem server_nil {junk : Nat → Junk} : Delivers [] printed (server rounds junk (n + 1) i [] printed) := by
  refine ⟨printed, ?_, (List.append_nil _).symm⟩
  simp [server, read]

theorem length_writeText (m : List Char) : 4 ≤ (writeText m).length := by
  rw [writeText, List.length_append]
  exact Nat.le_add_right ..

theorem server_delivers {junk : Nat → Junk} (hnul : ∀ m ∈ ms, nul ∉ m) (h : FullReads rounds i ms)
    (hn : (ms.flatMap writeText).length < n) :
    Delivers ms printed (server rounds junk n i (ms.flatMap writeText) printed) := by
  obtain ⟨n, rfl⟩ : ∃ k, n = k + 1 := ⟨n - 1, by omega⟩
  induction ms generalizing i printed n with
  | nil => exact server_nil
  | cons m ms ih =>
    obtain ⟨hlen, hheader, hbody, hrest⟩ := h
    obtain ⟨hm, hms⟩ := List.forall_mem_cons.mp hnul
    rw [List.flatMap_cons, server_full hm hlen hheader hbody]
    by_cases hquit : m = quit
    · rw [if_pos hquit]
      refine ⟨_, by rw [if_pos (hquit ▸ List.mem_cons_self ..)], ?_⟩
      simp [texts, upToQuit, hquit]
    · obtain ⟨⟨freed, hfreed, hne⟩, hfull⟩ := hrest.resolve_left hquit
      rw [if_neg hquit, hfreed, delivers_cons hquit]
      simp only [if_neg hne]
      rw [List.flatMap_cons, List.length_append] at hn
      have hfour := length_writeText m
      obtain ⟨n, rfl⟩ : ∃ k, n = k + 1 := ⟨n - 1, by omega⟩
      exact ih hms hfull n (by omega)

theorem full_of_delivers (hnul : ∀ m ∈ ms, nul ∉ m) (hn : (ms.flatMap writeText).length < n)
    (h : Delivers ms printed (server rounds spoiled n i (ms.flatMap writeText) printed)) :
    FullReads rounds i ms := by
  obtain ⟨n, rfl⟩ : ∃ k, n = k + 1 := ⟨n - 1, by omega⟩
  induction ms generalizing i printed n with
  | nil => exact trivial
  | cons m ms ih =>
    obtain ⟨hm, hms⟩ := List.forall_mem_cons.mp hnul
    rw [List.flatMap_cons] at h
    by_cases hgood : m.length + 1 < 2147483648 ∧ 4 ≤ (rounds i).header ∧ m.length + 1 ≤ max 1 (rounds i).body
    · obtain ⟨hlen, hheader, hbody⟩ := hgood
      rw [server_full hm hlen hheader hbody] at h
      refine ⟨hlen, hheader, hbody, or_iff_not_imp_left.mpr fun hquit => ?_⟩
      rw [if_neg hquit, delivers_cons hquit] at h
      cases hfreed : (rounds i).freed with
      | none =>
        rw [hfreed] at h
        exact absurd h not_delivers_undefined
      | some freed =>
        simp only [hfreed] at h
        by_cases hne : freed = quit
        · rw [if_pos hne] at h
          obtain ⟨printed', hreturns, htexts⟩ := h
          obtain ⟨rfl, hstatus⟩ := Outcome.returns.inj hreturns
          have hmem : quit ∈ ms := by
            by_contra hmem
            rw [if_neg hmem] at hstatus
            exact Nat.one_ne_zero hstatus
          have hnone : upToQuit ms = [] := by simpa using htexts
          cases ms with
          | nil => exact absurd hmem List.not_mem_nil
          | cons m' ms =>
            rw [upToQuit] at hnone
            split at hnone <;> cases hnone
        · rw [if_neg hne] at h
          rw [List.flatMap_cons, List.length_append] at hn
          have hfour := length_writeText m
          obtain ⟨n, rfl⟩ : ∃ k, n = k + 1 := ⟨n - 1, by omega⟩
          exact ⟨⟨freed, hfreed, hne⟩, ih hms n (by omega) h⟩
    · rw [server_short hm hgood] at h
      exact absurd h not_delivers_undefined

end Rounds

/-- `server` works where each call of `read` gives all that it is asked for, as it calls `read` once
only, and where the freed buffer can be read and does not hold `quit`. -/
theorem server_correct_iff (messages : List (List Char)) (hnul : ∀ m ∈ messages, nul ∉ m)
    (rounds : Nat → Round) : Correct messages rounds ↔ FullReads rounds 0 messages :=
  ⟨fun h => full_of_delivers hnul (Nat.lt_succ_self _) (h spoiled),
    fun h _ => server_delivers hnul h (Nat.lt_succ_self _)⟩

theorem server_correct_iff_quit :
    Correct [['h', 'i'], quit] (fun _ => ⟨4, 80, some []⟩) ↔
      FullReads (fun _ => ⟨4, 80, some []⟩) 0 [['h', 'i'], quit] :=
  server_correct_iff _ (by decide) _

/-- The header of the only message comes in two parts. -/
theorem server_wrong : ¬ Correct [['h', 'i']] fun _ => ⟨2, 80, some []⟩ := by
  intro h
  have hfull := full_of_delivers (by decide) (Nat.lt_succ_self _) (h spoiled)
  exact absurd hfull.2.1 (by decide)

end C11AndC.Socket
