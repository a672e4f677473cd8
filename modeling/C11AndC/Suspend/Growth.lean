import C11AndC.Suspend.Set

namespace C11AndC.Suspend.Growth

open C11AndC.Library

/-- The data of the package with the block at `array` entry by entry: an entry in which nothing
has been stored is `none`. -/
structure Package where
  block : List (Option Nat)
  bottom : Nat
  inited : Bool
  deriving DecidableEq

/-- What is wrong with an access to an entry: it is not one of the first `bottom`, or not in the
block, or it is read before anything has been stored in it. -/
inductive Fault where
  | outside
  | uninitialised
  deriving DecidableEq

def fetch (s : Package) (i : Nat) : Except Fault Nat :=
  if i < s.bottom then
    match s.block[i]? with
    | none => .error .outside
    | some none => .error .uninitialised
    | some (some thread) => .ok thread
  else .error .outside

def put (s : Package) (i thread : Nat) : Except Fault Package :=
  if i < s.bottom ∧ i < s.block.length then .ok { s with block := s.block.set i (some thread) }
  else .error .outside

def suspendInitRoutine (s : Package) : Package :=
  if s.inited then s else ⟨List.replicate 10 (some 0), 10, true⟩

/-- Go on from an entry while the entries satisfy `p`, over `n` entries at most. -/
def search (p : Nat → Bool) (s : Package) : Nat → Nat → Except Fault Nat
  | 0, i => .ok i
  | n + 1, i => do
    if p (← fetch s i) then search p s n (i + 1) else pure i

/-- Make room for one more entry; the entry that is cleared is the one behind it. -/
def grow (s : Package) : Except Fault Package :=
  put { s with block := s.block ++ [none], bottom := s.bottom + 1 } (s.bottom + 1) 0

/-- The part of `thd_suspend` after an entry for the thread has been chosen. -/
def record (s : Package) (kill : Int) (i thread : Nat) : Except Fault (Int × Package) := do
  if kill ≠ 0 then
    return (kill, s)
  else
    let s ← put s i thread
    return (0, s)

def thdSuspend (realloc : Realloc) (kill : Int) (s : Package) (thread : Nat) :
    Except Fault (Int × Package) := do
  let s := suspendInitRoutine s
  let i ← search (· ≠ thread) s s.bottom 0
  if i < s.bottom then
    return (0, s)
  else
    let i ← search (· ≠ 0) s s.bottom 0
    if i = s.bottom then
      match realloc with
      | .fails status => return (status, { s with block := [], bottom := s.bottom + 1 })
      | .block _ => record (← grow s) kill i thread
    else
      record s kill i thread

/-- The loop runs on while the entries are those of the thread. -/
def thdContinue (kill : Int) (s : Package) (thread : Nat) : Except Fault (Int × Package) := do
  let s := suspendInitRoutine s
  let i ← search (· = thread) s s.bottom 0
  if i = s.bottom then
    return (0, s)
  else if kill ≠ 0 then
    return (kill, s)
  else
    let s ← put s i 0
    return (0, s)

/-- What a call of `thd_suspend` has returned, with the block before and after it. -/
structure Suspension where
  status : Int
  before : List (Option Nat)
  after : List (Option Nat)
  deriving DecidableEq

/-- The package between the calls, with the calls of `thd_suspend` so far. A fault ends the
program. -/
structure State where
  package : Package
  fault : Option Fault
  suspensions : List Suspension
  deriving DecidableEq

def init : State := ⟨⟨[], 0, false⟩, none, []⟩

/-- A call, with what `realloc` and `pthread_kill` answer if called. -/
inductive Action where
  | suspend (thread : Nat) (realloc : Realloc) (kill : Int)
  | resume (thread : Nat) (kill : Int)
  deriving DecidableEq

def step (s : State) (a : Action) : Option State :=
  if s.fault.isSome then none
  else match a with
  | .suspend thread realloc kill =>
      match thdSuspend realloc kill s.package thread with
      | .error fault => some { s with fault := some fault }
      | .ok (status, t) => some { s with
          package := t
          suspensions := s.suspensions ++ [⟨status, s.package.block, t.block⟩] }
  | .resume thread kill =>
      match thdContinue kill s.package thread with
      | .error fault => some { s with fault := some fault }
      | .ok (_, t) => some { s with package := t }

/-- The threads in the entries of a block. -/
def threads (block : List (Option Nat)) : List Nat := (block.filterMap id).filter (· ≠ 0)

/-- All accesses have met entries of the array that had been stored in, all entries have been
stored in, and a failed suspension has recorded no thread. -/
structure Sound (s : State) : Prop where
  fault : s.fault = none
  initialised : none ∉ s.package.block
  length : s.package.bottom = s.package.block.length
  failed : ∀ x ∈ s.suspensions, x.status ≠ 0 → threads x.after ⊆ threads x.before

/-- The array has the thread that is to be suspended, or an entry for it. -/
def HasRoom (s : State) : Action → Prop
  | .suspend thread .. => s.package.inited = true →
      some thread ∈ s.package.block ∨ some 0 ∈ s.package.block
  | .resume .. => True

/-- The package of which all entries have been stored in. -/
def detail (s : Suspend.Package) : Package := ⟨s.array.map some, s.bottom, s.inited⟩

/-- An access that has no meaning is a fault. -/
def outcome {α β : Type} (f : α → β) : Option α → Except Fault β
  | none => .error .outside
  | some x => .ok (f x)

variable {s : Suspend.Package} {i n thread : Nat} {kill : Int} {realloc : Realloc}

theorem fetch_detail (h : i < s.bottom) : fetch (detail s) i = outcome id s.array[i]? := by
  rw [fetch, if_pos (show i < (detail s).bottom from h)]
  simp only [detail, List.getElem?_map]
  cases s.array[i]? <;> rfl

theorem search_detail (p : Nat → Bool) (h : i + n ≤ s.bottom) :
    search p (detail s) n i = outcome id (advance p s.array n i) := by
  induction n generalizing i with
  | zero => rfl
  | succ n ih =>
    rw [search, advance, fetch_detail (by omega)]
    cases s.array[i]? with
    | none => rfl
    | some x =>
      change (if p x then search p (detail s) n (i + 1) else .ok i) =
        outcome id (if p x then advance p s.array n (i + 1) else some i)
      split_ifs
      · exact ih (by omega)
      · rfl

theorem put_detail (h : s.array.length ≤ s.bottom) :
    put (detail s) i thread =
      outcome (fun array => detail { s with array := array }) (write s.array i thread) := by
  have hlen : (detail s).block.length = s.array.length := List.length_map ..
  rw [put, write, hlen]
  by_cases hi : i < s.array.length
  · rw [if_pos ⟨Nat.lt_of_lt_of_le hi h, hi⟩, if_pos hi]
    simp only [outcome, detail, List.map_set]
  · rw [if_neg fun hh => hi hh.2, if_neg hi]
    rfl

theorem suspendInitRoutine_detail (s : Suspend.Package) :
    suspendInitRoutine (detail s) = detail (Suspend.suspendInitRoutine s) := by
  have hd : (detail s).inited = s.inited := rfl
  rw [suspendInitRoutine, Suspend.suspendInitRoutine, hd]
  split_ifs <;> rfl

theorem length_suspendInitRoutine (h : s.array.length = s.bottom) :
    (Suspend.suspendInitRoutine s).array.length = (Suspend.suspendInitRoutine s).bottom := by
  rw [Suspend.suspendInitRoutine]
  split_ifs
  · exact h
  · rfl

theorem grow_detail (fresh : Nat) (h : s.array.length = s.bottom) :
    grow (detail s) = .error .outside ∧ Suspend.grow s fresh = none := by
  constructor
  · rw [grow, put, if_neg]
    exact fun hh => Nat.lt_irrefl _ hh.1
  · rw [Suspend.grow, write, if_neg]
    · rfl
    · rw [List.length_append, List.length_singleton]
      omega

theorem record_detail (h : s.array.length = s.bottom) :
    record (detail s) kill i thread =
      outcome (fun x => (x.1, detail x.2)) (Suspend.record s kill i thread) := by
  rw [record, Suspend.record]
  split_ifs
  · rfl
  · rw [put_detail (Nat.le_of_eq h)]
    cases write s.array i thread <;> rfl

/-- As long as the block has `bottom` entries, the calls do the same as those that look at the
block as a whole. -/
theorem thdSuspend_detail (h : s.array.length = s.bottom) :
    thdSuspend realloc kill (detail s) thread =
      outcome (fun x => (x.1, detail x.2)) (Suspend.thdSuspend realloc kill s thread) := by
  have hlen := length_suspendInitRoutine h
  rw [thdSuspend, Suspend.thdSuspend, suspendInitRoutine_detail]
  generalize Suspend.suspendInitRoutine s = s at hlen
  have hb : (detail s).bottom = s.bottom := rfl
  simp only [hb, search_detail _ (Nat.le_of_eq (Nat.zero_add s.bottom))]
  cases advance (· ≠ thread) s.array s.bottom 0 with
  | none => rfl
  | some i =>
    simp only [outcome, id, Except.bind, bind, Option.bind]
    split_ifs
    · rfl
    · cases advance (· ≠ 0) s.array s.bottom 0 with
      | none => rfl
      | some i =>
        simp only
        split_ifs
        · cases realloc with
          | fails status => rfl
          | block fresh =>
            obtain ⟨hg, hg'⟩ := grow_detail fresh hlen
            simp only [hg, hg']
        · exact record_detail hlen

theorem thdContinue_detail (h : s.array.length = s.bottom) :
    thdContinue kill (detail s) thread =
      outcome (fun x => (x.1, detail x.2)) (Suspend.thdContinue kill s thread) := by
  have hlen := length_suspendInitRoutine h
  rw [thdContinue, Suspend.thdContinue, suspendInitRoutine_detail]
  generalize Suspend.suspendInitRoutine s = s at hlen
  have hb : (detail s).bottom = s.bottom := rfl
  simp only [hb, search_detail _ (Nat.le_of_eq (Nat.zero_add s.bottom))]
  cases advance (· = thread) s.array s.bottom 0 with
  | none => rfl
  | some i =>
    simp only [outcome, id, Except.bind, bind, Option.bind]
    split_ifs
    · rfl
    · rfl
    · rw [put_detail (Nat.le_of_eq hlen)]
      cases write s.array i 0 <;> rfl

/-- A search over the whole array stops in front of the end exactly if an entry stops it. -/
theorem advance_lt (p : Nat → Bool) (h : s.array.length = s.bottom) :
    ∃ r, advance p s.array s.bottom 0 = some r ∧ r ≤ s.bottom ∧
      (r < s.bottom ↔ ∃ x ∈ s.array, p x = false) := by
  have hsize : 0 + s.bottom ≤ s.array.length := by omega
  obtain ⟨r, hr, -, hle, hall, hstop⟩ := advance_spec (p := p) hsize
  rw [Nat.zero_add] at hle hstop
  refine ⟨r, hr, hle, fun hlt => ?_, ?_⟩
  · obtain ⟨x, hx, hp⟩ := hstop hlt
    exact ⟨x, List.mem_of_getElem? hx, hp⟩
  · rintro ⟨x, hx, hp⟩
    by_contra hge
    obtain ⟨j, hj⟩ := List.getElem?_of_mem hx
    obtain ⟨hjlt, -⟩ := List.getElem?_eq_some_iff.mp hj
    have hpx := hall j x (Nat.zero_le j) (by omega) hj
    rw [hp] at hpx
    cases hpx

theorem suspend_room (realloc : Realloc) (kill : Int) (h : s.array.length = s.bottom)
    (hi : s.inited = true) (hr : thread ∈ s.array ∨ 0 ∈ s.array) :
    ∃ status array sent, Suspend.thdSuspend realloc kill s thread =
        some (status, { s with array := array, sent := sent }) ∧
      array.length = s.array.length ∧ (status ≠ 0 → array = s.array) := by
  rw [Suspend.thdSuspend, suspendInitRoutine_inited hi]
  obtain ⟨i, hadv, -, hfound⟩ := advance_lt (· ≠ thread) h
  obtain ⟨j, hadv', -, hfree⟩ := advance_lt (· ≠ 0) h
  simp only [hadv, hadv', Option.bind_eq_bind, Option.bind_some]
  by_cases hlt : i < s.bottom
  · rw [if_pos hlt]
    exact ⟨0, s.array, s.sent, rfl, rfl, fun _ => rfl⟩
  · have hm : thread ∉ s.array := fun hm => hlt (hfound.mpr ⟨thread, hm, by simp⟩)
    have hj : j < s.bottom := hfree.mpr ⟨0, hr.resolve_left hm, by simp⟩
    rw [if_neg hlt, if_neg (Nat.ne_of_lt hj), Suspend.record]
    by_cases hk : kill = 0
    · rw [if_neg (not_not.mpr hk), write, if_pos (by omega)]
      exact ⟨0, s.array.set j thread, _, rfl, List.length_set, fun h0 => absurd rfl h0⟩
    · rw [if_pos hk]
      exact ⟨kill, s.array, s.sent, rfl, rfl, fun _ => rfl⟩

theorem suspend_noRoom (realloc : Realloc) (kill : Int) (h : s.array.length = s.bottom)
    (hi : s.inited = true) (hm : thread ∉ s.array) (hz : 0 ∉ s.array) :
    Suspend.thdSuspend realloc kill s thread = none ∨ ∃ status,
      Suspend.thdSuspend realloc kill s thread =
        some (status, { s with array := [], bottom := s.bottom + 1 }) := by
  rw [Suspend.thdSuspend, suspendInitRoutine_inited hi]
  obtain ⟨i, hadv, -, hfound⟩ := advance_lt (· ≠ thread) h
  obtain ⟨j, hadv', hle, hfree⟩ := advance_lt (· ≠ 0) h
  have hlt : ¬ i < s.bottom := by
    rw [hfound]
    rintro ⟨x, hx, hp⟩
    obtain rfl : x = thread := by simpa using hp
    exact hm hx
  have hj : j = s.bottom := by
    refine Nat.le_antisymm hle (Nat.le_of_not_lt fun hj => ?_)
    obtain ⟨x, hx, hp⟩ := hfree.mp hj
    obtain rfl : x = 0 := by simpa using hp
    exact hz hx
  simp only [hadv, hadv', Option.bind_eq_bind, Option.bind_some]
  rw [if_neg hlt, if_pos hj]
  cases realloc with
  | fails status => exact .inr ⟨status, rfl⟩
  | block fresh =>
    obtain ⟨-, hg⟩ := grow_detail fresh h
    simp only [hg, Option.bind_none, true_or]

theorem continue_entry (kill : Int) (thread : Nat) (h : s.array.length = s.bottom)
    (hi : s.inited = true) : ∃ status array sent, Suspend.thdContinue kill s thread =
        some (status, { s with array := array, sent := sent }) ∧
      array.length = s.array.length := by
  rw [Suspend.thdContinue, suspendInitRoutine_inited hi]
  obtain ⟨i, hadv, hle, -⟩ := advance_lt (· = thread) h
  simp only [hadv, Option.bind_eq_bind, Option.bind_some]
  by_cases hend : i = s.bottom
  · rw [if_pos hend]
    exact ⟨0, s.array, s.sent, rfl, rfl⟩
  · rw [if_neg hend]
    by_cases hk : kill = 0
    · rw [if_neg (not_not.mpr hk), write, if_pos (by omega)]
      exact ⟨0, s.array.set i 0, _, rfl, List.length_set⟩
    · rw [if_pos hk]
      exact ⟨kill, s.array, s.sent, rfl, rfl⟩

section Runs

variable {s t : State} {a : Action}

theorem exists_detail (h : Sound s) :
    ∃ p : Suspend.Package, s.package = detail p ∧ p.array.length = p.bottom := by
  have hmap : (s.package.block.map (·.getD 0)).map some = s.package.block := by
    rw [List.map_map]
    refine (List.map_congr_left fun x hx => ?_).trans (List.map_id _)
    cases x with
    | none => exact absurd hx h.initialised
    | some x => rfl
  refine ⟨⟨s.package.block.map (·.getD 0), s.package.bottom, s.package.inited, []⟩, ?_, ?_⟩
  · rw [detail, hmap]
  · rw [List.length_map]
    exact h.length.symm

theorem threads_map (array : List Nat) : threads (array.map some) = array.filter (· ≠ 0) := by
  rw [threads, List.filterMap_map]
  congr 1
  exact List.filterMap_some

theorem thdSuspend_init (realloc : Realloc) (kill : Int) (p : Suspend.Package) (thread : Nat) :
    Suspend.thdSuspend realloc kill p thread =
      Suspend.thdSuspend realloc kill (Suspend.suspendInitRoutine p) thread := by
  rw [Suspend.thdSuspend, Suspend.thdSuspend, suspendInitRoutine_inited (inited_suspendInitRoutine p)]

theorem thdContinue_init (kill : Int) (p : Suspend.Package) (thread : Nat) :
    Suspend.thdContinue kill p thread =
      Suspend.thdContinue kill (Suspend.suspendInitRoutine p) thread := by
  rw [Suspend.thdContinue, Suspend.thdContinue, suspendInitRoutine_inited (inited_suspendInitRoutine p)]

theorem sound_detail {p : Suspend.Package} {suspensions : List Suspension} (h : p.array.length = p.bottom)
    (hf : ∀ x ∈ suspensions, x.status ≠ 0 → threads x.after ⊆ threads x.before) :
    Sound ⟨detail p, none, suspensions⟩ := by
  refine ⟨rfl, ?_, ?_, hf⟩
  · simp [detail]
  · exact h.symm.trans (List.length_map ..).symm

theorem threads_suspendInitRoutine (p : Suspend.Package) :
    threads ((Suspend.suspendInitRoutine p).array.map some) ⊆ threads (p.array.map some) := by
  rw [threads_map, threads_map, Suspend.suspendInitRoutine]
  split_ifs
  · exact List.Subset.refl _
  · simp

/-- What the condition says of the package when the first call has set it up. -/
theorem room_suspendInitRoutine {p : Suspend.Package} (hp : s.package = detail p) :
    HasRoom s (.suspend thread realloc kill) ↔ thread ∈ (Suspend.suspendInitRoutine p).array ∨
      0 ∈ (Suspend.suspendInitRoutine p).array := by
  have hmem : ∀ x, some x ∈ s.package.block ↔ x ∈ p.array := by
    intro x
    rw [hp]
    simp [detail]
  have hinited : s.package.inited = p.inited := by rw [hp]; rfl
  rw [HasRoom, hmem, hmem, hinited]
  by_cases hi : p.inited = true
  · rw [suspendInitRoutine_inited hi]
    exact ⟨fun h => h hi, fun h _ => h⟩
  · refine ⟨fun _ => .inr ?_, fun _ h => absurd h hi⟩
    rw [Suspend.suspendInitRoutine, if_neg hi]
    exact List.mem_replicate.mpr ⟨by decide, rfl⟩

theorem sound_step (h : Sound s) (hc : HasRoom s a) (hs : step s a = some t) : Sound t := by
  obtain ⟨p, hp, hlen⟩ := exists_detail h
  have hlen' := length_suspendInitRoutine hlen
  have hinited := inited_suspendInitRoutine p
  cases a with
  | suspend thread realloc kill =>
    obtain ⟨status, array, sent, hcall, hsize, hsame⟩ :=
      suspend_room realloc kill hlen' hinited ((room_suspendInitRoutine hp).mp hc)
    rw [← thdSuspend_init] at hcall
    simp only [step, h.fault, hp, thdSuspend_detail hlen, hcall, outcome, Option.isSome_none,
      Bool.false_eq_true, ↓reduceIte, Option.some.injEq] at hs
    rw [← hs]
    refine sound_detail (hsize.trans hlen') fun x hx hne => ?_
    obtain hx | hx := List.mem_append.mp hx
    · exact h.failed x hx hne
    · rw [List.mem_singleton.mp hx] at hne ⊢
      change threads (array.map some) ⊆ threads (p.array.map some)
      rw [hsame hne]
      exact threads_suspendInitRoutine p
  | resume thread kill =>
    obtain ⟨status, array, sent, hcall, hsize⟩ := continue_entry kill thread hlen' hinited
    rw [← thdContinue_init] at hcall
    simp only [step, h.fault, hp, thdContinue_detail hlen, hcall, outcome, Option.isSome_none,
      Bool.false_eq_true, ↓reduceIte, Option.some.injEq] at hs
    rw [← hs]
    exact sound_detail (hsize.trans hlen') h.failed

/-- A call that finds no entry clears one behind the array, or is left without an array. -/
theorem hasRoom_of_sound (h : Sound s) (hs : step s a = some t) (ht : Sound t) : HasRoom s a := by
  cases a with
  | resume thread kill => trivial
  | suspend thread realloc kill =>
    obtain ⟨p, hp, hlen⟩ := exists_detail h
    rw [room_suspendInitRoutine hp]
    by_contra hroom
    obtain ⟨hm, hz⟩ := not_or.mp hroom
    obtain hcall | ⟨status, hcall⟩ := suspend_noRoom realloc kill (length_suspendInitRoutine hlen)
      (inited_suspendInitRoutine p) hm hz
    · rw [← thdSuspend_init] at hcall
      simp only [step, h.fault, hp, thdSuspend_detail hlen, hcall, outcome, Option.isSome_none,
        Bool.false_eq_true, ↓reduceIte, Option.some.injEq] at hs
      rw [← hs] at ht
      cases ht.fault
    · rw [← thdSuspend_init] at hcall
      simp only [step, h.fault, hp, thdSuspend_detail hlen, hcall, outcome, Option.isSome_none,
        Bool.false_eq_true, ↓reduceIte, Option.some.injEq] at hs
      rw [← hs] at ht
      cases ht.length

end Runs

/-- All calls of a run are sound exactly when none of them finds the array full. -/
theorem sound_iff (as : List Action) :
    Always step Sound init as ↔ Each step HasRoom init as := by
  apply always_iff_each Sound (fun _ _ _ h hc hs => sound_step h hc hs) (fun _ h => h)
  · exact fun _ _ _ h hs ht => hasRoom_of_sound h hs ht
  · exact ⟨rfl, List.not_mem_nil, rfl, fun x hx => absurd hx List.not_mem_nil⟩

def suspendEleven : List Action := (List.range 11).map fun i => .suspend (i + 1) (.block 0) 0

theorem suspend_eleven : ∃ s, run step init suspendEleven = some s ∧ s.fault = some .outside ∧
    ¬ Sound s := by
  refine ⟨_, rfl, rfl, fun h => ?_⟩
  cases h.fault

end C11AndC.Suspend.Growth
