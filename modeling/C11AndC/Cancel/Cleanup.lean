import C11AndC.Cancel.Model
import C11AndC.Library.Owner
import C11AndC.Library.Progress

namespace C11AndC.Cancel

open C11AndC.Library

/-- All steps but those that come out of nothing. -/
def isWork : Action → Bool
  | .spurious _ => false
  | _ => true

/-- Both loops of `main` go over the whole array. -/
def Proper (threads : Nat) (count : Int) : Prop := 0 ≤ count ∧ (count = 0 ∨ threads = 0)

def Line.isMain : Line → Bool
  | .canceled _ | .notCanceled _ => true
  | .starting | .handler _ => false

/-- The lines that `main` has printed. -/
def mainLines (printed : List Line) : List Line := printed.filter Line.isMain

/-- The threads that the counter counts: those between its increment and the end of the handler. -/
def Thread.counted (t : Thread) : Bool :=
  match t.place with
  | .testing | .waiting | .woken | .canceled | .handler _ => true
  | .absent | .starting | .locking | .ended _ => false

def Thread.holds (t : Thread) : Bool :=
  match t.place with
  | .testing | .handler _ => true
  | .absent | .starting | .locking | .waiting | .woken | .canceled | .ended _ => false

/-- The steps that a thread takes at most, if it is cancelled. -/
def Place.rank : Place → Nat
  | .absent | .starting => 6
  | .locking => 5
  | .testing => 4
  | .waiting => 3
  | .woken => 5
  | .canceled => 2
  | .handler _ => 1
  | .ended _ => 0

def Main.rank (threads : Nat) : Main → Nat
  | .creating count => (threads - max count 0).toNat + 2 * threads + 2
  | .canceling count => 2 * (threads - count) + 1
  | .joining count => 2 * (threads - count)
  | .finished | .undefined => 0

def State.rest (s : State) : Nat := (s.threads.map (fun t => t.place.rank)).sum + s.main.rank s.threads.length

/-- What the place of `main` says of the threads and of the lines. -/
def MainOk (count : Int) (threads : List Thread) (lines : List Line) : Main → Prop
  | .creating k => count ≤ k ∧ (count < 0 → k = count) ∧ lines = [] ∧
      ∀ (i : Nat) t, threads[i]? = some t → t.pending = false ∧ (t.place = .absent ↔ ¬ (count ≤ i ∧ i < k))
  | .canceling k => 0 ≤ count ∧ (k = 0 ∨ count = 0) ∧ k ≤ threads.length ∧ lines = (List.range k).map .canceled ∧
      ∀ (i : Nat) t, threads[i]? = some t → (t.pending = true ↔ i < k) ∧ (t.place = .absent ↔ i < count) ∧
        (i < k → t.place = .ended true)
  | .joining k => count = 0 ∧ k < threads.length ∧ lines = (List.range k).map .canceled ∧
      ∀ (i : Nat) t, threads[i]? = some t → (t.pending = true ↔ i ≤ k) ∧ t.place ≠ .absent ∧
        (i < k → t.place = .ended true)
  | .finished => Proper threads.length count ∧ lines = (List.range threads.length).map .canceled ∧
      ∀ t ∈ threads, t.place = .ended true
  | .undefined => ¬ Proper threads.length count

structure Inv (threads : Nat) (count : Int) (s : State) : Prop where
  length : s.threads.length = threads
  busy : s.busy = true
  owned : Owned Thread.holds s.owner s.threads
  counter : s.counter = s.threads.countP Thread.counted
  canceled : ∀ t ∈ s.threads, t.place ≠ .handler false ∧ t.place ≠ .ended false
  main : MainOk count s.threads (mainLines s.printed) s.main

/-- What a step of a thread does to its place, to the owner of the mutex, to the counter and to the output, and
whether it is work. -/
inductive Moves (s : State) (i : Nat) (pending : Bool) :
    Bool → Place → Place → Option Nat → Int → List Line → Prop
  | starts : Moves s i pending true .starting .locking s.owner s.counter [.starting]
  | early (hp : pending = true) : Moves s i pending true .starting (.ended true) s.owner s.counter []
  | locks (ho : s.owner = none) : Moves s i pending true .locking .testing (some i) (s.counter + 1) []
  | waits (hp : pending = false) : Moves s i pending true .testing .waiting none s.counter []
  | acts (hp : pending = true) : Moves s i pending true .testing (.handler true) s.owner s.counter []
  | leaves (hb : s.busy = false) : Moves s i pending true .testing (.handler false) s.owner s.counter []
  | wakes : Moves s i pending false .waiting .woken s.owner s.counter []
  | cancels (hp : pending = true) : Moves s i pending true .waiting .canceled s.owner s.counter []
  | retakes (ho : s.owner = none) : Moves s i pending true .woken .testing (some i) s.counter []
  | regains (ho : s.owner = none) : Moves s i pending true .canceled (.handler true) (some i) s.counter []
  | ends {canceled} :
      Moves s i pending true (.handler canceled) (.ended canceled) none (s.counter - 1) [.handler (s.counter - 1)]

/-- What one step can do. -/
inductive Turn (s : State) : Bool → State → Prop
  | creates {count t} (hm : s.main = .creating (Int.ofNat count)) (hi : s.threads[count]? = some t) :
      Turn s true { s with
        threads := s.threads.set count { t with place := .starting }
        main := .creating (Int.ofNat count + 1) }
  | overruns {count} (hm : s.main = .creating count) (hlt : count < s.threads.length) (hneg : count < 0) :
      Turn s true { s with main := .undefined }
  | created {count} (hm : s.main = .creating count) (hge : s.threads.length ≤ count) :
      Turn s true { s with main := .canceling 0 }
  | cancels {count t} (hm : s.main = .canceling count) (hi : s.threads[count]? = some t)
      (hplace : t.place ≠ .absent) :
      Turn s true { s with threads := s.threads.set count { t with pending := true }, main := .joining count }
  | misses {count t} (hm : s.main = .canceling count) (hi : s.threads[count]? = some t)
      (hplace : t.place = .absent) :
      Turn s true { s with main := .undefined }
  | finishes {count} (hm : s.main = .canceling count) (hi : s.threads[count]? = none) :
      Turn s true { s with main := .finished }
  | joins {count canceled pending} (hm : s.main = .joining count)
      (hi : s.threads[count]? = some ⟨.ended canceled, pending⟩) :
      Turn s true { s with
        main := .canceling (count + 1)
        printed := s.printed ++ [if canceled then .canceled count else .notCanceled count] }
  | moves {i pending work old new owner counter lines} (hi : s.threads[i]? = some ⟨old, pending⟩)
      (h : Moves s i pending work old new owner counter lines) :
      Turn s work { s with
        counter := counter
        owner := owner
        threads := s.threads.set i ⟨new, pending⟩
        printed := s.printed ++ lines }

section Turns

variable {s t : State} {a : Action} {i : Nat}

theorem turn_of_mainStep (hs : mainStep s = some t) : Turn s true t := by
  cases hm : s.main with
  | creating count =>
    simp only [mainStep, hm] at hs
    split_ifs at hs with hlt hpos
    · cases hs
      obtain ⟨k, rfl⟩ := Int.eq_ofNat_of_zero_le hpos
      have hk : k < s.threads.length := Int.ofNat_lt.mp hlt
      have hi := List.getElem?_eq_getElem hk
      obtain ⟨l₁, l₂, -, hset, hmodify⟩ := split_at hi
      rw [Int.toNat_natCast, hmodify, ← hset]
      exact .creates hm hi
    · cases hs
      exact .overruns hm hlt (Int.not_le.mp hpos)
    · cases hs
      exact .created hm (Int.not_lt.mp hlt)
  | canceling count =>
    simp only [mainStep, hm] at hs
    cases hi : s.threads[count]? with
    | none =>
      rw [hi] at hs
      cases hs
      exact .finishes hm hi
    | some u =>
      rw [hi] at hs
      simp only at hs
      split_ifs at hs with hplace
      · cases hs
        exact .misses hm hi hplace
      · cases hs
        exact .cancels hm hi hplace
  | joining count =>
    simp only [mainStep, hm] at hs
    cases hi : s.threads[count]? with
    | none =>
      rw [hi] at hs
      cases hs
    | some u =>
      obtain ⟨place, pending⟩ := u
      rw [hi] at hs
      cases place with
      | ended canceled =>
        cases hs
        exact .joins hm hi
      | absent | starting | locking | testing | waiting | woken | canceled | handler => cases hs
  | finished | undefined =>
    simp only [mainStep, hm] at hs
    cases hs

/-- A step of a thread that prints nothing. -/
theorem turn_silent {pending work : Bool} {old new : Place} {owner : Option Nat} {counter : Int}
    (hi : s.threads[i]? = some ⟨old, pending⟩) (h : Moves s i pending work old new owner counter []) :
    Turn s work { s with counter := counter, owner := owner, threads := s.threads.set i ⟨new, pending⟩ } := by
  have hturn := Turn.moves hi h
  rwa [List.append_nil] at hturn

theorem turn_of_step (hs : step s a = some t) : Turn s (isWork a) t := by
  cases a with
  | main => exact turn_of_mainStep hs
  | thread i =>
    obtain ⟨⟨place, pending⟩, hi, hs⟩ := Option.bind_eq_some_iff.mp hs
    cases place with
    | absent | ended => cases hs
    | starting =>
      cases hs
      exact .moves hi .starts
    | locking =>
      obtain ⟨ho, hs⟩ := Option.ite_none_right_eq_some.mp hs
      cases hs
      exact turn_silent hi (.locks ho)
    | testing =>
      simp only [threadRoutine] at hs
      split_ifs at hs with hb hp
      · cases hs
        exact turn_silent hi (.acts hp)
      · cases hs
        exact turn_silent hi (.waits (Bool.eq_false_of_not_eq_true hp))
      · cases hs
        exact turn_silent hi (.leaves (Bool.eq_false_of_not_eq_true hb))
    | waiting =>
      obtain ⟨hp, hs⟩ := Option.ite_none_right_eq_some.mp hs
      cases hs
      exact turn_silent hi (.cancels hp)
    | woken =>
      obtain ⟨ho, hs⟩ := Option.ite_none_right_eq_some.mp hs
      cases hs
      exact turn_silent hi (.retakes ho)
    | canceled =>
      obtain ⟨ho, hs⟩ := Option.ite_none_right_eq_some.mp hs
      cases hs
      exact turn_silent hi (.regains ho)
    | handler canceled =>
      cases hs
      exact .moves hi .ends
  | cancelEarly i =>
    obtain ⟨⟨place, pending⟩, hi, hs⟩ := Option.bind_eq_some_iff.mp hs
    obtain ⟨⟨hplace, hp⟩, hs⟩ := Option.ite_none_right_eq_some.mp hs
    cases hplace
    cases hs
    exact turn_silent hi (.early hp)
  | spurious i =>
    obtain ⟨⟨place, pending⟩, hi, hs⟩ := Option.bind_eq_some_iff.mp hs
    obtain ⟨hplace, hs⟩ := Option.ite_none_right_eq_some.mp hs
    cases hplace
    cases hs
    exact turn_silent hi .wakes

section Parts

variable {threads : List Thread} {count counter : Int} {lines : List Line} {main : Main} {old new : Place}
  {pending work : Bool} {owner : Option Nat}

theorem counter_set {u v : Thread} (h : counter = threads.countP Thread.counted) (hi : threads[i]? = some u)
    (huv : v.counted = u.counted) : counter = (threads.set i v).countP Thread.counted := by
  have hset := countP_set Thread.counted hi v
  rw [huv, Int.sub_add_cancel] at hset
  exact h.trans hset.symm

/-- A thread that moves has been created and has not ended, and what it prints is not a line of `main`. -/
theorem moves_frame (h : Moves s i pending work old new owner counter lines) :
    old ≠ .absent ∧ (∀ canceled, old ≠ .ended canceled) ∧ new ≠ .absent ∧ mainLines lines = [] := by
  cases h with
  | starts | early | locks | waits | acts | leaves | wakes | cancels | retakes | regains | ends =>
    exact ⟨Place.noConfusion, fun _ => Place.noConfusion, Place.noConfusion, rfl⟩

theorem moves_owned (h : Moves s i pending work old new owner counter lines)
    (hi : s.threads[i]? = some ⟨old, pending⟩) (howned : Owned Thread.holds s.owner s.threads) :
    Owned Thread.holds owner (s.threads.set i ⟨new, pending⟩) := by
  cases h with
  | starts | early | wakes | cancels | acts | leaves => exact howned.keep hi rfl
  | locks ho | retakes ho | regains ho =>
    rw [ho] at howned
    exact howned.take hi rfl
  | waits | ends => exact howned.give hi rfl rfl

theorem moves_counter (h : Moves s i pending work old new owner counter lines)
    (hi : s.threads[i]? = some ⟨old, pending⟩) (hcounter : s.counter = s.threads.countP Thread.counted) :
    counter = (s.threads.set i ⟨new, pending⟩).countP Thread.counted := by
  have hset := countP_set Thread.counted hi ⟨new, pending⟩
  cases h with
  | starts | early | locks | waits | acts | leaves | wakes | cancels | retakes | regains | ends =>
    simp only [Thread.counted, Bool.false_eq_true, if_true, if_false] at hset
    omega

theorem moves_canceled (h : Moves s i pending work old new owner counter lines) (hb : s.busy = true)
    (hold : old ≠ .handler false) : new ≠ .handler false ∧ new ≠ .ended false := by
  cases h with
  | leaves hb' =>
    rw [hb] at hb'
    cases hb'
  | @ends canceled =>
    cases canceled with
    | false => exact absurd rfl hold
    | true => simp
  | starts | early | locks | waits | acts | wakes | cancels | retakes | regains => simp

/-- What a thread does between its creation and its end is of no concern to `main`. -/
theorem mainOk_set (h : MainOk count threads lines main) (hi : threads[i]? = some ⟨old, pending⟩)
    (hold : old ≠ .absent) (hended : ∀ canceled, old ≠ .ended canceled) (hnew : new ≠ .absent) :
    MainOk count (threads.set i ⟨new, pending⟩) lines main := by
  cases main with
  | creating k =>
    obtain ⟨hle, hneg, hlines, hthreads⟩ := h
    refine ⟨hle, hneg, hlines, ?_⟩
    intro j u hj
    obtain ⟨rfl, rfl⟩ | ⟨-, hj⟩ := getElem?_set_cases hj
    · obtain ⟨hpending, hplace⟩ := hthreads j _ hi
      exact ⟨hpending, iff_of_false hnew fun h => hold (hplace.mpr h)⟩
    · exact hthreads j u hj
  | canceling k =>
    obtain ⟨hpos, hzero, hle, hlines, hthreads⟩ := h
    refine ⟨hpos, hzero, ?_, hlines, ?_⟩
    · rw [List.length_set]
      exact hle
    · intro j u hj
      obtain ⟨rfl, rfl⟩ | ⟨-, hj⟩ := getElem?_set_cases hj
      · obtain ⟨hpending, hplace, hend⟩ := hthreads j _ hi
        exact ⟨hpending, iff_of_false hnew fun h => hold (hplace.mpr h), fun h => absurd (hend h) (hended true)⟩
      · exact hthreads j u hj
  | joining k =>
    obtain ⟨hzero, hlt, hlines, hthreads⟩ := h
    refine ⟨hzero, ?_, hlines, ?_⟩
    · rw [List.length_set]
      exact hlt
    · intro j u hj
      obtain ⟨rfl, rfl⟩ | ⟨-, hj⟩ := getElem?_set_cases hj
      · obtain ⟨hpending, -, hend⟩ := hthreads j _ hi
        exact ⟨hpending, hnew, fun h => absurd (hend h) (hended true)⟩
      · exact hthreads j u hj
  | finished => exact absurd (h.2.2 _ (List.mem_of_getElem? hi)) (hended true)
  | undefined =>
    rw [MainOk, List.length_set]
    exact h

theorem mem_set_cases {P : Thread → Prop} {u : Thread} (h : ∀ t ∈ threads, P t) (hu : P u) :
    ∀ t ∈ threads.set i u, P t := by
  intro t ht
  obtain ht | rfl := List.mem_or_eq_of_mem_set ht
  · exact h t ht
  · exact hu

end Parts

theorem inv_init (threads : Nat) (count : Int) : Inv threads count (init threads count) := by
  have hthread : ∀ t ∈ (init threads count).threads, t = ⟨.absent, false⟩ := fun t ht => List.eq_of_mem_replicate ht
  constructor
  case length => exact List.length_replicate
  case busy => rfl
  case owned =>
    apply owned_none
    intro t ht
    rw [hthread t ht]
    rfl
  case counter =>
    have hzero : (init threads count).threads.countP Thread.counted = 0 := by
      apply List.countP_eq_zero.mpr
      intro t ht
      rw [hthread t ht]
      exact Bool.false_ne_true
    rw [hzero]
    rfl
  case canceled =>
    intro t ht
    rw [hthread t ht]
    exact ⟨Place.noConfusion, Place.noConfusion⟩
  case main =>
    refine ⟨Int.le_refl count, fun _ => rfl, rfl, ?_⟩
    intro i t hi
    rw [hthread t (List.mem_of_getElem? hi)]
    exact ⟨rfl, iff_of_true rfl (by omega)⟩

theorem inv_moves {threads : Nat} {count counter : Int} {pending work : Bool} {old new : Place} {owner : Option Nat}
    {lines : List Line} (h : Inv threads count s) (hi : s.threads[i]? = some ⟨old, pending⟩)
    (hm : Moves s i pending work old new owner counter lines) :
    Inv threads count { s with
      counter := counter
      owner := owner
      threads := s.threads.set i ⟨new, pending⟩
      printed := s.printed ++ lines } := by
  obtain ⟨hold, hended, hnew, hlines⟩ := moves_frame hm
  constructor
  case length => exact List.length_set.trans h.length
  case busy => exact h.busy
  case owned => exact moves_owned hm hi h.owned
  case counter => exact moves_counter hm hi h.counter
  case canceled =>
    exact mem_set_cases h.canceled (moves_canceled hm h.busy (h.canceled _ (List.mem_of_getElem? hi)).1)
  case main =>
    have hprinted : mainLines (s.printed ++ lines) = mainLines s.printed := by
      rw [mainLines, List.filter_append]
      exact (congrArg _ hlines).trans (List.append_nil _)
    rw [hprinted]
    exact mainOk_set h.main hi hold hended hnew

/-- A step of `main` that changes no thread. -/
theorem inv_main {threads : Nat} {count : Int} {main : Main} {printed : List Line} (h : Inv threads count s)
    (hm : MainOk count s.threads (mainLines printed) main) :
    Inv threads count { s with main := main, printed := printed } := by
  constructor
  case length => exact h.length
  case busy => exact h.busy
  case owned => exact h.owned
  case counter => exact h.counter
  case canceled => exact h.canceled
  case main => exact hm

theorem mainOk_create {threads : List Thread} {count : Int} {lines : List Line} {k : Nat} {u : Thread}
    (h : MainOk count threads lines (.creating k)) (hi : threads[k]? = some u) :
    u.place = .absent ∧ MainOk count (threads.set k { u with place := .starting }) lines (.creating (k + 1)) := by
  obtain ⟨hle, hneg, hlines, hthreads⟩ := h
  obtain ⟨hpending, hplace⟩ := hthreads k u hi
  refine ⟨hplace.mpr fun hk => absurd hk.2 (Int.lt_irrefl _), by omega, ?_, hlines, ?_⟩
  · intro hcount
    have hk := hneg hcount
    omega
  · intro j v hj
    obtain ⟨rfl, rfl⟩ | ⟨hne, hj⟩ := getElem?_set_cases hj
    · refine ⟨hpending, iff_of_false Place.noConfusion ?_⟩
      intro hnot
      exact hnot ⟨hle, by omega⟩
    · obtain ⟨hpending', hplace'⟩ := hthreads j v hj
      refine ⟨hpending', hplace'.trans (not_congr (and_congr_right fun _ => ?_))⟩
      omega

theorem mainOk_created {threads : List Thread} {count k : Int} {lines : List Line}
    (h : MainOk count threads lines (.creating k)) (hge : threads.length ≤ k) :
    MainOk count threads lines (.canceling 0) := by
  obtain ⟨hle, hneg, hlines, hthreads⟩ := h
  refine ⟨?_, .inl rfl, Nat.zero_le _, hlines, ?_⟩
  · by_contra hcount
    have hk := hneg (Int.not_le.mp hcount)
    omega
  · intro i t hi
    obtain ⟨hpending, hplace⟩ := hthreads i t hi
    have hlt := (List.getElem?_eq_some_iff.mp hi).1
    refine ⟨?_, hplace.trans (by omega), fun h => absurd h (Nat.not_lt_zero i)⟩
    rw [hpending]
    exact iff_of_false Bool.false_ne_true (Nat.not_lt_zero i)

theorem mainOk_cancel {threads : List Thread} {count : Int} {lines : List Line} {k : Nat} {u : Thread}
    (h : MainOk count threads lines (.canceling k)) (hi : threads[k]? = some u) (hplace : u.place ≠ .absent) :
    MainOk count (threads.set k { u with pending := true }) lines (.joining k) := by
  obtain ⟨hpos, hzero, hle, hlines, hthreads⟩ := h
  -- The first thread that `main` cancels shows where the loop has started.
  have hcount : count = 0 := by
    have hk := mt (hthreads k u hi).2.1.mpr hplace
    omega
  refine ⟨hcount, ?_, hlines, ?_⟩
  · rw [List.length_set]
    exact (List.getElem?_eq_some_iff.mp hi).1
  · intro j v hj
    obtain ⟨rfl, rfl⟩ | ⟨hne, hj⟩ := getElem?_set_cases hj
    · obtain ⟨-, -, hend⟩ := hthreads j u hi
      exact ⟨iff_of_true rfl (Nat.le_refl j), hplace, hend⟩
    · obtain ⟨hpending, habsent, hend⟩ := hthreads j v hj
      refine ⟨hpending.trans (by omega), ?_, hend⟩
      intro hv
      have hj' := habsent.mp hv
      omega

theorem mainOk_join {threads : List Thread} {count : Int} {lines : List Line} {k : Nat} {pending : Bool}
    (h : MainOk count threads lines (.joining k)) (hi : threads[k]? = some ⟨.ended true, pending⟩) :
    MainOk count threads (lines ++ [.canceled k]) (.canceling (k + 1)) := by
  obtain ⟨hzero, hlt, hlines, hthreads⟩ := h
  refine ⟨Int.le_of_eq hzero.symm, .inr hzero, hlt, ?_, ?_⟩
  · rw [hlines, List.range_succ, List.map_append]
    rfl
  · intro j v hj
    obtain ⟨hpending, habsent, hend⟩ := hthreads j v hj
    refine ⟨hpending.trans Nat.lt_succ_iff.symm, iff_of_false habsent (by omega), ?_⟩
    intro hj'
    obtain hlt' | rfl := Nat.lt_succ_iff_lt_or_eq.mp hj'
    · exact hend hlt'
    · rw [hi] at hj
      cases hj
      rfl

theorem inv_turn {threads : Nat} {count : Int} {work : Bool} (h : Inv threads count s) (ht : Turn s work t) :
    Inv threads count t := by
  have hmain := h.main
  cases ht with
  | @creates k u hm hi =>
    rw [hm] at hmain
    obtain ⟨habsent, hnext⟩ := mainOk_create hmain hi
    obtain ⟨place, pending⟩ := u
    cases habsent
    constructor
    case length => exact List.length_set.trans h.length
    case busy => exact h.busy
    case owned => exact h.owned.keep hi rfl
    case counter => exact counter_set h.counter hi rfl
    case canceled => exact mem_set_cases h.canceled ⟨Place.noConfusion, Place.noConfusion⟩
    case main => exact hnext
  | @overruns k hm hlt hneg =>
    rw [hm] at hmain
    apply inv_main h
    rintro ⟨hpos, -⟩
    have hle := hmain.1
    omega
  | @created k hm hge =>
    rw [hm] at hmain
    exact inv_main h (mainOk_created hmain hge)
  | @cancels k u hm hi hplace =>
    rw [hm] at hmain
    constructor
    case length => exact List.length_set.trans h.length
    case busy => exact h.busy
    case owned => exact h.owned.keep hi rfl
    case counter => exact counter_set h.counter hi rfl
    case canceled => exact mem_set_cases h.canceled (h.canceled u (List.mem_of_getElem? hi))
    case main => exact mainOk_cancel hmain hi hplace
  | @misses k u hm hi hplace =>
    rw [hm] at hmain
    obtain ⟨-, -, -, -, hthreads⟩ := hmain
    have hlt : (k : Int) < count := (hthreads k u hi).2.1.mp hplace
    have hlength := (List.getElem?_eq_some_iff.mp hi).1
    apply inv_main h
    rintro ⟨-, hzero | hzero⟩
    · omega
    · omega
  | @finishes k hm hi =>
    rw [hm] at hmain
    obtain ⟨hpos, hzero, hle, hlines, hthreads⟩ := hmain
    have hlength := List.getElem?_eq_none_iff.mp hi
    apply inv_main h
    refine ⟨⟨hpos, by omega⟩, ?_, ?_⟩
    · rw [hlines, Nat.le_antisymm hle hlength]
    · intro u hu
      obtain ⟨j, hj⟩ := List.getElem?_of_mem hu
      have hlt := (List.getElem?_eq_some_iff.mp hj).1
      exact (hthreads j u hj).2.2 (Nat.lt_of_lt_of_le hlt hlength)
  | @joins k canceled pending hm hi =>
    rw [hm] at hmain
    have hcanceled := (h.canceled _ (List.mem_of_getElem? hi)).2
    cases canceled with
    | false => exact absurd rfl hcanceled
    | true =>
      apply inv_main h
      rw [mainLines, List.filter_append]
      exact mainOk_join hmain hi
  | moves hi hmoves => exact inv_moves h hi hmoves

theorem rest_moves {pending work : Bool} {old new : Place} {owner : Option Nat} {counter : Int} {lines : List Line}
    (h : Moves s i pending work old new owner counter lines) :
    if work then new.rank < old.rank else new.rank = old.rank + 2 := by
  cases h with
  | starts | early | locks | waits | acts | leaves | wakes | cancels | retakes | regains | ends =>
    simp [Place.rank]

theorem rest_set {old : Place} {pending : Bool} (new : Place) (pending' : Bool)
    (hi : s.threads[i]? = some ⟨old, pending⟩) :
    ((s.threads.set i ⟨new, pending'⟩).map (fun t => t.place.rank)).sum + old.rank =
      (s.threads.map (fun t => t.place.rank)).sum + new.rank :=
  sum_map_set (fun t : Thread => t.place.rank) hi ⟨new, pending'⟩

theorem rest_turn {threads : Nat} {count : Int} {work : Bool} (h : Inv threads count s) (ht : Turn s work t) :
    if work then t.rest < s.rest else t.rest ≤ s.rest + 2 := by
  have hmain := h.main
  cases ht with
  | @creates k u hm hi =>
    rw [hm] at hmain
    obtain ⟨habsent, -⟩ := mainOk_create hmain hi
    obtain ⟨place, pending⟩ := u
    cases habsent
    have hsum := rest_set .starting pending hi
    have hsame : Place.starting.rank = Place.absent.rank := rfl
    rw [hsame] at hsum
    have hlt := (List.getElem?_eq_some_iff.mp hi).1
    rw [if_pos rfl, State.rest, State.rest, hm, Main.rank, Main.rank, List.length_set, Nat.add_right_cancel hsum]
    simp only [Int.ofNat_eq_natCast]
    omega
  | @overruns k hm hlt hneg =>
    simp only [State.rest, hm, Main.rank, if_true]
    omega
  | @created k hm hge =>
    simp only [State.rest, hm, Main.rank, if_true]
    omega
  | @cancels k u hm hi hplace =>
    have hsum := rest_set u.place true hi
    have hlt := (List.getElem?_eq_some_iff.mp hi).1
    rw [if_pos rfl, State.rest, State.rest, hm, Main.rank, Main.rank, List.length_set, Nat.add_right_cancel hsum]
    omega
  | @misses k u hm hi hplace =>
    simp only [State.rest, hm, Main.rank, if_true]
    omega
  | @finishes k hm hi =>
    simp only [State.rest, hm, Main.rank, if_true]
    omega
  | @joins k canceled pending hm hi =>
    have hlt := (List.getElem?_eq_some_iff.mp hi).1
    simp only [State.rest, hm, Main.rank, if_true]
    omega
  | @moves i pending work old new owner counter lines hi hmoves =>
    have hrank := rest_moves hmoves
    have hsum := rest_set new pending hi
    simp only [State.rest, List.length_set]
    split_ifs at hrank ⊢
    · omega
    · omega

theorem thread_stuck {u : Thread} (hstuck : Stuck step isWork s) (hi : s.threads[i]? = some u) :
    threadRoutine s i u = none := by
  have hnone := hstuck (.thread i) rfl
  rwa [step, hi, Option.bind_some] at hnone

/-- Whoever has the mutex can go on. -/
theorem free_of_stuck {threads : Nat} {count : Int} (h : Inv threads count s) (hstuck : Stuck step isWork s) :
    s.owner = none := by
  rw [Option.eq_none_iff_forall_ne_some]
  intro i ho
  have howned := h.owned
  rw [ho] at howned
  obtain ⟨⟨place, pending⟩, hi, hholds⟩ := howned.entry
  have hnone := thread_stuck hstuck hi
  cases place with
  | testing =>
    simp only [threadRoutine, h.busy, if_true] at hnone
    split_ifs at hnone
  | handler => cases hnone
  | absent | starting | locking | waiting | woken | canceled | ended => cases hholds

/-- A thread that has been created and cancelled can go on, until it has ended. -/
theorem ended_of_stuck {threads : Nat} {count : Int} {place : Place} (h : Inv threads count s)
    (hstuck : Stuck step isWork s) (hi : s.threads[i]? = some ⟨place, true⟩) (hplace : place ≠ .absent) :
    ∃ canceled, place = .ended canceled := by
  have hfree := free_of_stuck h hstuck
  have hnone := thread_stuck hstuck hi
  cases place with
  | absent => exact absurd rfl hplace
  | ended canceled => exact ⟨canceled, rfl⟩
  | starting | handler => cases hnone
  | testing =>
    simp only [threadRoutine, h.busy, if_true] at hnone
    cases hnone
  | waiting =>
    simp only [threadRoutine, if_true] at hnone
    cases hnone
  | locking | woken | canceled =>
    simp only [threadRoutine, hfree, if_true] at hnone
    cases hnone

theorem rest_init (threads : Nat) (count : Int) : (init threads count).rest ≤ 9 * threads + 2 := by
  have hsum := sum_map_le (l := (init threads count).threads) (f := fun t => t.place.rank) (b := 6) (by
    intro t ht
    rw [List.eq_of_mem_replicate ht]
    exact Nat.le_refl 6)
  have hlength : (init threads count).threads.length = threads := List.length_replicate
  have hmain : (init threads count).main = .creating count := rfl
  rw [hlength] at hsum
  rw [State.rest, hlength, hmain, Main.rank]
  omega

end Turns

end C11AndC.Cancel
