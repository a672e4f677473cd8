import C11AndC.Crew.Reuse

namespace C11AndC.Crew

open C11AndC.Library

/-- The bytes that `worker_routine` allocates for the path of an entry. -/
def pathBlock : Nat := 40

/-- The field `name_max`, which gives the bytes that `crew_start` allocates for the string. Where `pathconf`
knows no limit, it is taken to be 256; the null byte comes on top. -/
def nameMax (limit : Option Nat) : Nat := limit.getD 256 + 1

/-- Whether a step writes behind the end of a block, when it builds the path of an entry or copies the string
of a request. -/
def overruns (pathconf : Path → Option Nat) (s : State) : Event → Bool
  | .outside i (.readdir (.name name)) =>
      match s.workers[i]? with
      | some (.reading work _) =>
          name ≠ dot ∧ name ≠ dotdot ∧ (join work.path name).length + 1 > pathBlock
      | _ => false
  | .caller j _ =>
      match s.callers[j]? with
      | some c => (c.stage = .entering ∨ c.stage = .wokenBusy) ∧ s.workCount ≤ 0 ∧
          c.work.string.length + 1 > nameMax (pathconf c.work.path)
      | none => false
  | _ => false

/-- A step together with whether anything has been written behind a block, after which nothing is certain. -/
def heapStep (pathconf : Path → Option Nat) : State × Bool → Event → Option (State × Bool) :=
  flagged step (overruns pathconf)

/-- Nothing is written behind a block and the books of the crew are right all along a run exactly if no
directory of the run fails to open and every path and string has room in its block. -/
theorem work_count_iff (pathconf : Path → Option Nat) (size : Nat) (es : List Event) :
    Always (heapStep pathconf) (fun s => s.2 = false ∧ Accounted s.1) (fresh size, false) es ↔
      Each step (fun s e => e.fails = false ∧ overruns pathconf s e = false) (fresh size) es := by
  rw [heapStep, always_flagged, always_accounted_iff, each_and]

/-- One worker, and a request for a directory that cannot be opened: the count stays at
one, and the caller is not woken any more. -/
theorem work_count_lost : ∃ es s, run step (fresh 1) es = some s ∧ s.workCount = 1 ∧
    s.queue = [] ∧ s.workers = [.top] ∧ s.callers.any Caller.blocked = true ∧
    ¬ Always (heapStep fun _ => none) (fun s => s.2 = false ∧ Accounted s.1) (fresh 1, false) es := by
  refine ⟨[.call ⟨['d'], []⟩, .caller 0 none, .worker 0 none, .worker 0 none,
    .outside 0 (.lstat .directory), .outside 0 (.opendir false)], _, rfl, rfl, rfl, rfl, rfl, ?_⟩
  intro h
  have hacc := always_run (always_flagged.mp h).1 rfl
  exact absurd hacc.count (by decide)

/-- In a run whose system calls succeed nothing is written behind a block and there is always a worker for
the outstanding work exactly if no more requests are put to the crew than it has workers and every path and
string has room in its block. -/
theorem crew_reuse_iff (pathconf : Path → Option Nat) (size : Int) (s₀ s : State)
    (hc : crewCreate size = .ok s₀) (es : List Event) (hr : run step s₀ es = some s)
    (hf : Each step (fun _ e => e.fails = false) s₀ es) :
    Always (heapStep pathconf) (fun s => s.2 = false ∧ Staffed s.1) (s₀, false) es ↔
      s.requested.length ≤ crewSize ∧ Each step (fun s e => overruns pathconf s e = false) s₀ es := by
  rw [heapStep, always_flagged, always_staffed_iff hc hr hf]

/-- Request `k` for one file, done by worker `k` while the others have not run yet. -/
def oneFile (k : Nat) : List Event :=
  [.call ⟨['f'], []⟩, .caller k none, .worker k none, .worker k none, .outside k (.lstat .regular),
    .outside k .searched, .worker k none, .caller k none]

/-- Request `k` for a directory with one file, both done by worker `k`. -/
def oneDirectory (k : Nat) : List Event :=
  [.call ⟨['d'], ['x']⟩, .caller k none, .worker k none, .worker k none, .outside k (.lstat .directory),
    .outside k (.opendir true), .outside k (.readdir (.name dot)), .outside k (.readdir (.name ['f'])),
    .worker k none, .outside k (.readdir .endOfDirectory), .worker k none, .worker k none,
    .outside k (.lstat .regular), .outside k .searched, .worker k none, .caller k none]

/-- A crew that is used three times. -/
def threeRequests : List Event := oneDirectory 0 ++ oneFile 1 ++ oneDirectory 2

theorem crew_reuse_iff_three : ∃ s₀ s, crewCreate 5 = .ok s₀ ∧ run step s₀ threeRequests = some s ∧
    s.requested.length = 3 ∧ s.callers.map Caller.stage = [.returned, .returned, .returned] ∧
    Always (heapStep fun _ => none) (fun s => s.2 = false ∧ Staffed s.1) (s₀, false) threeRequests :=
  ⟨_, _, rfl, rfl, rfl, rfl, (crew_reuse_iff (fun _ => none) 5 _ _ rfl threeRequests rfl
    (each_of_forall (by decide))).mpr ⟨by decide, by decide⟩⟩

/-- After five requests all the workers have returned, and the sixth waits for ever. -/
theorem crew_reuse_stranded : ∃ s₀ es s, crewCreate 5 = .ok s₀ ∧
    (∀ e ∈ es, e.fails = false) ∧ run step s₀ es = some s ∧ s.workCount = 1 ∧
    s.workers = List.replicate 5 .exited ∧ s.callers.map Caller.stage =
      [.returned, .returned, .returned, .returned, .returned, .blockedDone] ∧
    ¬ Always (heapStep fun _ => none) (fun s => s.2 = false ∧ Staffed s.1) (s₀, false) es := by
  refine ⟨_, oneFile 0 ++ oneFile 1 ++ oneFile 2 ++ oneFile 3 ++ oneFile 4 ++
    [.call ⟨['f'], []⟩, .caller 5 none], _, rfl, by decide, rfl, rfl, rfl, rfl, fun h => ?_⟩
  obtain ⟨w, hw, hne⟩ := always_run (always_flagged.mp h).1 rfl (by decide)
  have hw' : w ∈ List.replicate 5 Worker.exited := hw
  exact hne (List.eq_of_mem_replicate hw')

end C11AndC.Crew
