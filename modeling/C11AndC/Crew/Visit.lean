import C11AndC.Crew.Count
import Mathlib.Data.List.Perm.Subperm
import Mathlib.Data.List.Nodup
import Mathlib.Data.List.Lattice

namespace C11AndC.Crew

open C11AndC.Library

/-- What the system calls find under the paths. The entries of a directory, `.` and `..`
among them, have different names without a slash. -/
structure FileSystem where
  kind : Path → Kind
  names : Path → List (List Char)
  nodup : ∀ path, (names path).Nodup
  slashless : ∀ path name, name ∈ names path → '/' ∉ name

/-- The answer of `readdir_r` when so many entries have been read. -/
def FileSystem.entry (fs : FileSystem) (path : Path) (read : Nat) : Entry :=
  match (fs.names path)[read]? with
  | some name => .name name
  | none => .endOfDirectory

/-- The outcome is the one that the file system gives, with every directory open to be
read. -/
def FileSystem.agrees (fs : FileSystem) : Worker → Outcome → Bool
  | .lstat work, .lstat kind => kind = fs.kind work.path
  | .opening _, .opendir opened => opened
  | .reading work read, .readdir entry => entry = fs.entry work.path read
  | _, _ => true

/-- A step of a crew that works on the file system for the one request that it has. -/
def visit (fs : FileSystem) (s : State) (e : Event) : Option State :=
  match e with
  | .call _ => none
  | .outside i outcome => do
      if fs.agrees (← s.workers[i]?) outcome then step s e else none
  | _ => step s e

/-- A fresh crew, with a thread that calls `crew_start`. -/
def requestOn (size : Nat) (work : Work) : State :=
  { fresh size with callers := [⟨work, .entering⟩] }

/-- The paths that can be reached from a path without a link. -/
inductive Reachable (fs : FileSystem) (start : Path) : Path → Prop where
  | start : Reachable fs start start
  | entry {path name} (h : Reachable fs start path) (hd : fs.kind path = .directory)
      (hn : name ∈ fs.names path) (h₁ : name ≠ dot) (h₂ : name ≠ dotdot) :
      Reachable fs start (join path name)

/-- The paths of the given entries of a directory. -/
def below (path : Path) (names : List (List Char)) : List Path :=
  (names.filter (fun name => name ≠ dot ∧ name ≠ dotdot)).map (join path)

def kids (fs : FileSystem) (path : Path) : List Path :=
  if fs.kind path = .directory then below path (fs.names path) else []

def Worker.paths (w : Worker) : List Path := (w.item.map Work.path).toList

/-- The entries that a worker has put into the queue for its item. -/
def Worker.added (fs : FileSystem) : Worker → List Path
  | .reading work read => below work.path ((fs.names work.path).take read)
  | .adding work read _ => below work.path ((fs.names work.path).take (read - 1))
  | .finishing work => kids fs work.path
  | _ => []

/-- A worker is where the file system leads it with its item. -/
def WorkerOk (fs : FileSystem) : Worker → Prop
  | .opening work => fs.kind work.path = .directory
  | .reading work _ => fs.kind work.path = .directory
  | .adding work read newWork => fs.kind work.path = .directory ∧ ∃ k name, read = k + 1 ∧
      (fs.names work.path)[k]? = some name ∧ name ≠ dot ∧ name ≠ dotdot ∧
      newWork.path = join work.path name
  | .searching work => fs.kind work.path ≠ .directory
  | _ => True

/-- The paths that have ever been in the queue. -/
def known (s : State) : List Path := s.taken ++ s.queue.map Work.path

/-- Where the one call of `crew_start` is, and what it has requested. -/
def CallerOk (start : Work) (s : State) : Prop :=
  ∃ stage, s.callers = [⟨start, stage⟩] ∧
    s.requested = (if stage = .entering ∨ stage = .blockedBusy ∨ stage = .wokenBusy then []
      else [start.path]) ∧ (stage = .returned → s.workCount = 0)

/-- What is in the hands of the workers, and what they have added for it. -/
structure Visited (fs : FileSystem) (start : Work) (s : State) : Prop where
  surplus : surplus s = 0
  callers : CallerOk start s
  known : (known s).Perm (s.requested ++ s.finished.flatMap (kids fs) ++
    s.workers.flatMap (Worker.added fs))
  taken : s.taken.Perm (s.finished ++ s.workers.flatMap Worker.paths)
  workers : ∀ w ∈ s.workers, WorkerOk fs w
  nodup : (Crew.known s).Nodup
  reachable : ∀ path ∈ Crew.known s, Reachable fs start.path path

section Paths

variable {fs : FileSystem} {start path path' : Path} {name name' : List Char}

theorem join_inj (h : join path name = join path' name') (hn : '/' ∉ name) (hn' : '/' ∉ name') :
    path = path' ∧ name = name' := by
  obtain ⟨a, h₁, h₂⟩ | ⟨a, h₁, h₂⟩ := List.append_eq_append_iff.mp h
  · cases a with
    | nil =>
      cases h₂
      exact ⟨by simpa using h₁.symm, rfl⟩
    | cons c a =>
      obtain ⟨rfl, h₃⟩ := List.cons.inj h₂
      refine absurd ?_ hn
      rw [h₃]
      exact List.mem_append_right a (List.mem_cons_self ..)
  · cases a with
    | nil =>
      cases h₂
      exact ⟨by simpa using h₁, rfl⟩
    | cons c a =>
      obtain ⟨rfl, h₃⟩ := List.cons.inj h₂
      refine absurd ?_ hn'
      rw [h₃]
      exact List.mem_append_right a (List.mem_cons_self ..)

theorem mem_kids : path' ∈ kids fs path ↔ fs.kind path = .directory ∧
    ∃ name ∈ fs.names path, (name ≠ dot ∧ name ≠ dotdot) ∧ join path name = path' := by
  unfold kids
  split_ifs with hd
  · simp [below, hd, and_assoc]
  · simp [hd]

theorem length_reachable (h : Reachable fs start path) : start.length ≤ path.length := by
  induction h with
  | start => exact Nat.le_refl _
  | entry h hd hn h₁ h₂ ih =>
    rw [join, List.length_append]
    exact Nat.le_trans ih (Nat.le_add_right _ _)

theorem nodup_kids (fs : FileSystem) (path : Path) : (kids fs path).Nodup := by
  unfold kids
  split_ifs
  · apply List.Nodup.map_on _ ((fs.nodup path).filter _)
    intro x hx y hy hxy
    exact (join_inj hxy (fs.slashless path x (List.mem_of_mem_filter hx))
      (fs.slashless path y (List.mem_of_mem_filter hy))).2
  · exact List.nodup_nil

/-- A path has no more than one parent. -/
theorem kids_disjoint (h : path ≠ path') : List.Disjoint (kids fs path) (kids fs path') := by
  intro q hq hq'
  obtain ⟨-, n, hn, -, rfl⟩ := mem_kids.mp hq
  obtain ⟨-, n', hn', -, heq⟩ := mem_kids.mp hq'
  exact h (join_inj heq (fs.slashless _ _ hn') (fs.slashless _ _ hn)).1.symm

theorem nodup_flatMap_kids {paths : List Path} (h : paths.Nodup) :
    (paths.flatMap (kids fs)).Nodup := by
  rw [List.nodup_flatMap]
  refine ⟨fun path _ => nodup_kids fs path, ?_⟩
  exact List.Pairwise.imp (fun hne => kids_disjoint hne) h

end Paths

section Known

variable {fs : FileSystem} {start : Work} {s t : State}

/-- What a worker has added are entries of its item. -/
theorem added_sublist {w : Worker} (h : WorkerOk fs w) :
    (w.added fs).Sublist (w.paths.flatMap (kids fs)) := by
  have hkids : ∀ {path : Path} (k : Nat), fs.kind path = .directory →
      (below path ((fs.names path).take k)).Sublist ([path].flatMap (kids fs)) := by
    intro path k hd
    rw [List.flatMap_singleton, kids, if_pos hd]
    exact ((List.take_sublist k _).filter _).map _
  cases w with
  | reading work read => exact hkids read h
  | adding work read newWork => exact hkids (read - 1) h.1
  | finishing work =>
    simp only [Worker.added, Worker.paths, Worker.item, Option.map_some, Option.toList_some,
      List.flatMap_singleton]
    exact List.Sublist.refl _
  | _ => exact List.nil_sublist _

theorem flatMap_added_sublist {workers : List Worker} (h : ∀ w ∈ workers, WorkerOk fs w) :
    (workers.flatMap (Worker.added fs)).Sublist
      ((workers.flatMap Worker.paths).flatMap (kids fs)) := by
  induction workers with
  | nil => exact List.Sublist.refl _
  | cons w workers ih =>
    rw [List.flatMap_cons, List.flatMap_cons, List.flatMap_append]
    exact (added_sublist (h w (List.mem_cons_self ..))).append
      (ih (fun x hx => h x (List.mem_cons_of_mem _ hx)))

/-- All that is known are the start and entries of what has been taken. -/
theorem subperm_kids (hknown : (known s).Perm (s.requested ++ s.finished.flatMap (kids fs) ++
      s.workers.flatMap (Worker.added fs)))
    (htaken : s.taken.Perm (s.finished ++ s.workers.flatMap Worker.paths))
    (hworkers : ∀ w ∈ s.workers, WorkerOk fs w) :
    (known s).Subperm (s.requested ++ s.taken.flatMap (kids fs)) := by
  have hsub : (s.requested ++ s.finished.flatMap (kids fs) ++
      s.workers.flatMap (Worker.added fs)).Sublist (s.requested ++
      (s.finished ++ s.workers.flatMap Worker.paths).flatMap (kids fs)) := by
    rw [List.append_assoc, List.flatMap_append]
    exact ((flatMap_added_sublist hworkers).append_left _).append_left _
  refine hknown.subperm.trans (hsub.subperm.trans ?_)
  exact ((htaken.symm.flatMap_right _).append_left _).subperm

/-- New paths are new, since those that they are entries of have been taken once. -/
theorem nodup_known (hsub : (known s).Subperm (s.requested ++ s.taken.flatMap (kids fs)))
    (hreq : s.requested = [] ∨ s.requested = [start.path]) (hnodup : s.taken.Nodup)
    (hreach : ∀ path ∈ s.taken, Reachable fs start.path path) :
    (known s).Nodup ∧ ∀ path ∈ known s, Reachable fs start.path path := by
  have hkid : ∀ path ∈ s.taken.flatMap (kids fs), Reachable fs start.path path ∧
      start.path.length < path.length := by
    intro path hp
    obtain ⟨parent, hparent, hp⟩ := List.mem_flatMap.mp hp
    obtain ⟨hd, name, hn, ⟨h₁, h₂⟩, rfl⟩ := mem_kids.mp hp
    have hr := hreach parent hparent
    refine ⟨.entry hr hd hn h₁ h₂, ?_⟩
    have := length_reachable hr
    rw [join, List.length_append, List.length_cons]
    omega
  have hall : (s.requested ++ s.taken.flatMap (kids fs)).Nodup := by
    obtain hreq | hreq := hreq
    · rw [hreq]
      exact nodup_flatMap_kids hnodup
    · rw [hreq]
      refine List.nodup_cons.mpr ⟨fun hm => ?_, nodup_flatMap_kids hnodup⟩
      exact absurd (hkid _ hm).2 (Nat.lt_irrefl _)
  refine ⟨?_, fun path hp => ?_⟩
  · obtain ⟨l, hl, hlsub⟩ := hsub
    exact hl.nodup_iff.mp (hall.sublist hlsub)
  · obtain hm | hm := List.mem_append.mp (hsub.subset hp)
    · obtain hreq | hreq := hreq
      · rw [hreq] at hm
        exact absurd hm (List.not_mem_nil)
      · rw [hreq, List.mem_singleton] at hm
        rw [hm]
        exact .start
    · exact (hkid path hm).1

end Known

section Steps

variable {fs : FileSystem} {start work : Work} {s t : State} {i j : Nat} {w w' : Worker}

theorem requested_cases (h : CallerOk start s) :
    s.requested = [] ∨ s.requested = [start.path] := by
  obtain ⟨stage, -, hreq, -⟩ := h
  rw [hreq]
  split_ifs
  · exact .inl rfl
  · exact .inr rfl

theorem visited_of (h : Visited fs start s) (hs : Crew.surplus t = 0) (hc : CallerOk start t)
    (hknown : (known t).Perm (t.requested ++ t.finished.flatMap (kids fs) ++
      t.workers.flatMap (Worker.added fs)))
    (htaken : t.taken.Perm (t.finished ++ t.workers.flatMap Worker.paths))
    (hworkers : ∀ w ∈ t.workers, WorkerOk fs w)
    (hcase : (known t).Perm (known s) ∨ t.taken = s.taken) : Visited fs start t := by
  have hnodup : (known t).Nodup ∧ ∀ path ∈ known t, Reachable fs start.path path := by
    obtain hperm | heq := hcase
    · refine ⟨hperm.nodup_iff.mpr h.nodup, fun path hp => h.reachable path (hperm.subset hp)⟩
    · apply nodup_known (subperm_kids hknown htaken hworkers) (requested_cases hc)
      · rw [heq]
        exact h.nodup.sublist (List.sublist_append_left _ _)
      · rw [heq]
        exact fun path hp => h.reachable path (List.mem_append_left _ hp)
  exact ⟨hs, hc, hknown, htaken, hworkers, hnodup.1, hnodup.2⟩

theorem busy_of_paths (h : w'.paths = w.paths) : w'.busy = w.busy := by
  unfold Worker.paths at h
  unfold Worker.busy
  cases hw : w.item <;> cases hw' : w'.item <;> rw [hw, hw'] at h <;> simp at h ⊢

theorem flatMap_set_same {β : Type} (f : Worker → List β) {workers : List Worker}
    (hw : workers[i]? = some w) (h : f w' = f w) :
    ((workers.set i w').flatMap f).Perm (workers.flatMap f) := by
  obtain ⟨rest, h₁, h₂⟩ := flatMap_set f hw
  exact (h₂ w').trans (by rw [h]; exact h₁.symm)

theorem workersOk_set (h : ∀ w ∈ s.workers, WorkerOk fs w) (hok : WorkerOk fs w') :
    ∀ w ∈ s.workers.set i w', WorkerOk fs w := by
  intro x hx
  obtain hx | rfl := List.mem_or_eq_of_mem_set hx
  · exact h x hx
  · exact hok

/-- A worker moves on with its item, or without one. -/
theorem visited_move (h : Visited fs start s) (hw : s.workers[i]? = some w)
    (hpaths : w'.paths = w.paths) (hadded : w'.added fs = w.added fs) (hok : WorkerOk fs w') :
    Visited fs start (s.setWorker i w') := by
  refine visited_of h ?_ h.callers ?_ ?_ (workersOk_set h.workers hok) (.inr rfl)
  · rw [surplus_setWorker hw, busy_of_paths hpaths, h.surplus]
    omega
  · exact h.known.trans ((flatMap_set_same _ hw hadded).symm.append_left _)
  · exact h.taken.trans ((flatMap_set_same _ hw hpaths).symm.append_left _)

theorem idle_of_busy (fs : FileSystem) (h : w.busy = false) : w.paths = [] ∧ w.added fs = [] := by
  cases w <;> first | exact ⟨rfl, rfl⟩ | cases h

theorem visited_take (h : Visited fs start s) (hw : s.workers[i]? = some w)
    (hb : w.busy = false) : Visited fs start (s.take i) := by
  have hs := (surplus_take hw hb).trans h.surplus
  obtain ⟨hpaths, hadded⟩ := idle_of_busy fs hb
  unfold State.take at hs ⊢
  split at hs
  · exact visited_move h hw hpaths.symm hadded.symm trivial
  · rename_i work queue hq
    apply visited_of h hs h.callers _ _ (workersOk_set h.workers trivial)
    · left
      simp only [known, hq, List.map_cons, List.append_assoc]
      exact List.Perm.refl _
    · have hk : (known s).Perm _ := h.known
      simp only [known, State.setWorker, hq, List.map_cons, List.append_assoc] at hk ⊢
      refine hk.trans ?_
      rw [← List.append_assoc, ← List.append_assoc]
      exact (flatMap_set_same _ hw hadded.symm).symm.append_left _
    · obtain ⟨rest, h₁, h₂⟩ := flatMap_set Worker.paths hw
      rw [hpaths, List.nil_append] at h₁
      have ht := h.taken
      rw [List.perm_iff_count] at h₁ ht ⊢
      intro a
      have h₂' := (h₂ (.lstat work)).count_eq a
      have h₁' := h₁ a
      have ht' := ht a
      simp only [State.setWorker, List.count_append, Worker.paths, Worker.item, Option.map_some,
        Option.toList_some] at h₂' ht' ⊢
      omega

/-- The item is finished with all its entries in the queue. -/
theorem visited_finish (h : Visited fs start s) (hw : s.workers[i]? = some (.finishing work)) :
    Visited fs start (s.finish i work) := by
  have hs := (surplus_finish hw).trans h.surplus
  have hpos := busy_count h.surplus hw rfl
  obtain ⟨stage, hcallers, hreq, hret⟩ := h.callers
  have hne : stage ≠ .returned := fun he => by rw [hret he] at hpos; omega
  have hknown : ∀ w', w'.added fs = [] → (known s).Perm (s.requested ++
      (s.finished ++ [work.path]).flatMap (kids fs) ++
      (s.workers.set i w').flatMap (Worker.added fs)) := by
    intro w' hw'
    obtain ⟨rest, h₁, h₂⟩ := flatMap_set (Worker.added fs) hw
    rw [List.perm_iff_count]
    intro a
    have hk := h.known.count_eq a
    have h₁' := h₁.count_eq a
    have h₂' := (h₂ w').count_eq a
    rw [hw', List.nil_append] at h₂'
    simp only [List.flatMap_append, List.flatMap_singleton, List.count_append,
      Worker.added] at hk h₁' ⊢
    omega
  have htaken : ∀ w', w'.paths = [] → s.taken.Perm (s.finished ++ [work.path] ++
      (s.workers.set i w').flatMap Worker.paths) := by
    intro w' hw'
    obtain ⟨rest, h₁, h₂⟩ := flatMap_set Worker.paths hw
    rw [List.perm_iff_count]
    intro a
    have hk := h.taken.count_eq a
    have h₁' := h₁.count_eq a
    have h₂' := (h₂ w').count_eq a
    rw [hw', List.nil_append] at h₂'
    simp only [List.count_append, Worker.paths, Worker.item, Option.map_some,
      Option.toList_some] at hk h₁' h₂' ⊢
    omega
  simp only [State.finish] at hs ⊢
  split_ifs at hs ⊢
  · refine visited_of h hs ?_ (hknown .exited rfl) (htaken .exited rfl)
      (workersOk_set h.workers trivial) (.inr rfl)
    refine ⟨stage.wake.getD stage, by simp [broadcast, hcallers], ?_, ?_⟩
    · cases stage <;> exact hreq
    · cases stage with
      | returned => exact absurd rfl hne
      | _ => exact fun he => Stage.noConfusion he
  · refine visited_of h hs ?_ (hknown .top rfl) (htaken .top rfl)
      (workersOk_set h.workers trivial) (.inr rfl)
    exact ⟨stage, hcallers, hreq, fun he => absurd he hne⟩

theorem flatMap_signal {β : Type} (f : Worker → List β) {workers workers' : List Worker}
    {woken : Option Nat} (hf : ∀ w w' : Worker, w.wake = some w' → f w' = f w)
    (h : signal workers woken = some workers') : (workers'.flatMap f).Perm (workers.flatMap f) := by
  obtain rfl | ⟨i, w, w', hw, hwake, rfl⟩ := signal_spec h
  · exact List.Perm.refl _
  · exact flatMap_set_same f hw (hf w w' hwake)

theorem wake_idle (fs : FileSystem) (h : w.wake = some w') :
    w'.paths = w.paths ∧ w'.added fs = w.added fs ∧ WorkerOk fs w' := by
  cases w with
  | blockedStart =>
    cases h
    exact ⟨rfl, rfl, trivial⟩
  | blockedWork =>
    cases h
    exact ⟨rfl, rfl, trivial⟩
  | _ => cases h

theorem workersOk_signal {workers workers' : List Worker} {woken : Option Nat}
    (h : signal workers woken = some workers') (hok : ∀ w ∈ workers, WorkerOk fs w) :
    ∀ w ∈ workers', WorkerOk fs w := by
  obtain rfl | ⟨i, w, w', hw, hwake, rfl⟩ := signal_spec h
  · exact hok
  · intro x hx
    obtain hx | rfl := List.mem_or_eq_of_mem_set hx
    · exact hok x hx
    · exact (wake_idle fs hwake).2.2

theorem below_succ {path : Path} {names : List (List Char)} {k : Nat} {name : List Char}
    (hk : names[k]? = some name) (h₁ : name ≠ dot) (h₂ : name ≠ dotdot) :
    below path (names.take (k + 1)) = below path (names.take k) ++ [join path name] := by
  rw [below, below, List.take_add_one, hk, Option.toList_some, List.filter_append,
    List.filter_singleton]
  simp [h₁, h₂]

/-- The next entry of the directory goes into the queue. -/
theorem visited_add {read : Nat} {newWork : Work} {woken : Option Nat} (h : Visited fs start s)
    (hw : s.workers[i]? = some (.adding work read newWork))
    (ht : (s.setWorker i (.reading work read)).add newWork woken = some t) :
    Visited fs start t := by
  have hs : Crew.surplus t = 0 := by
    rw [surplus_add ht, surplus_setWorker hw, h.surplus]
    rfl
  have hpos := busy_count h.surplus hw rfl
  obtain ⟨stage, hcallers, hreq, hret⟩ := h.callers
  have hne : stage ≠ .returned := fun he => by rw [hret he] at hpos; omega
  obtain ⟨hd, k, name, rfl, hk, h₁, h₂, hnew⟩ := h.workers _ (List.mem_of_getElem? hw)
  obtain ⟨workers, hsig, ht⟩ := Option.bind_eq_some_iff.mp ht
  cases ht
  refine visited_of h hs ⟨stage, hcallers, hreq, fun he => absurd he hne⟩ ?_ ?_
    (workersOk_signal hsig (workersOk_set h.workers hd)) (.inr rfl)
  · obtain ⟨rest, hr₁, hr₂⟩ := flatMap_set (Worker.added fs) hw
    have hsg := flatMap_signal (Worker.added fs) (fun w w' hw => (wake_idle fs hw).2.1) hsig
    rw [List.perm_iff_count]
    intro a
    have hkn := h.known.count_eq a
    have hr₁' := hr₁.count_eq a
    have hr₂' := (hr₂ (.reading work (k + 1))).count_eq a
    have hsg' := hsg.count_eq a
    simp only [State.setWorker, known, Worker.added, Nat.add_sub_cancel, below_succ hk h₁ h₂,
      List.map_append, List.map_cons, List.map_nil, hnew, List.count_append] at hkn hr₁' hr₂' hsg' ⊢
    omega
  · have hsg := flatMap_signal Worker.paths (fun w w' hw => (wake_idle fs hw).1) hsig
    have hmove : ((s.workers.set i (.reading work (k + 1))).flatMap Worker.paths).Perm
        (s.workers.flatMap Worker.paths) := flatMap_set_same _ hw rfl
    exact h.taken.trans ((hmove.symm.trans hsg.symm).append_left _)

theorem visited_worker {woken : Option Nat} (h : Visited fs start s)
    (ht : workerRoutine s i woken = some t) : Visited fs start t := by
  obtain ⟨w, hw, ht⟩ := Option.bind_eq_some_iff.mp ht
  have hstart : w.busy = false → Visited fs start (s.setWorker i
      (if s.workCount = 0 then .blockedStart else .top)) := by
    intro hb
    obtain ⟨hpaths, hadded⟩ := idle_of_busy fs hb
    split_ifs
    · exact visited_move h hw hpaths.symm hadded.symm trivial
    · exact visited_move h hw hpaths.symm hadded.symm trivial
  cases w with
  | starting =>
    cases ht
    exact hstart rfl
  | wokenStart =>
    cases ht
    exact hstart rfl
  | top =>
    cases ht
    exact visited_take h hw rfl
  | wokenWork =>
    cases ht
    exact visited_take h hw rfl
  | adding work read newWork => exact visited_add h hw ht
  | finishing work =>
    cases ht
    exact visited_finish h hw
  | blockedStart | blockedWork | lstat | opening | reading | searching | exited => cases ht

theorem below_skip {path : Path} {names : List (List Char)} {k : Nat} {name : List Char}
    (hk : names[k]? = some name) (hn : name = dot ∨ name = dotdot) :
    below path (names.take (k + 1)) = below path (names.take k) := by
  have hf : ¬ (name ≠ dot ∧ name ≠ dotdot) := by
    rintro ⟨h₁, h₂⟩
    exact hn.elim h₁ h₂
  rw [below, below, List.take_add_one, hk, Option.toList_some, List.filter_append,
    List.filter_singleton]
  simp [hf]

theorem entry_name {path : Path} {read : Nat} {name : List Char}
    (h : Entry.name name = fs.entry path read) : (fs.names path)[read]? = some name := by
  unfold FileSystem.entry at h
  split at h
  · rename_i n hn
    cases h
    exact hn
  · cases h

theorem entry_end {path : Path} {read : Nat}
    (h : Entry.failure = fs.entry path read ∨ Entry.endOfDirectory = fs.entry path read) :
    (fs.names path).length ≤ read := by
  unfold FileSystem.entry at h
  split at h
  · obtain h | h := h <;> cases h
  · rename_i hn
    exact List.getElem?_eq_none_iff.mp hn

/-- Between the sections a worker does what the file system makes it do. -/
theorem visited_outside {outcome : Outcome} (h : Visited fs start s)
    (hw : s.workers[i]? = some w) (ha : fs.agrees w outcome = true)
    (ho : w.outside outcome = some w') : Visited fs start (s.setWorker i w') := by
  have hok := h.workers w (List.mem_of_getElem? hw)
  obtain ⟨work, kind, rfl, rfl, hk⟩ | ⟨work, rfl, rfl, rfl⟩ | ⟨work, rfl, rfl, rfl⟩ |
    ⟨work, read, rfl, hout, rfl⟩ | ⟨work, read, name, rfl, rfl, hn⟩ | ⟨work, rfl, rfl, rfl⟩ :=
    outside_cases ho
  · have hkind : kind = fs.kind work.path := of_decide_eq_true ha
    obtain ⟨rfl, rfl⟩ | ⟨rfl, rfl⟩ | ⟨hk, rfl⟩ := hk
    · exact visited_move h hw rfl rfl hkind.symm
    · exact visited_move h hw rfl rfl (by rw [WorkerOk, ← hkind]; exact Kind.noConfusion)
    · refine visited_move h hw rfl ?_ trivial
      rw [Worker.added, kids, ← hkind, if_neg (by rintro rfl; simp at hk)]
      rfl
  · exact visited_move h hw rfl rfl hok
  · cases ha
  · have hlen : (fs.names work.path).length ≤ read := by
      obtain rfl | rfl := hout
      · exact entry_end (.inl (of_decide_eq_true ha))
      · exact entry_end (.inr (of_decide_eq_true ha))
    refine visited_move h hw rfl ?_ trivial
    have hd : fs.kind work.path = .directory := hok
    rw [Worker.added, Worker.added, kids, if_pos hd, List.take_of_length_le hlen]
  · have hname := entry_name (of_decide_eq_true ha)
    obtain ⟨hdot, rfl⟩ | ⟨hdot, rfl⟩ := hn
    · refine visited_move h hw rfl ?_ hok
      rw [Worker.added, Worker.added, below_skip hname hdot]
    · exact visited_move h hw rfl rfl ⟨hok, read, name, rfl, hname, hdot.1, hdot.2, rfl⟩
  · refine visited_move h hw rfl ?_ trivial
    have hd : fs.kind work.path ≠ .directory := hok
    rw [Worker.added, kids, if_neg hd]
    rfl

theorem visited_callers {callers : List Caller} (h : Visited fs start s)
    (hc : CallerOk start { s with callers := callers }) :
    Visited fs start { s with callers := callers } :=
  ⟨h.surplus, hc, h.known, h.taken, h.workers, h.nodup, h.reachable⟩

theorem callers_eq {c : Caller} {stage : Stage} (h : s.callers = [⟨start, stage⟩])
    (hc : s.callers[j]? = some c) : c = ⟨start, stage⟩ ∧ ∀ c', s.callers.set j c' = [c'] := by
  rw [h] at hc ⊢
  cases j with
  | zero =>
    cases hc
    exact ⟨rfl, fun c' => rfl⟩
  | succ j => simp at hc

/-- The start path goes into the queue. -/
theorem visited_request {woken : Option Nat} {stage : Stage} (h : Visited fs start s)
    (hcallers : s.callers = [⟨start, stage⟩])
    (hstage : stage = .entering ∨ stage = .blockedBusy ∨ stage = .wokenBusy)
    (hset : ∀ c', s.callers.set j c' = [c'])
    (ht : s.request j ⟨start, stage⟩ woken = some t) : Visited fs start t := by
  have hs := (surplus_request ht).trans h.surplus
  have hnonneg : 0 ≤ s.workCount := by
    have := h.surplus
    simp only [Crew.surplus] at this
    omega
  have hreq : s.requested = [] := by
    obtain ⟨stage', hcallers', hreq, -⟩ := h.callers
    rw [hcallers] at hcallers'
    cases hcallers'
    rw [hreq, if_pos hstage]
  simp only [State.request] at ht
  split_ifs at ht with hpos
  · cases ht
    refine visited_callers h ⟨.blockedBusy, hset _, ?_, fun he => Stage.noConfusion he⟩
    simpa using hreq
  · obtain ⟨u, hu, ht⟩ := Option.bind_eq_some_iff.mp ht
    cases ht
    obtain ⟨workers, hsig, hu⟩ := Option.bind_eq_some_iff.mp hu
    cases hu
    have hone : s.workCount + 1 > 0 := by omega
    refine visited_of h hs ⟨.blockedDone, ?_, ?_, fun he => Stage.noConfusion he⟩ ?_ ?_
      (workersOk_signal hsig h.workers) (.inr rfl)
    · simp only [State.setCaller, if_pos hone]
      exact hset _
    · simp [hreq]
    · have hsg := flatMap_signal (Worker.added fs) (fun w w' hw => (wake_idle fs hw).2.1) hsig
      rw [List.perm_iff_count]
      intro a
      have hkn := h.known.count_eq a
      have hsg' := hsg.count_eq a
      simp only [State.setCaller, known, hreq, List.map_append, List.map_cons, List.map_nil,
        List.nil_append, List.count_append] at hkn hsg' ⊢
      omega
    · have hsg := flatMap_signal Worker.paths (fun w w' hw => (wake_idle fs hw).1) hsig
      exact h.taken.trans (hsg.symm.append_left _)

theorem visited_caller {woken : Option Nat} (h : Visited fs start s)
    (ht : crewStart s j woken = some t) : Visited fs start t := by
  obtain ⟨c, hc, ht⟩ := Option.bind_eq_some_iff.mp ht
  obtain ⟨stage, hcallers, hreq, hret⟩ := h.callers
  obtain ⟨rfl, hset⟩ := callers_eq hcallers hc
  cases stage with
  | entering => exact visited_request h hcallers (.inl rfl) hset ht
  | wokenBusy => exact visited_request h hcallers (.inr (.inr rfl)) hset ht
  | wokenDone =>
    cases ht
    have hnonneg : 0 ≤ s.workCount := by
      have := h.surplus
      simp only [Crew.surplus] at this
      omega
    by_cases hpos : s.workCount > 0
    · rw [if_pos hpos]
      exact visited_callers h ⟨.blockedDone, hset _, hreq, fun he => Stage.noConfusion he⟩
    · rw [if_neg hpos]
      exact visited_callers h ⟨.returned, hset _, hreq,
        fun _ => Int.le_antisymm (Int.not_lt.mp hpos) hnonneg⟩
  | blockedBusy | blockedDone | returned => cases ht

theorem visited_step {e : Event} (h : Visited fs start s) (ht : visit fs s e = some t) :
    Visited fs start t := by
  cases e with
  | call work => cases ht
  | caller j woken => exact visited_caller h ht
  | worker i woken => exact visited_worker h ht
  | outside i outcome =>
    obtain ⟨w, hw, ht⟩ := Option.bind_eq_some_iff.mp ht
    split_ifs at ht with ha
    obtain ⟨v, hv, ht⟩ := Option.bind_eq_some_iff.mp ht
    cases hw.symm.trans hv
    obtain ⟨w', hw', ht⟩ := Option.bind_eq_some_iff.mp ht
    cases ht
    exact visited_outside h hw ha hw'
  | wakeWorker i =>
    obtain ⟨w, hw, ht⟩ := Option.bind_eq_some_iff.mp ht
    obtain ⟨w', hw', ht⟩ := Option.bind_eq_some_iff.mp ht
    cases ht
    obtain ⟨h₁, h₂, h₃⟩ := wake_idle fs hw'
    exact visited_move h hw h₁ h₂ h₃
  | wakeCaller j =>
    obtain ⟨c, hc, ht⟩ := Option.bind_eq_some_iff.mp ht
    obtain ⟨stage', hwake, ht⟩ := Option.bind_eq_some_iff.mp ht
    cases ht
    obtain ⟨stage, hcallers, hreq, hret⟩ := h.callers
    obtain ⟨rfl, hset⟩ := callers_eq hcallers hc
    refine visited_callers h ⟨stage', hset _, ?_, ?_⟩
    · cases stage <;> cases hwake <;> exact hreq
    · cases stage <;> cases hwake <;> exact fun he => Stage.noConfusion he

end Steps

theorem visited_start (fs : FileSystem) (size : Nat) (work : Work) :
    Visited fs work (requestOn size work) := by
  have hempty : ∀ {β : Type} (f : Worker → List β), f .starting = [] →
      (List.replicate size Worker.starting).flatMap f = [] := by
    intro β f hf
    rw [List.flatMap_eq_nil_iff]
    intro w hw
    rw [List.eq_of_mem_replicate hw, hf]
  refine ⟨surplus_fresh size, ⟨.entering, rfl, rfl, fun he => Stage.noConfusion he⟩, ?_, ?_,
    fun w hw => ?_, List.nodup_nil, fun path hp => absurd hp List.not_mem_nil⟩
  · simp [known, requestOn, fresh, hempty (Worker.added fs) rfl]
  · simp [requestOn, fresh, hempty Worker.paths rfl]
  · rw [List.eq_of_mem_replicate hw]
    trivial

/-- When `crew_start` has returned every path that can be reached has been taken from the
queue and finished, once, no other path has been, and no worker has an item. -/
theorem crew_visits_once (fs : FileSystem) (size : Nat) (work : Work) (es : List Event) (s : State)
    (hr : run (visit fs) (requestOn size work) es = some s)
    (hret : s.callers = [⟨work, .returned⟩]) :
    (∀ path, Reachable fs work.path path → s.taken.count path = 1 ∧ s.finished.count path = 1) ∧
      (∀ path ∈ s.taken, Reachable fs work.path path) ∧
      s.queue = [] ∧ ∀ w ∈ s.workers, w.item = none := by
  have h : Visited fs work s := run_invariant (Visited fs work)
    (fun _ _ _ hs ht => visited_step hs ht) (visited_start fs size work) hr
  obtain ⟨stage, hcallers, hreq, hzero⟩ := h.callers
  rw [hret] at hcallers
  cases hcallers
  have hs := h.surplus
  simp only [Crew.surplus, hzero rfl] at hs
  have hq : s.queue = [] := List.eq_nil_of_length_eq_zero (by omega)
  have hidle : ∀ w ∈ s.workers, w.item = none := by
    intro w hw
    by_contra hitem
    have hpos : 0 < s.workers.countP Worker.busy :=
      List.countP_pos_iff.mpr ⟨w, hw, by simpa [Worker.busy] using Option.isSome_iff_ne_none.mpr hitem⟩
    omega
  have hnone : s.workers.flatMap Worker.paths = [] ∧ s.workers.flatMap (Worker.added fs) = [] := by
    refine ⟨List.flatMap_eq_nil_iff.mpr fun w hw => ?_, List.flatMap_eq_nil_iff.mpr fun w hw => ?_⟩
    · exact (idle_of_busy fs (by simp [Worker.busy, hidle w hw])).1
    · exact (idle_of_busy fs (by simp [Worker.busy, hidle w hw])).2
  have htaken := h.taken
  have hknown := h.known
  have hnodup := h.nodup
  have hreach := h.reachable
  simp only [known, hq, List.map_nil, List.append_nil, hnone, hreq, reduceCtorEq, or_self,
    ↓reduceIte] at htaken hknown hnodup hreach
  have hall : ∀ path, Reachable fs work.path path → path ∈ s.taken := by
    intro path hp
    induction hp with
    | start => exact hknown.symm.subset (List.mem_append_left _ (List.mem_singleton_self _))
    | entry hp hd hn h₁ h₂ ih =>
      apply hknown.symm.subset
      apply List.mem_append_right
      exact List.mem_flatMap.mpr ⟨_, htaken.subset ih, mem_kids.mpr ⟨hd, _, hn, ⟨h₁, h₂⟩, rfl⟩⟩
  refine ⟨fun path hp => ?_, hreach, hq, hidle⟩
  have hcount := List.count_eq_one_of_mem hnodup (hall path hp)
  exact ⟨hcount, (htaken.count_eq path).symm.trans hcount⟩

/-- A directory with itself and one file as its entries. -/
def smallTree : FileSystem where
  kind path := if path = ['d'] then .directory else .regular
  names path := if path = ['d'] then [dot, ['a']] else []
  nodup path := by
    split_ifs
    · decide
    · exact List.nodup_nil
  slashless path name hn := by
    split_ifs at hn
    · revert name
      decide
    · exact absurd hn List.not_mem_nil

def smallVisit : List Event :=
  [.caller 0 none, .worker 0 none, .worker 0 none, .outside 0 (.lstat .directory),
    .outside 0 (.opendir true), .outside 0 (.readdir (.name dot)),
    .outside 0 (.readdir (.name ['a'])), .worker 0 none, .outside 0 (.readdir .endOfDirectory),
    .worker 0 none, .worker 0 none, .outside 0 (.lstat .regular), .outside 0 .searched,
    .worker 0 none, .caller 0 none]

theorem crew_visits_once_smallTree :
    ∃ s, run (visit smallTree) (requestOn 1 ⟨['d'], []⟩) smallVisit = some s ∧
      s.taken = [['d'], ['d', '/', 'a']] ∧
      s.finished.count ['d', '/', 'a'] = 1 := by
  have h := crew_visits_once smallTree 1 ⟨['d'], []⟩ smallVisit _ rfl rfl
  have ha : Reachable smallTree ['d'] (join ['d'] ['a']) :=
    .entry .start rfl (by decide) (by decide) (by decide)
  exact ⟨_, rfl, rfl, (h.1 _ ha).2⟩

end C11AndC.Crew
