import C11AndC.Library.Orbit
import C11AndC.LinkedList.Node

namespace C11AndC.LinkedList

open C11AndC.Library

/-- Programs on lists that may have a loop; the store keeps what is printed. -/
abbrev LoopProg := Program Node (List String)

/-- One round of the race of `slow_p` and `fast_p`; `found` is done where they meet. -/
def raceStep (found : Nat → LoopProg Unit) (x : Nat × Nat) : LoopProg ((Nat × Nat) ⊕ Int) := do
  let (slow_p, fast_p) := x
  if slow_p = 0 then
    return .inr 0
  else if fast_p = 0 then
    return .inr 0
  else
    let next := (← load fast_p).next
    if next = 0 then
      return .inr 0
    else
      let slow_p := (← load slow_p).next
      let fast_p := (← load next).next
      if slow_p = fast_p then
        found slow_p
        return .inr 1
      else
        return .inl (slow_p, fast_p)

def race (found : Nat → LoopProg Unit) (steps list : Nat) : LoopProg Int := loop (raceStep found) steps (list, list)

def detectloop (steps list : Nat) : LoopProg Int := race (fun _ => setReg (· ++ ["Found Loop"])) steps list

namespace RemoveCycleInList

/-- The loop that counts the nodes of the list's loop. -/
def countStep (ptr2 : Nat) (x : Nat × Nat) : LoopProg ((Nat × Nat) ⊕ Nat) := do
  let next := (← load x.1).next
  if next = ptr2 then
    return .inr x.2
  else
    return .inl (next, x.2 + 1)

def meetStep (x : Nat × Nat) : LoopProg ((Nat × Nat) ⊕ Nat) := do
  if x.2 = x.1 then
    return .inr x.1
  else
    return .inl ((← load x.1).next, (← load x.2).next)

def lastStep (ptr1 ptr2 : Nat) : LoopProg (Nat ⊕ Nat) := do
  let next := (← load ptr2).next
  if next = ptr1 then
    return .inr ptr2
  else
    return .inl next

/-- The count `k` of nodes is a number: a memory with addresses of 32 bits has fewer nodes than
`unsigned int` has values. -/
def removeLoop (steps loop_node head : Nat) : LoopProg Unit := do
  let k ← loop (countStep loop_node) steps (loop_node, 1)
  let ptr2 ← advance k head
  let ptr1 ← loop meetStep steps (head, ptr2)
  let ptr2 ← loop (lastStep ptr1) steps (← load ptr1).next
  store ptr2 (fun n => { n with next := 0 })

def detectAndRemoveLoop (steps list : Nat) : LoopProg Int :=
  race (fun slow_p => removeLoop steps slow_p list) steps list

end RemoveCycleInList

namespace RemoveCycle

/-- One round of the walk from `loop_node` around the loop. -/
def aroundStep (loop_node ptr1 ptr2 : Nat) : LoopProg (Nat ⊕ Nat) := do
  let next := (← load ptr2).next
  if next ≠ loop_node ∧ next ≠ ptr1 then
    return .inl next
  else
    return .inr ptr2

def removeStep (steps loop_node ptr1 : Nat) : LoopProg (Nat ⊕ Nat) := do
  let ptr2 ← loop (aroundStep loop_node ptr1) steps loop_node
  if (← load ptr2).next = ptr1 then
    return .inr ptr2
  else
    return .inl (← load ptr1).next

def removeLoop (steps loop_node head : Nat) : LoopProg Unit := do
  let ptr2 ← loop (removeStep steps loop_node) steps head
  store ptr2 (fun n => { n with next := 0 })

def detectAndRemoveLoop (steps list : Nat) : LoopProg Int :=
  race (fun slow_p => removeLoop steps slow_p list) steps list

end RemoveCycle

/-- Where the link of a node leads; null leads to null. -/
def nextOf (m : Memory Node) (a : Nat) : Nat :=
  match m.cell a with
  | some n => n.next
  | none => 0

/-- The head and every link lead to a node or to null. -/
structure IsLinked (m : Memory Node) (head : Nat) : Prop where
  head : head = 0 ∨ ∃ n, m.cell head = some n
  next : ∀ a n, m.cell a = some n → n.next = 0 ∨ ∃ n', m.cell n.next = some n'

section Walks

variable {m : Memory Node} {s : Store Node (List String)} {head a i t c d steps : Nat}

theorem nextOf_zero (m : Memory Node) : nextOf m 0 = 0 := by simp [nextOf, m.cell_null]

theorem nextOf_cell {n : Node} (h : m.cell a = some n) : nextOf m a = n.next := by simp [nextOf, h]

theorem walk_alive (h : IsLinked m head) (i : Nat) :
    (nextOf m)^[i] head = 0 ∨ ∃ n, m.cell ((nextOf m)^[i] head) = some n := by
  induction i with
  | zero => exact h.head
  | succ i ih =>
    rw [Function.iterate_succ_apply']
    obtain hz | ⟨n, hn⟩ := ih
    · rw [hz, nextOf_zero]
      exact .inl rfl
    · rw [nextOf_cell hn]
      exact h.next _ n hn

/-- Following the link of a node that is not null. -/
theorem walk_load (h : IsLinked m head) (hne : (nextOf m)^[i] head ≠ 0) :
    ∃ n, m.cell ((nextOf m)^[i] head) = some n ∧ n.next = (nextOf m)^[i + 1] head := by
  obtain ⟨n, hn⟩ := (walk_alive h i).resolve_left hne
  exact ⟨n, hn, by rw [Function.iterate_succ_apply', nextOf_cell hn]⟩

/-- Following the links comes to null or goes round. -/
theorem null_or_loop (h : IsLinked m head) : (∃ d, Leads (nextOf m) (· = 0) head d) ∨
    ∃ t c, Rounds (nextOf m) head t c ∧ ∀ j, (nextOf m)^[j] head ≠ 0 := by
  have hfin : {a | ¬ m.cell a = none}.Finite :=
    (Set.finite_lt_nat m.next).subset fun a ha => Nat.lt_of_not_le fun hle => ha (m.cell_fresh a hle)
  have hzero : ∀ j, (nextOf m)^[j] head = 0 ↔ m.cell ((nextOf m)^[j] head) = none := by
    intro j
    constructor
    · intro hz
      rw [hz, m.cell_null]
    · intro hn
      refine (walk_alive h j).resolve_right ?_
      rintro ⟨n, hs⟩
      rw [hn] at hs
      cases hs
  obtain ⟨d, hd⟩ | ⟨⟨t, c, hr⟩, hstop⟩ := leads_or_rounds (f := nextOf m) hfin head
  · exact .inl ⟨d, leads_congr hd (fun _ _ => rfl) fun j _ => hzero j⟩
  · exact .inr ⟨t, c, hr, fun j hz => hstop j ((hzero j).mp hz)⟩

theorem wp_advance_walk (h : IsLinked s.mem head) (hne : ∀ j < i + d, (nextOf s.mem)^[j] head ≠ 0) :
    wp (advance d ((nextOf s.mem)^[i] head)) (fun r t => r = (nextOf s.mem)^[i + d] head ∧ t = s) s := by
  induction d generalizing i with
  | zero => exact (wp_pure _).mpr ⟨rfl, rfl⟩
  | succ d ih =>
    obtain ⟨n, hn, hnext⟩ := walk_load h (hne i (by omega))
    rw [advance, wp_bind, wp_load]
    refine ⟨n, hn, ?_⟩
    rw [hnext, Nat.add_comm d 1, ← Nat.add_assoc]
    exact ih (fun j hj => hne j (by omega))

variable {found : Nat → LoopProg Unit}

/-- One round of the race between null pointers. -/
theorem wp_raceStep {Q : (Nat × Nat) ⊕ Int → Store Node (List String) → Prop} (h : IsLinked s.mem head)
    (hne : ∀ j, j ≤ 2 * i + 1 → (nextOf s.mem)^[j] head ≠ 0)
    (hmeet : (nextOf s.mem)^[i + 1] head = (nextOf s.mem)^[2 * (i + 1)] head →
      wp (found ((nextOf s.mem)^[i + 1] head)) (fun _ t => Q (.inr 1) t) s)
    (hgo : (nextOf s.mem)^[i + 1] head ≠ (nextOf s.mem)^[2 * (i + 1)] head →
      Q (.inl ((nextOf s.mem)^[i + 1] head, (nextOf s.mem)^[2 * (i + 1)] head)) s) :
    wp (raceStep found ((nextOf s.mem)^[i] head, (nextOf s.mem)^[2 * i] head)) Q s := by
  obtain ⟨n, hn, hnext⟩ := walk_load h (hne (2 * i) (by omega))
  obtain ⟨n', hn', hnext'⟩ := walk_load h (hne i (by omega))
  obtain ⟨n'', hn'', hnext''⟩ := walk_load h (hne (2 * i + 1) (by omega))
  simp only [raceStep, if_neg (hne i (by omega)), if_neg (hne (2 * i) (by omega)), wp_bind, wp_load, hn,
    Option.some.injEq, exists_eq_left', hnext, hn', hn'', hnext', hnext'', wp_ite, wp_pure]
  exact ⟨fun hz => absurd hz (hne _ (by omega)), fun _ => ⟨hmeet, hgo⟩⟩

/-- Where the walk comes to null, the race is over after half of the way. -/
theorem wp_race_null (h : IsLinked s.mem head) (hd : Leads (nextOf s.mem) (· = 0) head d) (hn : d < steps) :
    wp (race found steps head) (fun r t => r = 0 ∧ t = s) s := by
  refine wp_loop_walk (fun j => ((nextOf s.mem)^[j] head, (nextOf s.mem)^[2 * j] head)) (d := d / 2) ?_ ?_ (by omega)
  · intro j hj
    refine wp_raceStep h (fun k hk => hd.2 k (by omega)) (fun he => ?_) fun _ => ⟨rfl, rfl⟩
    have hj := leads_inj hd (j + 1) (by omega) (2 * (j + 1)) (by omega) he
    omega
  · by_cases hslow : (nextOf s.mem)^[d / 2] head = 0
    · rw [raceStep, if_pos hslow, wp_pure]
      exact ⟨0, rfl, rfl, rfl⟩
    by_cases hfast : (nextOf s.mem)^[2 * (d / 2)] head = 0
    · rw [raceStep, if_neg hslow, if_pos hfast, wp_pure]
      exact ⟨0, rfl, rfl, rfl⟩
    obtain ⟨n, hc, hnext⟩ := walk_load h hfast
    have hne : 2 * (d / 2) ≠ d := fun he => hfast (by rw [he]; exact hd.1)
    have hlast : 2 * (d / 2) + 1 = d := by omega
    rw [hlast] at hnext
    simp only [raceStep, if_neg hslow, if_neg hfast, wp_bind, wp_load, hc, Option.some.injEq, exists_eq_left', hnext,
      if_pos hd.1, wp_pure]
    exact ⟨0, rfl, rfl, trivial⟩

/-- Where the walk goes round, the two meet on the loop. -/
theorem wp_race_loop {Q : Store Node (List String) → Prop} (h : IsLinked s.mem head)
    (hr : Rounds (nextOf s.mem) head t c) (hne : ∀ j, (nextOf s.mem)^[j] head ≠ 0)
    (hfound : ∀ i, t ≤ i → wp (found ((nextOf s.mem)^[i] head)) (fun _ t => Q t) s) (hn : c * (t + 1) < steps) :
    wp (race found steps head) (fun r t => r = 1 ∧ Q t) s := by
  have hmeets : ∀ i, (nextOf s.mem)^[i] head = (nextOf s.mem)^[2 * i] head ↔ i = 0 ∨ t ≤ i ∧ c ∣ i := by
    intro i
    rw [eq_comm, Nat.two_mul]
    exact rounds_add_iff hr
  have hround : t ≤ c * (t + 1) - 1 + 1 ∧ c ∣ c * (t + 1) - 1 + 1 := by
    rw [Nat.sub_add_cancel (Nat.mul_pos hr.pos (Nat.succ_pos t))]
    exact ⟨(Nat.le_succ t).trans (Nat.le_mul_of_pos_left _ hr.pos), Nat.dvd_mul_right ..⟩
  have hex : ∃ i, t ≤ i + 1 ∧ c ∣ i + 1 := ⟨_, hround⟩
  have hlt : Nat.find hex < steps := by
    have hle : Nat.find hex ≤ c * (t + 1) - 1 := Nat.find_min' hex hround
    omega
  refine wp_loop_walk (fun j => ((nextOf s.mem)^[j] head, (nextOf s.mem)^[2 * j] head)) (d := Nat.find hex) ?_ ?_ hlt
  · intro j hj
    refine wp_raceStep h (fun k _ => hne k) (fun he => ?_) fun _ => ⟨rfl, rfl⟩
    exact absurd (((hmeets _).mp he).resolve_left (Nat.succ_ne_zero j)) (Nat.find_min hex hj)
  · obtain ⟨ht, hc⟩ := Nat.find_spec hex
    refine wp_raceStep h (fun k _ => hne k) (fun _ => ?_) fun he => ?_
    · exact wp_mono (hfound _ ht) fun _ u hu => ⟨1, rfl, rfl, hu⟩
    · exact absurd ((hmeets _).mpr (.inr ⟨ht, hc⟩)) he

end Walks

/-- The memory with a null link in the node at `a`. -/
def cut (m : Memory Node) (a : Nat) : Memory Node := m.modify a (fun n => { n with next := 0 })

section Removal

variable {s : Store Node (List String)} {head i t c n steps : Nat}

theorem wp_cut (h : IsLinked s.mem head) (hne : (nextOf s.mem)^[i] head ≠ 0)
    {Q : Unit → Store Node (List String) → Prop}
    (hq : Q () ⟨cut s.mem ((nextOf s.mem)^[i] head), s.reg⟩) :
    wp (store ((nextOf s.mem)^[i] head) (fun n => { n with next := 0 })) Q s := by
  obtain ⟨n, hn, -⟩ := walk_load h hne
  rw [wp_store, hn]
  exact ⟨rfl, hq⟩

/-- On the loop the walk does not come back before a whole round. -/
theorem walk_ne (hr : Rounds (nextOf s.mem) head t c) {j : Nat} (hj : 0 < j) (hjc : j < c) :
    (nextOf s.mem)^[i + j] head ≠ (nextOf s.mem)^[i] head := by
  intro he
  rcases (rounds_add_iff hr).mp he with rfl | ⟨-, hd⟩
  · exact absurd hj (Nat.lt_irrefl 0)
  · exact absurd (Nat.le_of_dvd hj hd) (Nat.not_le_of_lt hjc)

theorem walk_round (hr : Rounds (nextOf s.mem) head t c) (hi : t ≤ i) :
    (nextOf s.mem)^[i + c] head = (nextOf s.mem)^[i] head :=
  (rounds_add_iff hr).mpr (.inr ⟨hi, Nat.dvd_refl c⟩)

/-- The walk does not come back to what lies before the loop. -/
theorem walk_ne_before (hr : Rounds (nextOf s.mem) head t c) (hn : n < t) {j : Nat} (hj : n < j) :
    (nextOf s.mem)^[j] head ≠ (nextOf s.mem)^[n] head := by
  obtain ⟨k, rfl⟩ := Nat.le.dest hj.le
  intro he
  rcases (rounds_add_iff hr).mp he with rfl | ⟨ht, -⟩ <;> omega

variable (h : IsLinked s.mem head) (hr : Rounds (nextOf s.mem) head t c) (hne : ∀ j, (nextOf s.mem)^[j] head ≠ 0)

include h hr hne

namespace RemoveCycleInList

theorem wp_count (hi : t ≤ i) (hsteps : c ≤ steps) :
    wp (loop (countStep ((nextOf s.mem)^[i] head)) steps ((nextOf s.mem)^[i] head, 1))
      (fun r u => r = c ∧ u = s) s := by
  have hc := hr.pos
  refine wp_loop_walk (fun j => ((nextOf s.mem)^[i + j] head, 1 + j)) (d := c - 1) ?_ ?_ (by omega)
  · intro j hj
    obtain ⟨n, hn, hnext⟩ := walk_load h (hne (i + j))
    simp only [countStep, wp_bind, wp_load, hn, Option.some.injEq, exists_eq_left', hnext, Nat.add_assoc i,
      if_neg (walk_ne hr (i := i) (Nat.succ_pos j) (by omega)), wp_pure]
    exact ⟨rfl, trivial⟩
  · obtain ⟨n, hn, hnext⟩ := walk_load h (hne (i + (c - 1)))
    rw [Nat.add_assoc, Nat.sub_add_cancel hc, walk_round hr hi] at hnext
    simp only [countStep, wp_bind, wp_load, hn, Option.some.injEq, exists_eq_left', hnext, if_true, wp_pure]
    exact ⟨_, rfl, by omega, trivial⟩

theorem wp_meet (hsteps : t < steps) :
    wp (loop meetStep steps (head, (nextOf s.mem)^[c] head)) (fun r u => r = (nextOf s.mem)^[t] head ∧ u = s) s := by
  have hc := hr.pos
  rw [← Nat.zero_add c]
  refine wp_loop_walk (fun j => ((nextOf s.mem)^[j] head, (nextOf s.mem)^[j + c] head)) (d := t) ?_ ?_ hsteps
  · intro j hj
    obtain ⟨n, hn, hnext⟩ := walk_load h (hne j)
    obtain ⟨n', hn', hnext'⟩ := walk_load h (hne (j + c))
    rw [Nat.add_right_comm] at hnext'
    simp only [meetStep, if_neg (walk_ne_before hr hj (j := j + c) (by omega)), wp_bind, wp_load, hn, hn',
      Option.some.injEq, exists_eq_left', hnext, hnext', wp_pure]
    exact ⟨trivial, trivial⟩
  · simp only [meetStep, if_pos (walk_round hr (Nat.le_refl t)), wp_pure]
    exact ⟨_, rfl, rfl, trivial⟩

theorem wp_last (hsteps : c ≤ steps) :
    wp (loop (lastStep ((nextOf s.mem)^[t] head)) steps ((nextOf s.mem)^[t + 1] head))
      (fun r u => r = (nextOf s.mem)^[t + c - 1] head ∧ u = s) s := by
  have hc := hr.pos
  refine wp_loop_walk (fun j => (nextOf s.mem)^[t + 1 + j] head) (d := c - 2) ?_ ?_ (by omega)
  · intro j hj
    obtain ⟨n, hn, hnext⟩ := walk_load h (hne (t + 1 + j))
    have hback := walk_ne hr (i := t) (j := 1 + j + 1) (by omega) (by omega)
    rw [← Nat.add_assoc, ← Nat.add_assoc] at hback
    simp only [lastStep, wp_bind, wp_load, hn, Option.some.injEq, exists_eq_left', hnext, if_neg hback, wp_pure]
    exact ⟨rfl, trivial⟩
  · obtain ⟨n, hn, hnext⟩ := walk_load h (hne (t + 1 + (c - 2)))
    have hentry : (nextOf s.mem)^[t + 1 + (c - 2) + 1] head = (nextOf s.mem)^[t] head := by
      rw [Nat.add_assoc, Nat.add_assoc]
      refine (rounds_add_iff hr).mpr (.inr ⟨Nat.le_refl t, ?_⟩)
      obtain rfl | hlt := Nat.eq_or_lt_of_le hc
      · exact Nat.one_dvd _
      · have hround : 1 + (c - 2 + 1) = c := by omega
        exact hround.symm ▸ Nat.dvd_refl c
    have hlast : (nextOf s.mem)^[t + 1 + (c - 2)] head = (nextOf s.mem)^[t + c - 1] head := by
      obtain rfl | hlt := Nat.eq_or_lt_of_le hc
      · exact walk_round hr (Nat.le_refl t)
      · congr 1
        omega
    simp only [lastStep, wp_bind, wp_load, hn, Option.some.injEq, exists_eq_left', hnext, hentry, if_true, wp_pure]
    exact ⟨_, rfl, hlast, trivial⟩

theorem wp_removeLoop (hi : t ≤ i) (hsteps : t + c < steps) :
    wp (removeLoop steps ((nextOf s.mem)^[i] head) head)
      (fun _ u => u = ⟨cut s.mem ((nextOf s.mem)^[t + c - 1] head), s.reg⟩) s := by
  simp only [removeLoop, wp_bind]
  refine wp_mono (wp_count h hr hne hi (by omega)) ?_
  rintro _ s ⟨rfl, rfl⟩
  refine wp_mono (wp_advance_walk (i := 0) h fun j _ => hne j) ?_
  rintro _ s ⟨rfl, rfl⟩
  rw [Nat.zero_add]
  refine wp_mono (wp_meet h hr hne (by omega)) ?_
  rintro _ s ⟨rfl, rfl⟩
  obtain ⟨n, hn, hnext⟩ := walk_load h (hne t)
  rw [wp_load]
  refine ⟨n, hn, ?_⟩
  rw [hnext]
  refine wp_mono (wp_last h hr hne (by omega)) ?_
  rintro _ s ⟨rfl, rfl⟩
  exact wp_cut h (hne _) rfl

end RemoveCycleInList

namespace RemoveCycle

/-- The walk around the loop, where what it looks for is in front of the loop. -/
theorem wp_around_before (hi : t ≤ i) (hn : n < t) (hsteps : c ≤ steps) :
    wp (loop (aroundStep ((nextOf s.mem)^[i] head) ((nextOf s.mem)^[n] head)) steps ((nextOf s.mem)^[i] head))
      (fun r u => r = (nextOf s.mem)^[i + (c - 1)] head ∧ u = s) s := by
  have hc := hr.pos
  refine wp_loop_walk (fun j => (nextOf s.mem)^[i + j] head) (d := c - 1) ?_ ?_ (by omega)
  · intro j hj
    obtain ⟨n', hn', hnext⟩ := walk_load h (hne (i + j))
    have hgo := And.intro (walk_ne hr (i := i) (Nat.succ_pos j) (by omega))
      (walk_ne_before hr hn (j := i + (j + 1)) (by omega))
    simp only [aroundStep, wp_bind, wp_load, hn', Option.some.injEq, exists_eq_left', hnext, Nat.add_assoc i,
      if_pos hgo, wp_pure]
    exact ⟨trivial, trivial⟩
  · obtain ⟨n', hn', hnext⟩ := walk_load h (hne (i + (c - 1)))
    rw [Nat.add_assoc, Nat.sub_add_cancel hc, walk_round hr hi] at hnext
    simp only [aroundStep, wp_bind, wp_load, hn', Option.some.injEq, exists_eq_left', hnext, ne_eq, not_true,
      false_and, if_false, wp_pure]
    exact ⟨_, rfl, rfl, trivial⟩

/-- The walk around the loop finds the node in front of the entry. -/
theorem wp_around_entry (hi : t ≤ i) (hsteps : c ≤ steps) :
    wp (loop (aroundStep ((nextOf s.mem)^[i] head) ((nextOf s.mem)^[t] head)) steps ((nextOf s.mem)^[i] head))
      (fun r u => r = (nextOf s.mem)^[t + c - 1] head ∧ u = s) s := by
  have hc := hr.pos
  have hmod : (i - t) % c < c := Nat.mod_lt _ hc
  have hdiv := Nat.div_add_mod (i - t) c
  have hentry : ∀ {j}, (nextOf s.mem)^[i + j] head = (nextOf s.mem)^[t] head ↔ c ∣ (i - t) % c + j := by
    intro j
    have hn : i + j = t + (i - t + j) := by omega
    have hsum : i - t + j = c * ((i - t) / c) + ((i - t) % c + j) := by omega
    rw [hn, rounds_add_iff hr, hsum, Nat.dvd_add_right (Nat.dvd_mul_right c _)]
    refine ⟨fun he => he.elim (fun hz => ?_) fun he => he.2, fun he => .inr ⟨Nat.le_refl t, he⟩⟩
    rw [Nat.eq_zero_of_add_eq_zero_left hz]
    exact Nat.dvd_zero c
  refine wp_loop_walk (fun j => (nextOf s.mem)^[i + j] head) (d := c - 1 - (i - t) % c) ?_ ?_ (by omega)
  · intro j hj
    obtain ⟨n', hn', hnext⟩ := walk_load h (hne (i + j))
    have hback : (nextOf s.mem)^[i + (j + 1)] head ≠ (nextOf s.mem)^[t] head := fun he =>
      Nat.not_le_of_lt (by omega) (Nat.le_of_dvd (by omega) (hentry.mp he))
    have hgo := And.intro (walk_ne hr (i := i) (Nat.succ_pos j) (by omega)) hback
    simp only [aroundStep, wp_bind, wp_load, hn', Option.some.injEq, exists_eq_left', hnext, Nat.add_assoc i,
      if_pos hgo, wp_pure]
    exact ⟨trivial, trivial⟩
  · obtain ⟨n', hn', hnext⟩ := walk_load h (hne (i + (c - 1 - (i - t) % c)))
    have hround : (i - t) % c + (c - 1 - (i - t) % c + 1) = c := by omega
    have hback := (hentry (j := c - 1 - (i - t) % c + 1)).mpr (hround.symm ▸ Nat.dvd_refl c)
    rw [Nat.add_assoc, hback] at hnext
    simp only [aroundStep, wp_bind, wp_load, hn', Option.some.injEq, exists_eq_left', hnext, ne_eq, not_true,
      and_false, if_false, wp_pure]
    have hlast := rounds_mul hr (i := t + c - 1) (by omega) ((i - t) / c)
    have hindex : i + (c - 1 - (i - t) % c) = t + c - 1 + c * ((i - t) / c) := by omega
    exact ⟨_, rfl, hindex ▸ hlast, trivial⟩

theorem wp_removeLoop (hi : t ≤ i) (hsteps : t + c < steps) :
    wp (removeLoop steps ((nextOf s.mem)^[i] head) head)
      (fun _ u => u = ⟨cut s.mem ((nextOf s.mem)^[t + c - 1] head), s.reg⟩) s := by
  have hc := hr.pos
  simp only [removeLoop, wp_bind]
  refine wp_loop_walk (fun j => (nextOf s.mem)^[j] head) (d := t) ?_ ?_ (by omega)
  · intro j hj
    rw [removeStep, wp_bind]
    refine wp_mono (wp_around_before h hr hne hi hj (by omega)) ?_
    rintro _ s ⟨rfl, rfl⟩
    obtain ⟨n', hn', hnext⟩ := walk_load h (hne (i + (c - 1)))
    obtain ⟨n'', hn'', hnext'⟩ := walk_load h (hne j)
    rw [Nat.add_assoc, Nat.sub_add_cancel hc, walk_round hr hi] at hnext
    simp only [wp_bind, wp_load, hn', Option.some.injEq, exists_eq_left', hnext,
      if_neg (walk_ne_before hr hj (j := i) (by omega)), hn'', hnext', wp_pure]
    exact ⟨trivial, trivial⟩
  · rw [removeStep, wp_bind]
    refine wp_mono (wp_around_entry h hr hne hi (by omega)) ?_
    rintro _ s ⟨rfl, rfl⟩
    obtain ⟨n', hn', hnext⟩ := walk_load h (hne (t + c - 1))
    rw [Nat.sub_add_cancel (by omega), walk_round hr (Nat.le_refl t)] at hnext
    simp only [wp_bind, wp_load, hn', Option.some.injEq, exists_eq_left', hnext, if_true, wp_pure]
    exact ⟨_, rfl, wp_cut h (hne _) rfl⟩

end RemoveCycle

end Removal

/-- What following the links from `head` met in `m` is in `m'` a list that ends in null: each node once, in
the order of the first visits. -/
structure Unlooped (m m' : Memory Node) (head : Nat) (as : List Nat) : Prop where
  chain : Chain m' Node.next head as
  nodup : as.Nodup
  visits : ∀ a, a ∈ as ↔ a ≠ 0 ∧ ∃ j, (nextOf m)^[j] head = a
  order : as = (List.range as.length).map (fun j => (nextOf m)^[j] head)

def walkList (m : Memory Node) (head d : Nat) : List Nat := (List.range d).map (fun j => (nextOf m)^[j] head)

section Lists

variable {m m' : Memory Node} {head t c d a : Nat}

theorem mem_walkList : a ∈ walkList m head d ↔ ∃ j < d, (nextOf m)^[j] head = a := by
  simp only [walkList, List.mem_map, List.mem_range]

theorem length_walkList : (walkList m head d).length = d := by simp [walkList]

theorem nodup_walkList (h : ∀ i < d, ∀ j < d, (nextOf m)^[i] head = (nextOf m)^[j] head → i = j) :
    (walkList m head d).Nodup :=
  List.Nodup.map_on (fun i hi j hj => h i (List.mem_range.mp hi) j (List.mem_range.mp hj)) List.nodup_range

theorem chain_of_leads (h : Leads (nextOf m) (· = 0) head d)
    (halive : ∀ j < d, ∃ n, m.cell ((nextOf m)^[j] head) = some n) : Chain m Node.next head (walkList m head d) := by
  induction d generalizing head with
  | zero => exact h.1
  | succ d ih =>
    obtain ⟨hne, h⟩ := leads_succ.mp h
    obtain ⟨n, hn⟩ := halive 0 (Nat.succ_pos d)
    have hnext : nextOf m head = n.next := nextOf_cell hn
    rw [walkList, List.range_succ_eq_map, List.map_cons, List.map_map]
    refine ⟨rfl, n, hn, ?_⟩
    rw [← hnext]
    exact ih h fun j hj => halive (j + 1) (Nat.succ_lt_succ hj)

theorem walk_zero (h : (nextOf m)^[d] head = 0) {j : Nat} (hj : d ≤ j) : (nextOf m)^[j] head = 0 := by
  obtain ⟨k, rfl⟩ := Nat.le.dest hj
  induction k with
  | zero => exact h
  | succ k ih => rw [← Nat.add_assoc, Function.iterate_succ_apply', ih (Nat.le_add_right d k), nextOf_zero]

theorem unlooped_null (h : IsLinked m head) (hd : Leads (nextOf m) (· = 0) head d) :
    Unlooped m m head (walkList m head d) where
  chain := chain_of_leads hd fun j hj => (walk_alive h j).resolve_left (hd.2 j hj)
  nodup := nodup_walkList fun i hi j hj => leads_inj hd i hi.le j hj.le
  visits a := by
    rw [mem_walkList]
    constructor
    · rintro ⟨j, hj, rfl⟩
      exact ⟨hd.2 j hj, j, rfl⟩
    · rintro ⟨hne, j, rfl⟩
      exact ⟨j, Nat.lt_of_not_le fun hj => hne (walk_zero hd.1 hj), rfl⟩
  order := by rw [length_walkList, walkList]

theorem nextOf_cut_self (m : Memory Node) (a : Nat) : nextOf (cut m a) a = 0 := by
  cases h : m.cell a <;> simp [nextOf, cut, h]

theorem nextOf_cut_ne {b : Nat} (h : b ≠ a) : nextOf (cut m a) b = nextOf m b := by simp [nextOf, cut, h]

/-- Up to its last new node the walk is the same without the link of that node. -/
theorem iterate_cut (hr : Rounds (nextOf m) head t c) {j : Nat} (hj : j < t + c) :
    (nextOf (cut m ((nextOf m)^[t + c - 1] head)))^[j] head = (nextOf m)^[j] head := by
  refine iterate_congr fun k hk => nextOf_cut_ne fun he => ?_
  have hlast := hr.inj k (by omega) (t + c - 1) (by omega) he
  omega

theorem unlooped_loop (h : IsLinked m head) (hr : Rounds (nextOf m) head t c) (hne : ∀ j, (nextOf m)^[j] head ≠ 0) :
    Unlooped m (cut m ((nextOf m)^[t + c - 1] head)) head (walkList m head (t + c)) where
  chain := by
    have hc := hr.pos
    have hwalk : walkList m head (t + c) = walkList (cut m ((nextOf m)^[t + c - 1] head)) head (t + c) :=
      List.map_congr_left fun j hj => (iterate_cut hr (List.mem_range.mp hj)).symm
    rw [hwalk]
    refine chain_of_leads ⟨?_, fun j hj => ?_⟩ fun j hj => ?_
    · obtain ⟨k, hk⟩ : ∃ k, t + c = k + 1 := ⟨t + c - 1, by omega⟩
      have hlast := iterate_cut hr (j := k) (by omega)
      rw [hk, Nat.add_sub_cancel] at hlast ⊢
      rw [Function.iterate_succ_apply', hlast, nextOf_cut_self]
    · rw [iterate_cut hr hj]
      exact hne j
    · rw [iterate_cut hr hj]
      obtain ⟨n, hn⟩ := (walk_alive h j).resolve_left (hne j)
      by_cases he : (nextOf m)^[j] head = (nextOf m)^[t + c - 1] head
      · rw [← he, cut, Memory.cell_modify_self, hn]
        exact ⟨_, rfl⟩
      · rw [cut, Memory.cell_modify_ne m he]
        exact ⟨n, hn⟩
  nodup := nodup_walkList hr.inj
  visits a := by
    have hc := hr.pos
    rw [mem_walkList]
    constructor
    · rintro ⟨j, -, rfl⟩
      exact ⟨hne j, j, rfl⟩
    · rintro ⟨-, j, rfl⟩
      obtain ⟨k, hk, he⟩ := iterate_return (by omega : t < t + c) hr.close j
      exact ⟨k, hk, he.symm⟩
  order := by rw [length_walkList, walkList]

end Lists

/-- Both removals answer whether there is a loop, as `detectloop` does, and take away the link that closes it. -/
theorem loops_removed (s : Store Node (List String)) (head : Nat) (h : IsLinked s.mem head) :
    ∃ (r : Int) (m : Memory Node) (as : List Nat), (r = 0 ∨ r = 1) ∧ (r = 1 ↔ ∀ j, (nextOf s.mem)^[j] head ≠ 0) ∧
      Unlooped s.mem m head as ∧ (r = 0 → m = s.mem) ∧
      (r = 1 → ∃ a, as.getLast? = some a ∧ nextOf s.mem a ∈ as ∧ m = cut s.mem a) ∧
      ∃ enough, ∀ steps, enough ≤ steps →
        wp (detectloop steps head) (fun r' t => r' = r ∧ t.mem = s.mem) s ∧
        wp (RemoveCycleInList.detectAndRemoveLoop steps head) (fun r' t => r' = r ∧ t.mem = m) s ∧
        wp (RemoveCycle.detectAndRemoveLoop steps head) (fun r' t => r' = r ∧ t.mem = m) s := by
  obtain ⟨d, hd⟩ | ⟨t, c, hr, hne⟩ := null_or_loop h
  · refine ⟨0, s.mem, walkList s.mem head d, .inl rfl, ?_, unlooped_null h hd, fun _ => rfl, by simp, d + 1,
      fun steps hsteps => ?_⟩
    · exact iff_of_false (by decide) fun hne => hne d hd.1
    · have hrace : ∀ found, wp (race found steps head) (fun r' t => r' = 0 ∧ t.mem = s.mem) s := fun found =>
        wp_mono (wp_race_null h hd (by omega)) fun _ _ hq => ⟨hq.1, hq.2 ▸ rfl⟩
      exact ⟨hrace _, hrace _, hrace _⟩
  · have hc := hr.pos
    refine ⟨1, _, _, .inr rfl, ⟨fun _ => hne, fun _ => rfl⟩, unlooped_loop h hr hne, by simp,
      fun _ => ⟨_, ?_, ?_, rfl⟩, c * (t + 1) + t + c + 1, fun steps hsteps => ⟨?_, ?_, ?_⟩⟩
    · obtain ⟨k, hk⟩ : ∃ k, t + c = k + 1 := ⟨t + c - 1, by omega⟩
      rw [hk, walkList, List.range_succ, List.map_append, List.map_singleton, List.getLast?_concat,
        Nat.add_sub_cancel]
    · rw [← Function.iterate_succ_apply' (nextOf s.mem), mem_walkList]
      refine ⟨t, by omega, ?_⟩
      rw [Nat.succ_eq_add_one, Nat.sub_add_cancel (by omega), hr.close]
    · refine wp_race_loop h hr hne (fun i _ => ?_) (by omega)
      exact (wp_setReg _).mpr rfl
    · refine wp_race_loop h hr hne (fun i hi => ?_) (by omega)
      exact wp_mono (RemoveCycleInList.wp_removeLoop h hr hne hi (by omega)) fun _ _ hq => hq ▸ rfl
    · refine wp_race_loop h hr hne (fun i hi => ?_) (by omega)
      exact wp_mono (RemoveCycle.wp_removeLoop h hr hne hi (by omega)) fun _ _ hq => hq ▸ rfl

/-- A node in front of one that is linked to itself. -/
def loopMemory : Memory Node := (Memory.empty.alloc ⟨10, 2⟩).alloc ⟨20, 2⟩

theorem isLinked_loopMemory : IsLinked loopMemory 1 := by
  refine ⟨.inr ⟨_, rfl⟩, fun a n hn => ?_⟩
  have ha : a < 3 := Memory.lt_next_of_cell hn
  match a, ha, hn with
  | 0, _, hn => exact absurd rfl (Memory.ne_zero_of_cell hn)
  | 1, _, hn | 2, _, hn =>
    cases hn
    exact .inr ⟨_, rfl⟩

theorem loops_removed_self : ∃ (r : Int) (m : Memory Node) (as : List Nat), (r = 0 ∨ r = 1) ∧
    (r = 1 ↔ ∀ j, (nextOf loopMemory)^[j] 1 ≠ 0) ∧ Unlooped loopMemory m 1 as ∧ (r = 0 → m = loopMemory) ∧
    (r = 1 → ∃ a, as.getLast? = some a ∧ nextOf loopMemory a ∈ as ∧ m = cut loopMemory a) ∧
    ∃ enough, ∀ steps, enough ≤ steps →
      wp (detectloop steps 1) (fun r' t => r' = r ∧ t.mem = loopMemory) ⟨loopMemory, []⟩ ∧
      wp (RemoveCycleInList.detectAndRemoveLoop steps 1) (fun r' t => r' = r ∧ t.mem = m) ⟨loopMemory, []⟩ ∧
      wp (RemoveCycle.detectAndRemoveLoop steps 1) (fun r' t => r' = r ∧ t.mem = m) ⟨loopMemory, []⟩ :=
  loops_removed ⟨loopMemory, []⟩ 1 isLinked_loopMemory

end C11AndC.LinkedList
