import C11AndC.Binomial.Spare

namespace C11AndC.Binomial

open C11AndC.Library

/-- A heap as it should be: roots of increasing degrees at the positions of the 1 bits of the
number of keys, each with a heap-ordered binomial tree, and the least key out each time. -/
structure HeapOk (s : State) : Prop where
  alive : s.crashed = false
  heap : ∃ l, Parts s.store.mem [segPart 0 l] ∧ s.head = headAddr 0 l ∧
    (degrees l).Pairwise (· < ·) ∧ (∀ d, d ∈ degrees l ↔ s.keys.length.testBit d = true) ∧
    (∀ r ∈ l, Tree r) ∧ (keys l).Perm s.keys
  least : ∀ e ∈ s.extracted, e.1 = e.2.min?

/-- The degrees of the roots when a key is extracted. -/
def Extractable (s : State) : Operation → Prop
  | .insert _ _ => True
  | .extractMin => KeepsTrees (rootList s.store.mem s.store.mem.next s.head)

instance decidableExtractable (s : State) : (a : Operation) → Decidable (Extractable s a)
  | .insert _ _ => .isTrue trivial
  | .extractMin => inferInstanceAs (Decidable (KeepsTrees _))

structure Inv (P : Root → Prop) (s : State) : Prop where
  alive : s.crashed = false
  holds : Holds P s.store s.head s.keys
  least : ∀ e ∈ s.extracted, e.1 = e.2.min?

section Runs

variable {P : Root → Prop} {s t : State}

/-- What holds after a part of the program returns. -/
theorem within_wp {β : Type} {p : Prog β} {k : β → State → State} {Q : β → Store Node BinomialHeap → Prop}
    {R : State → Prop} (h : wp p Q s.store) (hk : ∀ r st, Q r st → R (k r { s with store := st })) :
    R (within s p k) := by
  obtain ⟨r, st, hp, hq⟩ := h
  rw [within, hp]
  exact hk r st hq

theorem lt_steps (s : State) : s.store.mem.next < s.steps := Nat.lt_succ_self _

theorem heapOk_of_inv (h : Inv P s) : HeapOk s := by
  obtain ⟨l, hl, hhead, hv, hk, -⟩ := h.holds
  refine ⟨h.alive, ⟨l, hl, hhead, hv.sorted, fun d => ?_, hv.trees, hk⟩, h.least⟩
  rw [degrees_eq hv, Nat.mem_bitIndices, hk.length_eq]

theorem inv_init (P : Root → Prop) : Inv P init :=
  ⟨rfl, ⟨[], ⟨List.nodup_nil, by simp [segPart, Seg]⟩, rfl, ⟨by simp, List.Pairwise.nil⟩,
    List.Perm.refl _, by simp⟩, by simp [init]⟩

theorem inv_insert (hP : Linking P) (hnew : ∀ a k, P ⟨a, k, 0, 0, .nil⟩) (h : Inv P s) (garbage : Node)
    (k : Int) : Inv P (perform s (.insert garbage k)) := by
  rw [perform]
  refine within_wp (R := Inv P) (wp_insertKey hP hnew h.holds garbage k (lt_steps s)) ?_
  rintro H st ⟨-, hst⟩
  exact ⟨h.alive, hst, h.least⟩

theorem inv_extractMin (hP : Linking P) (h : Inv P s)
    (hf : KeepsTrees (rootList s.store.mem s.store.mem.next s.head))
    (hkids : (∀ x r : Root, P x → r ∈ x.child.roots → P r) ∨
      ∀ v l, rootList s.store.mem s.store.mem.next s.head = v :: l → (leastNode v l).child = 0) :
    Inv P (perform s .extractMin) := by
  rw [perform]
  refine within_wp (R := Inv P) (wp_extractKey hP h.holds hf hkids (lt_steps s)) ?_
  rintro r st ⟨hr, -, hst⟩
  refine ⟨h.alive, hst, ?_⟩
  intro e he
  obtain he | he := List.mem_append.mp he
  · exact h.least e he
  · rw [List.mem_singleton.mp he]
    exact hr

theorem inv_step {a : Operation} (h : Inv (fun _ => True) s) (hc : Extractable s a)
    (hs : step s a = some t) : Inv (fun _ => True) t := by
  obtain ⟨-, hs⟩ := Option.ite_none_left_eq_some.mp hs
  cases hs
  cases a with
  | insert garbage k => exact inv_insert (fun _ _ _ _ _ _ => trivial) (fun _ _ => trivial) h garbage k
  | extractMin =>
    exact inv_extractMin (fun _ _ _ _ _ _ => trivial) h hc (.inl fun _ _ _ _ => trivial)

/-- An extraction that leaves the heap as it should be has lost no tree. -/
theorem extractable_of_heapOk {a : Operation} (h : Inv (fun _ => True) s) (hs : step s a = some t)
    (ht : HeapOk t) : Extractable s a := by
  obtain ⟨-, hs⟩ := Option.ite_none_left_eq_some.mp hs
  cases hs
  cases a with
  | insert garbage k => trivial
  | extractMin =>
    obtain ⟨l, hl, hhead, hv, hk, -⟩ := h.holds
    rw [Extractable, hhead, rootList_of_parts hl]
    cases l with
    | nil => trivial
    | cons r l =>
      obtain ⟨pre, x, post, hsplit⟩ : ∃ pre x post, minSplit [] r [] l = (pre, x, post) := ⟨_, _, _, rfl⟩
      have haddrs : ((r :: l).flatMap Root.addrs).length < s.steps :=
        Nat.lt_succ_of_lt (length_lt_next hl)
      obtain ⟨a, u, hok, rfl, -, hu⟩ := wp_extractMin hl hsplit hv.sorted (length_split hsplit haddrs)
      have hx := cell_of_parts (i := 1) hu rfl
      have hx0 : x.addr ≠ 0 := Memory.ne_zero_of_cell hx
      have hkey : wp (extractKey s.steps s.head) (fun k v => k = some x.n ∧ v = u) s.store := by
        rw [hhead, extractKey, wp_bind, headAddr, wp_of_ok hok, if_neg hx0, wp_bind, wp_load]
        exact ⟨_, hx, (wp_pure _).mpr ⟨rfl, rfl⟩⟩
      obtain ⟨_, u, hkey, rfl, rfl⟩ := hkey
      rw [perform, within, hkey] at ht
      obtain ⟨l', hl', hhead', hsorted, -, htrees, hk'⟩ := ht.heap
      have hlen : (keys (r :: l)).length ≤ (s.keys.erase x.n).length + 1 := by
        rw [hk.length_eq, List.length_erase]
        split_ifs <;> omega
      have hwp : wp (extractMin s.steps r.addr)
          (fun _ t => Holds (fun _ => True) t t.reg.H (s.keys.erase x.n)) s.store :=
        ⟨x.addr, u, hok, l', hl', hhead', ⟨htrees, hsorted⟩, hk', fun _ _ => trivial⟩
      exact (keepsTrees_iff hsplit).mpr ((wp_extractMin_iff hl hv hsplit hlen haddrs).mp hwp).1

end Runs

/-- As long as `Extract_Min` meets roots of fitting degrees, and no longer, insertions and extractions
keep the heap as it should be. -/
theorem heap_run_ok (as : List Operation) : Always step HeapOk init as ↔ Each step Extractable init as :=
  always_iff_each (Inv fun _ => True) (fun _ _ _ hs hc ht => inv_step hs hc ht) (fun _ hs => heapOk_of_inv hs)
    (fun _ _ _ hs ht hok => extractable_of_heapOk hs ht hok) (inv_init _)

/-- Insertions of the keys below a bound, in their order. -/
def ascending (n : Nat) : List Operation :=
  (List.range n).map (fun k => .insert ⟨0, 0, 0, 0, 0⟩ (k : Int))

theorem heap_run_ok_eleven : Always step HeapOk init (ascending 11 ++ [.extractMin, .extractMin]) :=
  (heap_run_ok _).mpr (by decide +kernel)

/-- The roots that one meets from the head have the degrees of the heap. -/
theorem testBit_of_heapOk {s : State} (h : HeapOk s) (d : Nat) :
    d ∈ (rootList s.store.mem s.store.mem.next s.head).map Node.degree ↔
      s.keys.length.testBit d = true := by
  obtain ⟨l, hl, hhead, -, hbits, -⟩ := h.heap
  have hdegrees : ∀ l, (nodes l).map Node.degree = degrees l := by
    intro l
    induction l with
    | nil => rfl
    | cons r l ih => exact congrArg (r.degree :: ·) ih
  rw [hhead, rootList_of_parts hl, hdegrees, hbits]

/-- With twelve keys the trees have degrees 2 and 3, and the least key is in the greater tree, so
`Merge` loses the tree of degree 1 that was under it. -/
theorem heap_run_loses : ¬ Always step HeapOk init (ascending 12 ++ [.extractMin]) := by
  intro h
  cases hr : run step init (ascending 12 ++ [.extractMin]) with
  | none =>
    have hsome : (run step init (ascending 12 ++ [.extractMin])).isSome = true := by decide +kernel
    rw [hr] at hsome
    cases hsome
  | some s =>
    have hroots : (run step init (ascending 12 ++ [.extractMin])).map (fun s =>
        ((rootList s.store.mem s.store.mem.next s.head).map Node.degree, s.keys.length)) =
          some ([0, 3], 11) := by decide +kernel
    rw [hr, Option.map_some, Option.some.injEq, Prod.mk.injEq] at hroots
    have hbit := testBit_of_heapOk (always_run h hr) 1
    rw [hroots.1, hroots.2] at hbit
    exact absurd hbit (by decide)

section Main

/-- `main` gives out the least key each time. -/
structure QueueOk (s : Main) : Prop where
  alive : s.heap.crashed = false
  least : ∀ e ∈ s.heap.extracted, e.1 = e.2.min?

/-- Where the heap is changed the variable `H` of `main` is the member `H` if the last change was an
extraction, and where a node is extracted the degrees are fit for it. -/
structure InStep (s : Main) (c : Choice) : Prop where
  head : c ≠ .display → s.extracting = true → s.heap.head = s.heap.store.reg.H
  degrees : c = .extractMin →
    KeepsTrees (rootList s.heap.store.mem s.heap.store.mem.next s.heap.head)

instance decidableInStep (s : Main) (c : Choice) : Decidable (InStep s c) :=
  decidable_of_iff ((c ≠ .display → s.extracting = true → s.heap.head = s.heap.store.reg.H) ∧
    (c = .extractMin → KeepsTrees (rootList s.heap.store.mem s.heap.store.mem.next s.heap.head)))
    ⟨fun h => ⟨h.1, h.2⟩, fun h => ⟨h.head, h.degrees⟩⟩

variable {s t : Main} {c : Choice}

end Main

end C11AndC.Binomial
