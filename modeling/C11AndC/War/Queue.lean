import C11AndC.War.Model
import C11AndC.Library.Ring

namespace C11AndC.War

open C11AndC.Library

/-- The cards of a queue, read from `first` for `count` places. -/
def contents (s : Queue) : List Nat := ring QUEUESIZE s.q s.first s.count

/-- The queues that the calls have left, with lists in the place of the arrays. -/
def replay (calls : List Call) : Deck → List Nat :=
  calls.foldl (fun v call =>
    match call with
    | .enqueue d x => Function.update v d (v d ++ [x])
    | .dequeue d => Function.update v d (v d).tail) fun _ => []

structure Represents (s : Queue) (l : List Nat) : Prop where
  contents : contents s = l
  last : (s.last + 1) % QUEUESIZE = (s.first + s.count) % QUEUESIZE
  first : s.first < QUEUESIZE

structure Holds (s : State) (v : Deck → List Nat) : Prop where
  queues : ∀ d, Represents (s.queues d) (v d)
  calls : replay s.calls = v
  printed : s.printed = []

/-- What the calls leave to the program. -/
structure Same (s t : State) : Prop where
  inwar : t.inwar = s.inwar
  steps : t.steps = s.steps

section Queues

variable {q : Queue} {s t : State} {v : Deck → List Nat} {d e : Deck} {x : Nat} {l : List Nat}

theorem length_contents (q : Queue) : (contents q).length = q.count := length_ring

theorem Represents.count (h : Represents q l) : q.count = l.length := by
  rw [← h.contents, length_contents]

theorem empty_iff (h : Represents q l) : empty q = true ↔ l = [] := by
  rw [empty, decide_eq_true_iff, h.count, Nat.le_zero, List.length_eq_zero_iff]

theorem initQueue_represents (cells : Nat → Nat) : Represents (initQueue cells) [] :=
  ⟨rfl, by simp [initQueue, QUEUESIZE], Nat.zero_lt_succ 999⟩

theorem enqueue_represents (h : Represents q l) (hl : l.length < QUEUESIZE) (x : Nat) :
    ∃ q', enqueue q x = (q', []) ∧ Represents q' (l ++ [x]) := by
  have hcount : q.count < QUEUESIZE := h.count ▸ hl
  have hq : enqueue q x = ({ q with
      last := (q.last + 1) % QUEUESIZE
      q := Function.update q.q ((q.last + 1) % QUEUESIZE) x
      count := q.count + 1 }, []) := by
    rw [enqueue, if_neg (Nat.not_le.mpr hcount)]
  refine ⟨_, hq, ?_, ?_, h.first⟩
  · simp only [contents, h.last]
    rw [ring_push hcount, ← h.contents]
    rfl
  · simp only [h.last]
    rw [Nat.mod_add_mod, Nat.add_assoc]

theorem dequeue_represents (h : Represents q (x :: l)) (y : Nat) :
    ∃ q', dequeue q y = (x, q', []) ∧ Represents q' l := by
  have hcount : q.count = l.length + 1 := h.count
  have hring := h.contents
  rw [contents, hcount, ring_pop, Nat.mod_eq_of_lt h.first] at hring
  obtain ⟨hx, hl⟩ := List.cons_eq_cons.mp hring
  refine ⟨{ q with first := (q.first + 1) % QUEUESIZE, count := l.length }, ?_, ?_, ?_, ?_⟩
  · rw [dequeue, if_neg (by omega), hx, hcount]
    rfl
  · exact hl
  · have hlast := h.last
    rw [hcount] at hlast
    simp only [hlast, Nat.mod_add_mod, Nat.add_assoc, Nat.add_comm 1]
  · exact Nat.mod_lt _ (by decide)

theorem enqueue_holds (h : Holds s v) (hl : (v d).length < QUEUESIZE) (x : Nat) :
    Holds (s.enqueue d x) (Function.update v d (v d ++ [x])) ∧ Same s (s.enqueue d x) := by
  obtain ⟨q', hq', hr⟩ := enqueue_represents (h.queues d) hl x
  refine ⟨⟨fun e => ?_, ?_, ?_⟩, ⟨rfl, rfl⟩⟩
  · simp only [State.enqueue, hq']
    by_cases hde : e = d
    · subst hde
      simpa using hr
    · simpa [hde] using h.queues e
  · simp only [State.enqueue, replay, List.foldl_append, List.foldl_cons, List.foldl_nil]
    rw [← replay, h.calls]
  · simp only [State.enqueue, hq', h.printed, List.append_nil]

theorem dequeue_holds (h : Holds s v) (hv : v d = x :: l) :
    ∃ t, s.dequeue d = (x, t) ∧ Holds t (Function.update v d l) ∧ Same s t := by
  obtain ⟨q', hq', hr⟩ := dequeue_represents (hv ▸ h.queues d) 0
  have ht : s.dequeue d = (x, { s with
      queues := Function.update s.queues d q'
      calls := s.calls ++ [.dequeue d]
      printed := s.printed ++ [] }) := by
    simp only [State.dequeue, hq']
  refine ⟨_, ht, ⟨fun e => ?_, ?_, ?_⟩, ⟨rfl, rfl⟩⟩
  · by_cases hde : e = d
    · subst hde
      simpa using hr
    · simpa [hde] using h.queues e
  · simp only [replay, List.foldl_append, List.foldl_cons, List.foldl_nil]
    rw [← replay, h.calls, hv, List.tail_cons]
  · simp only [h.printed, List.append_nil]

theorem Same.trans {u : State} (h : Same s t) (h' : Same t u) : Same s u :=
  ⟨h'.inwar.trans h.inwar, h'.steps.trans h.steps⟩

/-- All cards of `d` put behind those of `e`. -/
def moved (v : Deck → List Nat) (d e : Deck) : Deck → List Nat :=
  Function.update (Function.update v d []) e (v e ++ v d)

theorem moved_nil (hv : v d = []) : moved v d e = v := by
  rw [moved, hv, List.append_nil, ← hv, Function.update_eq_self, Function.update_eq_self]

theorem moved_cons (hde : d ≠ e) (hv : v d = x :: l) :
    moved (Function.update (Function.update v d l) e (v e ++ [x])) d e = moved v d e := by
  funext f
  by_cases hfe : f = e
  · simp [moved, hfe, hde, hv]
  · by_cases hfd : f = d
    · simp [moved, hfd, hde]
    · simp [moved, hfe, hfd]

theorem clearRounds_holds (hde : d ≠ e) {n : Nat} (hn : (v d).length ≤ n) (h : Holds s v)
    (hl : (v d).length + (v e).length ≤ QUEUESIZE) :
    Holds (clearRounds d e n s) (moved v d e) ∧ Same s (clearRounds d e n s) := by
  induction n generalizing s v with
  | zero =>
    rw [moved_nil (List.length_eq_zero_iff.mp (Nat.le_zero.mp hn))]
    exact ⟨h, ⟨rfl, rfl⟩⟩
  | succ n ih =>
    have hempty := empty_iff (h.queues d)
    cases hv : v d with
    | nil =>
      rw [moved_nil hv, clearRounds, if_pos (hempty.mpr hv)]
      exact ⟨h, ⟨rfl, rfl⟩⟩
    | cons x l =>
      obtain ⟨t, ht, htake, hsame⟩ := dequeue_holds h hv
      rw [hv, List.length_cons] at hn hl
      have he : Function.update v d l e = v e := Function.update_of_ne hde.symm ..
      obtain ⟨hput, hsame'⟩ := enqueue_holds (d := e) htake (by rw [he]; omega) x
      rw [he] at hput
      have hself : Function.update (Function.update v d l) e (v e ++ [x]) d = l := by
        rw [Function.update_of_ne hde, Function.update_self]
      have hclear := ih (by rw [hself]; omega) hput
        (by rw [hself, Function.update_self, List.length_append, List.length_singleton]; omega)
      have hstep : clearRounds d e (n + 1) s = clearRounds d e n (t.enqueue e x) := by
        rw [clearRounds, if_neg (by rw [hempty, hv]; exact List.cons_ne_nil x l), ht]
      rw [moved_cons hde hv] at hclear
      rw [hstep]
      exact ⟨hclear.1, (hsame.trans hsame').trans hclear.2⟩

/-- `clear_queue` moves all cards, in their order. -/
theorem clearQueue_holds (hde : d ≠ e) (h : Holds s v) (hl : (v d).length + (v e).length ≤ QUEUESIZE) :
    Holds (clearQueue d e s) (moved v d e) ∧ Same s (clearQueue d e s) :=
  clearRounds_holds hde (Nat.le_of_eq (h.queues d).count.symm) h hl

theorem deal_holds (h : Holds s v) (cards : List Nat) (hl : (v d).length + cards.length ≤ QUEUESIZE) :
    Holds (deal s d cards) (Function.update v d (v d ++ cards)) ∧ Same s (deal s d cards) := by
  induction cards generalizing s v with
  | nil =>
    rw [List.append_nil, Function.update_eq_self]
    exact ⟨h, ⟨rfl, rfl⟩⟩
  | cons x cards ih =>
    rw [List.length_cons] at hl
    obtain ⟨hput, hsame⟩ := enqueue_holds h (d := d) (by omega) x
    have hrest := ih hput (by rw [Function.update_self, List.length_append, List.length_singleton]; omega)
    rw [Function.update_self, Function.update_idem, List.append_assoc] at hrest
    exact ⟨hrest.1, hsame.trans hrest.2⟩

end Queues

end C11AndC.War
