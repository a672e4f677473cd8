import C11AndC.War.Queue
import Mathlib.Tactic.SplitIfs

namespace C11AndC.War

open C11AndC.Library

/-- The game on lists of cards; `faceDown` means that the next pair is not compared. -/
structure Game where
  a : List Nat
  b : List Nat
  table : List Nat
  faceDown : Bool
  steps : Nat
  deriving DecidableEq

/-- A player has no card, or the game is cut off. -/
def Game.over (g : Game) : Bool := g.a.isEmpty || g.b.isEmpty || MAXSTEPS ≤ g.steps

/-- The cards `x` and `y` have been laid; the larger key takes what is on the table. -/
def Game.settle (key : Nat → Nat) (x y : Nat) (g : Game) : Game :=
  if g.faceDown then { g with faceDown := false }
  else if key y < key x then { g with a := g.a ++ g.table, table := [] }
  else if key x < key y then { g with b := g.b ++ g.table, table := [] }
  else { g with faceDown := true }

/-- Both players turn their first card. -/
def Game.play (key : Nat → Nat) (g : Game) : Game :=
  match g.a, g.b with
  | x :: a, y :: b => Game.settle key x y ⟨a, b, g.table ++ [x, y], g.faceDown, g.steps + 1⟩
  | _, _ => g

/-- The game of the decks after `n` steps, if it lasts as long. -/
def game (key : Nat → Nat) (a b : List Nat) : Nat → Game
  | 0 => ⟨a, b, [], false, 0⟩
  | n + 1 => let g := game key a b n; if g.over then g else g.play key

/-- What the program compares. -/
def code (card : Nat) : Nat := (value card).toNat

def Game.view (g : Game) : Deck → List Nat
  | .a => g.a
  | .b => g.b
  | .c => g.table

structure Plays (s : State) (g : Game) : Prop where
  holds : Holds s g.view
  inwar : s.inwar = g.faceDown
  steps : s.steps = g.steps

section Play

variable {s : State} {g : Game} {key : Nat → Nat} {a b : List Nat} {l : List Nat}

@[simp] theorem view_a : Function.update g.view .a l = Game.view { g with a := l } := by
  funext d
  cases d <;> rfl

@[simp] theorem view_b : Function.update g.view .b l = Game.view { g with b := l } := by
  funext d
  cases d <;> rfl

@[simp] theorem view_c : Function.update g.view .c l = Game.view { g with table := l } := by
  funext d
  cases d <;> rfl

theorem goesOn_eq (h : Plays s g) : goesOn s = !g.over := by
  have hempty : ∀ d, empty (s.queues d) = (g.view d).isEmpty := by
    intro d
    rw [Bool.eq_iff_iff, empty_iff (h.holds.queues d), List.isEmpty_iff]
  simp only [goesOn, Game.over, hempty, h.steps, Bool.not_or, Bool.and_assoc, ← decide_not, Nat.not_le,
    Game.view]

theorem play_perm (key : Nat → Nat) (g : Game) :
    ((g.play key).a ++ (g.play key).b ++ (g.play key).table).Perm (g.a ++ g.b ++ g.table) := by
  obtain ⟨as, bs, table, faceDown, steps⟩ := g
  cases as with
  | nil => exact List.Perm.refl _
  | cons x as =>
    cases bs with
    | nil => exact List.Perm.refl _
    | cons y bs =>
      rw [List.perm_iff_count]
      intro z
      simp only [Game.play, Game.settle]
      split_ifs <;> simp only [List.count_append, List.count_cons, List.count_nil] <;> omega

theorem game_perm (key : Nat → Nat) (a b : List Nat) (n : Nat) :
    ((game key a b n).a ++ (game key a b n).b ++ (game key a b n).table).Perm (a ++ b) := by
  induction n with
  | zero => simp [game]
  | succ n ih =>
    simp only [game]
    split_ifs
    · exact ih
    · exact (play_perm key _).trans ih

theorem settle_plays (h : Plays s g) (hsize : (g.a ++ g.b ++ g.table).length ≤ QUEUESIZE) (x y : Nat) :
    Plays (settle x y s) (g.settle code x y) := by
  rw [List.length_append, List.length_append] at hsize
  have hclear : ∀ d : Deck, .c ≠ d → (g.view d).length + g.table.length ≤ QUEUESIZE →
      Holds (clearQueue .c d s) (moved g.view .c d) ∧ Same s (clearQueue .c d s) := by
    intro d hd hl
    exact clearQueue_holds hd h.holds (by rw [Nat.add_comm]; exact hl)
  cases hfaceDown : g.faceDown with
  | true =>
    simp only [settle, Game.settle, h.inwar, hfaceDown, ↓reduceIte]
    exact ⟨⟨h.holds.queues, h.holds.calls, h.holds.printed⟩, rfl, h.steps⟩
  | false =>
    simp only [settle, Game.settle, h.inwar, hfaceDown, Bool.false_eq_true, ↓reduceIte, code]
    obtain hlt | heq | hgt := Nat.lt_trichotomy (value x).toNat (value y).toNat
    · rw [if_neg (Nat.lt_asymm hlt), if_pos hlt, if_neg (Nat.lt_asymm hlt), if_pos hlt]
      obtain ⟨hholds, hsame⟩ := hclear .b (by decide) (by simp only [Game.view]; omega)
      rw [moved, view_c, view_b] at hholds
      exact ⟨hholds, hsame.inwar.trans (h.inwar.trans hfaceDown), hsame.steps.trans h.steps⟩
    · rw [if_neg (Nat.not_lt.mpr (Nat.le_of_eq heq)), if_neg (Nat.not_lt.mpr (Nat.le_of_eq heq.symm)),
        if_pos (Char.toNat_inj.mp heq.symm), if_neg (Nat.not_lt.mpr (Nat.le_of_eq heq)),
        if_neg (Nat.not_lt.mpr (Nat.le_of_eq heq.symm))]
      exact ⟨⟨h.holds.queues, h.holds.calls, h.holds.printed⟩, rfl, h.steps⟩
    · rw [if_pos hgt, if_pos hgt]
      obtain ⟨hholds, hsame⟩ := hclear .a (by decide) (by simp only [Game.view]; omega)
      rw [moved, view_c, view_a] at hholds
      exact ⟨hholds, hsame.inwar.trans (h.inwar.trans hfaceDown), hsame.steps.trans h.steps⟩

theorem turn_plays (h : Plays s g) (hsize : (g.a ++ g.b ++ g.table).length ≤ QUEUESIZE)
    (hgo : g.over = false) : Plays (turn s) (g.play code) := by
  obtain ⟨as, bs, table, faceDown, steps⟩ := g
  cases as with
  | nil => simp [Game.over] at hgo
  | cons x as =>
    cases bs with
    | nil => simp [Game.over] at hgo
    | cons y bs =>
      simp only [List.length_append, List.length_cons] at hsize
      have hstart : Holds { s with steps := s.steps + 1 } _ := ⟨h.holds.queues, h.holds.calls, h.holds.printed⟩
      obtain ⟨t, ht, hholds, hsame⟩ := dequeue_holds hstart (d := .a) rfl
      rw [view_a] at hholds
      obtain ⟨u, hu, hholds', hsame'⟩ := dequeue_holds hholds (d := .b) rfl
      rw [view_b] at hholds'
      obtain ⟨hx, hsamex⟩ := enqueue_holds (d := .c) hholds' (by simp only [Game.view]; omega) x
      rw [view_c] at hx
      obtain ⟨hy, hsamey⟩ := enqueue_holds (d := .c) hx
        (by simp only [Game.view, List.length_append, List.length_singleton]; omega) y
      rw [view_c] at hy
      have hsame := ((hsame.trans hsame').trans hsamex).trans hsamey
      simp only [turn, ht, hu, Game.play]
      have hplays : Plays ((u.enqueue .c x).enqueue .c y)
          ⟨as, bs, table ++ [x, y], faceDown, steps + 1⟩ := by
        refine ⟨?_, hsame.inwar.trans h.inwar, hsame.steps.trans (congrArg (· + 1) h.steps)⟩
        have htable : table ++ [x] ++ [y] = table ++ [x, y] := List.append_assoc ..
        rw [← htable]
        exact hy
      refine settle_plays hplays ?_ x y
      simp only [List.length_append, List.length_cons, List.length_nil]
      omega

theorem start_plays (q : Deck → Nat → Nat) (cells : Nat → Nat) (hsize : a.length + b.length ≤ QUEUESIZE) :
    Plays (warStart (decks q a b) cells) ⟨a, b, [], false, 0⟩ := by
  have hempty : Holds ⟨fun d => initQueue (q d), [], [], false, 0⟩ (Game.view ⟨[], [], [], false, 0⟩) := by
    refine ⟨fun d => ?_, ?_, rfl⟩
    · cases d <;> exact initQueue_represents _
    · funext d
      cases d <;> rfl
  obtain ⟨ha, -⟩ := deal_holds (d := .a) hempty a
    (Nat.le_trans (by simp [Game.view]) (Nat.le_trans (Nat.le_add_right ..) hsize))
  rw [view_a] at ha
  obtain ⟨hb, -⟩ := deal_holds (d := .b) ha b
    (Nat.le_trans (by simp [Game.view]) (Nat.le_trans (Nat.le_add_left ..) hsize))
  rw [view_b] at hb
  refine ⟨⟨fun d => ?_, hb.calls, hb.printed⟩, rfl, rfl⟩
  cases d with
  | a => exact hb.queues .a
  | b => exact hb.queues .b
  | c => exact initQueue_represents cells

theorem heads_plays (q : Deck → Nat → Nat) (cells : Nat → Nat) (hsize : a.length + b.length ≤ QUEUESIZE)
    (n : Nat) : Plays (heads (warStart (decks q a b) cells) n) (game code a b n) := by
  induction n with
  | zero => exact start_plays q cells hsize
  | succ n ih =>
    simp only [heads, game, goesOn_eq ih]
    cases hover : (game code a b n).over with
    | true => exact ih
    | false =>
      have hlen : (a ++ b).length ≤ QUEUESIZE := by
        rw [List.length_append]
        exact hsize
      exact turn_plays ih (Nat.le_trans (Nat.le_of_eq (game_perm code a b n).length_eq) hlen) hover

end Play

/-- At the head of every round no card has been lost and no queue has been used outside of its
limits; the arrays hold what the calls of `enqueue` and `dequeue` leave in a list. -/
theorem war_conserves (q : Deck → Nat → Nat) (cells : Nat → Nat) (a b : List Nat)
    (hsize : a.length + b.length ≤ QUEUESIZE) (n : Nat) :
    let s := heads (warStart (decks q a b) cells) n
    (contents (s.queues .a) ++ contents (s.queues .b) ++ contents (s.queues .c)).Perm (a ++ b) ∧
      s.printed = [] ∧ ∀ d, contents (s.queues d) = replay s.calls d := by
  obtain ⟨⟨hqueues, hcalls, hprinted⟩, -, -⟩ := heads_plays q cells hsize n
  refine ⟨?_, hprinted, fun d => ?_⟩
  · rw [(hqueues .a).contents, (hqueues .b).contents, (hqueues .c).contents]
    exact game_perm code a b n
  · rw [(hqueues d).contents, hcalls]

theorem war_conserves_deal :
    let s := heads (warStart (decks (fun _ _ => 0) [0, 9, 50] [1, 30]) fun _ => 0) 2
    (contents (s.queues .a) ++ contents (s.queues .b) ++ contents (s.queues .c)).Perm [0, 9, 50, 1, 30] ∧
      s.printed = [] ∧ ∀ d, contents (s.queues d) = replay s.calls d :=
  war_conserves _ _ [0, 9, 50] [1, 30] (by decide) 2

end C11AndC.War
