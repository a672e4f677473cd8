import C11AndC.War.Game

namespace C11AndC.War

/-- The position of the value of a card in the order 2, ..., 9, T, J, Q, K, A. -/
def rank (card : Nat) : Nat := card / NSUITS

/-- The ranks, the lower one first, whose characters stand in the other order: these are all pairs
of different ranks from T, J, Q, K and A, but for J and Q, and J and K. -/
def confused : List (Nat × Nat) :=
  [(8, 9), (8, 10), (8, 11), (8, 12), (9, 12), (10, 11), (10, 12), (11, 12)]

def Misordered (x y : Nat) : Prop := (rank x, rank y) ∈ confused ∨ (rank y, rank x) ∈ confused

/-- No two cards that the game compares before it is over are misordered. -/
def FairPairs (a b : List Nat) : Prop :=
  ∀ n x y, (game rank a b n).over = false → (game rank a b n).faceDown = false →
    (game rank a b n).a.head? = some x → (game rank a b n).b.head? = some y → ¬ Misordered x y

/-- How the game ended. -/
def Game.report (g : Game) : Line :=
  if !g.a.isEmpty && g.b.isEmpty then .aWins g.steps
  else if g.a.isEmpty && !g.b.isEmpty then .bWins g.steps
  else if !g.a.isEmpty && !g.b.isEmpty then .tied g.steps g.a.length g.b.length
  else .bothTie g.steps

/-- The queues hold the cards as the game has them. -/
structure Shows (s : State) (g : Game) : Prop where
  a : contents (s.queues .a) = g.a
  b : contents (s.queues .b) = g.b
  table : contents (s.queues .c) = g.table
  inwar : s.inwar = g.faceDown
  steps : s.steps = g.steps

/-- `war` plays the game with the order of the ranks. -/
structure Follows (q : Deck → Nat → Nat) (cells : Nat → Nat) (a b : List Nat) : Prop where
  rounds : ∀ n, Shows (heads (warStart (decks q a b) cells) n) (game rank a b n)
  ends : goesOn (heads (warStart (decks q a b) cells) MAXSTEPS) = false
  printed : (war (decks q a b) cells).printed = [(game rank a b MAXSTEPS).report]

section Ranks

variable {q : Deck → Nat → Nat} {cells : Nat → Nat} {a b : List Nat} {s : State} {g : Game} {x y n : Nat}

theorem rank_lt (hx : x < 52) : rank x < 13 := Nat.div_lt_of_lt_mul hx

theorem ranks_order : ∀ j < 13, ∀ i < j,
    (i, j) ∈ confused ∨ (values.getD i '\x00').toNat < (values.getD j '\x00').toNat := by
  decide

theorem ranks_disorder : ∀ p ∈ confused, p.1 < p.2 ∧
    (values.getD p.2 '\x00').toNat < (values.getD p.1 '\x00').toNat := by
  decide

theorem code_order (hx : x < 52) (hy : y < 52) (h : ¬ Misordered x y) : code x < code y ↔ rank x < rank y := by
  obtain ⟨hxy, hyx⟩ := not_or.mp h
  obtain hlt | heq | hgt := Nat.lt_trichotomy (rank x) (rank y)
  · have hcode := (ranks_order _ (rank_lt hy) _ hlt).resolve_left hxy
    exact iff_of_true hcode hlt
  · have hcode : code x = code y := congrArg (fun i => (values.getD i '\x00').toNat) heq
    rw [hcode, heq]
    exact iff_of_false (Nat.lt_irrefl _) (Nat.lt_irrefl _)
  · have hcode := (ranks_order _ (rank_lt hx) _ hgt).resolve_left hyx
    exact iff_of_false (Nat.lt_asymm hcode) (Nat.lt_asymm hgt)

theorem code_disorder (h : Misordered x y) :
    (rank x < rank y ∧ code y < code x) ∨ (rank y < rank x ∧ code x < code y) := by
  obtain hxy | hyx := h
  · exact .inl (ranks_disorder _ hxy)
  · exact .inr (ranks_disorder _ hyx)

theorem settle_same (hx : x < 52) (hy : y < 52) (h : g.faceDown = false → ¬ Misordered x y) :
    g.settle code x y = g.settle rank x y := by
  cases hfaceDown : g.faceDown with
  | true => simp only [Game.settle, hfaceDown, ↓reduceIte]
  | false =>
    have hfair := h hfaceDown
    simp only [Game.settle, code_order hx hy hfair, code_order hy hx fun hyx => hfair hyx.symm]

/-- A misordered pair gives the cards on the table to the wrong player. -/
theorem settle_differs (h : Misordered x y) (hfaceDown : g.faceDown = false) (htable : g.table ≠ []) :
    g.settle code x y ≠ g.settle rank x y := by
  have hne : ∀ l : List Nat, l ++ g.table ≠ l := fun l hl => htable (by simpa using hl)
  simp only [Game.settle, hfaceDown, Bool.false_eq_true, ↓reduceIte]
  obtain ⟨hrank, hcode⟩ | ⟨hrank, hcode⟩ := code_disorder h
  · rw [if_pos hcode, if_neg (Nat.lt_asymm hrank), if_pos hrank]
    exact fun heq => hne _ (congrArg Game.a heq)
  · rw [if_neg (Nat.lt_asymm hcode), if_pos hcode, if_pos hrank]
    exact fun heq => hne _ (congrArg Game.b heq)

theorem game_cards (hcards : ∀ z ∈ a ++ b, z < 52) (key : Nat → Nat) (n : Nat) :
    (∀ x ∈ (game key a b n).a, x < 52) ∧ ∀ y ∈ (game key a b n).b, y < 52 := by
  have hperm := game_perm key a b n
  refine ⟨fun x hx => hcards x (hperm.subset ?_), fun y hy => hcards y (hperm.subset ?_)⟩
  · exact List.mem_append_left _ (List.mem_append_left _ hx)
  · exact List.mem_append_left _ (List.mem_append_right _ hy)

theorem game_same (hcards : ∀ z ∈ a ++ b, z < 52) (h : FairPairs a b) (n : Nat) :
    game code a b n = game rank a b n := by
  induction n with
  | zero => rfl
  | succ n ih =>
    have hfair := h n
    obtain ⟨ha, hb⟩ := game_cards hcards rank n
    simp only [game, ih]
    split_ifs with hover
    · rfl
    · generalize game rank a b n = g at *
      obtain ⟨as, bs, table, faceDown, steps⟩ := g
      cases as with
      | nil => rfl
      | cons x as =>
        cases bs with
        | nil => rfl
        | cons y bs =>
          refine settle_same (ha x (List.mem_cons_self ..)) (hb y (List.mem_cons_self ..)) fun hfaceDown => ?_
          exact hfair x y (Bool.eq_false_iff.mpr hover) hfaceDown rfl rfl

theorem play_steps (hover : g.over = false) (key : Nat → Nat) : (g.play key).steps = g.steps + 1 := by
  obtain ⟨as, bs, table, faceDown, steps⟩ := g
  cases as with
  | nil => simp [Game.over] at hover
  | cons x as =>
    cases bs with
    | nil => simp [Game.over] at hover
    | cons y bs =>
      simp only [Game.play, Game.settle]
      split_ifs <;> rfl

theorem game_over (key : Nat → Nat) (a b : List Nat) (n : Nat) :
    (game key a b n).over = true ∨ (game key a b n).steps = n := by
  induction n with
  | zero => exact .inr rfl
  | succ n ih =>
    simp only [game]
    split_ifs with hover
    · exact .inl hover
    · obtain hover' | hsteps := ih
      · exact absurd hover' hover
      · exact .inr (by rw [play_steps (Bool.eq_false_iff.mpr hover), hsteps])

theorem game_ends (key : Nat → Nat) (a b : List Nat) : (game key a b MAXSTEPS).over = true := by
  obtain hover | hsteps := game_over key a b MAXSTEPS
  · exact hover
  · simp [Game.over, hsteps]

theorem shows_of_plays (h : Plays s g) : Shows s g :=
  ⟨(h.holds.queues .a).contents, (h.holds.queues .b).contents, (h.holds.queues .c).contents, h.inwar, h.steps⟩

theorem shows_unique {g' : Game} (h : Shows s g) (h' : Shows s g') : g = g' := by
  obtain ⟨as, bs, table, faceDown, steps⟩ := g
  obtain ⟨rfl, rfl, rfl, rfl, rfl⟩ := h
  obtain ⟨ha, hb, htable, hinwar, hsteps⟩ := h'
  simp only [ha, hb, htable, hinwar, hsteps]

theorem result_eq (h : Plays s g) : result s = g.report := by
  have hempty : ∀ d, empty (s.queues d) = (g.view d).isEmpty := by
    intro d
    rw [Bool.eq_iff_iff, empty_iff (h.holds.queues d), List.isEmpty_iff]
  have hcount : ∀ d, (s.queues d).count = (g.view d).length := fun d => (h.holds.queues d).count
  simp only [result, Game.report, hempty, hcount, h.steps, Game.view]

theorem follows_of_fair (hcards : ∀ z ∈ a ++ b, z < 52) (hsize : a.length + b.length ≤ QUEUESIZE)
    (h : FairPairs a b) : Follows q cells a b := by
  have hplays : ∀ n, Plays (heads (warStart (decks q a b) cells) n) (game rank a b n) := by
    intro n
    rw [← game_same hcards h]
    exact heads_plays q cells hsize n
  refine ⟨fun n => shows_of_plays (hplays n), ?_, ?_⟩
  · rw [goesOn_eq (hplays MAXSTEPS), game_ends]
    rfl
  · simp only [war, result_eq (hplays MAXSTEPS), (hplays MAXSTEPS).holds.printed, List.nil_append]

theorem fair_of_follows (hsize : a.length + b.length ≤ QUEUESIZE)
    (h : Follows q cells a b) : FairPairs a b := by
  have hsame : ∀ n, game code a b n = game rank a b n := fun n =>
    shows_unique (shows_of_plays (heads_plays q cells hsize n)) (h.rounds n)
  intro n x y hover hfaceDown ha hb hmis
  have hnext := hsame (n + 1)
  simp only [game, hsame n, hover, Bool.false_eq_true, ↓reduceIte] at hnext
  generalize game rank a b n = g at *
  obtain ⟨as, bs, table, faceDown, steps⟩ := g
  obtain ⟨as, rfl⟩ := List.head?_eq_some_iff.mp ha
  obtain ⟨bs, rfl⟩ := List.head?_eq_some_iff.mp hb
  exact settle_differs (g := ⟨as, bs, table ++ [x, y], faceDown, steps + 1⟩) hmis hfaceDown (by simp) hnext

end Ranks

/-- `war` compares the characters of the values: it plays the game unless two cards meet whose
characters are not ordered as their ranks. -/
theorem war_follows_iff (q : Deck → Nat → Nat) (cells : Nat → Nat) (a b : List Nat)
    (hcards : ∀ z ∈ a ++ b, z < 52) (hsize : a.length + b.length ≤ QUEUESIZE) :
    Follows q cells a b ↔ FairPairs a b :=
  ⟨fair_of_follows hsize, follows_of_fair hcards hsize⟩

/-- A jack against a queen. -/
theorem war_follows_iff_jack :
    Follows (fun _ _ => 0) (fun _ => 0) [36] [40] ↔ FairPairs [36] [40] :=
  war_follows_iff _ _ [36] [40] (by decide) (by decide)

/-- An ace against a king. -/
theorem war_follows_ace : ¬ Follows (fun _ _ => 0) (fun _ => 0) [48] [44] := by
  intro h
  have hfair := fair_of_follows (by decide) h
  exact hfair 0 48 44 (by decide) rfl rfl rfl (.inr (by decide))

end C11AndC.War
