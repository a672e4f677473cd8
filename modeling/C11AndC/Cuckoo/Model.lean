import Mathlib.Logic.Function.Basic

namespace C11AndC.Cuckoo

def MAXN : Int := 11

def ver : Nat := 2

/-- `INT_MIN`, the mark of a cell without a key. -/
def empty : Int := -2147483648

/-- The global variables, and what has been printed as unpositioned. -/
structure State where
  hashtable : Nat → Int → Int
  pos : Nat → Int
  printed : List Int

def initTable (s : State) : State :=
  { s with hashtable := fun i j => if i < ver ∧ 0 ≤ j ∧ j < MAXN then empty else s.hashtable i j }

def hash (function : Nat) (key : Int) : Int :=
  match function with
  | 1 => key.tmod MAXN
  | _ => (key.tdiv MAXN).tmod MAXN

/-- The loop of `place` over the tables `l`; the answer is whether it finds the key. -/
def positions (key : Int) : List Nat → State → Bool × State
  | [], s => (false, s)
  | i :: l, s =>
    let s := { s with pos := Function.update s.pos i (hash (i + 1) key) }
    if s.hashtable i (s.pos i) = key then (true, s) else positions key l s

def fill (s : State) (i : Nat) (j key : Int) : State :=
  { s with hashtable := Function.update s.hashtable i (Function.update (s.hashtable i) j key) }

/-- The first argument is `n - cnt`. -/
def place : Nat → Int → Nat → State → State
  | 0, key, _, s => { s with printed := s.printed ++ [key] }
  | left + 1, key, tableID, s =>
    match positions key (List.range ver) s with
    | (true, s) => s
    | (false, s) =>
      let dis := s.hashtable tableID (s.pos tableID)
      let t := fill s tableID (s.pos tableID) key
      if dis ≠ empty then place left dis ((tableID + 1) % ver) t else t

def cuckoo (keys : List Int) (s : State) : State :=
  keys.foldl (fun s key => place keys.length key 0 s) (initTable s)

end C11AndC.Cuckoo
