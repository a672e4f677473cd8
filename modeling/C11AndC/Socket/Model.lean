import C11AndC.Library.CString

namespace C11AndC.Socket

open C11AndC.Library

def byte (n : Nat) : Char := Char.ofNat (n % 256)

/-- The four bytes of an `int`. -/
def bytes (n : Int) : List Char :=
  let m := (n % 4294967296).toNat
  [byte m, byte (m / 256), byte (m / 65536), byte (m / 16777216)]

def toInt (header : List Char) : Int :=
  Int.bmod (header.foldr (fun c n => c.toNat + 256 * n) 0 : Nat) 4294967296

/-- The `int` that a size is converted to. -/
def intOf (n : Nat) : Int := Int.bmod n 4294967296

/-- What is written; `write` fails for a negative length. -/
def writeText (text : List Char) : List Char :=
  let length := intOf (text.length + 1)
  bytes length ++ (text ++ [nul]).take length.toNat

/-- What the system decides in one round of the loop of `server`: how much the two calls of `read`
give, and what is read from the buffer after it has been freed, if that can be read at all. -/
structure Round where
  header : Nat
  body : Nat
  freed : Option (List Char)

/-- What the memory of `length` and of the buffer holds beforehand. -/
structure Junk where
  length : Nat → UInt8
  text : Nat → UInt8

inductive Line where
  | waiting
  | text (s : List Char)
  deriving DecidableEq

/-- `running` is the outcome where the rounds are used up. -/
inductive Outcome where
  | returns (printed : List Line) (status : Nat)
  | undefined
  | running

/-- A call of `read` for `n` bytes: how many it gives, the memory and the rest of the stream. It
gives at least one byte as long as there are any. -/
def read (stream : List Char) (n size : Nat) (junk : Nat → UInt8) : Nat × List Char × List Char :=
  let got := stream.take (min n (max 1 size))
  (got.length, got ++ (List.range (n - got.length)).map fun i => byte (junk (got.length + i)).toNat,
    stream.drop got.length)

def quit : List Char := ['q', 'u', 'i', 't']

/-- No text can be read into the buffer or printed if its length is not positive, and none can be
printed without its end mark. -/
def server (rounds : Nat → Round) (junk : Nat → Junk) :
    Nat → Nat → List Char → List Line → Outcome
  | 0, _, _, _ => .running
  | n + 1, i, stream, printed =>
    let (count, header, stream) := read stream 4 (rounds i).header (junk i).length
    if count = 0 then .returns printed 0
    else if toInt header ≤ 0 then .undefined
    else
      let (_, text, stream) := read stream (toInt header).toNat (rounds i).body (junk i).text
      if nul ∉ text then .undefined
      else
        let printed := printed ++ [.waiting, .text (str text)]
        if str text = quit then .returns printed 1
        else
          match (rounds i).freed with
          | none => .undefined
          | some freed => if freed = quit then .returns printed 1 else server rounds junk n (i + 1) stream printed

end C11AndC.Socket
