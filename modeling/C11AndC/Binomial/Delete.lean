import C11AndC.Binomial.Decrease

namespace C11AndC.Binomial

open C11AndC.Library

section Target

variable {m : Memory Node} {l pre post : List Root} {r x : Root} {k : Int} {p e : Nat}
  {key : Nat → Int}

end Target

section Delete

variable {s : Store Node BinomialHeap} {l : List Root} {k : Int} {steps : Nat}

end Delete

end C11AndC.Binomial
