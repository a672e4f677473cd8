import C11AndC.Binomial.Decrease

namespace C11AndC.Binomial

open C11AndC.Library

def LeastChildless : List Node → Prop
  | [] => True
  | v :: l => (leastNode v l).child = 0

/-- The root that is extracted, the first of the least ones, has no children. -/
def Childless (s : State) : Command → Prop
  | .operation .extractMin => LeastChildless (rootList s.store.mem s.store.mem.next s.head)
  | _ => True

instance decidableLeastChildless : (l : List Node) → Decidable (LeastChildless l)
  | [] => .isTrue trivial
  | v :: l => inferInstanceAs (Decidable ((leastNode v l).child = 0))

instance decidableChildless (s : State) : (c : Command) → Decidable (Childless s c)
  | .operation .extractMin => inferInstanceAs (Decidable (LeastChildless _))
  | .operation (.insert _ _) => .isTrue trivial
  | .decreaseKey _ _ => .isTrue trivial

section Links

variable {s t : State} {c : Command}

end Links

end C11AndC.Binomial
