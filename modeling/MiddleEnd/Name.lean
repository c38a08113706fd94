/-! Names of temporaries and labels, and the supply that hands them out in order. -/

namespace MiddleEnd

structure Temp where
  num : Nat
  deriving DecidableEq, Ord

structure Label where
  num : Nat
  deriving DecidableEq, Ord

def Temp.text (t : Temp) : String := s!"t{t.num}"

def Label.text (l : Label) : String := s!"L{l.num}"

/-- How many temporaries and labels have been handed out; each kind is numbered from zero. -/
structure NameSupply where
  temps : Nat := 0
  labels : Nat := 0

namespace NameSupply

def temp (n : NameSupply) : Temp × NameSupply :=
  (⟨n.temps⟩, { n with temps := n.temps + 1 })

def label (n : NameSupply) : Label × NameSupply :=
  (⟨n.labels⟩, { n with labels := n.labels + 1 })

end NameSupply

end MiddleEnd
