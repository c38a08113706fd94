import MiddleEnd.Event
import MiddleEnd.Interference.Graph

/-! Greedy colouring. The values of an interference graph are taken in a fixed order, the defined
ones first. One that has no location yet gets the first register that is allowed to it and that no
neighbour holds, or goes to the frame. -/

namespace MiddleEnd

/-- The registers that operands hold. -/
def Arena.held (a : Arena) (ids : List OperandId) : List Register := ids.filterMap a.register?

/-- The first register that is not held or, if that one is restricted, the first such among the others. -/
def firstFree? (held restricted registers : List Register) : Option Register :=
  match registers.find? (· ∉ held) with
  | some r => if r ∈ restricted then (registers.filter (· ∉ restricted)).find? (· ∉ held) else some r
  | none => none

/-- The operands with their locations, and the choices that were made, in order. -/
structure Coloring where
  operands : Arena
  choices : List (OperandId × Location) := []

namespace Interference

def free? (g : Interference) (a : Arena) (registers : List Register) (x : OperandId) :
    Option Register :=
  firstFree? (a.held (g.neighbors x).toList) (a.restricted x) registers

/-- Gives one operand a location, if it has none. -/
def colorOne (g : Interference) (registers : List Register) (s : Coloring) (x : OperandId) :
    Except Fault Coloring :=
  if s.operands.isResolved x then .ok s
  else
    match g.free? s.operands registers x with
    | some reg => do
      let operands ← s.operands.assign x reg
      return { operands, choices := s.choices ++ [(x, .register reg)] }
    | none => .ok { operands := s.operands.spill x, choices := s.choices ++ [(x, .frame)] }

/-- The order of colouring: definitions first, then what is only read. -/
def order (g : Interference) : List OperandId := g.bundles.toList.map (·.defined) ++ g.nodes

def color (g : Interference) (registers : List Register) (a : Arena) : Except Fault Coloring :=
  g.order.foldlM (g.colorOne registers) { operands := a }

end Interference

/-- The operands that went to the frame, in order. -/
def Coloring.spilled (s : Coloring) : List OperandId :=
  (s.choices.filter (·.2.isFrame)).map (·.1)

def choiceLog (choices : List (OperandId × Location)) : List Event :=
  choices.map fun c => .placed c.1 c.2

end MiddleEnd
