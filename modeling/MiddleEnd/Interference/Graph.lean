import MiddleEnd.LiveSet

/-! Interference graphs: which values must not share storage, and the definitions that say so. -/

namespace MiddleEnd

/-- One definition with everything that is live right after it. -/
structure Bundle where
  defined : OperandId
  block : Nat
  instr : Nat
  interferes : LiveSet
  /-- A comparison whose result is the condition of the branch right after it, so that the two can
  be fused. -/
  feedsBranch : Bool
  deriving DecidableEq

abbrev Adjacency := Std.ExtTreeMap OperandId LiveSet

namespace Adjacency

def neighbors (adj : Adjacency) (a : OperandId) : LiveSet := adj.getD a ∅

def addEdge (adj : Adjacency) (a b : OperandId) : Adjacency :=
  adj.insert a ((adj.neighbors a).insert b)

/-- Makes two operands neighbours of each other. -/
def link (adj : Adjacency) (a b : OperandId) : Adjacency := (adj.addEdge a b).addEdge b a

/-- Makes `a` a neighbour of each operand listed. -/
def linkAll (adj : Adjacency) (a : OperandId) (others : List OperandId) : Adjacency :=
  others.foldl (fun adj b => adj.link a b) adj

/-- Makes the operands listed neighbours of one another. -/
def linkPairs (adj : Adjacency) : List OperandId → Adjacency
  | [] => adj
  | a :: rest => (adj.linkAll a rest).linkPairs rest

end Adjacency

structure Interference where
  bundles : Array Bundle := #[]
  /-- The numbers of the bundles that define an operand, in order. -/
  definitions : Std.ExtTreeMap OperandId (List Nat) := ∅
  adjacency : Adjacency := ∅
  /-- The values that occur, in the order they were first seen. -/
  nodes : List OperandId := []
  deriving DecidableEq

namespace Interference

def bundlesOf (g : Interference) (x : OperandId) : List Bundle :=
  (g.definitions.getD x []).filterMap (g.bundles[·]?)

def neighbors (g : Interference) (x : OperandId) : LiveSet := g.adjacency.neighbors x

def interferes (g : Interference) (a b : OperandId) : Bool := (g.neighbors a).contains b

end Interference

end MiddleEnd
