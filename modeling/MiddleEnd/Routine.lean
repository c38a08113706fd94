import MiddleEnd.FlowGraph
import MiddleEnd.Interference.Graph

/-! What is known of one function: where its instructions stand, how control goes, which values are
in each other's way and which were put in the frame. -/

namespace MiddleEnd

structure Routine where
  symbol : SymbolId
  /-- The position of the header. -/
  first : Nat
  /-- The position of the last instruction. -/
  last : Nat
  flow : FlowGraph
  interference : Interference := {}
  /-- The values that found no register, in the order they were put in the frame. -/
  spilled : List OperandId := []
  deriving DecidableEq

end MiddleEnd
