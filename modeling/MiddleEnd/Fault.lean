/-! Ways in which a stage cannot go on. None of them is the program's fault: each breaks something
that the stage was promised. -/

namespace MiddleEnd

inductive Fault where
  /-- A register was given to an operand that is in the frame. -/
  | assignedInFrame
  /-- An operand is in a register and in the frame. -/
  | twoPlaces
  /-- An operand is asked for that is not in the arena. -/
  | noOperand
  /-- A block or a function reaches beyond the instruction table. -/
  | outOfTable
  /-- The live sets of a flow graph never settle. -/
  | unsettled
  /-- Scanning a block does not lead to the set that is live on entry to it. -/
  | liveInMismatch
  deriving DecidableEq

def Fault.message : Fault → String
  | assignedInFrame => "assigning a register to a spilled operand"
  | twoPlaces => "operand both colored and spilled"
  | noOperand => "no such operand"
  | outOfTable => "range beyond the instruction table"
  | unsettled => "live sets do not settle"
  | liveInMismatch => "scan of a block disagrees with its live-in set"

end MiddleEnd
