import MiddleEnd.Operand.Arena

/-! What the stages report while they run. -/

namespace MiddleEnd

inductive Level where
  | debug
  | trace
  deriving DecidableEq

def Level.text : Level → String
  | .debug => "DEBUG"
  | .trace => "TRACE"

inductive Event where
  | loweredCall (callee : String) (args : Nat)
  | loweredFunction (name : String) (instrs : Nat)
  | loweredUnit (instrs operands : Nat)
  | builtFunction (name : String) (first last blocks : Nat)
  | settled (passes : Nat)
  | bundled (number : Nat) (defined : OperandId) (instr interferences : Nat)
  | placed (operand : OperandId) (location : Location)
  | allocated (convention : String) (values spilled : Nat)
  | compiled (convention : String) (functions instrs spills : Nat)
  deriving DecidableEq

def OperandId.text (id : OperandId) : String := s!"%{id}"

namespace Event

/-- Calls, definitions and placements are the fine grain; the rest sums up a stage. -/
def level : Event → Level
  | loweredCall .. | bundled .. | placed .. => .trace
  | _ => .debug

def text : Event → String
  | loweredCall callee args => s!"call to `{callee}` with {args} arguments"
  | loweredFunction name instrs => s!"lowered function `{name}` into {instrs} instructions"
  | loweredUnit instrs operands => s!"lowered {instrs} instructions, {operands} operands"
  | builtFunction name first last blocks =>
    s!"function `{name}`: instructions {first}..={last}, {blocks} blocks"
  | settled passes => s!"liveness converged after {passes} passes"
  | bundled number defined instr interferences =>
    s!"bundle {number} for {OperandId.text defined} at {instr}: {interferences} interferences"
  | placed operand location => s!"{OperandId.text operand} -> {location.text}"
  | allocated convention values spilled => s!"{convention}: {values} values, {spilled} spilled"
  | compiled convention functions instrs spills =>
    s!"{convention}: {functions} functions, {instrs} instructions, {spills} spills"

end Event

end MiddleEnd
