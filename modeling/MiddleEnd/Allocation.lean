import MiddleEnd.Coloring
import MiddleEnd.Convention
import MiddleEnd.Interference.Build
import MiddleEnd.Liveness

/-! Register allocation of a function: liveness and interference, then the places that the calling
convention fixes, then the registers that calls and divisions overwrite, then colouring. -/

namespace MiddleEnd

/-- Keeps each operand listed out of the registers. -/
def Arena.restrictAll (a : Arena) (regs : List Register) (ids : List OperandId) : Arena :=
  ids.foldl (fun a x => a.restrict x regs) a

namespace Instr

/-- The values that must not be in a register that the instruction overwrites: those live after it
but for its own result. -/
def exposed (i : Instr) : LiveSet := i.dest?.elim i.liveOut i.liveOut.erase

/-- The divisor of a division, when it is a value. -/
def divisor? (a : Arena) (i : Instr) : Option OperandId :=
  match i.op with
  | .binary (.arith .div) | .binary (.arith .mod) => i.right.filter a.isValue
  | _ => none

end Instr

namespace Convention

/-- The place of an operand that the convention fixes. -/
def fixed? (conv : Convention) : Tag → Option Location
  | .arg pos | .param pos => some (conv.args[pos]?.elim .frame .register)
  | .returnValue | .callResult => some (.register conv.result)
  | _ => none

/-- Puts an operand in the place that is fixed for it, if it has no location yet. -/
def pin (conv : Convention) (a : Arena) (x : OperandId) : Except Fault Arena :=
  if a.isResolved x then .ok a
  else
    match (a.tag? x).bind conv.fixed? with
    | some (.register reg) => a.assign x reg
    | some .frame => .ok (a.spill x)
    | none => .ok a

/-- Spills a parameter that is not passed in a register. -/
def spillParam (conv : Convention) (a : Arena) (i : Instr) : Arena :=
  match i.op, i.result with
  | .param pos, some x => if conv.args.length ≤ pos && a.isValue x then a.spill x else a
  | _, _ => a

def pinInstr (conv : Convention) (a : Arena) (i : Instr) : Except Fault Arena := do
  return conv.spillParam (← i.mentions.foldlM conv.pin a) i

/-- What an instruction overwrites besides its result. -/
def clobbers (conv : Convention) : Opcode → List Register
  | .call => conv.callerSaved
  | .binary (.arith .div) | .binary (.arith .mod) => conv.divisionClobbers
  | _ => []

/-- Keeps values out of the registers that an instruction overwrites. -/
def restrictInstr (conv : Convention) (a : Arena) (i : Instr) : Arena :=
  a.restrictAll (conv.clobbers i.op) ((i.divisor? a).toList ++ i.exposed.toList)

end Convention

/-- The result of allocating one function: the code, what is known of the function, the passes that
liveness took and the choices of the colouring. -/
structure Allocation where
  code : Code
  routine : Routine
  passes : Nat
  choices : List (OperandId × Location)

def Routine.allocate (conv : Convention) (r : Routine) (c : Code) : Except Fault Allocation := do
  let analysis ← c.analyze r.flow
  let interference := analysis.code.interference analysis.flow
  let is := analysis.code.slice r.first r.last
  let pinned ← is.foldlM conv.pinInstr analysis.code.operands
  let restricted := is.foldl conv.restrictInstr pinned
  let coloring ← interference.color conv.registers restricted
  return {
    code := { analysis.code with operands := coloring.operands }
    routine := { r with flow := analysis.flow, interference, spilled := coloring.spilled }
    passes := analysis.passes
    choices := coloring.choices }

def Allocation.log (conv : Convention) (r : Allocation) : List Event :=
  .settled r.passes :: r.routine.interference.log ++ choiceLog r.choices ++
    [.allocated conv.name r.routine.interference.nodes.length r.routine.spilled.length]

end MiddleEnd
