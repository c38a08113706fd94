import MiddleEnd.Allocation
import MiddleEnd.Operand.Bank

/-! Register allocation on operands as they are stored. Every look at an operand can fail, because it is not there or
because it is in two places. Liveness and interference only ask what the operands are. -/

namespace MiddleEnd

/-- The divisor of a division, when it is a value. -/
def Instr.storedDivisor? (b : Bank) (i : Instr) : Except Fault (Option OperandId) :=
  match i.op with
  | .binary (.arith .div) | .binary (.arith .mod) => i.right.filterM b.isValue
  | _ => .ok none

namespace Bank

/-- Puts an operand in the place that is fixed for it, if it has no location yet. -/
def pin (conv : Convention) (b : Bank) (x : OperandId) : Except Fault Bank := do
  if ← b.isResolved x then
    return b
  else
    match (← b.fetch x).tag?.bind conv.fixed? with
    | some (.register reg) => b.assign x reg
    | some .frame => b.spill x
    | none => return b

/-- Spills a parameter that is not passed in a register. -/
def spillParam (conv : Convention) (b : Bank) (i : Instr) : Except Fault Bank :=
  match i.op, i.result with
  | .param pos, some x =>
    if conv.args.length ≤ pos then do
      if ← b.isValue x then b.spill x else return b
    else .ok b
  | _, _ => .ok b

def pinInstr (conv : Convention) (b : Bank) (i : Instr) : Except Fault Bank := do
  (← i.mentions.foldlM (pin conv) b).spillParam conv i

/-- Keeps each operand listed out of the registers. -/
def restrictAll (b : Bank) (regs : List Register) (ids : List OperandId) : Except Fault Bank :=
  ids.foldlM (fun b x => b.restrict x regs) b

/-- Keeps values out of the registers that an instruction overwrites, if it overwrites any. -/
def restrictInstr (conv : Convention) (b : Bank) (i : Instr) : Except Fault Bank := do
  let regs := conv.clobbers i.op
  let b ← b.restrictAll regs (← i.storedDivisor? b).toList
  if regs.isEmpty then return b else b.restrictAll regs i.exposed.toList

/-- The registers that operands hold. -/
def held (b : Bank) (ids : List OperandId) : Except Fault (List Register) := do
  return (← ids.mapM b.fetch).filterMap (·.register)

end Bank

/-- The operands as they are stored, and the choices that were made, in order. -/
structure StoredColoring where
  bank : Bank
  choices : List (OperandId × Location) := []

def StoredColoring.spilled (s : StoredColoring) : List OperandId :=
  (s.choices.filter (·.2.isFrame)).map (·.1)

namespace Interference

/-- Gives one operand a location, if it has none. -/
def colorCell (g : Interference) (registers : List Register) (s : StoredColoring) (x : OperandId) :
    Except Fault StoredColoring := do
  if ← s.bank.isResolved x then
    return s
  else
    match firstFree? (← s.bank.held (g.neighbors x).toList) (← s.bank.fetch x).restricted registers with
    | some reg => return { bank := ← s.bank.assign x reg, choices := s.choices ++ [(x, .register reg)] }
    | none => return { bank := ← s.bank.spill x, choices := s.choices ++ [(x, .frame)] }

def colorBank (g : Interference) (registers : List Register) (b : Bank) : Except Fault StoredColoring :=
  g.order.foldlM (g.colorCell registers) { bank := b }

end Interference

/-- Code with its operands as they are stored. -/
structure StoredCode where
  instrs : Array Instr := #[]
  bank : Bank := {}

/-- The code as long as no location is looked at. -/
def StoredCode.outline (c : StoredCode) : Code where
  instrs := c.instrs
  operands := c.bank.outline

/-- The result of allocating one function. -/
structure StoredAllocation where
  code : StoredCode
  routine : Routine
  passes : Nat
  choices : List (OperandId × Location)

def Routine.allocateStored (conv : Convention) (r : Routine) (c : StoredCode) : Except Fault StoredAllocation := do
  let analysis ← c.outline.analyze r.flow
  let interference := analysis.code.interference analysis.flow
  if r.first ≤ r.last + 1 ∧ r.last < analysis.code.instrs.size then
    let is := analysis.code.slice r.first r.last
    let pinned ← is.foldlM (Bank.pinInstr conv) c.bank
    let restricted ← is.foldlM (Bank.restrictInstr conv) pinned
    let coloring ← interference.colorBank conv.registers restricted
    return {
      code := { instrs := analysis.code.instrs, bank := coloring.bank }
      routine := { r with flow := analysis.flow, interference, spilled := coloring.spilled }
      passes := analysis.passes
      choices := coloring.choices }
  else .error .outOfTable

end MiddleEnd
