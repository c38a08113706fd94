import MiddleEnd.Event
import MiddleEnd.Instr
import MiddleEnd.Source.Program

/-! The state of lowering: the code so far, the names handed out and what was reported. Lowering can
fail, and what was reported before the failure stays. -/

namespace MiddleEnd

/-- What an operand is needed for. -/
inductive ValueSite where
  | localInitializer
  | assignment
  | arrayStore
  | branchCondition
  | loopCondition
  | returnValue
  | leftOperand
  | rightOperand
  | unaryOperand
  | callArgument
  | arrayIndex
  | literal
  | returnValueSlot
  deriving DecidableEq

def ValueSite.text : ValueSite → String
  | localInitializer => "local initializer"
  | assignment => "assignment"
  | arrayStore => "array store"
  | branchCondition => "branch condition"
  | loopCondition => "loop condition"
  | returnValue => "return value"
  | leftOperand => "left operand"
  | rightOperand => "right operand"
  | unaryOperand => "unary operand"
  | callArgument => "call argument"
  | arrayIndex => "array index"
  | literal => "literal"
  | returnValueSlot => "return value slot"

inductive LoopControl where
  | leave
  | next
  deriving DecidableEq

def LoopControl.text : LoopControl → String
  | leave => "break"
  | next => "continue"

inductive LowerError where
  /-- There is no operand where one is needed, as for a call that returns nothing. -/
  | noValue (site : ValueSite)
  | outsideLoop (control : LoopControl)
  | nonLiteralGlobal (name : String)
  /-- The size of an array's element is beyond 64 bits. -/
  | sizeOverflow
  /-- The symbol is not in the program's table. -/
  | unknownSymbol (symbol : SymbolId)
  deriving DecidableEq

def LowerError.message : LowerError → String
  | noValue site => s!"no operand produced for {site.text}"
  | outsideLoop control => s!"`{control.text}` outside of a loop"
  | nonLiteralGlobal name => s!"global `{name}` has a non-literal initializer"
  | sizeOverflow => "attempt to multiply with overflow"
  | unknownSymbol symbol => s!"symbol {symbol} is not declared"

/-- A global variable with its first value. -/
structure Global where
  symbol : SymbolId
  init : Int64
  deriving DecidableEq

structure Builder where
  names : NameSupply := {}
  code : Code := {}
  globals : Array Global := #[]
  log : Array Event := #[]

abbrev LowerM := EStateM LowerError Builder

namespace LowerM

def report (e : Event) : LowerM Unit :=
  modify fun b => { b with log := b.log.push e }

/-- Appends an instruction, numbered by its position. -/
def emit (op : Opcode) (result left right : Option OperandId := none)
    (args : List OperandId := []) : LowerM Unit :=
  modify fun b =>
    let i : Instr := { id := b.code.instrs.size, op, result, left, right, args }
    { b with code := { b.code with instrs := b.code.instrs.push i } }

/-- Adds an operand to the arena. -/
def operand (add : Arena → OperandId × Arena) : LowerM OperandId :=
  modifyGet fun b =>
    let (o, operands) := add b.code.operands
    (o, { b with code := { b.code with operands } })

def lookup (symbols : SymbolTable) (id : SymbolId) : LowerM Symbol :=
  match symbols.get? id with
  | some s => pure s
  | none => throw (.unknownSymbol id)

def symbol (symbols : SymbolTable) (id : SymbolId) : LowerM OperandId := do
  let s ← lookup symbols id
  operand (·.symbol id s)

def int (value : Int64) : LowerM OperandId := operand (·.int value)

def newTemp (tag : Tag) : LowerM OperandId := do
  let t ← modifyGet fun b => let (t, names) := b.names.temp; (t, { b with names })
  operand (·.temp t tag)

def newLabel : LowerM OperandId := do
  let l ← modifyGet fun b => let (l, names) := b.names.label; (l, { b with names })
  operand (·.label l)

def place (label : OperandId) : LowerM Unit := emit .label none (some label)

def jump (label : OperandId) : LowerM Unit := emit .jump none (some label)

/-- Goes to `label` if `test` is false. -/
def branch (test label : OperandId) : LowerM Unit := emit .branch none (some test) (some label)

/-- Control never goes on from the last instruction. -/
def endsInTransfer : LowerM Bool :=
  return (← get).code.instrs.back?.any (·.isTransfer)

/-- The operand that there has to be. -/
def require (site : ValueSite) : Option OperandId → LowerM OperandId
  | some o => pure o
  | none => throw (.noValue site)

end LowerM

end MiddleEnd
