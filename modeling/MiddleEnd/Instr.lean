import MiddleEnd.LiveSet

/-! Instructions of three-address code. Every instruction has the same three slots and a list of
arguments; its opcode says which of them are read, written or jumped to. -/

namespace MiddleEnd

inductive Opcode where
  /-- `result = left op right` -/
  | binary (op : BinaryOp)
  /-- `result = op left` -/
  | unary (op : UnaryOp)
  /-- The head of a function, whose symbol is in `result`. -/
  | header
  /-- `result = left` -/
  | assign
  /-- `result = left(args)`, without `result` if the callee returns nothing. -/
  | call
  /-- `result = left`, where `result` is an outgoing argument. -/
  | arg (pos : Nat)
  /-- `result = left`, where `left` is an incoming parameter. -/
  | param (pos : Nat)
  /-- `result = &left + right` -/
  | address
  /-- `*left = right` -/
  | store
  /-- `result = *left` -/
  | load
  /-- `left:` -/
  | label
  /-- Goes to `right` if `left` is false. -/
  | branch
  /-- Goes to `left`. -/
  | jump
  /-- Returns `left`. -/
  | ret
  deriving DecidableEq

structure Instr where
  id : Nat
  op : Opcode
  result : Option OperandId := none
  left : Option OperandId := none
  right : Option OperandId := none
  /-- The marshalled arguments of a call. -/
  args : List OperandId := []
  /-- The values that must survive the instruction. -/
  liveOut : LiveSet := ∅
  deriving DecidableEq

namespace Instr

/-- The operands in the slots that the opcode reads, then the arguments. Labels are not read. -/
def sources (i : Instr) : List OperandId :=
  (match i.op with
    | .label | .jump => []
    | .branch => i.left.toList
    | _ => i.left.toList ++ i.right.toList) ++ i.args

/-- The operand that is written. -/
def dest? (i : Instr) : Option OperandId :=
  match i.op with
  | .header => none
  | _ => i.result

/-- The label that control may go to. -/
def target? (i : Instr) : Option OperandId :=
  match i.op with
  | .jump => i.left
  | .branch => i.right
  | _ => none

/-- Control never goes on to the next instruction. -/
def isTransfer (i : Instr) : Bool := i.op = .jump || i.op = .ret

/-- Every operand mentioned: the slots, then the arguments. -/
def mentions (i : Instr) : List OperandId :=
  i.result.toList ++ i.left.toList ++ i.right.toList ++ i.args

/-- The values that are read. -/
def reads (a : Arena) (i : Instr) : List OperandId := i.sources.filter a.isValue

/-- The value that is written. -/
def writes? (a : Arena) (i : Instr) : Option OperandId := i.dest?.filter a.isValue

end Instr

/-- The instruction table of a unit with the operands it mentions. -/
structure Code where
  instrs : Array Instr := #[]
  operands : Arena := {}
  deriving DecidableEq

/-- The instructions from position `first` to position `last`. -/
def Code.slice (c : Code) (first last : Nat) : List Instr :=
  (c.instrs.extract first (last + 1)).toList

end MiddleEnd
