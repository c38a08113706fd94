import MiddleEnd.Fault
import MiddleEnd.Name
import MiddleEnd.Operator
import MiddleEnd.Register
import MiddleEnd.Symbol

/-! Operands of three-address code. An operand that is a value needs storage of its own: it starts
with no location, may be given a register, and stays in the frame once it has been put there. -/

namespace MiddleEnd

/-- What a temporary holds. -/
inductive Tag where
  | binary (op : BinaryOp)
  | unary (op : UnaryOp)
  | copy
  | offset
  | address
  | load
  /-- Where a callee leaves its result. -/
  | callResult
  /-- An outgoing argument, by position. -/
  | arg (pos : Nat)
  /-- An incoming parameter, by position. -/
  | param (pos : Nat)
  /-- The return value of the function at hand. -/
  | returnValue
  deriving DecidableEq

inductive OperandKind where
  | symbol (id : SymbolId)
  | temp (temp : Temp) (tag : Tag)
  | label (label : Label)
  | int (value : Int64)
  deriving DecidableEq

structure Operand where
  kind : OperandKind
  isValue : Bool
  location : Option Location := none
  /-- Registers the operand must stay out of, in the order they were named. -/
  restricted : List Register := []
  deriving DecidableEq

namespace Operand

def symbol? (o : Operand) : Option SymbolId :=
  match o.kind with
  | .symbol id => some id
  | _ => none

def tag? (o : Operand) : Option Tag :=
  match o.kind with
  | .temp _ tag => some tag
  | _ => none

def register? (o : Operand) : Option Register := o.location.bind Location.register?

def inFrame (o : Operand) : Bool := o.location.any Location.isFrame

def isResolved (o : Operand) : Bool := o.location.isSome

/-- Gives the operand a register, unless it is in the frame. -/
def assign (o : Operand) (reg : Register) : Except Fault Operand :=
  if o.inFrame then .error .assignedInFrame else .ok { o with location := some (.register reg) }

def spill (o : Operand) : Operand := { o with location := some .frame }

/-- Adds the registers that are not yet listed, each once. -/
def restrict (o : Operand) (regs : List Register) : Operand :=
  { o with restricted := regs.foldl (fun rs r => if r ∈ rs then rs else rs ++ [r]) o.restricted }

end Operand

end MiddleEnd
