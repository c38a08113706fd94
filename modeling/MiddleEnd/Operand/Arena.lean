import MiddleEnd.Operand
import Std.Data.ExtTreeMap

/-! The operands of a unit, numbered in the order they came. A symbol has one operand however often
it is mentioned; every temporary, label and integer gets a new one. -/

namespace MiddleEnd

/-- The position of an operand in its arena. -/
abbrev OperandId := Nat

structure Arena where
  operands : Array Operand := #[]
  /-- The operand of each symbol that has one. -/
  interned : Std.ExtTreeMap SymbolId OperandId := ∅
  deriving DecidableEq

namespace Arena

def size (a : Arena) : Nat := a.operands.size

def get? (a : Arena) (id : OperandId) : Option Operand := a.operands[id]?

def push (a : Arena) (o : Operand) : OperandId × Arena :=
  (a.size, { a with operands := a.operands.push o })

/-- The operand of symbol `id`, which is declared as `s`. -/
def symbol (a : Arena) (id : SymbolId) (s : Symbol) : OperandId × Arena :=
  match a.interned[id]? with
  | some o => (o, a)
  | none =>
    let (o, a) := a.push { kind := .symbol id, isValue := s.isRegisterCandidate }
    (o, { a with interned := a.interned.insert id o })

def temp (a : Arena) (t : Temp) (tag : Tag) : OperandId × Arena :=
  a.push { kind := .temp t tag, isValue := true }

def label (a : Arena) (l : Label) : OperandId × Arena :=
  a.push { kind := .label l, isValue := false }

def int (a : Arena) (value : Int64) : OperandId × Arena :=
  a.push { kind := .int value, isValue := false }

def isValue (a : Arena) (id : OperandId) : Bool := (a.get? id).any (·.isValue)

def isResolved (a : Arena) (id : OperandId) : Bool := (a.get? id).any (·.isResolved)

def register? (a : Arena) (id : OperandId) : Option Register := (a.get? id).bind (·.register?)

def tag? (a : Arena) (id : OperandId) : Option Tag := (a.get? id).bind (·.tag?)

def restricted (a : Arena) (id : OperandId) : List Register := (a.get? id).elim [] (·.restricted)

def modify (a : Arena) (id : OperandId) (f : Operand → Operand) : Arena :=
  { a with operands := a.operands.modify id f }

def assign (a : Arena) (id : OperandId) (reg : Register) : Except Fault Arena :=
  match a.get? id with
  | none => .ok a
  | some o => do
    let o ← o.assign reg
    return { a with operands := a.operands.setIfInBounds id o }

def spill (a : Arena) (id : OperandId) : Arena := a.modify id Operand.spill

def restrict (a : Arena) (id : OperandId) (regs : List Register) : Arena :=
  a.modify id (·.restrict regs)

end Arena

end MiddleEnd
