import MiddleEnd.Instr

/-! The text of an instruction table, one line an instruction, with locations where they are known. -/

namespace MiddleEnd

namespace Listing

def operandName (symbols : SymbolTable) (o : Operand) : String :=
  match o.kind with
  | .symbol id => (symbols.get? id).elim "" (·.name)
  | .temp t _ => t.text
  | .label l => l.text
  | .int v => toString v.toInt

/-- The name of an operand, with its location in angle brackets once it has one. -/
def operandText (symbols : SymbolTable) (a : Arena) (id : OperandId) : String :=
  match a.get? id with
  | none => ""
  | some o => operandName symbols o ++ o.location.elim "" fun l => s!"<{l.text}>"

def slotText (symbols : SymbolTable) (a : Arena) (slot : Option OperandId) : String :=
  slot.elim "_" (operandText symbols a)

def operandsText (symbols : SymbolTable) (a : Arena) (ids : List OperandId) : String :=
  ", ".intercalate (ids.map (operandText symbols a))

def instrText (symbols : SymbolTable) (a : Arena) (i : Instr) : String :=
  let result := slotText symbols a i.result
  let left := slotText symbols a i.left
  let right := slotText symbols a i.right
  match i.op with
  | .binary op => s!"{result} = {left} {op.text} {right}"
  | .unary op => s!"{result} = {op.text}{left}"
  | .header => s!"func {result}:"
  | .assign => s!"{result} = {left}"
  | .call =>
    let call := s!"call {left}(" ++ operandsText symbols a i.args ++ ")"
    if i.result.isSome then s!"{result} = {call}" else call
  | .arg pos => s!"arg{pos} {result} = {left}"
  | .param pos => s!"param{pos} {result} = {left}"
  | .address => s!"{result} = &{left} + {right}"
  | .store => s!"*{left} = {right}"
  | .load => s!"{result} = *{left}"
  | .label => s!"{left}:"
  | .branch => s!"if !{left} goto {right}"
  | .jump => s!"goto {left}"
  | .ret => if i.left.isSome then s!"return {left}" else "return"

/-- An instruction's number, four columns wide at least and to the right. -/
def numberText (n : Nat) : String :=
  let digits := toString n
  "".pushn ' ' (4 - digits.length) ++ digits

/-- Headers and labels stand out to the left; every other line ends with what is live after it. -/
def line (symbols : SymbolTable) (a : Arena) (i : Instr) : String :=
  let text := instrText symbols a i
  match i.op with
  | .header | .label => numberText i.id ++ "  " ++ text ++ "\n"
  | _ =>
    let live := i.liveOut.toList
    let note := if live.isEmpty then "" else "    ; live: " ++ operandsText symbols a live
    numberText i.id ++ "      " ++ text ++ note ++ "\n"

end Listing

def Code.listing (symbols : SymbolTable) (c : Code) : String :=
  String.join (c.instrs.toList.map (Listing.line symbols c.operands))

end MiddleEnd
