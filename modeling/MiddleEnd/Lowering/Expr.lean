import MiddleEnd.Lowering.Builder

/-! Lowering of expressions. Operands are evaluated from left to right, and all arguments of a call
before the first of them is marshalled. -/

namespace MiddleEnd

open LowerM

/-- Bytes of an element of the array; a symbol that is no array has elements of a word. -/
def elementSize (s : Symbol) : LowerM Nat :=
  match s.ty.element? with
  | none => pure Ty.wordSize
  | some elem =>
    match elem.size? with
    | some size => pure size
    | none => throw .sizeOverflow

/-- Moves the values into argument temporaries, from position `pos` on. -/
def marshal : Nat → List OperandId → LowerM (List OperandId)
  | _, [] => pure []
  | pos, value :: values => do
    let arg ← newTemp (.arg pos)
    emit (.arg pos) (some arg) (some value)
    return arg :: (← marshal (pos + 1) values)

/-- Calls `callee` on values, and copies what it returns unless that is of type `void`. -/
def lowerCall (symbols : SymbolTable) (callee : SymbolId) (values : List OperandId) (ty : Ty) :
    LowerM (Option OperandId) := do
  let args ← marshal 0 values
  let s ← lookup symbols callee
  let target ← symbol symbols callee
  if ty = .void then
    emit .call none (some target) none args
    report (.loweredCall s.name values.length)
    return none
  else
    let returned ← newTemp .callResult
    emit .call (some returned) (some target) none args
    report (.loweredCall s.name values.length)
    let copy ← newTemp .copy
    emit .assign (some copy) (some returned)
    return some copy

/-- The address of an array plus `pos` elements of `size` bytes. -/
def lowerAddress (symbols : SymbolTable) (array : SymbolId) (size : Nat) (pos : OperandId) :
    LowerM OperandId := do
  let scale ← int (Int64.ofNat size)
  let offset ← newTemp .offset
  emit (.binary (.arith .mul)) (some offset) (some pos) (some scale)
  let base ← symbol symbols array
  let address ← newTemp .address
  emit .address (some address) (some base) (some offset)
  return address

mutual
/-- The operand that holds the expression's value; a call that returns nothing has none. -/
def lowerExpr (symbols : SymbolTable) : Expr → LowerM (Option OperandId)
  | .literal lit ty =>
    match (Expr.literal lit ty).word? with
    | some word => some <$> int word
    | none => throw (.noValue .literal)
  | .name s _ => some <$> symbol symbols s
  | .binary op lhs rhs _ => do
    let l ← require .leftOperand (← lowerExpr symbols lhs)
    let r ← require .rightOperand (← lowerExpr symbols rhs)
    let result ← newTemp (.binary op)
    emit (.binary op) (some result) (some l) (some r)
    return some result
  | .unary op arg _ => do
    let a ← require .unaryOperand (← lowerExpr symbols arg)
    let result ← newTemp (.unary op)
    emit (.unary op) (some result) (some a)
    return some result
  | .call callee args ty => do
    let values ← lowerArgs symbols args
    lowerCall symbols callee values ty
  | .index array pos _ => do
    let size ← elementSize (← lookup symbols array)
    let p ← require .arrayIndex (← lowerExpr symbols pos)
    let address ← lowerAddress symbols array size p
    let result ← newTemp .load
    emit .load (some result) (some address)
    return some result

def lowerArgs (symbols : SymbolTable) : List Expr → LowerM (List OperandId)
  | [] => pure []
  | arg :: args => do
    let value ← require .callArgument (← lowerExpr symbols arg)
    return value :: (← lowerArgs symbols args)
end

/-- The operand of an expression that stands where a value is needed. -/
def lowerValue (symbols : SymbolTable) (site : ValueSite) (e : Expr) : LowerM OperandId := do
  require site (← lowerExpr symbols e)

end MiddleEnd
