import MiddleEnd.Lowering.Expr

/-! Lowering of statements. A conditional becomes

    if !test goto next
    body
    goto end
    next:
    ...
    end:

and a loop becomes

    init
    start:
    if !test goto end
    body
    update:
    update
    goto start
    end: -/

namespace MiddleEnd

open LowerM

/-- Where the loop controls of a body go. -/
structure LoopLabels where
  update : OperandId
  exit : OperandId

/-- The function that is being lowered. -/
structure FunctionContext where
  /-- The temporary in which the function leaves its value. -/
  returnValue : OperandId

/-- What is known around a statement. -/
structure Scope where
  symbols : SymbolTable
  /-- The function around; outside of functions there is none. -/
  function : Option FunctionContext := none
  /-- The innermost loop around. -/
  loop : Option LoopLabels := none

/-- The temporary for the value of the function around. -/
def returnSlot (scope : Scope) : LowerM OperandId :=
  require .returnValueSlot (scope.function.map (·.returnValue))

mutual
def lowerStmt (scope : Scope) : Stmt → LowerM Unit
  | .skip => pure ()
  | .seq first second => do
    lowerStmt scope first
    lowerStmt scope second
  | .declare _ none => pure ()
  | .declare s (some init) => do
    let value ← lowerValue scope.symbols .localInitializer init
    let target ← symbol scope.symbols s
    emit .assign (some target) (some value)
  | .assign s expr => do
    let value ← lowerValue scope.symbols .assignment expr
    let target ← symbol scope.symbols s
    emit .assign (some target) (some value)
  | .store array pos expr => do
    let value ← lowerValue scope.symbols .arrayStore expr
    let size ← elementSize (← lookup scope.symbols array)
    let p ← lowerValue scope.symbols .arrayIndex pos
    let address ← lowerAddress scope.symbols array size p
    emit .store none (some address) (some value)
  | .eval expr => do
    let _ ← lowerExpr scope.symbols expr
  | .cond chain => do
    let exit ← newLabel
    lowerChain scope exit chain
    place exit
  | .loop init test update body => do
    lowerStmt scope init
    let start ← newLabel
    let updateLabel ← newLabel
    let exit ← newLabel
    place start
    match test with
    | some test => branch (← lowerValue scope.symbols .loopCondition test) exit
    | none => pure ()
    lowerStmt { scope with loop := some ⟨updateLabel, exit⟩ } body
    place updateLabel
    lowerStmt scope update
    jump start
    place exit
  | .leave =>
    match scope.loop with
    | some labels => jump labels.exit
    | none => throw (.outsideLoop .leave)
  | .next =>
    match scope.loop with
    | some labels => jump labels.update
    | none => throw (.outsideLoop .next)
  | .ret none => do
    let _ ← returnSlot scope
    emit .ret
  | .ret (some expr) => do
    let value ← lowerValue scope.symbols .returnValue expr
    let slot ← returnSlot scope
    emit .assign (some slot) (some value)
    emit .ret none (some slot)

/-- The last arm of a conditional without `else` part goes to `exit` by itself. -/
def lowerChain (scope : Scope) (exit : OperandId) : Chain → LowerM Unit
  | .done => pure ()
  | .otherwise body => lowerStmt scope body
  | .arm test body rest => do
    let next ← if rest.isDone then pure exit else newLabel
    branch (← lowerValue scope.symbols .branchCondition test) next
    lowerStmt scope body
    unless rest.isDone do
      unless ← endsInTransfer do
        jump exit
      place next
    lowerChain scope exit rest
end

end MiddleEnd
