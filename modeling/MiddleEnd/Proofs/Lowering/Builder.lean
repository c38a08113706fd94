import MiddleEnd.Lowering.Program

/-! What a run of the builder did, once it ended well: each primitive adds one operand or one instruction
to the code, and a sequence of runs ended well when each of them did. -/

namespace MiddleEnd

namespace Code

/-- Adds an operand at the end of the arena. -/
def addOperand (c : Code) (o : Operand) : Code := { c with operands := (c.operands.push o).2 }

/-- Makes sure that a symbol has an operand. -/
def addSymbol (c : Code) (id : SymbolId) (s : Symbol) : Code := { c with operands := (c.operands.symbol id s).2 }

def addInstr (c : Code) (z : Instr) : Code := { c with instrs := c.instrs.push z }

end Code

namespace Builder

/-- The instruction that `emit` appends. -/
def instr (b : Builder) (op : Opcode) (result left right : Option OperandId) (args : List OperandId) : Instr :=
  { id := b.code.instrs.size, op, result, left, right, args }

def withInstr (b : Builder) (op : Opcode) (result left right : Option OperandId) (args : List OperandId) :
    Builder :=
  { b with code := b.code.addInstr (b.instr op result left right args) }

def withSymbol (b : Builder) (id : SymbolId) (s : Symbol) : Builder := { b with code := b.code.addSymbol id s }

def withInt (b : Builder) (value : Int64) : Builder :=
  { b with code := b.code.addOperand { kind := .int value, isValue := false } }

def withTemp (b : Builder) (tag : Tag) : Builder :=
  { b with
    names := b.names.temp.2
    code := b.code.addOperand { kind := .temp b.names.temp.1 tag, isValue := true } }

def withLabel (b : Builder) : Builder :=
  { b with
    names := b.names.label.2
    code := b.code.addOperand { kind := .label b.names.label.1, isValue := false } }

end Builder

namespace LowerM

variable {α β : Type} {b b' : Builder}

theorem bind_eq_ok {m : LowerM α} {f : α → LowerM β} {y : β} :
    (m >>= f) b = .ok y b' ↔ ∃ x b₁, m b = .ok x b₁ ∧ f x b₁ = .ok y b' := by
  simp only [bind, EStateM.bind]
  cases m b with
  | ok x b₁ => simp [and_assoc]
  | error e b₁ => simp

theorem map_eq_ok {m : LowerM α} {f : α → β} {y : β} :
    (f <$> m) b = .ok y b' ↔ ∃ x, m b = .ok x b' ∧ f x = y := by
  simp only [Functor.map, EStateM.map]
  cases m b with
  | ok x b₁ => simpa [and_assoc] using And.comm
  | error e b₁ => simp

theorem pure_eq_ok {x y : α} : (pure x : LowerM α) b = .ok y b' ↔ x = y ∧ b = b' := by
  simp [pure, EStateM.pure]

theorem throw_ne_ok {e : LowerError} {y : α} : ¬ (throw e : LowerM α) b = .ok y b' := fun h => by cases h

theorem get_eq_ok {s : Builder} : (get : LowerM Builder) b = .ok s b' ↔ b = s ∧ b = b' :=
  show EStateM.Result.ok b b = .ok s b' ↔ _ by simp

theorem modifyGet_eq_ok {f : Builder → α × Builder} {x : α} :
    (modifyGet f : LowerM α) b = .ok x b' ↔ x = (f b).1 ∧ b' = (f b).2 :=
  show EStateM.Result.ok (f b).1 (f b).2 = .ok x b' ↔ _ by simp [eq_comm]

theorem modify_eq_ok {f : Builder → Builder} {u : PUnit} : (modify f : LowerM PUnit) b = .ok u b' ↔ b' = f b :=
  modifyGet_eq_ok.trans (and_iff_right rfl)

theorem report_eq_ok {e : Event} {u : Unit} :
    report e b = .ok u b' ↔ b' = { b with log := b.log.push e } := modify_eq_ok

theorem emit_eq_ok {op : Opcode} {result left right : Option OperandId} {args : List OperandId} {u : Unit} :
    emit op result left right args b = .ok u b' ↔ b' = b.withInstr op result left right args := modify_eq_ok

theorem operand_eq_ok {add : Arena → OperandId × Arena} {o : OperandId} :
    operand add b = .ok o b' ↔
      o = (add b.code.operands).1 ∧ b' = { b with code := { b.code with operands := (add b.code.operands).2 } } :=
  modifyGet_eq_ok

theorem lookup_eq_ok {symbols : SymbolTable} {id : SymbolId} {s : Symbol} :
    lookup symbols id b = .ok s b' ↔ symbols.get? id = some s ∧ b' = b := by
  unfold lookup
  cases symbols.get? id with
  | none => simp [throw_ne_ok]
  | some t => simp [pure_eq_ok, eq_comm]

theorem symbol_eq_ok {symbols : SymbolTable} {id : SymbolId} {o : OperandId} :
    symbol symbols id b = .ok o b' ↔ ∃ s, symbols.get? id = some s ∧ o = (b.code.operands.symbol id s).1 ∧
      b' = b.withSymbol id s := by
  simp [symbol, bind_eq_ok, lookup_eq_ok, operand_eq_ok, Builder.withSymbol, Code.addSymbol, and_assoc]

theorem int_eq_ok {value : Int64} {o : OperandId} :
    int value b = .ok o b' ↔ o = b.code.operands.size ∧ b' = b.withInt value := operand_eq_ok

theorem newTemp_eq_ok {tag : Tag} {o : OperandId} :
    newTemp tag b = .ok o b' ↔ o = b.code.operands.size ∧ b' = b.withTemp tag := by
  rw [newTemp, bind_eq_ok]
  simp [operand_eq_ok, modifyGet_eq_ok, Arena.temp, Arena.push, Builder.withTemp, Code.addOperand, and_assoc]

theorem newLabel_eq_ok {o : OperandId} :
    newLabel b = .ok o b' ↔ o = b.code.operands.size ∧ b' = b.withLabel := by
  rw [newLabel, bind_eq_ok]
  simp [operand_eq_ok, modifyGet_eq_ok, Arena.label, Arena.push, Builder.withLabel, Code.addOperand, and_assoc]

theorem endsInTransfer_eq_ok {t : Bool} :
    endsInTransfer b = .ok t b' ↔ b.code.instrs.back?.any (·.isTransfer) = t ∧ b' = b := by
  rw [endsInTransfer, bind_eq_ok]
  simp [get_eq_ok, pure_eq_ok, and_assoc, eq_comm]

theorem require_eq_ok {site : ValueSite} {o : Option OperandId} {x : OperandId} :
    require site o b = .ok x b' ↔ o = some x ∧ b' = b := by
  cases o with
  | none => simp [require, throw_ne_ok]
  | some y => simp [require, pure_eq_ok, eq_comm]

end LowerM

end MiddleEnd
