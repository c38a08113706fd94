import MiddleEnd.Lowering.Stmt

/-! Lowering of programs: the functions one after the other, and the first values of the globals. -/

namespace MiddleEnd

open LowerM

/-- Receives the parameters, from position `pos` on. -/
def lowerParams (symbols : SymbolTable) : Nat → List SymbolId → LowerM Unit
  | _, [] => pure ()
  | pos, param :: params => do
    let incoming ← newTemp (.param pos)
    let target ← symbol symbols param
    emit (.param pos) (some target) (some incoming)
    lowerParams symbols (pos + 1) params

def lowerFunction (symbols : SymbolTable) (id : SymbolId) (params : List SymbolId) (body : Stmt) :
    LowerM Unit := do
  let start := (← get).code.instrs.size
  let s ← lookup symbols id
  let name ← symbol symbols id
  emit .header (some name)
  lowerParams symbols 0 params
  let returnValue ← newTemp .returnValue
  lowerStmt { symbols, function := some { returnValue } } body
  unless (← get).code.instrs.back?.any (·.op = .ret) do
    emit .ret
  report (.loweredFunction s.name ((← get).code.instrs.size - start))

def lowerGlobal (symbols : SymbolTable) (id : SymbolId) (init : Option Expr) : LowerM Unit := do
  let value ← match init with
    | none => pure 0
    | some e =>
      match e.word? with
      | some word => pure word
      | none => throw (.nonLiteralGlobal (← lookup symbols id).name)
  modify fun b => { b with globals := b.globals.push ⟨id, value⟩ }

def lowerDecl (symbols : SymbolTable) : Decl → LowerM Unit
  | .function s params body => lowerFunction symbols s params body
  | .global s init => lowerGlobal symbols s init

def lowerDecls (symbols : SymbolTable) : List Decl → LowerM Unit
  | [] => pure ()
  | decl :: decls => do
    lowerDecl symbols decl
    lowerDecls symbols decls

/-- The code of a program with the first values of its globals. -/
structure Lowered where
  code : Code
  globals : List Global

def lowerProgram (p : Program) : LowerM Lowered := do
  lowerDecls p.symbols p.decls
  let b ← get
  report (.loweredUnit b.code.instrs.size b.code.operands.size)
  return ⟨b.code, b.globals.toList⟩

def Program.lower (p : Program) : Except LowerError Lowered :=
  match (lowerProgram p).run {} with
  | .ok lowered _ => .ok lowered
  | .error e _ => .error e

/-- What lowering reports, up to a failure if there is one. -/
def Program.lowerLog (p : Program) : List Event :=
  match (lowerProgram p).run {} with
  | .ok _ b | .error _ b => b.log.toList

end MiddleEnd
