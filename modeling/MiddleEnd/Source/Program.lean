import MiddleEnd.Source.Expr

/-! Checked programs: statements, declarations and the symbols they mention. -/

namespace MiddleEnd

mutual
inductive Stmt where
  | skip
  | seq (first second : Stmt)
  /-- A local variable comes into scope, with a value or without. -/
  | declare (symbol : SymbolId) (init : Option Expr)
  | assign (symbol : SymbolId) (value : Expr)
  | store (array : SymbolId) (pos value : Expr)
  | eval (expr : Expr)
  | cond (chain : Chain)
  /-- `init` and `update` belong to the loop around this one. -/
  | loop (init : Stmt) (test : Option Expr) (update body : Stmt)
  | leave
  | next
  | ret (value : Option Expr)

/-- The arms of a conditional in source order, ended by nothing or by an `else` part. -/
inductive Chain where
  | done
  | otherwise (body : Stmt)
  | arm (test : Expr) (body : Stmt) (rest : Chain)
end

namespace Stmt

def block (body : List Stmt) : Stmt := body.foldr seq skip

/-- A loop that tests before each round. -/
def whileLoop (test : Expr) (body : Stmt) : Stmt := loop skip (some test) skip body

end Stmt

namespace Chain

def ofArms (arms : List (Expr × Stmt)) (els : Option Stmt) : Chain :=
  arms.foldr (fun a rest => arm a.1 a.2 rest) (els.elim done otherwise)

/-- No arm and no `else` part is left. -/
def isDone : Chain → Bool
  | done => true
  | _ => false

end Chain

inductive Decl where
  | function (symbol : SymbolId) (params : List SymbolId) (body : Stmt)
  | global (symbol : SymbolId) (init : Option Expr)

structure Program where
  symbols : SymbolTable
  decls : List Decl

end MiddleEnd
