import MiddleEnd.Operator
import MiddleEnd.Symbol

/-! Checked expressions. Names are resolved to symbols, and every expression carries the type that
was inferred for it. -/

namespace MiddleEnd

inductive Literal where
  | int (value : Int64)
  | bool (value : Bool)
  | char (code : UInt8)
  deriving DecidableEq

/-- The word a literal stands for. -/
def Literal.word : Literal → Int64
  | int value => value
  | bool value => if value then 1 else 0
  | char code => Int64.ofNat code.toNat

inductive Expr where
  | literal (lit : Literal) (ty : Ty)
  | name (symbol : SymbolId) (ty : Ty)
  | binary (op : BinaryOp) (lhs rhs : Expr) (ty : Ty)
  | unary (op : UnaryOp) (arg : Expr) (ty : Ty)
  | call (callee : SymbolId) (args : List Expr) (ty : Ty)
  | index (array : SymbolId) (pos : Expr) (ty : Ty)

namespace Expr

mutual
def beq : Expr → Expr → Bool
  | literal l t, literal m u => decide (l = m ∧ t = u)
  | name s t, name r u => decide (s = r ∧ t = u)
  | binary o a b t, binary p c d u => decide (o = p ∧ t = u) && beq a c && beq b d
  | unary o a t, unary p b u => decide (o = p ∧ t = u) && beq a b
  | call f as t, call g bs u => decide (f = g ∧ t = u) && beqAll as bs
  | index s a t, index r b u => decide (s = r ∧ t = u) && beq a b
  | _, _ => false

def beqAll : List Expr → List Expr → Bool
  | [], [] => true
  | a :: as, b :: bs => beq a b && beqAll as bs
  | _, _ => false
end

mutual
theorem beq_iff : ∀ a b : Expr, beq a b = true ↔ a = b
  | literal _ _, b => by cases b <;> simp [beq]
  | name _ _, b => by cases b <;> simp [beq]
  | binary _ a c _, b => by cases b <;> simp [beq, beq_iff a, beq_iff c]; grind
  | unary _ a _, b => by cases b <;> simp [beq, beq_iff a]; grind
  | call _ as _, b => by cases b <;> simp [beq, beqAll_iff as]; grind
  | index _ a _, b => by cases b <;> simp [beq, beq_iff a]; grind

theorem beqAll_iff : ∀ as bs : List Expr, beqAll as bs = true ↔ as = bs
  | [], bs => by cases bs <;> simp [beqAll]
  | a :: as, bs => by cases bs <;> simp [beqAll, beq_iff a, beqAll_iff as]
end

instance : DecidableEq Expr := fun a b => decidable_of_iff _ (beq_iff a b)

def ty : Expr → Ty
  | literal _ t | name _ t | binary _ _ _ t | unary _ _ t | call _ _ t | index _ _ t => t

def withTy (t : Ty) : Expr → Expr
  | literal l _ => literal l t
  | name s _ => name s t
  | binary op l r _ => binary op l r t
  | unary op a _ => unary op a t
  | call f as _ => call f as t
  | index s i _ => index s i t

/-- The word of a literal expression. -/
def word? : Expr → Option Int64
  | literal l _ => some l.word
  | _ => none

end Expr

end MiddleEnd
