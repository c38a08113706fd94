/-! Types of values, their text and their size in bytes. A size is counted in 64 bits at every array
level, so `size?` has no answer where a product leaves that range. -/

namespace MiddleEnd

inductive Ty where
  | int
  | bool
  | char
  | void
  | array (elem : Ty) (len : Nat)
  | function (params : List Ty) (ret : Ty)

namespace Ty

mutual
def beq : Ty → Ty → Bool
  | int, int => true
  | bool, bool => true
  | char, char => true
  | void, void => true
  | array a m, array b n => beq a b && decide (m = n)
  | function ps r, function qs s => beqAll ps qs && beq r s
  | _, _ => false

def beqAll : List Ty → List Ty → Bool
  | [], [] => true
  | a :: as, b :: bs => beq a b && beqAll as bs
  | _, _ => false
end

mutual
theorem beq_iff : ∀ a b : Ty, beq a b = true ↔ a = b
  | int, b => by cases b <;> simp [beq]
  | bool, b => by cases b <;> simp [beq]
  | char, b => by cases b <;> simp [beq]
  | void, b => by cases b <;> simp [beq]
  | array a m, b => by cases b <;> simp [beq, beq_iff a]
  | function ps r, b => by cases b <;> simp [beq, beqAll_iff ps, beq_iff r]

theorem beqAll_iff : ∀ as bs : List Ty, beqAll as bs = true ↔ as = bs
  | [], bs => by cases bs <;> simp [beqAll]
  | a :: as, bs => by cases bs <;> simp [beqAll, beq_iff a, beqAll_iff as]
end

instance : DecidableEq Ty := fun a b => decidable_of_iff _ (beq_iff a b)

/-- Bytes of a machine word. -/
def wordSize : Nat := 8

/-- Size in bytes, if the product at each array level, the innermost first, is below `2 ^ 64`. -/
def size? : Ty → Option Nat
  | int => some wordSize
  | bool => some 1
  | char => some 1
  | void => some 0
  | array elem len => do
    let size ← elem.size?
    guard (size * len < 2 ^ 64)
    return size * len
  | function _ _ => some wordSize

def isFunction : Ty → Bool
  | function _ _ => true
  | _ => false

/-- A value of this type fits in one register. -/
def isScalar : Ty → Bool
  | int | bool | char => true
  | _ => false

def element? : Ty → Option Ty
  | array elem _ => some elem
  | _ => none

mutual
def text : Ty → String
  | int => "int"
  | bool => "bool"
  | char => "char"
  | void => "void"
  | array elem len => s!"{elem.text}[{len}]"
  | function params ret => "fn(" ++ ", ".intercalate (texts params) ++ ") -> " ++ ret.text

def texts : List Ty → List String
  | [] => []
  | t :: ts => t.text :: texts ts
end

end Ty

end MiddleEnd
