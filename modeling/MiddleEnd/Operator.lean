/-! Operators of expressions and of the instructions that compute them. -/

namespace MiddleEnd

inductive ArithOp where
  | add
  | sub
  | mul
  | div
  | mod
  deriving DecidableEq

inductive RelOp where
  | eq
  | ne
  | lt
  | le
  | gt
  | ge
  deriving DecidableEq

/-- Both sides are always evaluated. -/
inductive LogicOp where
  | and
  | or
  deriving DecidableEq

inductive BinaryOp where
  | arith (op : ArithOp)
  | rel (op : RelOp)
  | logic (op : LogicOp)
  deriving DecidableEq

inductive UnaryOp where
  | neg
  | not
  deriving DecidableEq

def ArithOp.text : ArithOp → String
  | .add => "+"
  | .sub => "-"
  | .mul => "*"
  | .div => "/"
  | .mod => "%"

def RelOp.text : RelOp → String
  | .eq => "=="
  | .ne => "!="
  | .lt => "<"
  | .le => "<="
  | .gt => ">"
  | .ge => ">="

def LogicOp.text : LogicOp → String
  | .and => "&&"
  | .or => "||"

def BinaryOp.text : BinaryOp → String
  | .arith op => op.text
  | .rel op => op.text
  | .logic op => op.text

def UnaryOp.text : UnaryOp → String
  | .neg => "-"
  | .not => "!"

end MiddleEnd
