-- SUMMARY: The unary, binary and step operators of expressions, with their symbols.

/-!
# Operators
-/

namespace SsaFlow

/-- Operators that take two operands. -/
inductive BinaryOp where
  | add | sub | mul | div | rem
  | eq | notEq | lt | ltEq | gt | gtEq
  | bitAnd | bitOr | bitXor | shl | shr
deriving DecidableEq, Inhabited

/-- The operator as written between its operands. -/
def BinaryOp.symbol : BinaryOp → String
  | .add => "+"
  | .sub => "-"
  | .mul => "*"
  | .div => "/"
  | .rem => "%"
  | .eq => "=="
  | .notEq => "!="
  | .lt => "<"
  | .ltEq => "<="
  | .gt => ">"
  | .gtEq => ">="
  | .bitAnd => "&"
  | .bitOr => "|"
  | .bitXor => "^"
  | .shl => "<<"
  | .shr => ">>"

instance : ToString BinaryOp := ⟨BinaryOp.symbol⟩

/-- Operators that take one operand. -/
inductive UnaryOp where
  | neg | not | bitNot
deriving DecidableEq, Inhabited

/-- The operator as written before its operand. -/
def UnaryOp.symbol : UnaryOp → String
  | .neg => "-"
  | .not => "!"
  | .bitNot => "~"

instance : ToString UnaryOp := ⟨UnaryOp.symbol⟩

/-- Increment and decrement, before or after the variable. -/
inductive StepOp where
  | preInc | preDec | postInc | postDec
deriving DecidableEq, Inhabited

/-- The operator that combines the old value with one. -/
def StepOp.op : StepOp → BinaryOp
  | .preInc | .postInc => .add
  | .preDec | .postDec => .sub

/-- Whether the expression yields the value from before the step. -/
def StepOp.yieldsOld : StepOp → Bool
  | .postInc | .postDec => true
  | .preInc | .preDec => false

end SsaFlow
