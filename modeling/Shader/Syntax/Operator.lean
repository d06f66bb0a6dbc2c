/-!
# Operators

The operators of the shader language, each with the text it is written as.  Arithmetic operators
are a type of their own: they occur alone in a binary expression and inside a compound assignment.
-/

namespace Shader

/-- Arithmetic on numbers and objects. -/
inductive ArithmeticOp where
  | add
  | sub
  | mul
  | div
  | rem
deriving DecidableEq, Repr

/-- Comparisons, which yield a boolean. -/
inductive ComparisonOp where
  | lt
  | le
  | gt
  | ge
  | eq
  | ne
  | strictEq
  | strictNe
deriving DecidableEq, Repr

/-- The operator of a binary expression. -/
inductive BinaryOp where
  | arithmetic (op : ArithmeticOp)
  | comparison (op : ComparisonOp)
deriving DecidableEq, Repr

/-- The connectives, which may leave out their right operand. -/
inductive LogicalOp where
  | and
  | or
deriving DecidableEq, Repr

/-- The operator of an assignment: plain, or combining the old value with the new one. -/
inductive AssignOp where
  | plain
  | compound (op : ArithmeticOp)
deriving DecidableEq, Repr

/-- The operators in front of their operand. -/
inductive UnaryOp where
  | neg
  | plus
  | not
deriving DecidableEq, Repr

namespace ArithmeticOp

/-- The text of an operator. -/
def text : ArithmeticOp → String
  | .add => "+"
  | .sub => "-"
  | .mul => "*"
  | .div => "/"
  | .rem => "%"

/-- The operator that a text denotes. -/
def ofText? : String → Option ArithmeticOp
  | "+" => some .add
  | "-" => some .sub
  | "*" => some .mul
  | "/" => some .div
  | "%" => some .rem
  | _ => none

end ArithmeticOp

namespace ComparisonOp

/-- The text of an operator. -/
def text : ComparisonOp → String
  | .lt => "<"
  | .le => "<="
  | .gt => ">"
  | .ge => ">="
  | .eq => "=="
  | .ne => "!="
  | .strictEq => "==="
  | .strictNe => "!=="

/-- The operator that a text denotes. -/
def ofText? : String → Option ComparisonOp
  | "<" => some .lt
  | "<=" => some .le
  | ">" => some .gt
  | ">=" => some .ge
  | "==" => some .eq
  | "!=" => some .ne
  | "===" => some .strictEq
  | "!==" => some .strictNe
  | _ => none

end ComparisonOp

namespace BinaryOp

/-- The text of an operator. -/
def text : BinaryOp → String
  | .arithmetic op => op.text
  | .comparison op => op.text

/-- The operator that a text denotes. -/
def ofText? (s : String) : Option BinaryOp :=
  match ArithmeticOp.ofText? s with
  | some op => some (.arithmetic op)
  | none => (ComparisonOp.ofText? s).map .comparison

/-- Whether the operator computes a value of its operands' type. -/
def isArithmetic : BinaryOp → Bool
  | .arithmetic _ => true
  | .comparison _ => false

end BinaryOp

namespace LogicalOp

/-- The text of an operator. -/
def text : LogicalOp → String
  | .and => "&&"
  | .or => "||"

/-- The operator that a text denotes. -/
def ofText? : String → Option LogicalOp
  | "&&" => some .and
  | "||" => some .or
  | _ => none

end LogicalOp

namespace AssignOp

/-- The text of an operator. -/
def text : AssignOp → String
  | .plain => "="
  | .compound op => op.text ++ "="

/-- The operator that a text denotes. -/
def ofText? : String → Option AssignOp
  | "=" => some .plain
  | "+=" => some (.compound .add)
  | "-=" => some (.compound .sub)
  | "*=" => some (.compound .mul)
  | "/=" => some (.compound .div)
  | "%=" => some (.compound .rem)
  | _ => none

/-- The arithmetic that a compound assignment performs. -/
def arithmetic? : AssignOp → Option ArithmeticOp
  | .plain => none
  | .compound op => some op

end AssignOp

namespace UnaryOp

/-- The text of an operator. -/
def text : UnaryOp → String
  | .neg => "-"
  | .plus => "+"
  | .not => "!"

/-- The operator that a text denotes. -/
def ofText? : String → Option UnaryOp
  | "-" => some .neg
  | "+" => some .plus
  | "!" => some .not
  | _ => none

end UnaryOp

end Shader
