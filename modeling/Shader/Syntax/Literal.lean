import Shader.Number.Text

/-!
# Constants and literals

A constant is a value known before the shader runs.  A literal is a constant written in the source,
or `null`; where the source text of a number is known, it decides whether the number was meant as
an integer.
-/

namespace Shader

/-- A value known at compile time. -/
inductive Constant where
  | number (x : Float)
  | string (s : String)
  | bool (b : Bool)
deriving DecidableEq, Repr

namespace Constant

/-- The text of a constant. -/
def text : Constant → String
  | .number x => Number.text x
  | .string s => s
  | .bool true => "true"
  | .bool false => "false"

/-- The number, of a numeric constant. -/
def number? : Constant → Option Float
  | .number x => some x
  | _ => none

end Constant

/-- A literal: its value, which is `none` for `null`, and its source text when that was kept. -/
structure Literal where
  value : Option Constant
  raw : Option String
deriving DecidableEq, Repr

namespace Literal

/-- Whether a source text is that of a hexadecimal number. -/
def isHex (raw : String) : Bool :=
  match raw.toList with
  | '0' :: 'x' :: _ => true
  | '0' :: 'X' :: _ => true
  | _ => false

/-- Whether a source text has a decimal point or the mark of an exponent. -/
def isFractional (raw : String) : Bool :=
  raw.toList.any fun c => c == '.' || c == 'e' || c == 'E'

/-- Whether a numeric literal was written as an integer.  `1.0` and `1e3` were not, although their
values are whole; without a source text the value alone decides. -/
def isIntegral (literal : Literal) : Bool :=
  match literal.value with
  | some (.number x) =>
    match literal.raw with
    | some raw => (isHex raw || !isFractional raw) && Number.isWhole x
    | none => Number.isWhole x
  | _ => false

end Literal

end Shader
