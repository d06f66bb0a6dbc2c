import Shader.Syntax.Operator
import Shader.Number.Parts
import Shader.Typing.Ascription

/-!
# Constant folding

Arithmetic on known values.  Integers are cut to signed 64-bit words and computed exactly; a result
that leaves the range, or a division by zero, is not known.  Numbers are computed as doubles, and a
result that is not finite is not known.
-/

namespace Shader

namespace ArithmeticOp

/-- Arithmetic on signed 64-bit integers, where it does not overflow.  Division truncates toward
zero; the one quotient that overflows has no remainder either. -/
def onInts (op : ArithmeticOp) (a b : Int) : Option Int :=
  match op with
  | .add => some (a + b) |>.filter Number.fitsInt64
  | .sub => some (a - b) |>.filter Number.fitsInt64
  | .mul => some (a * b) |>.filter Number.fitsInt64
  | .div => if b = 0 then none else some (a.tdiv b) |>.filter Number.fitsInt64
  | .rem => if b = 0 ∨ Number.fitsInt64 (a.tdiv b) = false then none else some (a.tmod b)

/-- Arithmetic on doubles. -/
def onFloats (op : ArithmeticOp) (a b : Float) : Float :=
  match op with
  | .add => a + b
  | .sub => a - b
  | .mul => a * b
  | .div => a / b
  | .rem => Number.rem a b

/-- The value of an operation of type `ty` on two known numbers. -/
def onNumbers (op : ArithmeticOp) (ty : Ty) (a b : Float) : Option Float :=
  match ty with
  | .int => do
    let m ← Number.toInt64? a
    let n ← Number.toInt64? b
    let r ← op.onInts m n
    some (Number.ofInt r)
  | .number => some (op.onFloats a b)
  | _ => none

/-- The value of an arithmetic expression of type `ty`, if it is known. -/
def fold (op : ArithmeticOp) (ty : Ty) (left right : Ascription) : Option Constant := do
  let a ← left.number?
  let b ← right.number?
  let value ← op.onNumbers ty a b
  if value.isFinite then some (.number value) else none

end ArithmeticOp

/-- The negation of a known number of type `ty`. -/
def foldNeg (ty : Ty) (x : Float) : Option Float :=
  if ty = .int then
    (Number.toInt64? x).bind fun n => (some (-n) |>.filter Number.fitsInt64).map Number.ofInt
  else some (-x)

/-- The value of a signed expression of type `ty`, if it is known. -/
def foldSign (op : UnaryOp) (ty : Ty) (argument : Ascription) : Option Constant :=
  match op with
  | .neg => (argument.number?.bind (foldNeg ty)).map .number
  | _ => argument.number?.map .number

/-- The negation of a known boolean. -/
def foldNot (argument : Ascription) : Option Constant :=
  match argument.value with
  | some (.bool b) => some (.bool !b)
  | _ => none

end Shader
