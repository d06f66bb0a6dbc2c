import Shader.Ty.Basic
import Shader.Syntax.Literal

/-!
# Ascriptions

Inference gives every expression a type and, when it is known at compile time, a value.
-/

namespace Shader

/-- The type of an expression, and its value when that is known. -/
structure Ascription where
  ty : Ty
  value : Option Constant
deriving DecidableEq, Repr

namespace Ascription

/-- A type whose value is not known. -/
def ofTy (ty : Ty) : Ascription := ⟨ty, none⟩

/-- The known value, if it is a number. -/
def number? (a : Ascription) : Option Float := a.value.bind Constant.number?

/-- The text of an ascription. -/
def display (a : Ascription) : String :=
  match a.value with
  | some v => a.ty.display ++ " = " ++ v.text
  | none => a.ty.display

end Ascription

end Shader
