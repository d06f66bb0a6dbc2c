import Shader.Ty.Basic
import Shader.Number.Text

/-!
# Target languages

What sets the target languages apart: how they spell types and numbers, and which forms of
expressions they have.
-/

namespace Shader

/-- Why a program has no code in a target language. -/
inductive CodegenError where
  /-- A type the language has no word for. -/
  | unsupportedType (target : String) (ty : Ty)
  /-- A number that has no literal. -/
  | invalidFloat (value : Float)
deriving DecidableEq, Repr

/-- The message of an error. -/
def CodegenError.message : CodegenError → String
  | .unsupportedType target ty => target ++ " has no type for " ++ ty.display
  | .invalidFloat value => "cannot emit float literal " ++ Number.text value

/-- A target language. -/
structure Dialect where
  name : String
  /-- The word for a type, if there is one. -/
  typeName? : Ty → Option String
  /-- The literal of a number on an expression of a type. -/
  number : Float → Ty → Except CodegenError String
  /-- Whether there are conditional expressions. -/
  hasConditional : Bool
  /-- Whether there are unary operators. -/
  hasUnary : Bool

namespace Dialect

/-- The word for a type. -/
def typeName (d : Dialect) (ty : Ty) : Except CodegenError String :=
  match d.typeName? ty with
  | some word => .ok word
  | none => .error (.unsupportedType d.name ty)

end Dialect

/-- A number with a decimal point, which `NaN` and the infinities do not have. -/
def floatLiteral (value : Float) : Except CodegenError String :=
  if value.isFinite then .ok (Number.pointedText value) else .error (.invalidFloat value)

/-- The words for the types that all target languages have. -/
def commonTypeName? : Ty → Option String
  | .object .color => some "vec4"
  | .object .float3 => some "vec3"
  | .object .float2 => some "vec2"
  | .number => some "float"
  | .boolean => some "bool"
  | .undefined => some "void"
  | _ => none

/-- Fragment shaders.  There are no integers, and no conditional or unary expressions. -/
def Dialect.glsl : Dialect where
  name := "GLSL"
  typeName? := commonTypeName?
  number value _ := .ok (Number.text value)
  hasConditional := false
  hasUnary := false

/-- Materials in C++.  A number always has a decimal point and an integer never. -/
def Dialect.embree : Dialect where
  name := "Embree"
  typeName?
    | .int => some "int"
    | ty => commonTypeName? ty
  number value ty :=
    match ty with
    | .number => floatLiteral value
    | _ => .ok (Number.text value)
  hasConditional := true
  hasUnary := true

end Shader
