import Shader.Typing.Registry

/-!
# The built-in objects

Colours, vectors, matrices and the three global namespaces.
-/

namespace Shader.Registry

/-- A field. -/
private def field (name : String) (ty : Ty) : String × Member := (name, .field ty)

/-- A method without optional parameters. -/
private def method (name : String) (params : List Ty) (result : Ty) : String × Member :=
  (name, .method (.exactly params result))

private def color : Ty := .object .color

private def float2 : Ty := .object .float2

private def float3 : Ty := .object .float3

private def matrix4 : Ty := .object .matrix4

/-- Colours; alpha may be left out. -/
def colorEntry : Entry where
  name := "Color"
  kind := .color
  construction :=
    .typed ((Signature.exactly [.number, .number, .number, .number] color).withRequired 3)
  members := .ofList [
    field "r" .number, field "g" .number, field "b" .number, field "a" .number,
    method "add" [color] color, method "subtract" [color] color, method "multiply" [color] color,
    method "scale" [.number] color]

/-- Vectors in the plane. -/
def vec2Entry : Entry where
  name := "Vec2"
  kind := .float2
  construction := .typed (.exactly [.number, .number] float2)
  members := .ofList [
    field "x" .number, field "y" .number,
    method "length" [] .number, method "dot" [float2] .number, method "normalize" [] float2,
    method "add" [float2] float2, method "subtract" [float2] float2,
    method "multiply" [float2] float2]

/-- Vectors in space. -/
def vec3Entry : Entry where
  name := "Vec3"
  kind := .float3
  construction := .typed (.exactly [.number, .number, .number] float3)
  members := .ofList [
    field "x" .number, field "y" .number, field "z" .number,
    method "length" [] .number, method "dot" [float3] .number, method "cross" [float3] float3,
    method "normalize" [] float3, method "add" [float3] float3, method "subtract" [float3] float3,
    method "multiply" [float3] float3]

/-- Transformations. -/
def matrix4Entry : Entry where
  name := "Matrix4"
  kind := .matrix4
  construction := .untyped
  members := .ofList [
    method "transformPoint" [float3] float3, method "transformDirection" [float3] float3,
    method "multiply" [matrix4] matrix4, method "transpose" [] matrix4, method "inverse" [] matrix4]

/-- Mathematical constants and functions. -/
def mathEntry : Entry where
  name := "Math"
  kind := .math
  construction := .none
  members := .ofList (
    (["PI", "E", "LN2", "LN10", "SQRT2"].map fun name => field name .number)
    ++ (["abs", "acos", "asin", "atan", "ceil", "cos", "exp", "floor", "log", "round", "sin",
        "sqrt", "tan"].map fun name => method name [.number] .number)
    ++ (["atan2", "max", "min", "pow"].map fun name => method name [.number, .number] .number)
    ++ [method "clamp" [.number, .number, .number] .number, method "random" [] .number])

/-- Shading functions; `diffuse` may go without a colour. -/
def shadeEntry : Entry where
  name := "Shade"
  kind := .shade
  construction := .none
  members := .ofList [
    ("diffuse", .method ((Signature.exactly [float3, color] color).withRequired 1)),
    method "phong" [float3, .number] color, method "normalize" [float3] float3,
    method "transform" [.string, float3] float3, method "reflect" [float3, float3] float3]

/-- What the renderer knows about the picture. -/
def systemEntry : Entry where
  name := "System"
  kind := .system
  construction := .none
  members := .ofList [
    field "coords" float3, field "width" .number, field "height" .number, field "time" .number]

/-- The registry of all built-in objects. -/
def builtin : Registry :=
  ⟨[colorEntry, vec2Entry, vec3Entry, matrix4Entry, mathEntry, shadeEntry, systemEntry]⟩

end Shader.Registry
