/-!
# Types of shader values

The types are numbers, integers, booleans, strings, `undefined`, the built-in kinds of objects, and
methods that wait for a call.  There are no type variables and no types of the user's own, so types
are compared by equality; only the two numeric types mix.
-/

namespace Shader

/-- The kinds of built-in objects. -/
inductive Kind where
  | color
  | float2
  | float3
  | matrix4
  /-- The global `Math`. -/
  | math
  /-- The global `Shade`. -/
  | shade
  /-- The global `System`. -/
  | system
  /-- An injected record, whose members are injected under dotted paths. -/
  | record
deriving DecidableEq, Repr

namespace Kind

/-- Whether values of the kind serve only to look up members. -/
def isNamespace : Kind → Bool
  | .math | .shade | .system | .record => true
  | .color | .float2 | .float3 | .matrix4 => false

/-- The name of a kind. -/
def name : Kind → String
  | .color => "Color"
  | .float2 => "Float2"
  | .float3 => "Float3"
  | .matrix4 => "Matrix4"
  | .math => "Math"
  | .shade => "Shade"
  | .system => "System"
  | .record => "Record"

end Kind

/-- A type.  In `function params required result` the parameters after the first `required` may be
left out. -/
inductive Ty where
  | number
  | int
  | boolean
  | string
  | undefined
  | object (kind : Kind)
  | function (params : List Ty) (required : Nat) (result : Ty)
deriving Repr

namespace Ty

instance : Inhabited Ty := ⟨.undefined⟩

mutual

/-- Whether two types are the same. -/
def same : Ty → Ty → Bool
  | .number, .number => true
  | .int, .int => true
  | .boolean, .boolean => true
  | .string, .string => true
  | .undefined, .undefined => true
  | .object k, .object l => decide (k = l)
  | .function ps m r, .function qs n s => sameAll ps qs && decide (m = n) && same r s
  | _, _ => false

/-- Whether two lists of types are the same. -/
def sameAll : List Ty → List Ty → Bool
  | [], [] => true
  | p :: ps, q :: qs => same p q && sameAll ps qs
  | _, _ => false

end

mutual

theorem same_iff : ∀ a b : Ty, a.same b = true ↔ a = b
  | .function ps m r, b => by
    cases b <;> simp [same, sameAll_iff ps, same_iff r, and_assoc]
  | .number, b => by cases b <;> simp [same]
  | .int, b => by cases b <;> simp [same]
  | .boolean, b => by cases b <;> simp [same]
  | .string, b => by cases b <;> simp [same]
  | .undefined, b => by cases b <;> simp [same]
  | .object k, b => by cases b <;> simp [same]

theorem sameAll_iff : ∀ ps qs : List Ty, sameAll ps qs = true ↔ ps = qs
  | [], qs => by cases qs <;> simp [sameAll]
  | p :: ps, qs => by cases qs <;> simp [sameAll, same_iff p, sameAll_iff ps]

end

instance : DecidableEq Ty := fun a b => decidable_of_iff _ (same_iff a b)

/-- Whether a type is one of the two numeric types. -/
def isNumeric : Ty → Bool
  | .number | .int => true
  | _ => false

/-- The kind of an object type. -/
def kind? : Ty → Option Kind
  | .object k => some k
  | _ => none

/-- Numeric promotion: two integers stay an integer, any other two numeric types give a number. -/
def promote? (a b : Ty) : Option Ty :=
  if a = .int ∧ b = .int then some .int
  else if a.isNumeric && b.isNumeric then some .number
  else none

/-- Whether a value of type `found` may stand where `expected` is asked for: the numeric types mix,
all others must be equal. -/
def accepts (expected found : Ty) : Bool :=
  (expected.isNumeric && found.isNumeric) || decide (expected = found)

/-- The common type of two branches: equal types, or the promotion of numeric ones. -/
def unify? (a b : Ty) : Option Ty :=
  if a = b then some a else promote? a b

mutual

/-- The text of a type. -/
def display : Ty → String
  | .number => "Number"
  | .int => "Int"
  | .boolean => "Boolean"
  | .string => "String"
  | .undefined => "Undefined"
  | .object k => "Object(" ++ k.name ++ ")"
  | .function params required result =>
    "(" ++ ", ".intercalate (displayParams params required) ++ ") -> " ++ display result

/-- The texts of parameters, of which the first `required` are required; the others are marked. -/
def displayParams : List Ty → Nat → List String
  | [], _ => []
  | p :: ps, 0 => (display p ++ "?") :: displayParams ps 0
  | p :: ps, n + 1 => display p :: displayParams ps n

end

end Ty

/-- What a method or constructor takes and gives. -/
structure Signature where
  params : List Ty
  required : Nat
  result : Ty
deriving DecidableEq, Repr

namespace Signature

/-- A signature all of whose parameters are required. -/
def exactly (params : List Ty) (result : Ty) : Signature := ⟨params, params.length, result⟩

/-- The signature with the parameters after the first `required` optional. -/
def withRequired (s : Signature) (required : Nat) : Signature :=
  { s with required := min required s.params.length }

/-- Whether a call with `n` arguments is of the right length. -/
def acceptsArity (s : Signature) (n : Nat) : Bool :=
  decide (s.required ≤ n) && decide (n ≤ s.params.length)

/-- The type of a method with this signature. -/
def toTy (s : Signature) : Ty := .function s.params s.required s.result

/-- The text of a signature. -/
def display (s : Signature) : String := s.toTy.display

end Signature

/-- The signature of a method's type. -/
def Ty.signature? : Ty → Option Signature
  | .function params required result => some ⟨params, required, result⟩
  | _ => none

/-- The type that a name in a configuration denotes.  Letter case does not matter. -/
def Ty.ofName? (name : String) : Option Ty :=
  match name.toLower with
  | "number" | "float" => some .number
  | "int" => some .int
  | "bool" | "boolean" => some .boolean
  | "string" => some .string
  | "undefined" | "void" => some .undefined
  | "color" => some (.object .color)
  | "vec2" | "float2" => some (.object .float2)
  | "vec3" | "float3" => some (.object .float3)
  | "matrix4" | "mat4" => some (.object .matrix4)
  | _ => none

/-- The message for a name that denotes no type. -/
def Ty.unknownName (name : String) : String := "unknown type name `" ++ name ++ "`"

end Shader
