import Shader.Number.Parts
import Shader.Table

/-!
# JSON values

The values of JSON texts.  Numbers keep the distinction between integers of 64 bits and all others,
since only an integer may serve as a source offset.  The fields of an object are a list of pairs in
which the first pair of a name counts; a reader produces every name once.
-/

namespace Shader

/-- A finite double: the only doubles a JSON text can denote. -/
structure FiniteFloat where
  value : Float
  finite : value.isFinite = true

/-- A JSON value. -/
inductive Json where
  | null
  | bool (b : Bool)
  | int (n : Int)
  | real (x : FiniteFloat)
  | string (s : String)
  | array (items : List Json)
  | object (fields : List (String × Json))

namespace Json

instance : Inhabited Json := ⟨.null⟩

/-- The field of an object. -/
def field? (name : String) : Json → Option Json
  | .object fields => Table.find? name fields
  | _ => none

/-- The double that a number denotes. -/
def number? : Json → Option Float
  | .int n => some (Number.ofInt n)
  | .real x => some x.value
  | _ => none

end Json

end Shader
