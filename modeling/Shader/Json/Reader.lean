import Shader.Json.Token

/-!
# Reading JSON

Values are assembled from tokens by a machine with a stack of the arrays and objects that are open.
A text holds exactly one value, arrays and objects nest at most `maxDepth` deep, and of two fields
of one name the later counts.
-/

namespace Shader.Json

/-- An array or object that is still open.  Items stand in reverse; `key` is the name of the field
whose value is being read. -/
inductive Frame where
  | array (items : List Json)
  | object (fields : List (String × Json)) (key : String)

/-- What may come next. -/
inductive Phase where
  /-- A value. -/
  | value
  /-- After `[`: a value or `]`. -/
  | firstItem
  /-- After an opening brace: a name or the closing brace. -/
  | firstKey
  /-- After a comma in an object: a name. -/
  | key
  /-- After a name: a colon. -/
  | colon
  /-- After a value inside an array or object: a comma or the end of it. -/
  | after
  /-- Nothing: the text's value is complete. -/
  | done (v : Json)

/-- How deep arrays and objects may nest. -/
def maxDepth : Nat := 127

/-- The machine: open arrays and objects, the innermost first, and what may come next. -/
structure Builder where
  stack : List Frame
  phase : Phase

namespace Builder

/-- Before the first token. -/
def initial : Builder := ⟨[], .value⟩

/-- Hand a finished value to the innermost open frame. -/
def give (v : Json) : List Frame → Builder
  | [] => ⟨[], .done v⟩
  | .array items :: rest => ⟨.array (v :: items) :: rest, .after⟩
  | .object fields key :: rest => ⟨.object (Table.set key v fields) key :: rest, .after⟩

/-- Open an array or object, unless it would nest too deep. -/
def enter (frame : Frame) (phase : Phase) (stack : List Frame) : Option Builder :=
  if stack.length < maxDepth then some ⟨frame :: stack, phase⟩ else none

/-- Start a value. -/
def startValue (stack : List Frame) : Token → Option Builder
  | .string s => some (give (.string s) stack)
  | .scalar v => some (give v stack)
  | .openArray => enter (.array []) .firstItem stack
  | .openObject => enter (.object [] "") .firstKey stack
  | _ => none

/-- Close the innermost array. -/
def closeArray : List Frame → Option Builder
  | .array items :: rest => some (give (.array items.reverse) rest)
  | _ => none

/-- Close the innermost object. -/
def closeObject : List Frame → Option Builder
  | .object fields _ :: rest => some (give (.object fields) rest)
  | _ => none

/-- Take the name of the next field. -/
def takeKey (name : String) : List Frame → Option Builder
  | .object fields _ :: rest => some ⟨.object fields name :: rest, .colon⟩
  | _ => none

/-- One token. -/
def step (b : Builder) (t : Token) : Option Builder :=
  match b.phase, t with
  | .value, t => startValue b.stack t
  | .firstItem, .closeArray => closeArray b.stack
  | .firstItem, t => startValue b.stack t
  | .firstKey, .closeObject => closeObject b.stack
  | .firstKey, .string name => takeKey name b.stack
  | .key, .string name => takeKey name b.stack
  | .colon, .colon => some ⟨b.stack, .value⟩
  | .after, .closeArray => closeArray b.stack
  | .after, .closeObject => closeObject b.stack
  | .after, .comma =>
    match b.stack with
    | .array _ :: _ => some ⟨b.stack, .value⟩
    | .object _ _ :: _ => some ⟨b.stack, .key⟩
    | [] => none
  | _, _ => none

end Builder

/-- The value of a text. -/
def read? (text : String) : Option Json := do
  let tokens ← tokens? text.toList
  let final ← tokens.foldlM Builder.step Builder.initial
  match final.phase with
  | .done v => some v
  | _ => none

/-- The value of a text, or the reason why there is none. -/
def parse (text : String) : Except String Json :=
  match read? text with
  | some v => .ok v
  | none => .error "not a JSON document"

end Shader.Json
