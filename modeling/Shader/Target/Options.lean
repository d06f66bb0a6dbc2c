import Shader.Json.Value

/-!
# Options of code generation

Options are given as settings with a name, or as a plain list of settings in the order of the
fields.  A setting that is missing has its default, one of an unknown name is ignored, and one of
the wrong type is refused.
-/

namespace Shader

/-- A setting: a flag, a text, or something that no option takes. -/
inductive Setting where
  | flag (b : Bool)
  | text (s : String)
  | other
deriving DecidableEq, Repr

namespace Setting

/-- The flag of a setting that may be missing. -/
def flagOr? (default : Bool) : Option Setting → Option Bool
  | none => some default
  | some (.flag b) => some b
  | some _ => none

/-- The text of a setting that may be missing. -/
def textOr? (default : String) : Option Setting → Option String
  | none => some default
  | some (.text s) => some s
  | some _ => none

/-- The setting that a JSON value is. -/
def ofJson : Json → Setting
  | .bool b => .flag b
  | .string s => .text s
  | _ => .other

end Setting

/-- Options for fragment shaders. -/
structure GlslOptions where
  /-- Leave out the lines in front of the functions. -/
  omitHeader : Bool := false
  /-- The default precision of floats. -/
  floatPrecision : String := "mediump"
deriving DecidableEq, Repr

/-- Options for materials. -/
structure EmbreeOptions where
  /-- Leave out the lines in front of the functions and after them. -/
  omitHeader : Bool := false
deriving DecidableEq, Repr

namespace GlslOptions

/-- The options whose settings are given. -/
def ofSettings? (omitHeader floatPrecision : Option Setting) : Option GlslOptions := do
  let omitHeader ← Setting.flagOr? false omitHeader
  let floatPrecision ← Setting.textOr? "mediump" floatPrecision
  some { omitHeader, floatPrecision }

/-- The options of a table of settings. -/
def ofTable? (settings : List (String × Setting)) : Option GlslOptions :=
  ofSettings? (Table.find? "omit_header" settings) (Table.find? "float_precision" settings)

/-- The options of a list of settings; further items are ignored. -/
def ofList? (settings : List Setting) : Option GlslOptions :=
  ofSettings? settings[0]? settings[1]?

/-- The options of a JSON value.  A list must not be longer than the options. -/
def ofJson? : Json → Option GlslOptions
  | .object fields => ofTable? (fields.map fun (name, v) => (name, .ofJson v))
  | .array items => if items.length ≤ 2 then ofList? (items.map .ofJson) else none
  | _ => none

end GlslOptions

namespace EmbreeOptions

/-- The options whose setting is given. -/
def ofSettings? (omitHeader : Option Setting) : Option EmbreeOptions :=
  (Setting.flagOr? false omitHeader).map fun omitHeader => { omitHeader }

/-- The options of a table of settings. -/
def ofTable? (settings : List (String × Setting)) : Option EmbreeOptions :=
  ofSettings? (Table.find? "omit_header" settings)

/-- The options of a list of settings; further items are ignored. -/
def ofList? (settings : List Setting) : Option EmbreeOptions := ofSettings? settings[0]?

/-- The options of a JSON value.  A list must not be longer than the options. -/
def ofJson? : Json → Option EmbreeOptions
  | .object fields => ofTable? (fields.map fun (name, v) => (name, .ofJson v))
  | .array items => if items.length ≤ 1 then ofList? (items.map .ofJson) else none
  | _ => none

end EmbreeOptions

end Shader
