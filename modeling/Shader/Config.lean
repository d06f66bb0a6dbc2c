import Shader.Target.Options
import Shader.Toml.Writer
import Shader.Typing.Injection

/-!
# Configuration

A configuration has the types that the host injects and the options of the two targets.  It is read
in two steps: `Config.ofText?` takes a text apart and refuses what does not have the form of a
configuration, and `Config.injections` gives type names and values their meaning.

Entries other than `inject`, `glsl` and `embree` are ignored.
-/

namespace Shader

/-- An entry of the injected types: the name of a type, and a value if the host fixes one. -/
structure InjectEntry where
  typeName : String
  value : Option Toml.Value

/-- Why an entry of the injected types has no meaning. -/
inductive InjectError where
  | unknownType (name typeName : String)
  | wrongValue (name : String) (value : Toml.Value) (ty : Ty)

/-- A configuration. -/
structure Config where
  inject : Table InjectEntry := .empty
  glsl : GlslOptions := {}
  embree : EmbreeOptions := {}

/-! ## The form of a configuration -/

/-- The setting that a value is. -/
def Setting.ofToml : Toml.Value → Setting
  | .boolean b => .flag b
  | .string s => .text s
  | _ => .other

/-- The options for fragment shaders of a value. -/
def GlslOptions.ofToml? : Toml.Value → Option GlslOptions
  | .array items => ofList? (items.map .ofToml)
  | v => v.entries?.bind fun entries => ofTable? (entries.map fun (key, v) => (key, .ofToml v))

/-- The options for materials of a value. -/
def EmbreeOptions.ofToml? : Toml.Value → Option EmbreeOptions
  | .array items => ofList? (items.map .ofToml)
  | v => v.entries?.bind fun entries => ofTable? (entries.map fun (key, v) => (key, .ofToml v))

namespace InjectEntry

/-- An entry: the name of a type, or a table with a type and perhaps a value. -/
def ofToml? : Toml.Value → Option InjectEntry
  | .string s => some ⟨s, none⟩
  | .table entries =>
    match Table.find? "type" entries, Table.find? "value" entries with
    | some (.string s), none => some ⟨s, none⟩
    | some (.string s), some v => v.restoreMoments?.map fun v => ⟨s, some v⟩
    | _, _ => none
  | _ => none

/-- The table of entries of a value. -/
def tableOfToml? (v : Toml.Value) : Option (Table InjectEntry) := do
  let entries ← v.entries?
  let entries ← entries.mapM fun (name, v) => (ofToml? v).map fun entry => (name, entry)
  some ⟨entries⟩

end InjectEntry

namespace Config

/-- A part of a configuration, which has its default when it is missing. -/
def part? {α : Type} (entries : List (String × Toml.Value)) (key : String) (default : α)
    (read : Toml.Value → Option α) : Option α :=
  match Table.find? key entries with
  | none => some default
  | some v => read v

/-- The configuration of a document. -/
def ofEntries? (entries : List (String × Toml.Value)) : Option Config := do
  let inject ← part? entries "inject" .empty InjectEntry.tableOfToml?
  let glsl ← part? entries "glsl" {} GlslOptions.ofToml?
  let embree ← part? entries "embree" {} EmbreeOptions.ofToml?
  some { inject, glsl, embree }

/-- The configuration of a text. -/
def ofText? (text : String) : Option Config := (Toml.read? text).bind ofEntries?

/-- The configuration of a text, or the reason why there is none. -/
def parse (text : String) : Except String Config :=
  match ofText? text with
  | some config => .ok config
  | none => .error "malformed configuration"

end Config

/-! ## The meaning of the injected types -/

/-- The constant that a value is at a type.  An integer is also a number, and objects have no
constants. -/
def Toml.Value.constant? : Toml.Value → Ty → Option Constant
  | .integer n, .int => some (.number (Number.ofInt n))
  | .integer n, .number => some (.number (Number.ofInt n))
  | .float x, .number => some (.number x)
  | .boolean b, .boolean => some (.bool b)
  | .string s, .string => some (.string s)
  | _, _ => none

/-- The message of an error. -/
def InjectError.message : InjectError → String
  | .unknownType name typeName => "[inject] `" ++ name ++ "`: " ++ Ty.unknownName typeName
  | .wrongValue name value ty =>
    "[inject] `" ++ name ++ "`: value " ++ value.aloneText ++ " is not a " ++ ty.display

/-- What an entry injects under a name. -/
def InjectEntry.resolve (e : InjectEntry) (name : String) : Except InjectError Ascription :=
  match Ty.ofName? e.typeName with
  | none => .error (.unknownType name e.typeName)
  | some ty =>
    match e.value with
    | none => .ok (.ofTy ty)
    | some v =>
      match v.constant? ty with
      | none => .error (.wrongValue name v ty)
      | some c => .ok ⟨ty, some c⟩

/-- The injections of a configuration.  Entries are taken by name, and the first without a meaning
is the error. -/
def Config.injections (c : Config) : Except InjectError Injections :=
  c.inject.sorted.foldlM
    (fun injections (name, entry) => do
      let ascription ← entry.resolve name
      .ok (injections.insert name ascription))
    Table.empty

end Shader
