import Shader.Command.Basic
import Shader.Command.Script
import Shader.Config
import Shader.Json.Writer
import Shader.Syntax.Load
import Shader.Target.Material
import Shader.Target.Fragment
import Shader.Typing.Builtin
import Shader.Typing.Diagnostic
import Shader.Typing.Program
import Shader.Typing.Report

/-!
# What a command does

Both commands load the configuration and analyse the program.  `compile` then generates code, tells
the warnings about it, and delivers the code to a file or to the standard output; `check` prints the
signatures of the functions one by one.

The order of the steps decides which of two failures is reported: the configuration, the program,
the injected types, the shader source, inference, generation, placeholders, the file for the code.

How texts are taken apart is left open (`Parsers`): a command only uses what comes out.
-/

namespace Shader

/-- How texts are taken apart: a JSON text into a value and the text of a configuration into a
configuration, or else the reason why it is none. -/
structure Parsers where
  document : String → Except String Json
  config : String → Except String Config

/-! ## Reading -/

/-- The text of a file, which failures call `label`. -/
def fetch (path label : String) : Routine String := do
  let answer ← Routine.perform (.read path)
  Routine.ofExcept (fun reason => "Failed to read " ++ label ++ ": " ++ reason) answer

/-- A path in quotes. -/
def quoted (path : String) : String := "'" ++ path ++ "'"

namespace Inputs

variable (i : Inputs) (parsers : Parsers)

/-- The configuration; the default one when no file is given. -/
def loadConfig : Routine Config := do
  match i.config with
  | none => return {}
  | some path =>
    let text ← fetch path path
    Routine.ofExcept (fun reason => "Failed to parse config: " ++ reason) (parsers.config text)

/-- The program. -/
def loadProgram : Routine Program := do
  let text ← fetch i.input (quoted i.input)
  Routine.ofExcept (fun e => "Failed to load " ++ quoted i.input ++ ": " ++ LoadError.message e)
    (Program.ofParsed (parsers.document text))

/-- The text of the shader source, if its file is given. -/
def loadSource : Routine (Option String) := do
  match i.source with
  | none => return none
  | some path => return some (← fetch path (quoted path))

/-- The file that diagnostics name. -/
def fileName : String := i.source.getD i.input

/-- Tell a type error: as one JSON object, or as a report with an excerpt of the source where there
is one, and as a single line where there is none. -/
def tellError (e : TypeError) (source : Option String) : Routine Unit := do
  if i.json then
    match e.toJson source i.fileName with
    | .ok v => Routine.perform (.tell (v.write ++ "\n"))
    | .error overflow => throw (.crash overflow)
  else
    match source with
    | some source => Routine.perform (.tell (e.report source i.fileName))
    | none => Routine.perform (.tell (e.line i.fileName ++ "\n"))

/-- The typed program. -/
def analyse (config : Config) : Routine TypedProgram := do
  let program ← i.loadProgram parsers
  let injections ← Routine.ofExcept (·.message) config.injections
  let source ← i.loadSource
  match program.infer injections .builtin with
  | .ok typed => return typed
  | .error e =>
    i.tellError e source
    Routine.fail "Type inference failed due to errors above."

end Inputs

/-! ## Generating -/

namespace CompileOptions

variable (o : CompileOptions)

/-- The code of a typed program.  A flag of the command line adds to the configuration, and a
precision of the command line takes its place. -/
def generate (config : Config) (p : TypedProgram) : Except CodegenError Output :=
  match o.target with
  | .glsl => Glsl.generate p.functions {
      omitHeader := config.glsl.omitHeader || o.omitHeader
      floatPrecision := o.floatPrecision.getD config.glsl.floatPrecision }
  | .embree => Embree.generate p.functions {
      omitHeader := config.embree.omitHeader || o.omitHeader }

/-- The code of a typed program, as a step of the command. -/
def emit (config : Config) (p : TypedProgram) : Routine Output :=
  Routine.ofExcept (fun e => "Code generation failed: " ++ CodegenError.message e)
    (o.generate config p)

/-- Tell the warnings about code.  They are a failure unless placeholders are allowed. -/
def tellWarnings (output : Output) : Routine Unit := do
  output.warnings.forM fun w => Routine.perform (.tell ("warning: " ++ w.message ++ "\n"))
  if output.isClean || o.allowPlaceholders then return ()
  else Routine.fail (toString output.warnings.length
    ++ " placeholder(s) in generated code; pass --allow-placeholders to accept")

/-- Deliver a text: to the file for the code, or to the standard output where there is none. -/
def deliver (text : String) : Routine Unit := do
  match o.output with
  | none => Routine.perform (.print text)
  | some path =>
    let answer ← Routine.perform (.write path text)
    Routine.ofExcept (fun reason => "Failed to write " ++ quoted path ++ ": " ++ reason) answer
    Routine.perform (.tell ("  Compiled: " ++ path ++ "\n"))

end CompileOptions

/-! ## Commands -/

namespace Command

/-- The steps of a command. -/
def routine (parsers : Parsers) : Command → Routine Unit
  | .compile i o => do
    let config ← i.loadConfig parsers
    let typed ← i.analyse parsers config
    let output ← o.emit config typed
    o.tellWarnings output
    o.deliver (output.code ++ "\n")
  | .check i => do
    let config ← i.loadConfig parsers
    let typed ← i.analyse parsers config
    typed.functions.forM fun f => Routine.perform (.print (f.display ++ "\n"))

/-- The line that tells the message of a failure. -/
def errorLine (json : Bool) (message : String) : String :=
  if json then
    (Json.object [("code", .string "C0001"), ("severity", .string "error"),
      ("message", .string message), ("file", .string ""), ("spans", .array []),
      ("help", .null)]).write ++ "\n"
  else "error: " ++ message ++ "\n"

/-- The end of a command: why it ended early is told, and decides the exit code. -/
def finish (json : Bool) : Except Abort Unit → Script UInt32
  | .ok () => return 0
  | .error (.failure message) => .perform (.tell (errorLine json message)) fun _ => return 1
  | .error (.crash overflow) => .perform (.tell (overflow.message ++ "\n")) fun _ => return 101

/-- A command as a whole, with its exit code. -/
def script (parsers : Parsers) (c : Command) : Script UInt32 := do
  let result ← (c.routine parsers).run
  finish c.inputs.json result

end Command

end Shader
