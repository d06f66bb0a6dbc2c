/-!
# Commands

`compile` generates code for a program and `check` prints the signatures of its functions.
-/

namespace Shader

/-- The language that code is generated for. -/
inductive Target where
  | glsl
  | embree
deriving DecidableEq, Repr

/-- What both commands are told: the file of the program, the files of the configuration and of the
shader source, and whether diagnostics are printed as JSON. -/
structure Inputs where
  input : String
  config : Option String
  source : Option String
  json : Bool
deriving DecidableEq, Repr

/-- What `compile` is told besides. -/
structure CompileOptions where
  target : Target
  /-- The file for the code; it is printed when there is none. -/
  output : Option String
  omitHeader : Bool
  floatPrecision : Option String
  /-- Whether code with placeholders is accepted. -/
  allowPlaceholders : Bool
deriving DecidableEq, Repr

/-- A command. -/
inductive Command where
  | compile (inputs : Inputs) (options : CompileOptions)
  | check (inputs : Inputs)
deriving DecidableEq, Repr

/-- The inputs of a command. -/
def Command.inputs : Command → Inputs
  | .compile inputs _ => inputs
  | .check inputs => inputs

end Shader
