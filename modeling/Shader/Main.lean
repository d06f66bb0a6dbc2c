import Shader.Command.Invocation

/-!
# The program

Runs the command line of the process on the real file system.
-/

namespace Shader.Main

/-- The answer of the system, or the reason why there is none. -/
def attempt {α : Type} (x : IO α) : IO (Except String α) := do
  try
    return .ok (← x)
  catch e =>
    match e with
    | .noFileOrDirectory _ _ _ => return .error "No such file or directory (os error 2)"
    | e => return .error (toString e)

/-- Perform an effect. -/
def perform : (effect : Effect) → IO effect.Answer
  | .read path => attempt (IO.FS.readFile path)
  | .write path text => attempt (IO.FS.writeFile path text)
  | .print text => IO.print text
  | .tell text => IO.eprint text

/-- Carry out a script. -/
def run {α : Type} : Script α → IO α
  | .done a => return a
  | .perform effect next => do run (next (← perform effect))

end Shader.Main

open Shader

/-- The entry point. -/
def main (args : List String) : IO UInt32 := Main.run (Invocation.ofWords args).script
