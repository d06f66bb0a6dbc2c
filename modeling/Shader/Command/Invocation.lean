import Shader.Command.Routine
import Shader.Command.Arguments

/-!
# Command lines as scripts

A command line asks for a command, for the version or for the usage, and all of them are scripts.
-/

namespace Shader

/-- The parsers that come with the library. -/
def Parsers.standard : Parsers := ⟨Json.parse, Config.parse⟩

/-- How the command line is used. -/
def usage : String :=
  "Usage: shadec compile [OPTIONS] <INPUT>\n       shadec check [OPTIONS] <INPUT>\n"

/-- What a command line does. -/
def Invocation.script : Invocation → Script UInt32
  | .version => .perform (.print "shadec 0.1.0\n") fun _ => return 0
  | .help => .perform (.print usage) fun _ => return 0
  | .misuse => .perform (.tell usage) fun _ => return 2
  | .command c => c.script .standard

end Shader
