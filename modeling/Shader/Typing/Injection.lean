import Shader.Table
import Shader.Typing.Ascription

/-!
# Injected types

The host gives types, and sometimes values, to the free names of a shader.  An injection is keyed by
a name, or by the dotted path of a member such as `env.scale`; a name of which only members are
injected stands for a record.
-/

namespace Shader

/-- The injected names and paths, each with its type and, when the host fixes it, its value. -/
abbrev Injections := Table Ascription

namespace Injections

/-- Whether a key is a path below `root`. -/
def isBelow (root key : String) : Bool := (root.toList ++ ['.']).isPrefixOf key.toList

/-- Whether a path below `root` is injected. -/
def hasMembers (m : Injections) (root : String) : Bool := m.names.any (isBelow root)

/-- What a free name or path stands for: its own entry, or a record when only paths below it are
injected. -/
def resolve? (m : Injections) (name : String) : Option Ascription :=
  match m.get? name with
  | some injected => some injected
  | none => if m.hasMembers name then some (.ofTy (.object .record)) else none

end Injections

end Shader
