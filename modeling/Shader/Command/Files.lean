import Shader.Command.Script
import Shader.Table

/-!
# Files

Files in memory, as a finite map from paths to texts, with a working directory.  A path is taken
apart at its slashes and followed from the root when it starts with one, and otherwise from the
working directory; `.` stays, `..` goes up, and every directory on the way has to exist.  A
directory exists when a file lies below it, and so do the working directory and those above it.
-/

namespace Shader

/-- Files and a working directory.  Files are keyed by their paths from the root, without the slash
in front. -/
structure FileStore where
  home : List String
  files : Table String

namespace FileStore

/-- The reason for which a path that leads nowhere can be neither read nor written. -/
def missing : String := "No such file or directory (os error 2)"

/-- The parts of a path between its slashes, of which the first starts with `part`. -/
def split (part : List Char) : List Char → List String
  | [] => [String.ofList part]
  | c :: cs => if c = '/' then String.ofList part :: split [] cs else split (part ++ [c]) cs

/-- The key of a file or directory that lies at the end of some segments. -/
def join (segments : List String) : String := "/".intercalate segments

/-- Whether a directory exists. -/
def hasDirectory (s : FileStore) (segments : List String) : Bool :=
  segments.isPrefixOf s.home ||
    s.files.names.any fun name => (join segments ++ "/").toList.isPrefixOf name.toList

/-- The file at the end of a path that continues from a directory.  Above the root is the root. -/
def walk? (s : FileStore) : List String → List String → Option (List String)
  | _, [] => none
  | here, [last] =>
    if last = "" ∨ last = "." ∨ last = ".." then none else some (here ++ [last])
  | here, segment :: rest =>
    if segment = "" ∨ segment = "." then walk? s here rest
    else if segment = ".." then walk? s here.dropLast rest
    else if s.hasDirectory (here ++ [segment]) then walk? s (here ++ [segment]) rest
    else none

/-- The segments of the file that a path leads to, whether it exists or not. -/
def locate? (s : FileStore) (path : String) : Option (List String) :=
  s.walk? (if path.toList.head? = some '/' then [] else s.home) (split [] path.toList)

/-- The text at a place. -/
def contents? (s : FileStore) (segments : List String) : Option String :=
  s.files.get? (join segments)

/-- The text of a file. -/
def read (s : FileStore) (path : String) : Except String String :=
  match (s.locate? path).bind s.contents? with
  | some text => .ok text
  | none => .error missing

/-- Write a text to a file, which may be new. -/
def write (s : FileStore) (path text : String) : Except String Unit × FileStore :=
  match s.locate? path with
  | some segments =>
    if s.hasDirectory segments then (.error missing, s)
    else (.ok (), { s with files := s.files.insert (join segments) text })
  | none => (.error missing, s)

/-- Files in memory as a file system. -/
def system : FileSystem FileStore := ⟨read, write⟩

end FileStore

end Shader
