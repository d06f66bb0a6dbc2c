/-!
# Indented lines

Generated code is collected line by line.  A line takes the indentation that holds when it is added;
an empty line takes none.
-/

namespace Shader

/-- Lines of code and the level of indentation for the next one. -/
structure LineBuffer where
  lines : List String
  level : Nat
deriving DecidableEq, Repr

namespace LineBuffer

/-- No lines, at level zero. -/
def empty : LineBuffer := ⟨[], 0⟩

/-- The blanks in front of a line at a level. -/
def margin (level : Nat) : String := String.ofList (List.replicate (4 * level) ' ')

/-- Add a line. -/
def line (b : LineBuffer) (text : String) : LineBuffer :=
  { b with lines := b.lines ++ [if text.isEmpty then "" else margin b.level ++ text] }

/-- Add text to the end of the last line, or as a first line. -/
def append (b : LineBuffer) (text : String) : LineBuffer :=
  match b.lines.getLast? with
  | some last => { b with lines := b.lines.dropLast ++ [last ++ text] }
  | none => b.line text

/-- Indent the lines that follow by one level more. -/
def indent (b : LineBuffer) : LineBuffer := { b with level := b.level + 1 }

/-- Indent the lines that follow by one level less, where there is one. -/
def dedent (b : LineBuffer) : LineBuffer := { b with level := b.level - 1 }

/-- All lines as one text. -/
def finish (b : LineBuffer) : String := "\n".intercalate b.lines

end LineBuffer

end Shader
