import Shader.Json.Value
import Shader.Source.Lines
import Shader.Typing.Error

/-!
# Diagnostics as data

The form of a type error that other programs read.  Line and column are given when both the span
and the source are known; there is no form where one of them is too large for a word.
-/

namespace Shader.TypeError

/-- The number of a 32-bit word. -/
private def word (n : UInt32) : Json := .int n.toNat

/-- Line and column of a span, where the source is known. -/
def placeFields (span : Span) : Option String → Except Overflow (List (String × Json))
  | none => .ok []
  | some source => do
    let position ← (LineIndex.ofSource source).position span.start
    return [("line", word position.1), ("column", word position.2)]

/-- The place of an error. -/
def placeJson (e : TypeError) (source : Option String) (file : String) (span : Span) :
    Except Overflow Json := do
  let place ← placeFields span source
  return .object ([("file", .string file), ("start", word span.start), ("end", word span.stop),
    ("label", .string e.fault.label)] ++ place)

/-- An error as data. -/
def toJson (e : TypeError) (source : Option String) (file : String) : Except Overflow Json := do
  let places ← e.span.toList.mapM (e.placeJson source file)
  return .object [
    ("code", .string e.fault.code),
    ("severity", .string "error"),
    ("message", .string e.fault.message),
    ("file", .string file),
    ("spans", .array places),
    ("help", (e.fault.help?.map Json.string).getD .null)]

end Shader.TypeError
