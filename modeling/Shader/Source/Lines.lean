import Shader.Source.Span

/-!
# Lines and columns

A `LineIndex` holds the offset at which each line of a text starts; a byte offset is turned into a
line and a column by looking up the last start at or before it.  Both are words, and at the greatest
offset one of them may be too large for a word.
-/

namespace Shader

/-- The offsets at which the lines of a text start, in order.  The first is always `0`. -/
structure LineIndex where
  starts : List UInt32
deriving DecidableEq, Repr

namespace LineIndex

/-- The byte that ends a line. -/
def newline : UInt8 := 10

/-- The offsets just after each newline of `bytes`, whose first byte has offset `i`. -/
def afterNewlines : List UInt8 → Nat → List Nat
  | [], _ => []
  | b :: bs, i =>
    if b = newline then (i + 1) :: afterNewlines bs (i + 1) else afterNewlines bs (i + 1)

/-- The line index of a text. -/
def ofSource (source : String) : LineIndex :=
  ⟨0 :: (afterNewlines source.toUTF8.toList 0).map Nat.toUInt32⟩

/-- The number of lines. -/
def count (index : LineIndex) : Nat := index.starts.length

/-- Line and column of an offset, both counted from one.  Columns are counted in bytes. -/
def position (index : LineIndex) (offset : UInt32) : Except Overflow (UInt32 × UInt32) := do
  let i := (index.starts.takeWhile (fun start => decide (start ≤ offset))).length - 1
  let line ← Word.add i.toUInt32 1
  let distance ← Word.subtract offset (index.starts.getD i 0)
  let column ← Word.add distance 1
  return (line, column)

end LineIndex

end Shader
