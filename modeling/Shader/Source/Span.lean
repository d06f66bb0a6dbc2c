/-!
# Spans of source text

Nodes of a shader carry the byte offsets they were written at.  Offsets are 32-bit words.  Sums and
differences of words are words again or an `Overflow`, which ends the program that computes them.
-/

namespace Shader

/-- Why a sum or a difference of words is no word. -/
inductive Overflow where
  /-- The sum needs more bits. -/
  | add
  /-- The difference is below zero. -/
  | subtract
deriving DecidableEq, Repr

/-- The message of an overflow. -/
def Overflow.message : Overflow → String
  | .add => "attempt to add with overflow"
  | .subtract => "attempt to subtract with overflow"

namespace Word

/-- The sum of two words. -/
def add (a b : UInt32) : Except Overflow UInt32 :=
  if a.toNat + b.toNat < UInt32.size then .ok (a + b) else .error .add

/-- The difference of two words. -/
def subtract (a b : UInt32) : Except Overflow UInt32 :=
  if b ≤ a then .ok (a - b) else .error .subtract

end Word

/-- A stretch of source text: `start` is the first byte, `stop` the first byte after it. -/
structure Span where
  start : UInt32
  stop : UInt32
deriving DecidableEq, Repr

namespace Span

/-- Length in bytes. -/
def length (s : Span) : Except Overflow UInt32 := Word.subtract s.stop s.start

/-- Whether the span covers no byte. -/
def isEmpty (s : Span) : Bool := s.start == s.stop

/-- The least span that covers both. -/
def merge (a b : Span) : Span where
  start := if b.start < a.start then b.start else a.start
  stop := if a.stop < b.stop then b.stop else a.stop

/-- The span cut to a text of `size` bytes, as the offsets of its first byte and of the byte after
it.  An empty span is widened to one byte unless it lies at the end of the text, because a report
needs a character to point at. -/
def clamp (s : Span) (size : Nat) : Nat × Nat :=
  let first := min s.start.toNat size
  let last := max (min s.stop.toNat size) first
  if first = last then (first, min (last + 1) size) else (first, last)

end Span

end Shader
