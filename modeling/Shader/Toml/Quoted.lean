import Shader.Number.Numeral

/-!
# Quoted strings

A string is written in one of four forms: between double quotes, where a backslash starts an
escape, or between single quotes, where it does not; and each of the two either on one line or, when
three quotes stand on both sides, on several.  `Quoting` names the form, and `Quoting.step` reads
one character of it.

In a string of several lines one or two quotes in a row are text.  Three close it, and up to two
more in front of the closing ones are text as well, so a run of quotes is counted before it is
understood.
-/

namespace Shader.Toml

/-- A form of quoted string. -/
structure Quoting where
  /-- The quote on both sides. -/
  quote : Char
  /-- Whether a backslash starts an escape. -/
  escapes : Bool
  /-- Whether there are three quotes on both sides and line ends are allowed. -/
  long : Bool

/-- Where inside a string the reader stands. -/
inductive Place where
  | text
  /-- After `count` quotes in a row. -/
  | quotes (count : Nat)
  /-- After a backslash. -/
  | escape
  /-- After the letter of a numeric escape: `left` digits are due, those read have value `value`. -/
  | code (left value : Nat)
  /-- After a backslash and blanks: a line end is due. -/
  | lineMark
  /-- After a backslash and a line end: blanks and line ends are skipped. -/
  | lineFold

/-- What one character does: the string goes on, or it was closed, by this character or in front of
it.  The characters of the string stand in reverse. -/
inductive Progress where
  | inside (place : Place) (seen : List Char)
  | closed (seen : List Char)
  | closedBefore (seen : List Char)

/-- Whether a character is a blank. -/
def isBlank (c : Char) : Bool := c == ' ' || c == '\t'

/-- Whether a character may stand in a line: a tab, or anything that is no control character of
ASCII. -/
def isPrintable (c : Char) : Bool := c == '\t' || (decide (' ' ≤ c) && c != '\x7f')

/-- The character of an escape of one letter. -/
def escapeLetter? : Char → Option Char
  | '"' => some '"'
  | '\\' => some '\\'
  | 'b' => some '\x08'
  | 'f' => some '\x0c'
  | 'n' => some '\n'
  | 'r' => some '\r'
  | 't' => some '\t'
  | _ => none

/-- The character of a code point; surrogates are none. -/
def ofCodePoint? (n : Nat) : Option Char :=
  if n.isValidChar then some (Char.ofNat n) else none

namespace Quoting

/-- A character of the text that is no quote. -/
def plain (q : Quoting) (seen : List Char) (c : Char) : Option Progress :=
  if c = '\\' ∧ q.escapes then some (.inside .escape seen)
  else if isPrintable c ∨ (c = '\n' ∧ q.long) then some (.inside .text (c :: seen))
  else none

/-- A character of the text. -/
def text (q : Quoting) (seen : List Char) (c : Char) : Option Progress :=
  if c = q.quote then
    if q.long then some (.inside (.quotes 1) seen) else some (.closed seen)
  else q.plain seen c

/-- The text after a run of quotes of which the last three close the string. -/
def beforeClose (q : Quoting) (seen : List Char) (count : Nat) : List Char :=
  List.replicate (count - 3) q.quote ++ seen

/-- One character. -/
def step (q : Quoting) (seen : List Char) (c : Char) : Place → Option Progress
  | .text => q.text seen c
  | .quotes count =>
    if c = q.quote then
      if count = 4 then some (.closed (q.beforeClose seen 5))
      else some (.inside (.quotes (count + 1)) seen)
    else if 3 ≤ count then some (.closedBefore (q.beforeClose seen count))
    else q.plain (List.replicate count q.quote ++ seen) c
  | .escape =>
    if c = 'u' then some (.inside (.code 4 0) seen)
    else if c = 'U' then some (.inside (.code 8 0) seen)
    else if q.long && c == '\n' then some (.inside .lineFold seen)
    else if q.long && isBlank c then some (.inside .lineMark seen)
    else (escapeLetter? c).map fun e => .inside .text (e :: seen)
  | .code left value => do
    let digit ← Number.hexDigit? c
    let value := 16 * value + digit
    if left = 1 then (ofCodePoint? value).map fun e => .inside .text (e :: seen)
    else some (.inside (.code (left - 1) value) seen)
  | .lineMark =>
    if isBlank c then some (.inside .lineMark seen)
    else if c = '\n' then some (.inside .lineFold seen)
    else none
  | .lineFold =>
    if isBlank c ∨ c = '\n' then some (.inside .lineFold seen) else q.text seen c

/-- The string when the text ends, if it may end there: after the quotes that close it. -/
def finish (q : Quoting) (seen : List Char) : Place → Option (List Char)
  | .quotes count => if 3 ≤ count then some (q.beforeClose seen count) else none
  | _ => none

/-- The string whose opening quotes have been read, and what follows it. -/
def read? (q : Quoting) : Place → List Char → List Char → Option (String × List Char)
  | place, seen, [] => (q.finish seen place).map fun seen => (String.ofList seen.reverse, [])
  | place, seen, c :: cs =>
    match q.step seen c place with
    | none => none
    | some (.inside place seen) => read? q place seen cs
    | some (.closed seen) => some (String.ofList seen.reverse, cs)
    | some (.closedBefore seen) => some (String.ofList seen.reverse, c :: cs)

end Quoting

/-- The text without a line end in front. -/
def dropLineEnd : List Char → List Char
  | '\n' :: cs => cs
  | cs => cs

/-- A string of one line in front, and what follows it. -/
def shortString? : List Char → Option (String × List Char)
  | '"' :: cs => Quoting.read? ⟨'"', true, false⟩ .text [] cs
  | '\'' :: cs => Quoting.read? ⟨'\'', false, false⟩ .text [] cs
  | _ => none

/-- A string in front, and what follows it.  A line end right after three opening quotes is not part
of the string. -/
def string? : List Char → Option (String × List Char)
  | '"' :: '"' :: '"' :: cs => Quoting.read? ⟨'"', true, true⟩ .text [] (dropLineEnd cs)
  | '\'' :: '\'' :: '\'' :: cs => Quoting.read? ⟨'\'', false, true⟩ .text [] (dropLineEnd cs)
  | cs => shortString? cs

end Shader.Toml
