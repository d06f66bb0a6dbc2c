import Shader.Number.Text
import Shader.Table
import Shader.Toml.Reader

/-!
# Writing values

A value is written on one line where its strings allow it, with the entries of a table by key.
A string takes the plainest of its forms: the first of a list in which it needs no escape, and
escapes only when every form would need one.  Tabs count as plain and are written as escapes all
the same.
-/

namespace Shader.Toml

/-! ## Strings -/

/-- The length of the longest run of a character.  `run` is the length of the one that is open. -/
def longestRun (quote : Char) (run : Nat) : List Char → Nat
  | [] => run
  | c :: cs =>
    if c = quote then longestRun quote (run + 1) cs
    else Nat.max run (longestRun quote 0 cs)

/-- Whether a character has no place in a string without an escape. -/
def needsEscape (c : Char) : Bool := !isPrintable c && c != '\n'

/-- The escape of a character, if it has one. -/
def escape? (c : Char) : Option (List Char) :=
  match c with
  | '\x08' => some ['\\', 'b']
  | '\t' => some ['\\', 't']
  | '\n' => some ['\\', 'n']
  | '\x0c' => some ['\\', 'f']
  | '\r' => some ['\\', 'r']
  | '\\' => some ['\\', '\\']
  | c =>
    if isPrintable c then none
    else
      let digits := (Nat.toDigits 16 c.toNat).map Char.toUpper
      some ('\\' :: 'u' :: List.replicate (4 - digits.length) '0' ++ digits)

/-- The text of a string with escapes, on one line or on several.  On several lines two quotes in a
row stand as they are and the next is escaped; `run` counts the quotes before. -/
def escapedText (long : Bool) (run : Nat) : List Char → List Char
  | [] => []
  | c :: cs =>
    if c = '"' then
      if long && decide (run < 2) then '"' :: escapedText long (run + 1) cs
      else '\\' :: '"' :: escapedText long 0 cs
    else if long && c == '\n' then '\n' :: escapedText long 0 cs
    else (escape? c).getD [c] ++ escapedText long 0 cs

/-- A written string, with `mark` on both sides. -/
def enclosed (mark : String) (text : List Char) : String := mark ++ String.ofList text ++ mark

/-- A written string of several lines: it starts on a line of its own when it has a line end. -/
def enclosedLines (mark : String) (cs text : List Char) : String :=
  enclosed mark (if cs.contains '\n' then '\n' :: text else text)

/-- The written form of a string. -/
def stringText (s : String) : String :=
  let cs := s.toList
  let control := cs.any needsEscape
  let lines := cs.contains '\n'
  let backslash := cs.contains '\\'
  let double := longestRun '"' 0 cs
  let single := longestRun '\'' 0 cs
  if !control && !backslash && !lines && double == 0 then enclosed "\"" (escapedText false 0 cs)
  else if !control && !lines && single == 0 then enclosed "'" cs
  else if !control && !backslash && decide (double ≤ 2) then
    enclosedLines "\"\"\"" cs (escapedText true 0 cs)
  else if !control && decide (single ≤ 2) then enclosedLines "'''" cs cs
  else if lines then enclosedLines "\"\"\"" cs (escapedText true 0 cs)
  else enclosed "\"" (escapedText false 0 cs)

/-- The written form of a key. -/
def keyText (key : String) : String :=
  let cs := key.toList
  let control := cs.any fun c => !isPrintable c
  if !cs.isEmpty && cs.all isBareKeyChar then key
  else if !control && !cs.contains '\\' && !cs.contains '"' then
    enclosed "\"" (escapedText false 0 cs)
  else if !control && !cs.contains '\'' then enclosed "'" cs
  else enclosed "\"" (escapedText false 0 cs)

/-! ## Values -/

/-- The written form of a float: a finite one has a point. -/
def floatText (x : Float) : String :=
  match Number.parts x with
  | .nan => "nan"
  | .infinite negative => if negative then "-inf" else "inf"
  | .finite _ _ _ => Number.pointedText x

mutual

/-- The written form of a value. -/
def Value.text : Value → String
  | .string s => stringText s
  | .integer n => toString n
  | .float x => floatText x
  | .boolean b => if b then "true" else "false"
  | .moment m => m.text
  | .array items => "[" ++ ", ".intercalate (itemTexts items) ++ "]"
  | .table entries =>
    if entries.isEmpty then "\x7b\x7d"
    else
      let texts := (Table.mk (entryTexts entries)).sorted.map fun (key, text) =>
        keyText key ++ " = " ++ text
      "\x7b " ++ ", ".intercalate texts ++ " \x7d"

/-- The written forms of the items of an array. -/
def itemTexts : List Value → List String
  | [] => []
  | v :: vs => v.text :: itemTexts vs

/-- The written forms of the values of a table. -/
def entryTexts : List (String × Value) → List (String × String)
  | [] => []
  | (key, v) :: rest => (key, v.text) :: entryTexts rest

end

/-- The written form of a value that stands alone: a moment is then written as a table. -/
def Value.aloneText : Value → String
  | .moment m => (Value.table m.entries).text
  | v => v.text

end Shader.Toml
