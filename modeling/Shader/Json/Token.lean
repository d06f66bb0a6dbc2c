import Shader.Json.Value
import Shader.Number.Scaling

/-!
# Tokens of JSON

A text is cut into tokens by a machine that reads one character at a time.  `Mode` is what the
machine is inside of, and `Mode.step` is its transition: it yields the tokens that a character
completes, or refuses it.  The reader of tokens is therefore a fold over the characters.
-/

namespace Shader.Json

/-- A token: a mark of punctuation, a string, or another value without parts. -/
inductive Token where
  | openArray
  | closeArray
  | openObject
  | closeObject
  | comma
  | colon
  | string (s : String)
  | scalar (v : Json)

/-- Where in an escape sequence of a string the machine stands.  A code point outside the basic
plane is written as two escapes, so a leading surrogate waits for its trailing one. -/
inductive Escape where
  /-- After a backslash. -/
  | mark
  /-- After `\u` and `count` digits of value `value`; `lead` is a leading surrogate before it. -/
  | digits (lead : Option Nat) (value count : Nat)
  /-- After a leading surrogate: a backslash is due. -/
  | trailMark (lead : Nat)
  /-- After a leading surrogate and a backslash: `u` is due. -/
  | trailLetter (lead : Nat)

/-- What the machine is inside of.  Characters read so far stand in reverse. -/
inductive Mode where
  | between
  | string (seen : List Char)
  | escape (seen : List Char) (place : Escape)
  | number (seen : List Char)
  | word (seen : List Char)

/-- Whether a character may stand between tokens. -/
def isBlank (c : Char) : Bool := c == ' ' || c == '\t' || c == '\n' || c == '\r'

/-- Whether a character may occur in a number. -/
def isNumeric (c : Char) : Bool :=
  c.isDigit || c == '-' || c == '+' || c == '.' || c == 'e' || c == 'E'

/-- The value of a number: an integer when it is written as one, fits 64 bits and is not negative
zero, and a finite double otherwise.  Doubles are computed in double arithmetic. -/
def ofNumeral? (n : Number.Numeral) : Option Json :=
  if n.plain && decide (-9223372036854775808 ≤ n.toInt)
      && decide (n.toInt < 18446744073709551616)
      && !(n.negative && n.digits == 0) then
    some (.int n.toInt)
  else if finite : n.scaled.isFinite = true then some (.real ⟨n.scaled, finite⟩)
  else none

/-- The value of a word. -/
def ofWord? : List Char → Option Json
  | ['n', 'u', 'l', 'l'] => some .null
  | ['t', 'r', 'u', 'e'] => some (.bool true)
  | ['f', 'a', 'l', 's', 'e'] => some (.bool false)
  | _ => none

/-- The character of an escape of one letter. -/
def escaped? : Char → Option Char
  | '"' => some '"'
  | '\\' => some '\\'
  | '/' => some '/'
  | 'b' => some '\x08'
  | 'f' => some '\x0c'
  | 'n' => some '\n'
  | 'r' => some '\r'
  | 't' => some '\t'
  | _ => none

/-- The machine after the four digits of an escape.  A leading surrogate needs a trailing one after
it, and a trailing one needs a leading one before it. -/
def afterDigits (seen : List Char) (lead : Option Nat) (code : Nat) : Option Mode :=
  match lead with
  | some high =>
    if 0xDC00 ≤ code ∧ code ≤ 0xDFFF then
      some (.string (Char.ofNat (0x10000 + (high - 0xD800) * 0x400 + (code - 0xDC00)) :: seen))
    else none
  | none =>
    if 0xD800 ≤ code ∧ code ≤ 0xDBFF then some (.escape seen (.trailMark code))
    else if 0xDC00 ≤ code ∧ code ≤ 0xDFFF then none
    else some (.string (Char.ofNat code :: seen))

/-- One character inside an escape sequence. -/
def Escape.step (seen : List Char) (c : Char) : Escape → Option Mode
  | .mark =>
    if c = 'u' then some (.escape seen (.digits none 0 0))
    else (escaped? c).map fun e => .string (e :: seen)
  | .digits lead value count => do
    let digit ← Number.hexDigit? c
    if count = 3 then afterDigits seen lead (16 * value + digit)
    else some (.escape seen (.digits lead (16 * value + digit) (count + 1)))
  | .trailMark lead => if c = '\\' then some (.escape seen (.trailLetter lead)) else none
  | .trailLetter lead => if c = 'u' then some (.escape seen (.digits (some lead) 0 0)) else none

/-- One character between tokens. -/
def start (c : Char) : Option (List Token × Mode) :=
  if isBlank c then some ([], .between)
  else if c = '"' then some ([], .string [])
  else if c = '-' ∨ c.isDigit then some ([], .number [c])
  else if c.isAlpha then some ([], .word [c])
  else match c with
    | '[' => some ([.openArray], .between)
    | ']' => some ([.closeArray], .between)
    | '\x7b' => some ([.openObject], .between)
    | '\x7d' => some ([.closeObject], .between)
    | ',' => some ([.comma], .between)
    | ':' => some ([.colon], .between)
    | _ => none

/-- The token that ends where the machine stands, if one may end there. -/
def Mode.finish : Mode → Option (List Token)
  | .between => some []
  | .number seen => do
    let n ← Number.Numeral.read? seen.reverse
    let v ← ofNumeral? n
    some [.scalar v]
  | .word seen => (ofWord? seen.reverse).map fun v => [.scalar v]
  | .string _ => none
  | .escape _ _ => none

/-- One character. -/
def Mode.step (c : Char) : Mode → Option (List Token × Mode)
  | .between => start c
  | .string seen =>
    if c = '"' then some ([.string (String.ofList seen.reverse)], .between)
    else if c = '\\' then some ([], .escape seen .mark)
    else if c < ' ' then none
    else some ([], .string (c :: seen))
  | .escape seen e => (e.step seen c).map fun mode => ([], mode)
  | .number seen =>
    if isNumeric c then some ([], .number (c :: seen))
    else do
      let ended ← Mode.finish (.number seen)
      let (tokens, mode) ← start c
      some (ended ++ tokens, mode)
  | .word seen =>
    if c.isAlpha then some ([], .word (c :: seen))
    else do
      let ended ← Mode.finish (.word seen)
      let (tokens, mode) ← start c
      some (ended ++ tokens, mode)

/-- The tokens of a text. -/
def tokens? (text : List Char) : Option (List Token) := do
  let (seen, mode) ← text.foldlM
    (fun (state : List Token × Mode) c => do
      let (tokens, mode) ← state.2.step c
      some (tokens.reverse ++ state.1, mode))
    ([], Mode.between)
  let last ← mode.finish
  some ((last.reverse ++ seen).reverse)

end Shader.Json
