import Shader.Number.Parts
import Shader.Toml.Value

/-!
# Values written as one word

Numbers, truth values and moments are written without quotes.  Since only a blank, a line end, a
comment, a comma or a closing bracket may follow a value, such a value is the longest run of the
characters that occur in one; a moment may also have one blank inside.  `ofWord?` says what a run
denotes.
-/

namespace Shader.Toml

/-- Whether a character may occur in a word. -/
def isWordChar (c : Char) : Bool :=
  c.isAlphanum || c == '+' || c == '-' || c == '_' || c == '.' || c == ':'

/-- The digit of a base that a character is. -/
def digit? (base : Nat) (c : Char) : Option Nat :=
  (Number.hexDigit? c).filter (· < base)

/-- The word without its underscores, each of which must stand between two digits.  `afterDigit`
says whether a digit is in front. -/
def joinDigits? (base : Nat) (afterDigit : Bool) : List Char → Option (List Char)
  | [] => some []
  | c :: cs =>
    if c = '_' then
      if afterDigit && ((cs.head?.bind (digit? base)).isSome) then joinDigits? base false cs
      else none
    else (joinDigits? base (digit? base c).isSome cs).map (c :: ·)

/-- The integer that digits of a base denote.  It fits 64 bits with sign. -/
def ofBase? (base : Nat) (cs : List Char) : Option Value := do
  let cs ← joinDigits? base false cs
  let digits ← cs.mapM (digit? base)
  let n := digits.foldl (fun n d => base * n + d) 0
  if !digits.isEmpty && Number.fitsInt64 n then some (.integer n) else none

/-- A word without a plus sign in front of its first digit. -/
def dropPlus : List Char → List Char
  | '+' :: c :: cs => if c.isDigit then c :: cs else '+' :: c :: cs
  | cs => cs

/-- The number that a word denotes: an integer of 64 bits, or a double when it has a fraction or an
exponent.  A number above the range of doubles is refused; one below it is minus infinity. -/
def ofDecimal? (cs : List Char) : Option Value := do
  let cs ← joinDigits? 10 false cs
  let n ← Number.Numeral.read? (dropPlus cs)
  if n.plain then
    if Number.fitsInt64 n.toInt then some (.integer n.toInt) else none
  else if n.toFloat == 1.0 / 0.0 then none
  else some (.float n.toFloat)

/-- The value that a word denotes. -/
def ofWord? (cs : List Char) : Option Value :=
  match String.ofList cs with
  | "true" => some (.boolean true)
  | "false" => some (.boolean false)
  | "inf" => some (.float (1.0 / 0.0))
  | "+inf" => some (.float (1.0 / 0.0))
  | "-inf" => some (.float (-1.0 / 0.0))
  | "nan" => some (.float (0.0 / 0.0))
  | "+nan" => some (.float (0.0 / 0.0))
  | "-nan" => some (.float (0.0 / 0.0))
  | _ =>
    match cs with
    | '0' :: 'x' :: digits => ofBase? 16 digits
    | '0' :: 'o' :: digits => ofBase? 8 digits
    | '0' :: 'b' :: digits => ofBase? 2 digits
    | cs => (ofDecimal? cs).orElse fun _ => (Moment.read? cs).map .moment

/-- Whether a time goes on after the date that a word is: a blank, an hour and a colon. -/
def timeFollows (word rest : List Char) : Bool :=
  match Date.read? word, rest with
  | some (_, []), ' ' :: a :: b :: ':' :: _ => a.isDigit && b.isDigit
  | _, _ => false

/-- A value of one word in front, and what follows it. -/
def scalar? (cs : List Char) : Option (Value × List Char) :=
  let (word, rest) := cs.span isWordChar
  if timeFollows word rest then
    let (time, rest) := (rest.drop 1).span isWordChar
    (ofWord? (word ++ ' ' :: time)).map fun v => (v, rest)
  else (ofWord? word).map fun v => (v, rest)

end Shader.Toml
