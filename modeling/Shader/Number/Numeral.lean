/-!
# Reading decimal numerals

A numeral is an optional minus sign, an integer without a needless leading zero, an optional
fraction and an optional exponent.  Reading one keeps all of its digits; `Numeral.toFloat` rounds
once, to the nearest double.
-/

namespace Shader.Number

/-- A numeral as it is written: its sign, the digits before and after the point, and the power of
ten by which an exponent multiplies them. -/
structure Numeral where
  negative : Bool
  whole : List Char
  fraction : List Char
  power : Option Int
deriving DecidableEq, Repr

/-- The number that a list of decimal digits denotes. -/
def ofDigits (cs : List Char) : Nat :=
  cs.foldl (fun n c => 10 * n + (c.toNat - '0'.toNat)) 0

/-- The value of a hexadecimal digit. -/
def hexDigit? (c : Char) : Option Nat :=
  if c.isDigit then some (c.toNat - '0'.toNat)
  else if 'a' ≤ c ∧ c ≤ 'f' then some (c.toNat - 'a'.toNat + 10)
  else if 'A' ≤ c ∧ c ≤ 'F' then some (c.toNat - 'A'.toNat + 10)
  else none

/-- A leading minus sign, and what follows it. -/
def splitSign : List Char → Bool × List Char
  | '-' :: cs => (true, cs)
  | cs => (false, cs)

/-- The digits of a fraction, and what follows it.  A point needs a digit after it. -/
def splitFraction? : List Char → Option (List Char × List Char)
  | '.' :: cs =>
    let (digits, rest) := cs.span Char.isDigit
    if digits.isEmpty then none else some (digits, rest)
  | cs => some ([], cs)

/-- The digits after the mark of an exponent, which must reach to the end. -/
def exponentDigits? (cs : List Char) : Option Nat :=
  if cs.isEmpty || !cs.all Char.isDigit then none else some (ofDigits cs)

/-- The exponent with which a numeral ends, if it has one. -/
def readExponent? : List Char → Option (Option Int)
  | [] => some none
  | mark :: cs =>
    if mark = 'e' ∨ mark = 'E' then
      match cs with
      | '-' :: cs => (exponentDigits? cs).map fun n => some (-(n : Int))
      | '+' :: cs => (exponentDigits? cs).map fun n => some (n : Int)
      | cs => (exponentDigits? cs).map fun n => some (n : Int)
    else none

/-- Whether the digits of an integer are well formed: at least one, and no zero in front of
another digit. -/
def isInteger : List Char → Bool
  | [] => false
  | [_] => true
  | c :: _ => c != '0'

/-- Read a numeral that takes up the whole text. -/
def Numeral.read? (cs : List Char) : Option Numeral := do
  let (negative, cs) := splitSign cs
  let (whole, cs) := cs.span Char.isDigit
  if isInteger whole then
    let (fraction, cs) ← splitFraction? cs
    let power ← readExponent? cs
    some { negative, whole, fraction, power }
  else none

/-- The number that all digits of a numeral denote together: its magnitude is
`digits * 10 ^ exponent`. -/
def Numeral.digits (n : Numeral) : Nat := ofDigits (n.whole ++ n.fraction)

/-- The power of ten that goes with all digits. -/
def Numeral.exponent (n : Numeral) : Int := n.power.getD 0 - n.fraction.length

/-- Whether a numeral is written without fraction and exponent. -/
def Numeral.plain (n : Numeral) : Bool := n.fraction.isEmpty && n.power.isNone

/-- The integer that a plain numeral denotes. -/
def Numeral.toInt (n : Numeral) : Int :=
  if n.negative then -(n.digits : Int) else n.digits

/-- The number of decimal digits. -/
def Numeral.width (n : Numeral) : Nat := (Nat.toDigits 10 n.digits).length

/-- The nearest double; a magnitude beyond the range of doubles becomes infinite.  A numeral of
width `w` and exponent `e` lies between `10 ^ (w + e - 1)` and `10 ^ (w + e)`, so one that is far
outside of the range needs no arithmetic: below `10 ^ (-330)` all numbers round to zero, and from
`10 ^ 310` on to infinity. -/
def Numeral.toFloat (n : Numeral) : Float :=
  let order := n.width + n.exponent
  let magnitude :=
    if n.digits = 0 ∨ order < -330 then 0.0
    else if 310 < order then 1.0 / 0.0
    else Float.ofScientific n.digits (decide (n.exponent < 0)) n.exponent.natAbs
  if n.negative then -magnitude else magnitude

end Shader.Number
