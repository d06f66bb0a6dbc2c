import Shader.Number.Numeral

/-!
# Numerals in double arithmetic

A numeral can be turned into a double with few operations on machine words.  Its leading digits
fill a word of 64 bits, the digits that no longer fit are dropped, and the word is multiplied or
divided by the power of ten that is left.  Every step rounds, so for long numerals and for large
powers the result may differ from the nearest double, which `Numeral.toFloat` gives, in its last
places.
-/

namespace Shader.Number

/-- The first number that does not fit a word. -/
def wordLimit : Nat := 18446744073709551616

/-- Append digits to a word for as long as it fits.  The digits that are left over come with it. -/
def fillWord (word : Nat) : List Char → Nat × List Char
  | [] => (word, [])
  | c :: cs =>
    let next := 10 * word + (c.toNat - '0'.toNat)
    if next < wordLimit then fillWord next cs else (word, c :: cs)

/-- The word that the leading digits of a numeral fill, and the power of ten that goes with it.  A
digit dropped in front of the point raises that power, and the digits after the point start anew:
they may still fit when one before them did not. -/
def Numeral.leading (n : Numeral) : Nat × Int :=
  let (word, dropped) := fillWord 0 n.whole
  let (word, unread) := fillWord word n.fraction
  (word, n.power.getD 0 + dropped.length - (n.fraction.length - unread.length : Nat))

/-- The exponent of the largest power of ten among the doubles. -/
def largestPower : Nat := 308

/-- The double nearest to `10 ^ k`. -/
def tenTo (k : Nat) : Float := Float.ofScientific 1 false k

/-- A double from zero to `2 ^ 64` times a power of ten.  Powers that are no doubles are applied in
two steps; beyond them everything but zero is too large, or vanishes. -/
def scale (x : Float) (exponent : Int) : Float :=
  let k := exponent.natAbs
  if 0 ≤ exponent then
    if k ≤ largestPower then x * tenTo k
    else if x == 0.0 then x
    else 1.0 / 0.0
  else if k ≤ largestPower then x / tenTo k
  else if k ≤ 2 * largestPower then x / tenTo largestPower / tenTo (k - largestPower)
  else 0.0

/-- The double of a numeral in double arithmetic; a magnitude beyond the range of doubles becomes
infinite. -/
def Numeral.scaled (n : Numeral) : Float :=
  let (word, exponent) := n.leading
  let magnitude := scale (Float.ofNat word) exponent
  if n.negative then -magnitude else magnitude

end Shader.Number
