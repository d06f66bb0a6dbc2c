import Shader.Number.Parts

/-!
# The text of a number

A number is written with the fewest decimal digits that read back as the same double, always
positionally and never with an exponent.

Write a finite value as `m * u` for a unit `u`, where `u` is `5 ^ k` at decimal scale `10 ^ -k` for a
negative power of two and `2 ^ k` otherwise: then `m * u` is an integer, the exact decimal digits of
the value.  The reals that read back as the value reach half a unit to either side (a quarter below
a power of two, where the gap is narrower), ends included when the mantissa is even.  For one digit,
two digits and so on the two neighbours of the value with that many digits are tried; the first
count that has a neighbour inside wins, of two such neighbours the nearer, and the upper one when
both are equally near.
-/

namespace Shader.Number

/-- `digits * 10 ^ exponent`. -/
structure Decimal where
  digits : Nat
  exponent : Int
deriving DecidableEq, Repr

/-- The decimal digits of a natural number. -/
def decimalDigits (n : Nat) : List Char := Nat.toDigits 10 n

/-- A positive finite value, measured in quarters of its unit. -/
structure Target where
  /-- The value is `value * 10 ^ scale`. -/
  value : Nat
  scale : Int
  /-- Four times the least and the greatest decimal that may read back. -/
  low : Nat
  high : Nat
  /-- Whether the two ends read back themselves. -/
  closed : Bool
deriving DecidableEq, Repr

/-- The decimals that read back as `m * 2 ^ q`. -/
def Target.ofParts (mantissa : Nat) (exponent : Int) : Target :=
  let unit := if exponent < 0 then Nat.pow 5 exponent.natAbs else Nat.pow 2 exponent.natAbs
  let narrow := mantissa == 4503599627370496 && decide (leastExponent < exponent)
  { value := mantissa * unit
    scale := min exponent 0
    low := 4 * (mantissa * unit) - (if narrow then unit else 2 * unit)
    high := 4 * (mantissa * unit) + 2 * unit
    closed := mantissa % 2 == 0 }

/-- Whether `n * 10 ^ scale` reads back as the target. -/
def Target.admits (t : Target) (n : Nat) : Bool :=
  if t.closed then decide (t.low ≤ 4 * n) && decide (4 * n ≤ t.high)
  else decide (t.low < 4 * n) && decide (4 * n < t.high)

/-- The neighbours of the target that are multiples of `10 ^ drop`, in search of one that reads
back: the nearer, and the upper one of two equally near. -/
def Target.pick (t : Target) (drop : Nat) : Option Decimal :=
  let grid := Nat.pow 10 drop
  let below := t.value / grid
  let above := below + 1
  let down : Decimal := ⟨below, t.scale + drop⟩
  let up : Decimal := ⟨above, t.scale + drop⟩
  match t.admits (below * grid), t.admits (above * grid) with
  | true, true => if t.value - below * grid < above * grid - t.value then some down else some up
  | true, false => some down
  | false, true => some up
  | false, false => none

/-- The shortest decimal that reads back as the target.  Dropping no digit leaves the value itself,
so the search cannot fail. -/
def Target.shortest (t : Target) : Decimal :=
  let count := (decimalDigits t.value).length
  match (List.range count).findSome? (fun i => t.pick (count - (i + 1))) with
  | some d => d
  | none => ⟨t.value, t.scale⟩

/-- Digits followed by `exponent` zeros, or with the point set `-exponent` places from the right.
Zeros at the end of a fraction are not written. -/
def Decimal.positional (d : Decimal) : List Char :=
  let digits := decimalDigits d.digits
  if 0 ≤ d.exponent then digits ++ List.replicate d.exponent.natAbs '0'
  else
    let places := d.exponent.natAbs
    let padded := List.replicate (places + 1 - digits.length) '0' ++ digits
    let whole := padded.take (padded.length - places)
    let fraction := ((padded.drop (padded.length - places)).reverse.dropWhile (· == '0')).reverse
    if fraction.isEmpty then whole else whole ++ '.' :: fraction

/-- The magnitude of a finite double. -/
def magnitudeText (mantissa : Nat) (exponent : Int) : List Char :=
  if mantissa = 0 then ['0'] else (Target.ofParts mantissa exponent).shortest.positional

/-- The text of a number, as it is shown in messages and ascriptions. -/
def text (x : Float) : String :=
  match parts x with
  | .nan => "NaN"
  | .infinite negative => if negative then "-inf" else "inf"
  | .finite negative m q =>
    String.ofList ((if negative then ['-'] else []) ++ magnitudeText m q)

/-- Whether a text has a decimal point. -/
def hasPoint (s : String) : Bool := s.toList.contains '.'

/-- The text of a number with a decimal point: a whole number gets `.0`. -/
def pointedText (x : Float) : String :=
  let s := text x
  if hasPoint s then s else s ++ ".0"

end Shader.Number
