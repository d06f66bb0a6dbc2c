/-!
# Doubles as exact numbers

A finite double is a sign, a natural mantissa and a power of two.  This file reads those parts off
a `Float` and computes on them with exact integers: whether the value is whole, its truncation
toward zero, the 64-bit integer it stands for, and the remainder of a truncated division.  None of
these needs rounding, so they are plain functions of `Nat` and `Int`.
-/

namespace Shader.Number

/-- What a double denotes: `finite negative m q` is `m * 2 ^ q`, with a minus sign when `negative`
holds.  Both zeros have mantissa `0`. -/
inductive Parts where
  | nan
  | infinite (negative : Bool)
  | finite (negative : Bool) (mantissa : Nat) (exponent : Int)
deriving DecidableEq, Repr

/-- The least exponent of a double; zero and the subnormal values have it. -/
def leastExponent : Int := -1074

/-- Whether a sign bit says minus. -/
def isNegative : Float.Model.UnpackedFloat.Sign → Bool
  | .negative => true
  | .positive => false

/-- The parts of a double. -/
def parts (x : Float) : Parts :=
  match x.toModel.unpack with
  | .notANumber => .nan
  | .infinity s => .infinite (isNegative s)
  | .zero s => .finite (isNegative s) 0 leastExponent
  | .finite s m e _ => .finite (isNegative s) m e

/-- The double nearest to `m * 2 ^ q`.  The value is handed over as an exact decimal: a negative
power of two is `5 ^ k / 10 ^ k`. -/
def ofParts (negative : Bool) (mantissa : Nat) (exponent : Int) : Float :=
  let magnitude :=
    if exponent < 0 then
      Float.ofScientific (mantissa * Nat.pow 5 exponent.natAbs) true exponent.natAbs
    else
      Float.ofScientific (mantissa * Nat.pow 2 exponent.natAbs) false 0
  if negative then -magnitude else magnitude

/-- The double nearest to an integer whose magnitude fits a 64-bit word. -/
def ofInt (n : Int) : Float :=
  let magnitude := n.natAbs.toUInt64.toFloat
  if n < 0 then -magnitude else magnitude

/-- An integer with the sign that `negative` says. -/
def signed (negative : Bool) (n : Nat) : Int :=
  if negative then -(n : Int) else n

/-- The integer part of `m * 2 ^ q`. -/
def integerPart (mantissa : Nat) (exponent : Int) : Nat :=
  if exponent < 0 then mantissa / Nat.pow 2 exponent.natAbs
  else mantissa * Nat.pow 2 exponent.natAbs

/-- Whether `m * 2 ^ q` is a whole number. -/
def isWholeParts (mantissa : Nat) (exponent : Int) : Bool :=
  decide (0 ≤ exponent) || mantissa % Nat.pow 2 exponent.natAbs == 0

/-- Whether a double is a whole number; `NaN` and the infinities are not. -/
def isWhole (x : Float) : Bool :=
  match parts x with
  | .finite _ m q => isWholeParts m q
  | _ => false

/-- A finite double without its fraction. -/
def truncate? (x : Float) : Option Int :=
  match parts x with
  | .finite negative m q => some (signed negative (integerPart m q))
  | _ => none

/-- Whether an integer fits a signed 64-bit word. -/
def fitsInt64 (n : Int) : Bool :=
  decide (-9223372036854775808 ≤ n) && decide (n < 9223372036854775808)

/-- The signed 64-bit integer a double is cut to, if it lies in that range. -/
def toInt64? (x : Float) : Option Int :=
  (truncate? x).filter fitsInt64

/-- The remainder of `a * 2 ^ p` by `b * 2 ^ q`, on the finer of the two scales. -/
def remParts (a : Nat) (p : Int) (b : Nat) (q : Int) : Nat × Int :=
  let scale := min p q
  (a * Nat.pow 2 (p - scale).toNat % (b * Nat.pow 2 (q - scale).toNat), scale)

/-- The remainder of a division truncated toward zero: it has the dividend's sign and is exact.  An
infinite dividend and a zero divisor leave no remainder; an infinite divisor leaves the dividend. -/
def rem (x y : Float) : Float :=
  match parts x, parts y with
  | .finite negative a p, .finite _ b q =>
    if b = 0 then 0.0 / 0.0
    else
      let r := remParts a p b q
      ofParts negative r.1 r.2
  | .finite _ _ _, .infinite _ => x
  | _, _ => 0.0 / 0.0

end Shader.Number
