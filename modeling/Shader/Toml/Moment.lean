import Shader.Number.Numeral

/-!
# Dates and times

A moment is a date, a time of day, or both, and only a date with a time may have an offset from
universal time.  Dates exist in the Gregorian calendar, a second may be a leap second, and a
fraction of a second is kept to the nanosecond: further digits are dropped.
-/

namespace Shader.Toml

/-- A day of the calendar. -/
structure Date where
  year : Nat
  month : Nat
  day : Nat
deriving DecidableEq, Repr

/-- A time of day. -/
structure Time where
  hour : Nat
  minute : Nat
  second : Nat
  nanosecond : Nat
deriving DecidableEq, Repr

/-- The offset of a local time: none written as `Z`, or a number of minutes. -/
inductive Offset where
  | zulu
  | minutes (m : Int)
deriving DecidableEq, Repr

/-- A date, a time, or both. -/
inductive Moment where
  | date (d : Date)
  | time (t : Time)
  | dateTime (d : Date) (t : Time) (offset : Option Offset)
deriving DecidableEq, Repr

/-! ## Reading -/

/-- The number that exactly `n` digits in front denote, and what follows them. -/
def fixedDigits? (n : Nat) (cs : List Char) : Option (Nat × List Char) :=
  let digits := cs.take n
  if digits.length = n ∧ digits.all Char.isDigit then some (Number.ofDigits digits, cs.drop n)
  else none

/-- What follows a given character. -/
def after? (c : Char) : List Char → Option (List Char)
  | [] => none
  | d :: cs => if d = c then some cs else none

/-- Whether a year has a leap day. -/
def isLeapYear (year : Nat) : Bool := year % 4 == 0 && (year % 100 != 0 || year % 400 == 0)

/-- The number of days of a month. -/
def daysInMonth (year month : Nat) : Nat :=
  if month = 2 then if isLeapYear year then 29 else 28
  else if month = 4 ∨ month = 6 ∨ month = 9 ∨ month = 11 then 30
  else 31

/-- A date in front, and what follows it. -/
def Date.read? (cs : List Char) : Option (Date × List Char) := do
  let (year, cs) ← fixedDigits? 4 cs
  let cs ← after? '-' cs
  let (month, cs) ← fixedDigits? 2 cs
  let cs ← after? '-' cs
  let (day, cs) ← fixedDigits? 2 cs
  if 1 ≤ month ∧ month ≤ 12 ∧ 1 ≤ day ∧ day ≤ daysInMonth year month then
    some (⟨year, month, day⟩, cs)
  else none

/-- The nanoseconds of a fraction of a second in front, and what follows it. -/
def nanoseconds? : List Char → Option (Nat × List Char)
  | '.' :: cs =>
    let (digits, rest) := cs.span Char.isDigit
    if digits.isEmpty then none
    else
      let kept := digits.take 9
      some (Number.ofDigits kept * Nat.pow 10 (9 - kept.length), rest)
  | cs => some (0, cs)

/-- Hour and minute in front, and what follows them. -/
def hourMinute? (cs : List Char) : Option (Nat × Nat × List Char) := do
  let (hour, cs) ← fixedDigits? 2 cs
  let cs ← after? ':' cs
  let (minute, cs) ← fixedDigits? 2 cs
  if hour ≤ 23 ∧ minute ≤ 59 then some (hour, minute, cs) else none

/-- A time in front, and what follows it. -/
def Time.read? (cs : List Char) : Option (Time × List Char) := do
  let (hour, minute, cs) ← hourMinute? cs
  let cs ← after? ':' cs
  let (second, cs) ← fixedDigits? 2 cs
  let (nanosecond, cs) ← nanoseconds? cs
  if second ≤ 60 then some (⟨hour, minute, second, nanosecond⟩, cs) else none

/-- The offset with which a moment ends, if it has one. -/
def Offset.read? : List Char → Option (Option Offset)
  | [] => some none
  | sign :: cs =>
    if sign = 'Z' ∨ sign = 'z' then if cs.isEmpty then some (some .zulu) else none
    else do
      let (hour, minute, cs) ← hourMinute? cs
      let minutes : Int := 60 * hour + minute
      if !cs.isEmpty then none
      else if sign = '+' then some (some (.minutes minutes))
      else if sign = '-' then some (some (.minutes (-minutes)))
      else none

/-- Whether a character may stand between a date and a time. -/
def isTimeMark (c : Char) : Bool := c == 'T' || c == 't' || c == ' '

/-- Read a moment that takes up the whole text. -/
def Moment.read? (cs : List Char) : Option Moment :=
  match Date.read? cs with
  | some (d, []) => some (.date d)
  | some (d, mark :: cs) => do
    if isTimeMark mark then
      let (t, cs) ← Time.read? cs
      let offset ← Offset.read? cs
      some (.dateTime d t offset)
    else none
  | none => do
    let (t, rest) ← Time.read? cs
    if rest.isEmpty then some (.time t) else none

/-! ## Writing -/

/-- A number with zeros in front, up to a width. -/
def padded (width n : Nat) : String :=
  let digits := Nat.toDigits 10 n
  String.ofList (List.replicate (width - digits.length) '0' ++ digits)

/-- The text of a date. -/
def Date.text (d : Date) : String :=
  padded 4 d.year ++ "-" ++ padded 2 d.month ++ "-" ++ padded 2 d.day

/-- The fraction of a second, without zeros at its end; nothing when it is zero. -/
def fractionText (nanosecond : Nat) : String :=
  if nanosecond = 0 then ""
  else
    let digits := (padded 9 nanosecond).toList
    "." ++ String.ofList (digits.reverse.dropWhile (· == '0')).reverse

/-- The text of a time. -/
def Time.text (t : Time) : String :=
  padded 2 t.hour ++ ":" ++ padded 2 t.minute ++ ":" ++ padded 2 t.second
    ++ fractionText t.nanosecond

/-- The text of an offset. -/
def Offset.text : Offset → String
  | .zulu => "Z"
  | .minutes m =>
    (if m < 0 then "-" else "+") ++ padded 2 (m.natAbs / 60) ++ ":" ++ padded 2 (m.natAbs % 60)

/-- The text of a moment. -/
def Moment.text : Moment → String
  | .date d => d.text
  | .time t => t.text
  | .dateTime d t offset => d.text ++ "T" ++ t.text ++ (offset.map Offset.text).getD ""

end Shader.Toml
