import Shader.Toml.Moment

/-!
# Values of a configuration file

What the right side of an assignment in a configuration file denotes.  A table is a list of pairs
in which every key stands once, in the order in which the keys were brought in.

A moment has a second form, a table with its text under the key `momentKey`: where a table is due a
moment counts as one, and where any value is due such a table counts as a moment.
-/

namespace Shader.Toml

/-- A value. -/
inductive Value where
  | string (s : String)
  | integer (n : Int)
  | float (x : Float)
  | boolean (b : Bool)
  | moment (m : Moment)
  | array (items : List Value)
  | table (entries : List (String × Value))

/-- The key of the table that a moment may be written as. -/
def momentKey : String := "$__toml_private_datetime"

/-- The table that a moment may be written as. -/
def Moment.entries (m : Moment) : List (String × Value) := [(momentKey, .string m.text)]

namespace Value

/-- The entries of a value where a table is due. -/
def entries? : Value → Option (List (String × Value))
  | .table entries => some entries
  | .moment m => some m.entries
  | _ => none

/-- The moment of a table whose first key is `momentKey`, given what stands under that key and the
entries after it.  Nothing may follow, and the text has to be one of a moment. -/
def ofMomentEntry? : Value → List (String × Value) → Option Value
  | .string s, [] => (Moment.read? s.toList).map .moment
  | _, _ => none

mutual

/-- The value with moments in place of the tables that are led by `momentKey`, at every depth.  It
fails where such a table is not that of a moment. -/
def restoreMoments? : Value → Option Value
  | .array items => (restoreItems? items).map .array
  | .table entries =>
    match entries with
    | [] => some (.table [])
    | (key, v) :: rest =>
      if key = momentKey then ofMomentEntry? v rest
      else do
        let v ← restoreMoments? v
        let rest ← restoreEntries? rest
        some (.table ((key, v) :: rest))
  | v => some v

/-- `restoreMoments?` on the items of an array. -/
def restoreItems? : List Value → Option (List Value)
  | [] => some []
  | v :: vs => do
    let v ← restoreMoments? v
    let vs ← restoreItems? vs
    some (v :: vs)

/-- `restoreMoments?` on the values of a table. -/
def restoreEntries? : List (String × Value) → Option (List (String × Value))
  | [] => some []
  | (key, v) :: rest => do
    let v ← restoreMoments? v
    let rest ← restoreEntries? rest
    some ((key, v) :: rest)

end

end Value

end Shader.Toml
