import Shader.Table
import Shader.Toml.Value

/-!
# Documents under construction

A document is a tree of tables that grows statement by statement.  A header `[a.b]` opens the table
it names, `[[a.b]]` opens a new element of an array of tables, and an assignment `c.d = v` adds to
the table that is open.  Tables on the way that do not exist yet come into being, and their
`Origin` says by what: it decides what may be added to them later.

* A header may open a table that other headers have only implied, and no other table.
* An assignment to a path may not lead through a table that has its own header, and the table in
  which it ends must itself come from such paths.
* A key is assigned once.
-/

namespace Shader.Toml

/-- What brought a table into being. -/
inductive Origin where
  /-- A header of its own. -/
  | header
  /-- A header of a table below it. -/
  | implied
  /-- The path of an assignment. -/
  | path
deriving DecidableEq, Repr

/-- A node of the tree: a value, a table, or an array of tables, of which the last is open to
additions. -/
inductive Item where
  | value (v : Value)
  | table (origin : Origin) (entries : List (String × Item))
  | tables (earlier : List (List (String × Item))) (last : List (String × Item))

/-- The entries of a table under construction. -/
abbrev Entries := List (String × Item)

namespace Entries

/-- Change the table at the end of a path with `change`, which is also told the origin of that
table.  Missing tables on the way get the origin `fresh`, and `passes` says which tables the path
may lead through. -/
def modify (fresh : Origin) (passes : Origin → Bool)
    (change : Origin → Entries → Option Entries) :
    List String → Origin → Entries → Option Entries
  | [], origin, entries => change origin entries
  | key :: path, _, entries =>
    match Table.find? key entries with
    | none => do
      let inner ← modify fresh passes change path fresh []
      some (Table.set key (.table fresh inner) entries)
    | some (.table origin inner) => do
      if passes origin then
        let inner ← modify fresh passes change path origin inner
        some (Table.set key (.table origin inner) entries)
      else none
    | some (.tables earlier last) => do
      let last ← modify fresh passes change path .header last
      some (Table.set key (.tables earlier last) entries)
    | some (.value _) => none

/-- Change the table that a header names. -/
def atHeader (path : List String) (change : Entries → Option Entries) (root : Entries) :
    Option Entries :=
  modify .implied (fun _ => true) (fun _ entries => change entries) path .header root

/-- A table with a new key. -/
def add (key : String) (v : Value) (entries : Entries) : Option Entries :=
  match Table.find? key entries with
  | none => some (Table.set key (.value v) entries)
  | some _ => none

/-- Assign to a key at the end of a path, which starts at the given table. -/
def assign (path : List String) (key : String) (v : Value) (entries : Entries) : Option Entries :=
  if path.isEmpty then add key v entries
  else
    modify .path (· != .header)
      (fun origin entries => if origin = .path then add key v entries else none)
      path .header entries

/-- Open the table of a header `[path.key]`.  It takes the last place in the table around it. -/
def openTable (path : List String) (key : String) (root : Entries) : Option Entries :=
  atHeader path (fun entries =>
    match Table.find? key entries with
    | none => some (Table.set key (.table .header []) entries)
    | some (.table .implied inner) =>
      some (entries.filter (·.1 != key) ++ [(key, .table .header inner)])
    | some _ => none) root

/-- Open a new element of the array of a header `[[path.key]]`. -/
def openElement (path : List String) (key : String) (root : Entries) : Option Entries :=
  atHeader path (fun entries =>
    match Table.find? key entries with
    | none => some (Table.set key (.tables [] []) entries)
    | some (.tables earlier last) => some (Table.set key (.tables (earlier ++ [last]) []) entries)
    | some _ => none) root

end Entries

/-! ## The finished tree -/

mutual

/-- The value of a node. -/
def Item.toValue : Item → Value
  | .value v => v
  | .table _ entries => .table (entryValues entries)
  | .tables earlier last => .array (tableValues earlier ++ [.table (entryValues last)])

/-- The entries of a table as values. -/
def entryValues : List (String × Item) → List (String × Value)
  | [] => []
  | (key, item) :: rest => (key, item.toValue) :: entryValues rest

/-- The elements of an array of tables as values. -/
def tableValues : List (List (String × Item)) → List Value
  | [] => []
  | entries :: rest => .table (entryValues entries) :: tableValues rest

end

end Shader.Toml
