import Shader.Toml.Document
import Shader.Toml.Quoted
import Shader.Toml.Scalar

/-!
# Reading configuration files

The reader goes from left to right and looks one value ahead at most.  Arrays and inline tables may
be nested `maxNesting` deep and a key may have `maxNesting` parts; the recursion over values follows
the nesting that is still allowed.  Lists of unbounded length take the number of characters left as
a bound on their items, since every item has at least one character.

Line ends are a line feed, with or without a carriage return in front, which is dropped before
anything else is read; a carriage return elsewhere is refused wherever it stands.
-/

namespace Shader.Toml

/-- The greatest depth of nested arrays and inline tables, and the greatest number of parts of a
key. -/
def maxNesting : Nat := 79

/-- The text without the blanks in front. -/
def skipBlanks (cs : List Char) : List Char := cs.dropWhile isBlank

/-- The text without blanks, line ends and comments in front.  `comment` says whether a comment is
open. -/
def skipLines (comment : Bool) : List Char → List Char
  | [] => []
  | c :: cs =>
    if c = '\n' then skipLines false cs
    else if comment then if isPrintable c then skipLines true cs else c :: cs
    else if isBlank c then skipLines false cs
    else if c = '#' then skipLines true cs
    else c :: cs

/-- What follows the end of a line, in front of which only blanks and a comment may stand. -/
def lineEnd? (cs : List Char) : Option (List Char) :=
  let afterText (cs : List Char) : Option (List Char) :=
    match cs with
    | [] => some []
    | c :: cs => if c = '\n' then some cs else none
  match skipBlanks cs with
  | '#' :: cs => afterText (cs.dropWhile isPrintable)
  | cs => afterText cs

/-! ## Keys -/

/-- Whether a character may stand in a key without quotes. -/
def isBareKeyChar (c : Char) : Bool := c.isAlphanum || c == '_' || c == '-'

/-- A part of a key in front, and what follows it. -/
def keyPart? (cs : List Char) : Option (String × List Char) :=
  (shortString? cs).orElse fun _ =>
    let (key, rest) := cs.span isBareKeyChar
    if key.isEmpty then none else some (String.ofList key, rest)

/-- A key in front: the parts before the last, the last, and what follows it.  Blanks may stand
around parts. -/
def key? : Nat → List Char → Option (List String × String × List Char)
  | 0, _ => none
  | parts + 1, cs => do
    let (part, cs) ← keyPart? (skipBlanks cs)
    match skipBlanks cs with
    | '.' :: cs =>
      let (path, last, cs) ← key? parts cs
      some (part :: path, last, cs)
    | cs => some ([], part, cs)

/-! ## Values -/

/-- A reader: what stands in front, and what follows it. -/
abbrev Reader (α : Type) := List Char → Option (α × List Char)

/-- The items of an array after its opening bracket.  A comma may follow the last one. -/
def items? (value : Reader Value) : Nat → Reader (List Value)
  | 0, _ => none
  | bound + 1, cs =>
    match skipLines false cs with
    | ']' :: cs => some ([], cs)
    | cs => do
      let (v, cs) ← value cs
      match skipLines false cs with
      | ']' :: cs => some ([v], cs)
      | ',' :: cs =>
        let (vs, cs) ← items? value bound cs
        some (v :: vs, cs)
      | _ => none

/-- An assignment in front: its path, its key and its value. -/
def assignment? (value : Reader Value) : Reader (List String × String × Value) := fun cs => do
  let (path, key, cs) ← key? maxNesting cs
  let cs ← after? '=' cs
  let (v, cs) ← value (skipBlanks cs)
  some ((path, key, v), cs)

/-- The entries of an inline table, of which the next is due. -/
def inlineEntries? (value : Reader Value) : Nat → Entries → Reader Entries
  | 0, _, _ => none
  | bound + 1, entries, cs => do
    let ((path, key, v), cs) ← assignment? value cs
    let entries ← entries.assign path key v
    match skipBlanks cs with
    | '\x7d' :: cs => some (entries, cs)
    | ',' :: cs => inlineEntries? value bound entries cs
    | _ => none

/-- An inline table after its opening brace. -/
def inlineTable? (value : Reader Value) : Reader Entries := fun cs =>
  match skipBlanks cs with
  | '\x7d' :: cs => some ([], cs)
  | cs => inlineEntries? value cs.length [] cs

/-- A value without parts. -/
def simple? : Reader Value := fun cs =>
  match cs with
  | [] => none
  | c :: _ =>
    if c = '"' ∨ c = '\'' then (string? cs).map fun (s, cs) => (.string s, cs) else scalar? cs

/-- A value of the given depth. -/
def value? : Nat → Reader Value
  | 0, cs => simple? cs
  | depth + 1, cs =>
    match cs with
    | '[' :: cs => (items? (value? depth) (cs.length + 1) cs).map fun (vs, cs) => (.array vs, cs)
    | '\x7b' :: cs =>
      (inlineTable? (value? depth) cs).map fun (entries, cs) => (.table (entryValues entries), cs)
    | cs => simple? cs

/-! ## Documents -/

/-- A document read in part: its tables, and the path of the one that is open. -/
structure Draft where
  root : Entries
  current : List String

/-- A header between its brackets, of which `close` are due behind it. -/
def header? (close : List Char) (cs : List Char) :
    Option (List String × String × List Char) := do
  let (path, key, cs) ← key? maxNesting cs
  if close.isPrefixOf cs then
    let cs ← lineEnd? (cs.drop close.length)
    some (path, key, cs)
  else none

/-- The statements of a text. -/
def statements? : Nat → Draft → List Char → Option Draft
  | 0, _, _ => none
  | bound + 1, draft, cs =>
    match skipBlanks cs with
    | [] => some draft
    | '\n' :: cs => statements? bound draft cs
    | '#' :: cs => do
      let cs ← lineEnd? ('#' :: cs)
      statements? bound draft cs
    | '[' :: '[' :: cs => do
      let (path, key, cs) ← header? [']', ']'] cs
      let root ← draft.root.openElement path key
      statements? bound ⟨root, path ++ [key]⟩ cs
    | '[' :: cs => do
      let (path, key, cs) ← header? [']'] cs
      let root ← draft.root.openTable path key
      statements? bound ⟨root, path ++ [key]⟩ cs
    | cs => do
      let ((path, key, v), cs) ← assignment? (value? maxNesting) cs
      let cs ← lineEnd? cs
      let root ← draft.root.atHeader draft.current (Entries.assign path key v)
      statements? bound { draft with root } cs

/-- The text with a line feed for every line end. -/
def plainLineEnds : List Char → List Char
  | '\r' :: '\n' :: cs => '\n' :: plainLineEnds cs
  | c :: cs => c :: plainLineEnds cs
  | [] => []

/-- The text without the byte order mark that it may start with. -/
def dropByteOrderMark : List Char → List Char
  | '\ufeff' :: cs => cs
  | cs => cs

/-- The top-level table of a document; `none` when it is malformed. -/
def read? (text : String) : Option (List (String × Value)) :=
  let cs := plainLineEnds (dropByteOrderMark text.toList)
  (statements? (cs.length + 1) ⟨[], []⟩ cs).map fun draft => entryValues draft.root

end Shader.Toml
