import Shader.Source.Span
import Shader.Typing.Error

/-!
# Reports

The form of a type error that people read: the message, the source line with the failing stretch
underlined, the label below it and perhaps a hint.  An error without a span is a single line.

A line ends at a line feed, a carriage return (with or without a line feed after it), a vertical tab
or a form feed, and the characters that end it belong to it: the end of a text lies on its last
line.  A line is shown without blanks at its end, and a tab as blanks up to the next multiple of
`tabWidth`.
-/

namespace Shader.Report

/-! ## Places -/

/-- Whether a character ends a line. -/
def isLineEnd (c : Char) : Bool := c == '\n' || c == '\r' || c == '\x0b' || c == '\x0c'

/-- Whether a character is not shown at the end of a line. -/
def isBlank (c : Char) : Bool := c == ' ' || c == '\t' || isLineEnd c

/-- Put a character in front of the lines of a text.  One that ends a line stands alone, except for
a carriage return before a line feed. -/
def consLine (c : Char) : List (List Char) → List (List Char)
  | [] => [[c]]
  | line :: rest =>
    if isLineEnd c && !(c == '\r' && line.head? == some '\n') then [c] :: line :: rest
    else (c :: line) :: rest

/-- The lines of a text, each with the characters that end it. -/
def sourceLines (text : List Char) : List (List Char) := text.foldr consLine []

/-- Where an offset lies: the number of its line from one, its column from zero, and what is shown
of the line. -/
structure Place where
  line : Nat
  column : Nat
  text : List Char
deriving Repr

/-- What is shown of a line. -/
def shownPart (line : List Char) : List Char := (line.reverse.dropWhile isBlank).reverse

/-- The place of an offset: it lies on the first line that reaches beyond it, or else on the last
line.  `number` is the number of the first of the lines. -/
def findPlace (number : Nat) : List (List Char) → Nat → Place
  | [], offset => ⟨number, offset, []⟩
  | [line], offset => ⟨number, offset, shownPart line⟩
  | line :: rest, offset =>
    if offset < line.length then ⟨number, offset, shownPart line⟩
    else findPlace (number + 1) rest (offset - line.length)

/-! ## Columns -/

/-- The distance of tab stops. -/
def tabWidth : Nat := 4

/-- The width at which the character in a column is shown. -/
def cellWidth (column : Nat) (c : Char) : Nat :=
  if c = '\t' then tabWidth - column % tabWidth else 1

/-- The width of a column; beyond the end of a line it is one. -/
def widthAt (text : List Char) (column : Nat) : Nat :=
  ((text[column]?).map (cellWidth column)).getD 1

/-- A line as it is shown. -/
def shownLine (text : List Char) : String :=
  String.ofList (text.zipIdx.flatMap fun (c, column) =>
    if c = '\t' then List.replicate (cellWidth column c) ' ' else [c])

/-- `n` copies of a character. -/
def run (n : Nat) (c : Char) : String := String.ofList (List.replicate n c)

/-- What stands in a column below the source line: a character, and another that fills the rest of
a wider column. -/
structure Cell where
  first : Char
  fill : Char

/-- A line below the source line, which is `count` columns long. -/
def cellLine (text : List Char) (count : Nat) (cell : Nat → Cell) : String :=
  String.join ((List.range count).map fun column =>
    run 1 (cell column).first ++ run (widthAt text column - 1) (cell column).fill)

/-! ## The underline and the label -/

/-- The column at which the label hangs: the middle of the span. -/
def hook (column width : Nat) : Nat := column + width / 2

/-- How many columns the lines below a span have: they end two columns after it. -/
def reach (column width : Nat) : Nat := column + width + 2

/-- The line under the source line: a rule under the span with a hook at its middle.  An empty span
has only the hook. -/
def underline (text : List Char) (column width : Nat) : String :=
  cellLine text (reach column width) fun i =>
    if i = hook column width then if width = 0 then ⟨'│', ' '⟩ else ⟨'┬', '─'⟩
    else if column ≤ i ∧ i < column + width then ⟨'─', '─'⟩
    else ⟨' ', ' '⟩

/-- The line from the hook to the label. -/
def labelLine (text : List Char) (column width : Nat) (label : String) : String :=
  cellLine text (reach column width) (fun i =>
    if i = hook column width then ⟨'╰', '─'⟩
    else if hook column width < i then ⟨'─', '─'⟩
    else ⟨' ', ' '⟩) ++ " " ++ label

/-! ## The hint -/

/-- The lines of a text without the line feeds that end them.  A carriage return before a line feed
belongs to the end of the line, and an end of line at the end of the text starts no further line. -/
def textLines : List Char → List (List Char)
  | [] => []
  | '\n' :: cs => [] :: textLines cs
  | '\r' :: '\n' :: cs => [] :: textLines cs
  | c :: cs =>
    match textLines cs with
    | [] => [[c]]
    | line :: rest => (c :: line) :: rest

/-- What stands in front of a hint. -/
def helpMark : String := "Help: "

/-- The lines of a hint: those after the first start below the text of the first. -/
def helpLines (help : String) : List String :=
  match (textLines help.toList).map String.ofList with
  | [] => []
  | first :: rest => (helpMark ++ first) :: rest.map (run helpMark.length ' ' ++ ·)

/-- The lines of a report about a stretch of one source line. -/
def lines (e : TypeError) (place : Place) (width : Nat) : List String :=
  let number := toString place.line
  let gutter := run (number.length + 2) ' '
  let help :=
    match e.fault.help? with
    | some help => (gutter ++ "│ ") :: (helpLines help).map (gutter ++ "│ " ++ ·)
    | none => []
  ["[" ++ e.fault.code ++ "] Error: " ++ e.fault.message,
    gutter ++ "╭─[ <unknown>:" ++ number ++ ":" ++ toString (place.column + 1) ++ " ]",
    gutter ++ "│",
    " " ++ number ++ " │ " ++ shownLine place.text,
    gutter ++ "│ " ++ underline place.text place.column width,
    gutter ++ "│ " ++ labelLine place.text place.column width e.fault.label]
    ++ help ++ [run (number.length + 2) '─' ++ "╯"]

end Shader.Report

namespace Shader

/-- The single line for an error whose place in the source is not shown. -/
def TypeError.line (e : TypeError) (file : String) : String :=
  "error[" ++ e.fault.code ++ "]: " ++ e.fault.message ++ " (" ++ file ++ ")"

/-- The report of an error. -/
def TypeError.report (e : TypeError) (source file : String) : String :=
  match e.span with
  | none => e.line file ++ "\n"
  | some span =>
    let (first, last) := span.clamp source.utf8ByteSize
    let place := Report.findPlace 1 (Report.sourceLines source.toList) first
    String.join ((Report.lines e place (last - first)).map (· ++ "\n"))

end Shader
