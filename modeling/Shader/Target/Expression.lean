import Shader.Target.Dialect
import Shader.Typing.Tree

/-!
# Rendering expressions

The text of an expression in a target language.  A numeric expression whose value is known is
rendered as that value.  What a language cannot express becomes a visible placeholder, and a warning
is given for each.
-/

namespace Shader

/-- A remark on generated code that is not what the program says. -/
inductive Warning where
  /-- An expression was replaced by a placeholder. -/
  | placeholder (kind : String)
  /-- A statement was replaced by a marker. -/
  | marker (kind : String)
deriving DecidableEq, Repr

/-- The text of a warning. -/
def Warning.message : Warning → String
  | .placeholder kind => "unhandled " ++ kind ++ " rendered as a placeholder"
  | .marker kind => "unsupported statement " ++ kind ++ " left as a marker"

/-- A step of code generation: it fails, or gives a result and the warnings on the way to it. -/
def Render (α : Type) : Type := Except CodegenError (α × List Warning)

namespace Render

/-- A result without warnings. -/
def pure {α : Type} (a : α) : Render α := Except.ok (a, [])

/-- One step after another: warnings are kept in order, and the first failure counts. -/
def bind {α β : Type} (x : Render α) (f : α → Render β) : Render β :=
  match x with
  | .error e => .error e
  | .ok (a, before) =>
    match f a with
    | .error e => .error e
    | .ok (b, after) => .ok (b, before ++ after)

instance : Monad Render where
  pure := Render.pure
  bind := Render.bind

/-- A step that may fail and gives no warning. -/
def ofExcept {α : Type} (x : Except CodegenError α) : Render α := x.map fun a => (a, [])

/-- Give a warning. -/
def warn (w : Warning) : Render Unit := Except.ok ((), [w])

end Render

/-- The hexadecimal digits of a number, in lower case. -/
def hexDigits (n : Nat) : List Char := Nat.toDigits 16 n

/-- A character inside a string literal.  Beyond printable ASCII it is written as its code point. -/
def escapeInString (c : Char) : List Char :=
  match c with
  | '\t' => ['\\', 't']
  | '\r' => ['\\', 'r']
  | '\n' => ['\\', 'n']
  | '\'' => ['\\', '\'']
  | '"' => ['\\', '"']
  | '\\' => ['\\', '\\']
  | c =>
    if ' ' ≤ c ∧ c ≤ '~' then [c]
    else ['\\', 'u', '\x7b'] ++ hexDigits c.toNat ++ ['\x7d']

/-- A string literal. -/
def stringLiteral (s : String) : String :=
  "\"" ++ String.ofList (s.toList.flatMap escapeInString) ++ "\""

namespace TypedExpr

/-- The value that stands for an expression: that of a numeric expression whose value is known. -/
def propagated? (e : TypedExpr) : Option Float :=
  if e.ty.isNumeric then e.ascription.number? else none

/-- Whether an expression is an operation that binds its operands loosely. -/
def isCompound : TypedExpr → Bool
  | .binary _ _ _ _ | .logical _ _ _ _ | .assign _ _ _ _ | .conditional _ _ _ _ => true
  | _ => false

/-- Whether a value is known for a numeric expression. -/
def isFolded (e : TypedExpr) : Bool := e.ty.isNumeric && e.ascription.value.isSome

end TypedExpr

/-- How the text of a placeholder starts. -/
def placeholderStart : String := "<unhandled"

/-- Whether a text starts with a placeholder. -/
def startsWithPlaceholder (text : String) : Bool :=
  placeholderStart.toList.isPrefixOf text.toList

/-- The placeholder for an expression that the target cannot express. -/
def placeholder (kind : String) : Render String := do
  Render.warn (.placeholder kind)
  return placeholderStart ++ ": " ++ kind ++ ">"

/-- The text of an operand: in parentheses when it is an operation itself, unless it was replaced by
a value or starts with a placeholder. -/
def operand (e : TypedExpr) (text : String) : String :=
  if e.isCompound && !e.isFolded && !startsWithPlaceholder text then "(" ++ text ++ ")"
  else text

namespace Dialect

/-- The text of a literal. -/
def literal (d : Dialect) (value : Option Constant) (ty : Ty) : Render String :=
  match value with
  | some (.number x) => .ofExcept (d.number x ty)
  | some (.string s) => return stringLiteral s
  | some (.bool b) => return if b then "true" else "false"
  | none => placeholder "Literal"

mutual

/-- The text of an expression. -/
def expr (d : Dialect) (e : TypedExpr) : Render String :=
  match e.propagated? with
  | some value => .ofExcept (d.number value e.ty)
  | none =>
    match e with
    | .literal value mark => d.literal value mark.ascription.ty
    | .ident name _ => return name
    | .member object property _ => return (← d.expr object) ++ "." ++ property
    | .call callee args _ => do
      let callee ← d.expr callee
      let args ← d.args args
      return callee ++ "(" ++ ", ".intercalate args ++ ")"
    | .construct _ args mark => do
      let word ← .ofExcept (d.typeName mark.ascription.ty)
      let args ← d.args args
      return word ++ "(" ++ ", ".intercalate args ++ ")"
    | .binary op left right _ => do
      let l ← d.expr left
      let r ← d.expr right
      return operand left l ++ " " ++ op.text ++ " " ++ operand right r
    | .logical op left right _ => do
      let l ← d.expr left
      let r ← d.expr right
      return operand left l ++ " " ++ op.text ++ " " ++ operand right r
    | .assign op target value _ => do
      let place ← d.place target fun _ => d.expr target
      let value ← d.expr value
      return place ++ " " ++ op.text ++ " " ++ value
    | .conditional test consequent alternate _ =>
      if d.hasConditional then do
        let t ← d.expr test
        let c ← d.expr consequent
        let a ← d.expr alternate
        return operand test t ++ " ? " ++ operand consequent c ++ " : " ++ operand alternate a
      else placeholder "ConditionalExpression"
    | .unary op argument _ =>
      if d.hasUnary then do
        let a ← d.expr argument
        return op.text ++ operand argument a
      else placeholder "UnaryExpression"

/-- The text of the target of an assignment: a name or a path is written out even when its value is
known.  `text` is the rendering of the target as an expression, for all other forms. -/
def place (d : Dialect) (e : TypedExpr) (text : Unit → Render String) : Render String :=
  match e with
  | .ident name _ => return name
  | .member object property _ => return (← d.place object fun _ => d.expr object) ++ "." ++ property
  | _ => text ()

/-- The texts of arguments, left to right. -/
def args (d : Dialect) : List TypedExpr → Render (List String)
  | [] => return []
  | e :: rest => do
    let text ← d.expr e
    let texts ← d.args rest
    return text :: texts

end

end Dialect

end Shader
