import Shader.Syntax.Node
import Shader.Syntax.Tree

/-!
# Loading programs

A program is read from an ESTree document: a `Program` node, or a single function.  Parts are read
in a fixed order, and the first thing wrong is the error.  Kinds of nodes outside the shader subset
are no error here; they become unsupported nodes of the tree.
-/

namespace Shader

namespace Node

/-- The name that an identifier node gives. -/
def ident? (n : Node) : Option Ident :=
  if n.kind = "Identifier" then
    match n.value? "name" with
    | some ⟨.string name, _⟩ => some ⟨name, n.span⟩
    | _ => none
  else none

/-- The identifier in a field. -/
def ident (n : Node) (field : String) : Except LoadError Ident := do
  let m ← n.child field
  match m.1.ident? with
  | some id => .ok id
  | none => .error (n.invalid field "an identifier")

/-- The operator in the field `operator`. -/
def operator {α : Type} (n : Node) (ofText? : String → Option α) : Except LoadError α := do
  let text ← n.string "operator"
  match ofText? text with
  | some op => .ok op
  | none => .error (.unsupportedOperator n.kind text n.span)

/-- The source text of a literal. -/
def raw? (n : Node) : Option String :=
  match n.value? "raw" with
  | some ⟨.string raw, _⟩ => some raw
  | _ => none

/-- A literal.  Regular expressions are outside the shader subset. -/
def literal (n : Node) : Except LoadError Expr :=
  match n.value? "regex" with
  | some _ => .ok (.unsupported "RegExpLiteral" n.span)
  | none =>
    match n.value? "value" with
    | none => .ok (.literal ⟨none, n.raw?⟩ n.span)
    | some v =>
      match v.1 with
      | .bool b => .ok (.literal ⟨some (.bool b), n.raw?⟩ n.span)
      | .string s => .ok (.literal ⟨some (.string s), n.raw?⟩ n.span)
      | .int k => .ok (.literal ⟨some (.number (Number.ofInt k)), n.raw?⟩ n.span)
      | .real x => .ok (.literal ⟨some (.number x.value), n.raw?⟩ n.span)
      | _ => .error (n.invalid "value" "a literal value")

/-- An expression. -/
def expr (n : Node) : Except LoadError Expr :=
  match n.kind with
  | "Literal" => n.literal
  | "Identifier" => do
    let name ← n.string "name"
    return .ident name n.span
  | "MemberExpression" => do
    let object ← n.child "object"
    let object ← object.1.expr
    if (← n.bool "computed") then
      let index ← n.child "property"
      let index ← index.1.expr
      return .index object index n.span
    else
      let property ← n.ident "property"
      return .member object property n.span
  | "CallExpression" => do
    let callee ← n.child "callee"
    let callee ← callee.1.expr
    let args ← n.mapItems "arguments" fun m => m.1.expr
    return .call callee args n.span
  | "NewExpression" => do
    let callee ← n.child "callee"
    let callee ← callee.1.expr
    let args ← n.mapItems "arguments" fun m => m.1.expr
    return .construct callee args n.span
  | "BinaryExpression" => do
    let op ← n.operator BinaryOp.ofText?
    let left ← n.child "left"
    let left ← left.1.expr
    let right ← n.child "right"
    let right ← right.1.expr
    return .binary op left right n.span
  | "LogicalExpression" => do
    let op ← n.operator LogicalOp.ofText?
    let left ← n.child "left"
    let left ← left.1.expr
    let right ← n.child "right"
    let right ← right.1.expr
    return .logical op left right n.span
  | "AssignmentExpression" => do
    let op ← n.operator AssignOp.ofText?
    let target ← n.child "left"
    let target ← target.1.expr
    let value ← n.child "right"
    let value ← value.1.expr
    return .assign op target value n.span
  | "ConditionalExpression" => do
    let test ← n.child "test"
    let test ← test.1.expr
    let consequent ← n.child "consequent"
    let consequent ← consequent.1.expr
    let alternate ← n.child "alternate"
    let alternate ← alternate.1.expr
    return .conditional test consequent alternate n.span
  | "UnaryExpression" => do
    let op ← n.operator UnaryOp.ofText?
    let argument ← n.child "argument"
    let argument ← argument.1.expr
    return .unary op argument n.span
  | kind => .ok (.unsupported kind n.span)
termination_by n.weight
decreasing_by all_goals exact weight_child _

/-- The expression in a field that may be missing. -/
def expr? (n : Node) (field : String) : Except LoadError (Option Expr) := do
  match ← n.child? field with
  | none => return none
  | some m => return some (← m.1.expr)

/-- One declarator of a variable declaration. -/
def declarator (n : Node) : Except LoadError Declarator := do
  let name ← n.ident "id"
  let init ← n.expr? "init"
  return ⟨name, init, n.span⟩

/-- The statements of a block, each read by `read`; empty ones are left out. -/
def body (n : Node) (read : n.Child → Except LoadError Stmt) : Except LoadError (List Stmt) := do
  let body ← n.mapItems "body" fun m =>
    if m.1.kind = "EmptyStatement" then .ok none else return some (← read m)
  return body.filterMap id

/-- A branch of a branching statement, read by `read`; an empty statement is an empty block. -/
def branch (n : Node) (read : Unit → Except LoadError Stmt) : Except LoadError Stmt :=
  if n.kind = "EmptyStatement" then .ok (.block [] n.span) else read ()

/-- A statement. -/
def stmt (n : Node) : Except LoadError Stmt :=
  match n.kind with
  | "VariableDeclaration" => do
    let declarators ← n.mapItems "declarations" fun m => m.1.declarator
    return .declare declarators n.span
  | "ExpressionStatement" => do
    let e ← n.child "expression"
    return .expr (← e.1.expr) n.span
  | "ReturnStatement" => do
    return .ret (← n.expr? "argument") n.span
  | "IfStatement" => do
    let test ← n.child "test"
    let test ← test.1.expr
    let consequent ← n.child "consequent"
    let consequent ← consequent.1.branch fun _ => consequent.1.stmt
    match ← n.child? "alternate" with
    | none => return .branch test consequent none n.span
    | some alternate =>
      let alternate ← alternate.1.branch fun _ => alternate.1.stmt
      return .branch test consequent (some alternate) n.span
  | "BlockStatement" => do
    return .block (← n.body fun m => m.1.stmt) n.span
  | kind => .ok (.unsupported kind n.span)
termination_by n.weight
decreasing_by all_goals exact weight_child _

/-- A parameter of a function. -/
def param (n : Node) (v : n.Inside) : Except LoadError Ident :=
  match (n.inner? v).bind fun m => m.1.ident? with
  | some id => .ok id
  | none => .error (n.invalid "params" "identifiers")

/-- A function. -/
def function (n : Node) : Except LoadError Function := do
  let name ← n.ident "id"
  let params ← (← n.items "params").mapM n.param
  let body ← n.child "body"
  if body.1.kind = "BlockStatement" then
    return ⟨name, params, ← body.1.body fun m => m.1.stmt, n.span⟩
  else .error (n.invalid "body" "a block statement")

/-- An item at top level: a function, or something that declares nothing. -/
def topLevel (n : Node) : Except LoadError (Option Function) :=
  match n.kind with
  | "FunctionDeclaration" => do return some (← n.function)
  | "EmptyStatement" => .ok none
  | kind =>
    if kind = "ExpressionStatement" ∧ (n.value? "directive").isSome then .ok none
    else .error (.unexpectedTopLevel kind n.span)

/-- A program. -/
def program (n : Node) : Except LoadError Program :=
  match n.kind with
  | "Program" => do
    let functions ← n.mapItems "body" fun m => m.1.topLevel
    return ⟨functions.filterMap id, n.span⟩
  | "FunctionDeclaration" => do return ⟨[← n.function], n.span⟩
  | kind => .error (.unexpectedTopLevel kind n.span)

end Node

namespace Program

/-- The program of an ESTree document. -/
def ofJson (v : Json) : Except LoadError Program :=
  match Node.ofJson? v with
  | some n => n.program
  | none => .error (.notANode v.describe)

/-- The program of a text that has been taken apart. -/
def ofParsed : Except String Json → Except LoadError Program
  | .ok v => ofJson v
  | .error reason => .error (.invalidJson reason)

/-- The program of the text of an ESTree document. -/
def ofText (text : String) : Except LoadError Program := ofParsed (Json.parse text)

end Program

end Shader
