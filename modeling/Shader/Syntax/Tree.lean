import Shader.Source.Span
import Shader.Syntax.Operator
import Shader.Syntax.Literal

/-!
# Syntax trees

The tree of a shader program: expressions, statements, functions.  Every node may carry the span it
was written at.  Nodes outside the shader subset are kept by the name of their kind, so that type
inference can report them where they stand.
-/

namespace Shader

/-- A name and where it was written. -/
structure Ident where
  name : String
  span : Option Span
deriving DecidableEq, Repr

/-- An expression. -/
inductive Expr where
  | literal (literal : Literal) (span : Option Span)
  | ident (name : String) (span : Option Span)
  /-- `object.property` -/
  | member (object : Expr) (property : Ident) (span : Option Span)
  /-- `object[index]` -/
  | index (object index : Expr) (span : Option Span)
  | call (callee : Expr) (args : List Expr) (span : Option Span)
  /-- `new callee(args)` -/
  | construct (callee : Expr) (args : List Expr) (span : Option Span)
  | binary (op : BinaryOp) (left right : Expr) (span : Option Span)
  | logical (op : LogicalOp) (left right : Expr) (span : Option Span)
  | assign (op : AssignOp) (target value : Expr) (span : Option Span)
  | conditional (test consequent alternate : Expr) (span : Option Span)
  | unary (op : UnaryOp) (argument : Expr) (span : Option Span)
  /-- An expression outside the shader subset. -/
  | unsupported (kind : String) (span : Option Span)

instance : Inhabited Expr := ⟨.unsupported "" none⟩

namespace Expr

/-- Where an expression was written. -/
def span : Expr → Option Span
  | .literal _ s | .ident _ s | .member _ _ s | .index _ _ s | .call _ _ s | .construct _ _ s
  | .binary _ _ _ s | .logical _ _ _ s | .assign _ _ _ s | .conditional _ _ _ s | .unary _ _ s
  | .unsupported _ s => s

/-- The name of the kind of node an expression is. -/
def kindName : Expr → String
  | .literal _ _ => "Literal"
  | .ident _ _ => "Identifier"
  | .member _ _ _ => "MemberExpression"
  | .index _ _ _ => "MemberExpression"
  | .call _ _ _ => "CallExpression"
  | .construct _ _ _ => "NewExpression"
  | .binary _ _ _ _ => "BinaryExpression"
  | .logical _ _ _ _ => "LogicalExpression"
  | .assign _ _ _ _ => "AssignmentExpression"
  | .conditional _ _ _ _ => "ConditionalExpression"
  | .unary _ _ _ => "UnaryExpression"
  | .unsupported kind _ => kind

/-- The path of a plain chain of members, such as `env.texCoord.x`.  A chain with anything but
names in it has none. -/
def path? : Expr → Option String
  | .ident name _ => some name
  | .member object property _ => object.path?.map fun path => path ++ "." ++ property.name
  | _ => none

/-- The path of a chain of members, or the kind of an expression that is none. -/
def describe (e : Expr) : String := e.path?.getD e.kindName

end Expr

/-- One `name = init` of a variable declaration; the initializer may be missing. -/
structure Declarator where
  name : Ident
  init : Option Expr
  span : Option Span

/-- A statement. -/
inductive Stmt where
  | declare (declarators : List Declarator) (span : Option Span)
  | expr (e : Expr) (span : Option Span)
  | ret (value : Option Expr) (span : Option Span)
  | branch (test : Expr) (consequent : Stmt) (alternate : Option Stmt) (span : Option Span)
  | block (body : List Stmt) (span : Option Span)
  /-- A statement outside the shader subset, such as a loop. -/
  | unsupported (kind : String) (span : Option Span)

instance : Inhabited Stmt := ⟨.block [] none⟩

namespace Stmt

/-- Where a statement was written. -/
def span : Stmt → Option Span
  | .declare _ s | .expr _ s | .ret _ s | .branch _ _ _ s | .block _ s | .unsupported _ s => s

/-- The name of the kind of node a statement is. -/
def kindName : Stmt → String
  | .declare _ _ => "VariableDeclaration"
  | .expr _ _ => "ExpressionStatement"
  | .ret _ _ => "ReturnStatement"
  | .branch _ _ _ _ => "IfStatement"
  | .block _ _ => "BlockStatement"
  | .unsupported kind _ => kind

end Stmt

/-- A shader function. -/
structure Function where
  name : Ident
  params : List Ident
  body : List Stmt
  span : Option Span

/-- A program: its functions in source order. -/
structure Program where
  functions : List Function
  span : Option Span

/-- The first function of a name. -/
def Program.function? (p : Program) (name : String) : Option Function :=
  p.functions.find? fun f => f.name.name == name

end Shader
