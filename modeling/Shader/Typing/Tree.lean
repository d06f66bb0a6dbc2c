import Shader.Source.Span
import Shader.Syntax.Operator
import Shader.Typing.Ascription

/-!
# Typed trees

The trees that inference produces.  Every expression carries an ascription, and only the shader
subset of the syntax can be expressed, so that code generation needs neither scopes nor checks.
-/

namespace Shader

/-- What inference and the source say about an expression. -/
structure Mark where
  ascription : Ascription
  span : Option Span
deriving DecidableEq, Repr

/-- A typed expression. -/
inductive TypedExpr where
  /-- A literal; `none` is `null`. -/
  | literal (value : Option Constant) (mark : Mark)
  | ident (name : String) (mark : Mark)
  | member (object : TypedExpr) (property : String) (mark : Mark)
  | call (callee : TypedExpr) (args : List TypedExpr) (mark : Mark)
  /-- `new constructor(args)` -/
  | construct (name : String) (args : List TypedExpr) (mark : Mark)
  | binary (op : BinaryOp) (left right : TypedExpr) (mark : Mark)
  | logical (op : LogicalOp) (left right : TypedExpr) (mark : Mark)
  | assign (op : AssignOp) (target value : TypedExpr) (mark : Mark)
  | conditional (test consequent alternate : TypedExpr) (mark : Mark)
  | unary (op : UnaryOp) (argument : TypedExpr) (mark : Mark)

namespace TypedExpr

/-- The mark of an expression. -/
def mark : TypedExpr → Mark
  | .literal _ m | .ident _ m | .member _ _ m | .call _ _ m | .construct _ _ m | .binary _ _ _ m
  | .logical _ _ _ m | .assign _ _ _ m | .conditional _ _ _ m | .unary _ _ m => m

/-- The ascription of an expression. -/
def ascription (e : TypedExpr) : Ascription := e.mark.ascription

/-- The type of an expression. -/
def ty (e : TypedExpr) : Ty := e.ascription.ty

/-- Where an expression was written. -/
def span (e : TypedExpr) : Option Span := e.mark.span

/-- The name of the kind of node an expression is. -/
def kindName : TypedExpr → String
  | .literal _ _ => "Literal"
  | .ident _ _ => "Identifier"
  | .member _ _ _ => "MemberExpression"
  | .call _ _ _ => "CallExpression"
  | .construct _ _ _ => "NewExpression"
  | .binary _ _ _ _ => "BinaryExpression"
  | .logical _ _ _ _ => "LogicalExpression"
  | .assign _ _ _ _ => "AssignmentExpression"
  | .conditional _ _ _ _ => "ConditionalExpression"
  | .unary _ _ _ => "UnaryExpression"

/-- The expression with a type whose value is not known. -/
def forgetValue : TypedExpr → TypedExpr
  | .literal v m => .literal v { m with ascription := .ofTy m.ascription.ty }
  | .ident n m => .ident n { m with ascription := .ofTy m.ascription.ty }
  | .member o p m => .member o p { m with ascription := .ofTy m.ascription.ty }
  | .call c a m => .call c a { m with ascription := .ofTy m.ascription.ty }
  | .construct n a m => .construct n a { m with ascription := .ofTy m.ascription.ty }
  | .binary o l r m => .binary o l r { m with ascription := .ofTy m.ascription.ty }
  | .logical o l r m => .logical o l r { m with ascription := .ofTy m.ascription.ty }
  | .assign o t v m => .assign o t v { m with ascription := .ofTy m.ascription.ty }
  | .conditional t c a m => .conditional t c a { m with ascription := .ofTy m.ascription.ty }
  | .unary o a m => .unary o a { m with ascription := .ofTy m.ascription.ty }

mutual

/-- The expression and all its parts, each before its own parts. -/
def all : TypedExpr → List TypedExpr
  | e@(.literal _ _) => [e]
  | e@(.ident _ _) => [e]
  | e@(.member object _ _) => e :: object.all
  | e@(.call callee args _) => e :: (callee.all ++ allArgs args)
  | e@(.construct _ args _) => e :: allArgs args
  | e@(.binary _ left right _) => e :: (left.all ++ right.all)
  | e@(.logical _ left right _) => e :: (left.all ++ right.all)
  | e@(.assign _ target value _) => e :: (target.all ++ value.all)
  | e@(.conditional test consequent alternate _) =>
    e :: (test.all ++ (consequent.all ++ alternate.all))
  | e@(.unary _ argument _) => e :: argument.all

/-- The expressions of an argument list and all their parts. -/
def allArgs : List TypedExpr → List TypedExpr
  | [] => []
  | e :: rest => e.all ++ allArgs rest

end

end TypedExpr

/-- One variable of a declaration, with the type it was given or settled on. -/
structure TypedDeclarator where
  name : String
  init : Option TypedExpr
  ascription : Ascription
  span : Option Span

/-- A typed statement.  Branches are lists of statements. -/
inductive TypedStmt where
  | declare (declarators : List TypedDeclarator)
  | expr (e : TypedExpr)
  | ret (value : Option TypedExpr)
  | branch (test : TypedExpr) (consequent : List TypedStmt) (alternate : Option (List TypedStmt))
  | block (body : List TypedStmt)

namespace TypedStmt

/-- The name of the kind of node a statement is. -/
def kindName : TypedStmt → String
  | .declare _ => "VariableDeclaration"
  | .expr _ => "ExpressionStatement"
  | .ret _ => "ReturnStatement"
  | .branch _ _ _ => "IfStatement"
  | .block _ => "BlockStatement"

mutual

/-- The expressions of a statement, in source order. -/
def exprs : TypedStmt → List TypedExpr
  | .declare declarators => declarators.flatMap fun d => (d.init.map TypedExpr.all).getD []
  | .expr e => e.all
  | .ret none => []
  | .ret (some e) => e.all
  | .branch test consequent none => test.all ++ exprsAll consequent
  | .branch test consequent (some alternate) =>
    test.all ++ (exprsAll consequent ++ exprsAll alternate)
  | .block body => exprsAll body

/-- The expressions of a list of statements, in source order. -/
def exprsAll : List TypedStmt → List TypedExpr
  | [] => []
  | s :: rest => s.exprs ++ exprsAll rest

end

end TypedStmt

/-- A parameter and its injected type. -/
structure TypedParam where
  name : String
  ty : Ty
  span : Option Span

/-- A typed function. -/
structure TypedFunction where
  name : String
  params : List TypedParam
  body : List TypedStmt
  result : Ty
  span : Option Span

namespace TypedFunction

/-- The signature of a function, as a line of text. -/
def display (f : TypedFunction) : String :=
  f.name ++ "(" ++ ", ".intercalate (f.params.map fun p => p.name ++ ": " ++ p.ty.display) ++ ") -> "
    ++ f.result.display

/-- Every expression of the body, in source order and each before its parts. -/
def exprs (f : TypedFunction) : List TypedExpr := TypedStmt.exprsAll f.body

end TypedFunction

/-- A typed program: its functions in source order. -/
structure TypedProgram where
  functions : List TypedFunction

/-- The first function of a name. -/
def TypedProgram.function? (p : TypedProgram) (name : String) : Option TypedFunction :=
  p.functions.find? fun f => f.name == name

end Shader
