import Shader.Syntax.Tree

/-!
# Building trees by hand

Constructors for trees without spans.  A number is given the source text it would have been written
with, so that `int` makes an integer literal and `num` a fractional one.
-/

namespace Shader.Bare

/-- A name. -/
def ident (name : String) : Expr := .ident name none

/-- A literal with a source text. -/
def literal (value : Option Constant) (raw : Option String) : Expr := .literal ⟨value, raw⟩ none

/-- An integer literal. -/
def int (n : Int) : Expr := literal (some (.number (Number.ofInt n))) (some (toString n))

/-- The source text of a fractional literal: a whole number gets `.0`. -/
def numRaw (x : Float) : String :=
  let raw := Number.text x
  if !Literal.isFractional raw && x.isFinite then raw ++ ".0" else raw

/-- A fractional literal. -/
def num (x : Float) : Expr := literal (some (.number x)) (some (numRaw x))

/-- A string literal. -/
def string (s : String) : Expr := literal (some (.string s)) none

/-- A boolean literal. -/
def bool (b : Bool) : Expr := literal (some (.bool b)) none

/-- `object.property` -/
def member (object : Expr) (property : String) : Expr := .member object ⟨property, none⟩ none

/-- The parts of a text between its dots; there is always at least one. -/
def splitDots : List Char → List Char × List (List Char)
  | [] => ([], [])
  | c :: cs =>
    let (part, parts) := splitDots cs
    if c = '.' then ([], part :: parts) else (c :: part, parts)

/-- A chain of members, such as `env.texCoord.x`. -/
def path (dotted : String) : Expr :=
  let (root, rest) := splitDots dotted.toList
  rest.foldl (fun object part => member object (String.ofList part)) (ident (String.ofList root))

/-- `object[index]` -/
def index (object idx : Expr) : Expr := .index object idx none

/-- `callee(args)` -/
def call (callee : Expr) (args : List Expr) : Expr := .call callee args none

/-- `new name(args)` -/
def construct (name : String) (args : List Expr) : Expr := .construct (ident name) args none

/-- `left op right` -/
def binary (op : BinaryOp) (left right : Expr) : Expr := .binary op left right none

/-- `left op right` for a connective. -/
def logical (op : LogicalOp) (left right : Expr) : Expr := .logical op left right none

/-- `target op value` -/
def assign (op : AssignOp) (target value : Expr) : Expr := .assign op target value none

/-- `test ? consequent : alternate` -/
def conditional (test consequent alternate : Expr) : Expr :=
  .conditional test consequent alternate none

/-- `op argument` -/
def unary (op : UnaryOp) (argument : Expr) : Expr := .unary op argument none

/-- A declaration of several variables. -/
def declare (declarators : List (String × Option Expr)) : Stmt :=
  .declare (declarators.map fun (name, init) => ⟨⟨name, none⟩, init, none⟩) none

/-- An expression as a statement. -/
def expr (e : Expr) : Stmt := .expr e none

/-- A return statement. -/
def ret (value : Option Expr) : Stmt := .ret value none

/-- A block. -/
def block (body : List Stmt) : Stmt := .block body none

/-- A branching statement, with its branches as blocks. -/
def branch (test : Expr) (consequent : List Stmt) (alternate : Option (List Stmt)) : Stmt :=
  .branch test (block consequent) (alternate.map block) none

/-- A function. -/
def function (name : String) (params : List String) (body : List Stmt) : Function :=
  ⟨⟨name, none⟩, params.map fun p => ⟨p, none⟩, body, none⟩

/-- A program. -/
def program (functions : List Function) : Program := ⟨functions, none⟩

end Shader.Bare
