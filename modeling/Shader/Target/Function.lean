import Shader.Target.LineBuffer
import Shader.Target.Expression

/-!
# Emitting functions

The parts of code generation that the target languages share: declarations, simple statements, the
frame of a function, and the sequence of functions.
-/

namespace Shader

/-- Generated code, and the warnings that were given. -/
structure Output where
  code : String
  warnings : List Warning

/-- Whether the code is free of placeholders and markers. -/
def Output.isClean (o : Output) : Bool := o.warnings.isEmpty

namespace Dialect

/-- The text of a declaration of one variable. -/
def declarator (d : Dialect) (decl : TypedDeclarator) : Render String := do
  let word ← .ofExcept (d.typeName decl.ascription.ty)
  match decl.init with
  | some init => return word ++ " " ++ decl.name ++ " = " ++ (← d.expr init) ++ ";"
  | none => return word ++ " " ++ decl.name ++ ";"

/-- Emit the variables of a declaration, one line each. -/
def declarators (d : Dialect) (b : LineBuffer) : List TypedDeclarator → Render LineBuffer
  | [] => return b
  | decl :: rest => do
    let text ← d.declarator decl
    d.declarators (b.line text) rest

/-- Emit an expression as a statement. -/
def exprLine (d : Dialect) (b : LineBuffer) (e : TypedExpr) : Render LineBuffer :=
  return b.line ((← d.expr e) ++ ";")

/-- Emit a return statement. -/
def retLine (d : Dialect) (b : LineBuffer) : Option TypedExpr → Render LineBuffer
  | some e => return b.line ("return " ++ (← d.expr e) ++ ";")
  | none => return b.line "return;"

/-- Add the names of parameters to the last line, with a comma in front of each when `separate`
holds and between them in any case. -/
def appendParams (separate : Bool) (b : LineBuffer) : List TypedParam → LineBuffer
  | [] => b
  | p :: rest => appendParams true ((if separate then b.append ", " else b).append p.name) rest

/-- Emit the header of a function, given the word for the type of its result.  Its parameters are
bare names. -/
def functionHeader (b : LineBuffer) (word : String) (f : TypedFunction) : LineBuffer :=
  let b := b.line (word ++ " " ++ f.name ++ "(")
  let b := if f.params.isEmpty then b.append "void" else b
  (appendParams false b f.params).append ") \x7b"

/-- Emit a function, whose body `body` emits. -/
def function (d : Dialect) (body : LineBuffer → List TypedStmt → Render LineBuffer)
    (b : LineBuffer) (f : TypedFunction) : Render LineBuffer := do
  let word ← .ofExcept (d.typeName f.result)
  let b ← body (functionHeader b word f).indent f.body
  return b.dedent.line "\x7d"

/-- Emit functions, with an empty line in front of each when `separate` holds and between them in
any case. -/
def functions (emit : LineBuffer → TypedFunction → Render LineBuffer) (separate : Bool)
    (b : LineBuffer) : List TypedFunction → Render LineBuffer
  | [] => return b
  | f :: rest => do
    let b ← emit (if separate then b.line "" else b) f
    functions emit true b rest

end Dialect

/-- Add several lines. -/
def LineBuffer.addLines (b : LineBuffer) (texts : List String) : LineBuffer :=
  texts.foldl LineBuffer.line b

/-- The code in a buffer, as the output of a run. -/
def Render.output (x : Render LineBuffer) : Except CodegenError Output :=
  match x with
  | .ok (b, warnings) => .ok ⟨b.finish, warnings⟩
  | .error e => .error e

end Shader
