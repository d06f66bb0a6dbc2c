import Shader.Target.Function
import Shader.Target.Options

/-!
# Materials

Code for materials in C++, with branches and nested blocks.  The functions stand in a namespace
inside an include guard.
-/

namespace Shader.Embree

mutual

/-- Emit a statement. -/
def stmt (b : LineBuffer) : TypedStmt → Render LineBuffer
  | .declare decls => Dialect.embree.declarators b decls
  | .expr e => Dialect.embree.exprLine b e
  | .ret value => Dialect.embree.retLine b value
  | .branch test consequent none => do
    let test ← Dialect.embree.expr test
    let b ← stmts (b.line ("if (" ++ test ++ ") \x7b")).indent consequent
    return b.dedent.line "\x7d"
  | .branch test consequent (some alternate) => do
    let test ← Dialect.embree.expr test
    let b ← stmts (b.line ("if (" ++ test ++ ") \x7b")).indent consequent
    let b ← stmts (b.dedent.line "\x7d else \x7b").indent alternate
    return b.dedent.line "\x7d"
  | .block body => do
    let b ← stmts (b.line "\x7b").indent body
    return b.dedent.line "\x7d"

/-- Emit statements in order. -/
def stmts (b : LineBuffer) : List TypedStmt → Render LineBuffer
  | [] => return b
  | s :: rest => do
    let b ← stmt b s
    stmts b rest

end

/-- The lines in front of the functions. -/
def header : List String := [
  "// Generated by shade.js",
  "#ifndef __EMBREE_SHADEJS_MATERIAL_H__",
  "#define __EMBREE_SHADEJS_MATERIAL_H__",
  "#include \"../materials/material.h\"",
  "#include \"../brdfs/lambertian.h\"",
  "#include \"../textures/texture.h\"",
  "",
  "namespace embree",
  "\x7b"]

/-- The lines after the functions. -/
def epilog : List String := ["\x7d", "#endif"]

/-- Generate code for functions. -/
def generate (functions : List TypedFunction) (options : EmbreeOptions) :
    Except CodegenError Output :=
  let start := LineBuffer.empty.addLines (if options.omitHeader then [] else header)
  let emitted := Dialect.functions (Dialect.embree.function stmts) false start functions
  let finished : Render LineBuffer := do
    let b ← emitted
    return b.addLines (if options.omitHeader then [] else epilog)
  finished.output

end Shader.Embree
