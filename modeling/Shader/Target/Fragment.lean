import Shader.Target.Function
import Shader.Target.Options

/-!
# Fragment shaders

Code for straight-line functions.  Branches and blocks are outside what this target expresses; each
becomes a marker line and a warning.
-/

namespace Shader.Glsl

/-- Emit a statement. -/
def stmt (b : LineBuffer) : TypedStmt → Render LineBuffer
  | .declare decls => Dialect.glsl.declarators b decls
  | .expr e => Dialect.glsl.exprLine b e
  | .ret value => Dialect.glsl.retLine b value
  | s => do
    Render.warn (.marker s.kindName)
    return b.line ("<unsupported statement: " ++ s.kindName ++ ">")

/-- Emit statements in order. -/
def stmts (b : LineBuffer) : List TypedStmt → Render LineBuffer
  | [] => return b
  | s :: rest => do
    let b ← stmt b s
    stmts b rest

/-- The lines in front of the functions. -/
def header (options : GlslOptions) : List String :=
  ["// Generated by shade.js", "precision " ++ options.floatPrecision ++ " float;"]

/-- Generate code for functions. -/
def generate (functions : List TypedFunction) (options : GlslOptions) :
    Except CodegenError Output :=
  let start := LineBuffer.empty.addLines (if options.omitHeader then [] else header options)
  (Dialect.functions (Dialect.glsl.function stmts) false start functions).output

end Shader.Glsl
