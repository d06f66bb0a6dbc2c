import Shader.Typing.Body

/-!
# Inference of functions and programs

The parameters of a function take their injected types.  Its body is a block inside the scope of the
parameters, and the types of all its returns are unified into the type of its result.
-/

namespace Shader

namespace Function

/-- The injected ascription of a parameter. -/
def paramAscription (f : Function) (injections : Injections) (param : Ident) :
    Except TypeError Ascription :=
  match injections.resolve? param.name with
  | some injected => .ok injected
  | none => fault (.untypedParameter f.name.name param.name) (param.span.or f.span)

/-- The parameters of a function with their injected ascriptions, in order. -/
def ascribedParams (f : Function) (injections : Injections) :
    Except TypeError (List (Ident × Ascription)) :=
  f.params.mapM fun param => do return (param, ← f.paramAscription injections param)

/-- The scopes that the body of a function starts in. -/
def bodyScopes (params : List (Ident × Ascription)) : Scopes :=
  params.foldl (fun scopes p => scopes.insert p.1.name (.ofAscription p.2)) Scopes.initial.push

/-- What stays the same throughout a function. -/
def context (f : Function) (injections : Injections) (registry : Registry) : Context where
  registry
  injections
  params := f.params.map (·.name)

/-- Infer a function. -/
def infer (f : Function) (injections : Injections) (registry : Registry) :
    Except TypeError TypedFunction := do
  let params ← f.ascribedParams injections
  let cx := f.context injections registry
  let (body, state) := Context.inBlock (cx.stmts f.body) ⟨bodyScopes params, []⟩
  let body ← body
  let result ← resultTy f.name.name state.returns
  return {
    name := f.name.name
    params := params.map fun p => ⟨p.1.name, p.2.ty, p.1.span⟩
    body
    result
    span := f.span }

end Function

/-- Infer every function of a program; the first error is that of the program. -/
def Program.infer (p : Program) (injections : Injections) (registry : Registry) :
    Except TypeError TypedProgram := do
  return ⟨← p.functions.mapM fun f => f.infer injections registry⟩

end Shader
