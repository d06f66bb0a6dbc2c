import Shader.Syntax.Tree
import Shader.Typing.Injection
import Shader.Typing.Registry
import Shader.Typing.Rule
import Shader.Typing.Scope

/-!
# Type inference

One pass over a function, forward and without backtracking, turns its tree into a typed one or
stops at the first error.

A name is looked up in the scopes, then among the injections, then among the globals of the
registry.  A member is looked up among the injected paths first, unless its root is a local
variable, and then in the registry.  A variable without initializer is pending until it is assigned;
when its block ends it takes the type it has by then.

The pass is a state transformer that keeps its state on errors: every block closes the scope it has
opened, whether its statements succeed or not.
-/

namespace Shader

/-- What stays the same throughout a function. -/
structure Context where
  registry : Registry
  injections : Injections
  /-- The names of the parameters, whose injected members stay visible. -/
  params : List String

/-- What changes along the way: the scopes, and the returns so far in source order. -/
structure InferState where
  scopes : Scopes
  returns : List (Ty × Option Span)

/-- A step of inference. -/
abbrev Infer (α : Type) : Type := ExceptT TypeError (StateM InferState) α

namespace Infer

/-- A step that changes nothing. -/
def ofExcept {α : Type} (result : Except TypeError α) : Infer α := fun s => (result, s)

/-- The scopes. -/
def scopes : Infer Scopes := fun s => (.ok s.scopes, s)

/-- Change the scopes. -/
def modifyScopes (f : Scopes → Scopes) : Infer Unit :=
  fun s => (.ok (), { s with scopes := f s.scopes })

/-- Note a return. -/
def addReturn (ty : Ty) (span : Option Span) : Infer Unit :=
  fun s => (.ok (), { s with returns := s.returns ++ [(ty, span)] })

end Infer

namespace Context

/-- The ascription of a literal. -/
def literal (l : Literal) : Ascription :=
  match l.value with
  | some (.number x) => ⟨if l.isIntegral then .int else .number, some (.number x)⟩
  | some (.string s) => ⟨.string, some (.string s)⟩
  | some (.bool b) => ⟨.boolean, some (.bool b)⟩
  | none => .ofTy .undefined

/-- The ascription of a name. -/
def ident (cx : Context) (scopes : Scopes) (name : String) (span : Option Span) :
    Except TypeError Ascription :=
  match scopes.lookup? name with
  | some (.typed ty) => .ok (.ofTy ty)
  | some (.constant ty value) => .ok ⟨ty, some value⟩
  | some .pending => fault (.untypedDeclaration name) span
  | none =>
    match cx.injections.resolve? name with
    | some injected => .ok injected
    | none =>
      match cx.registry.global? name with
      | some ty => .ok (.ofTy ty)
      | none =>
        if name = "undefined" then .ok (.ofTy .undefined)
        else fault (.unresolvedIdentifier name) span

/-- The part of a path before its first dot. -/
def root (path : String) : String := String.ofList (path.toList.takeWhile (· != '.'))

/-- Whether a path may stand for an injected member: its root is a parameter or no local name. -/
def isInjectable (cx : Context) (scopes : Scopes) (path : String) : Bool :=
  cx.params.contains (root path) || (scopes.lookup? (root path)).isNone

/-- The ascription that the injections give a path.  A path that was assigned has a type of its own
in the scopes and no value any more. -/
def injectedPath? (cx : Context) (scopes : Scopes) (path : String) : Option Ascription :=
  if cx.isInjectable scopes path then
    match (scopes.lookup? path).bind Binding.ty? with
    | some ty => some (.ofTy ty)
    | none => cx.injections.resolve? path
  else none

/-- The ascription of a member of an object. -/
def member (cx : Context) (scopes : Scopes) (path : Option String) (object : Ty) (property : Ident)
    (span : Option Span) : Except TypeError Ascription :=
  match path.bind (cx.injectedPath? scopes) with
  | some ascription => .ok ascription
  | none =>
    match object.kind?.bind fun kind => cx.registry.memberTy? kind property.name with
    | some ty => .ok (.ofTy ty)
    | none => fault (.unknownMember object property.name) (property.span.or span)

/-- The entry that a constructor names. -/
def constructible (cx : Context) (name : String) (span : Option Span) : Except TypeError Entry :=
  match cx.registry.byName? name with
  | some entry =>
    if entry.construction = .none then fault (.unknownConstructor name) span else .ok entry
  | none => fault (.unknownConstructor name) span

/-- The arguments of a constructor, where they are checked. -/
def checkConstruction (entry : Entry) (args : List TypedExpr) (span : Option Span) :
    Except TypeError Unit :=
  match entry.construction with
  | .typed signature => checkArguments entry.name signature args span
  | _ => .ok ()

/-- What an assignment to a name does: the type of the target, the type of the whole, and the scopes
after it.  A first plain assignment settles a pending name, an assigned injection becomes a name of
the outermost scope, and a constant that is assigned is constant no longer. -/
def assignIdent (cx : Context) (scopes : Scopes) (op : AssignOp) (name : String)
    (targetSpan : Option Span) (value : Ty) (span : Option Span) :
    Except TypeError (Ty × Ty × Scopes) :=
  match scopes.lookup? name with
  | some (.typed ty) => do
    let result ← assignedTy op name ty value span
    return (ty, result, scopes)
  | some (.constant ty _) => do
    let result ← assignedTy op name ty value span
    return (ty, result, scopes.set name (.typed ty))
  | some .pending =>
    match op with
    | .plain => .ok (value, value, scopes.set name (.typed value))
    | .compound _ => fault (.untypedDeclaration name) (targetSpan.or span)
  | none =>
    match cx.injections.resolve? name with
    | some injected => do
      let result ← assignedTy op name injected.ty value span
      return (injected.ty, result, scopes.insertOutermost name (.typed injected.ty))
    | none => fault (.unresolvedIdentifier name) (targetSpan.or span)

/-- What an assignment to a member does to the scopes: a member with a known value becomes a name of
the outermost scope. -/
def assignMember (scopes : Scopes) (name : String) (target : Ascription) : Scopes :=
  match target.value with
  | some _ => scopes.insertOutermost name (.typed target.ty)
  | none => scopes

/-- Infer an assignment of a value that is inferred already.  `place` infers the target as an
expression, which is done for members only. -/
def assign (cx : Context) (op : AssignOp) (target : Expr) (place : Infer TypedExpr)
    (value : TypedExpr) (span : Option Span) : Infer TypedExpr :=
  match target with
  | .ident name targetSpan => do
    let (target, result, after) ←
      Infer.ofExcept (cx.assignIdent (← Infer.scopes) op name targetSpan value.ty span)
    Infer.modifyScopes fun _ => after
    return .assign op (.ident name ⟨.ofTy target, targetSpan⟩) value ⟨.ofTy result, span⟩
  | .member _ _ _ => do
    let typed ← place
    let result ← Infer.ofExcept (assignedTy op target.describe typed.ty value.ty span)
    Infer.modifyScopes fun scopes => assignMember scopes target.describe typed.ascription
    return .assign op typed.forgetValue value ⟨.ofTy result, span⟩
  | _ => Infer.ofExcept (fault (.invalidTarget target.kindName) (target.span.or span))

mutual

/-- Infer an expression. -/
def expr (cx : Context) : Expr → Infer TypedExpr
  | .literal l span => return .literal l.value ⟨literal l, span⟩
  | .ident name span => do
    let ascription ← Infer.ofExcept (cx.ident (← Infer.scopes) name span)
    return .ident name ⟨ascription, span⟩
  | .member object property span => do
    let typed ← cx.expr object
    let path := (Expr.member object property span).path?
    let ascription ← Infer.ofExcept (cx.member (← Infer.scopes) path typed.ty property span)
    return .member typed property.name ⟨ascription, span⟩
  | .index _ _ span =>
    Infer.ofExcept (fault (.unsupportedSyntax "computed MemberExpression") span)
  | .call callee args span => do
    let typed ← cx.expr callee
    match typed.ty.signature? with
    | none =>
      Infer.ofExcept (fault (.notCallable callee.describe typed.ty) (callee.span.or span))
    | some signature =>
      let args ← cx.exprs args
      Infer.ofExcept (checkArguments callee.describe signature args span)
      return .call typed args ⟨.ofTy signature.result, span⟩
  | .construct (.ident name nameSpan) args span => do
    let entry ← Infer.ofExcept (cx.constructible name (nameSpan.or span))
    let args ← cx.exprs args
    Infer.ofExcept (checkConstruction entry args span)
    return .construct entry.name args ⟨.ofTy (.object entry.kind), span⟩
  | .construct callee _ span =>
    let kind := "NewExpression with a " ++ callee.kindName ++ " callee"
    Infer.ofExcept (fault (.unsupportedSyntax kind) span)
  | .binary op left right span => do
    let left ← cx.expr left
    let right ← cx.expr right
    let ascription ← Infer.ofExcept (binaryAscription op left.ascription right.ascription span)
    return .binary op left right ⟨ascription, span⟩
  | .logical op left right span => do
    let left ← cx.expr left
    let right ← cx.expr right
    let ty ← Infer.ofExcept (logicalTy op left.ty right.ty span)
    return .logical op left right ⟨.ofTy ty, span⟩
  | .assign op target value span => do
    let value ← cx.expr value
    cx.assign op target (cx.expr target) value span
  | .conditional test consequent alternate span => do
    let test ← cx.expr test
    let consequent ← cx.expr consequent
    let alternate ← cx.expr alternate
    let ty ← Infer.ofExcept (conditionalTy consequent.ty alternate.ty span)
    return .conditional test consequent alternate ⟨.ofTy ty, span⟩
  | .unary op argument span => do
    let argument ← cx.expr argument
    let ascription ← Infer.ofExcept (unaryAscription op argument.ascription span)
    return .unary op argument ⟨ascription, span⟩
  | .unsupported kind span => Infer.ofExcept (fault (.unsupportedSyntax kind) span)

/-- Infer the arguments of a call, left to right. -/
def exprs (cx : Context) : List Expr → Infer (List TypedExpr)
  | [] => return []
  | e :: rest => do
    let typed ← cx.expr e
    let typedRest ← cx.exprs rest
    return typed :: typedRest

end

/-- Infer a declarator.  Without initializer it takes an injected type, or stays pending. -/
def declarator (cx : Context) (d : Declarator) : Infer TypedDeclarator := do
  let name := d.name.name
  let span := d.span.or d.name.span
  match d.init with
  | some init =>
    let init ← cx.expr init
    Infer.modifyScopes fun scopes => scopes.insert name (.typed init.ty)
    return ⟨name, some init, .ofTy init.ty, span⟩
  | none =>
    match cx.injections.get? name with
    | some injected =>
      Infer.modifyScopes fun scopes => scopes.insert name (.typed injected.ty)
      return ⟨name, none, .ofTy injected.ty, span⟩
    | none =>
      Infer.modifyScopes fun scopes => scopes.insert name .pending
      return ⟨name, none, .ofTy .undefined, span⟩

/-- Infer the declarators of a statement, left to right. -/
def declarators (cx : Context) : List Declarator → Infer (List TypedDeclarator)
  | [] => return []
  | d :: rest => do
    let typed ← cx.declarator d
    let typedRest ← cx.declarators rest
    return typed :: typedRest

/-- Give a declarator without initializer the type its name has at the end of its block. -/
def settleDeclarator (frame : Frame) (d : TypedDeclarator) : Except TypeError TypedDeclarator :=
  match d.init with
  | some _ => .ok d
  | none =>
    match (frame.get? d.name).bind Binding.ty? with
    | some ty => .ok { d with ascription := .ofTy ty }
    | none => fault (.untypedDeclaration d.name) d.span

/-- Settle the declarators of a statement that is one of a block. -/
def settleStmt (frame : Frame) : TypedStmt → Except TypeError TypedStmt
  | .declare declarators => do return .declare (← declarators.mapM (settleDeclarator frame))
  | s => .ok s

/-- Settle the declarations of a block with the frame it ended with. -/
def settle (frame : Frame) (body : List TypedStmt) : Except TypeError (List TypedStmt) :=
  body.mapM (settleStmt frame)

/-- Run the statements of a block in a scope of their own, close it, and settle its declarations. -/
def inBlock (body : Infer (List TypedStmt)) : Infer (List TypedStmt) := fun s =>
  let (result, inside) := body { s with scopes := s.scopes.push }
  let (frame, scopes) := inside.scopes.pop
  (result.bind (settle frame), { inside with scopes })

mutual

/-- Infer a statement.  A branch is a scope of its own, in braces or not. -/
def stmt (cx : Context) : Stmt → Infer TypedStmt
  | .declare ds _ => return .declare (← cx.declarators ds)
  | .expr e _ => return .expr (← cx.expr e)
  | .ret none span => do
    Infer.addReturn .undefined span
    return .ret none
  | .ret (some e) span => do
    let e ← cx.expr e
    Infer.addReturn e.ty span
    return .ret (some e)
  | .branch test consequent alternate _ => do
    let test ← cx.expr test
    let consequent ← inBlock (cx.branchBody consequent (cx.stmt consequent))
    match alternate with
    | none => return .branch test consequent none
    | some alternate =>
      let alternate ← inBlock (cx.branchBody alternate (cx.stmt alternate))
      return .branch test consequent (some alternate)
  | .block body _ => return .block (← inBlock (cx.stmts body))
  | .unsupported kind span => Infer.ofExcept (fault (.unsupportedSyntax kind) span)

/-- Infer the statements of a branch: those of a block, or the single statement that `single`
infers. -/
def branchBody (cx : Context) : Stmt → Infer TypedStmt → Infer (List TypedStmt)
  | .block body _, _ => cx.stmts body
  | _, single => (fun typed => [typed]) <$> single

/-- Infer the statements of a list, in order. -/
def stmts (cx : Context) : List Stmt → Infer (List TypedStmt)
  | [] => return []
  | s :: rest => do
    let typed ← cx.stmt s
    let typedRest ← cx.stmts rest
    return typed :: typedRest

end

end Context

end Shader
