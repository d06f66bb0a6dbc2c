import Shader.Typing.Error
import Shader.Typing.Fold
import Shader.Typing.Tree

/-!
# Typing rules

What the types of the parts of an expression say about the whole, one rule per form.  The rules look
neither at scopes nor at trees; `Infer` applies them on its way through a function.
-/

namespace Shader

/-- Fail with a fault at a place. -/
def fault {α : Type} (f : TypeFault) (span : Option Span) : Except TypeError α := .error ⟨f, span⟩

/-- Whether values of a type may be operands.  Namespaces and methods never are. -/
def Ty.isOperand : Ty → Bool
  | .function _ _ _ => false
  | .object kind => !kind.isNamespace
  | _ => true

/-- Both types must be types of operands; the left one is looked at first. -/
def checkOperands (op : String) (left right : Ty) (span : Option Span) : Except TypeError Unit :=
  if !left.isOperand then fault (.invalidOperand op left) span
  else if !right.isOperand then fault (.invalidOperand op right) span
  else .ok ()

/-- The type of an arithmetic expression.  Objects of one kind combine with each other and with
numbers, and numbers are promoted. -/
def arithmeticTy (op : String) (left right : Ty) (span : Option Span) : Except TypeError Ty := do
  checkOperands op left right span
  match left.kind?, right.kind? with
  | some k, some l =>
    if k = l then .ok (.object k) else fault (.incompatibleKinds op k l) span
  | some k, none =>
    if right.isNumeric then .ok (.object k) else fault (.invalidOperand op right) span
  | none, some l =>
    if left.isNumeric then .ok (.object l) else fault (.invalidOperand op left) span
  | none, none =>
    match left.promote? right with
    | some ty => .ok ty
    | none => fault (.invalidOperand op (if left.isNumeric then right else left)) span

/-- The ascription of a binary expression. -/
def binaryAscription (op : BinaryOp) (left right : Ascription) (span : Option Span) :
    Except TypeError Ascription :=
  match op with
  | .arithmetic arith => do
    let ty ← arithmeticTy arith.text left.ty right.ty span
    return ⟨ty, arith.fold ty left right⟩
  | .comparison comp => do
    checkOperands comp.text left.ty right.ty span
    return .ofTy .boolean

/-- The type of a connective: the common kind of objects, the promotion of numbers, or a boolean. -/
def logicalTy (op : LogicalOp) (left right : Ty) (span : Option Span) : Except TypeError Ty := do
  checkOperands op.text left right span
  match left.kind?, right.kind? with
  | some k, some l =>
    if k = l then .ok (.object k) else fault (.incompatibleKinds op.text k l) span
  | some k, none => .ok (.object k)
  | none, some l => .ok (.object l)
  | none, none => .ok ((left.promote? right).getD .boolean)

/-- The ascription of a unary expression.  A sign keeps the type of a number or object; the negation
of anything is a boolean. -/
def unaryAscription (op : UnaryOp) (argument : Ascription) (span : Option Span) :
    Except TypeError Ascription :=
  match op with
  | .not => .ok ⟨.boolean, foldNot argument⟩
  | op =>
    if argument.ty.isNumeric then .ok ⟨argument.ty, foldSign op argument.ty argument⟩
    else
      match argument.ty with
      | .object kind =>
        if kind.isNamespace then fault (.invalidOperand op.text argument.ty) span
        else .ok (.ofTy argument.ty)
      | ty => fault (.invalidOperand op.text ty) span

/-- The type of a conditional expression. -/
def conditionalTy (consequent alternate : Ty) (span : Option Span) : Except TypeError Ty :=
  match consequent.unify? alternate with
  | some ty => .ok ty
  | none => fault (.branchMismatch consequent alternate) span

/-- The type of an assignment to a target of type `target`.  An integer may be put where a number is
expected, and never the other way round. -/
def assignedTy (op : AssignOp) (name : String) (target value : Ty) (span : Option Span) :
    Except TypeError Ty := do
  let result ←
    match op with
    | .plain => .ok value
    | .compound _ => arithmeticTy op.text target value span
  if (target = .int ∧ result = .number) ∨ target.accepts result = false then
    fault (.assignmentMismatch name target result) span
  else .ok result

/-- Each argument must fit its parameter; `index` is the position of the first one. -/
def checkEach (callee : String) (index : Nat) (params : List Ty) (args : List TypedExpr)
    (span : Option Span) : Except TypeError Unit :=
  match params, args with
  | param :: params, arg :: args =>
    if param.accepts arg.ty then checkEach callee (index + 1) params args span
    else fault (.argumentMismatch callee index param arg.ty) (arg.span.or span)
  | _, _ => .ok ()

/-- The arguments of a call must be as many as the signature allows and fit their parameters. -/
def checkArguments (callee : String) (signature : Signature) (args : List TypedExpr)
    (span : Option Span) : Except TypeError Unit :=
  if signature.acceptsArity args.length then checkEach callee 0 signature.params args span
  else
    fault (.arityMismatch callee signature.required signature.params.length args.length) span

/-- The common type of the returns of a function, given the type of those before. -/
def unifyReturns (function : String) (unified : Ty) :
    List (Ty × Option Span) → Except TypeError Ty
  | [] => .ok unified
  | (ty, span) :: rest =>
    match unified.unify? ty with
    | some both => unifyReturns function both rest
    | none => fault (.returnMismatch function unified ty) span

/-- The type of a function's result; a function that never returns has none. -/
def resultTy (function : String) : List (Ty × Option Span) → Except TypeError Ty
  | [] => .ok .undefined
  | (ty, _) :: rest => unifyReturns function ty rest

end Shader
