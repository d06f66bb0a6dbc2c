import Shader.Source.Span
import Shader.Ty.Basic

/-!
# Type errors

Inference stops at the first thing that is wrong.  An error is a cause, which names the construct
that failed, and the span of the failing node when the tree has one.  Each cause has a code, a
message, a label for the place in the source, and sometimes a hint.
-/

namespace Shader

/-- What is wrong with a program. -/
inductive TypeFault where
  /-- A name that is no local, not injected and no global. -/
  | unresolvedIdentifier (name : String)
  /-- A member that neither the object nor the injections have. -/
  | unknownMember (object : Ty) (member : String)
  /-- `new` of something that cannot be constructed. -/
  | unknownConstructor (name : String)
  /-- An argument of the wrong type; `index` counts from zero. -/
  | argumentMismatch (callee : String) (index : Nat) (expected found : Ty)
  /-- The wrong number of arguments. -/
  | arityMismatch (callee : String) (least most found : Nat)
  /-- A call of something that is no method. -/
  | notCallable (callee : String) (ty : Ty)
  /-- Two kinds of objects under one operator. -/
  | incompatibleKinds (op : String) (left right : Kind)
  /-- An operand that the operator has no rule for. -/
  | invalidOperand (op : String) (ty : Ty)
  /-- The branches of a conditional have no common type. -/
  | branchMismatch (consequent alternate : Ty)
  /-- A value that its target does not take. -/
  | assignmentMismatch (target : String) (expected found : Ty)
  /-- An assignment to something that is neither a name nor a member. -/
  | invalidTarget (kind : String)
  /-- A variable without initializer, injected type or assignment. -/
  | untypedDeclaration (name : String)
  /-- A parameter that is not injected. -/
  | untypedParameter (function name : String)
  /-- Two returns without a common type. -/
  | returnMismatch (function : String) (first second : Ty)
  /-- A form outside the shader subset. -/
  | unsupportedSyntax (kind : String)
deriving DecidableEq, Repr

namespace TypeFault

/-- The code of a fault. -/
def code : TypeFault → String
  | .unresolvedIdentifier _ => "S0001"
  | .unknownMember _ _ => "S0002"
  | .unknownConstructor _ => "S0003"
  | .argumentMismatch _ _ _ _ => "S0004"
  | .arityMismatch _ _ _ _ => "S0005"
  | .notCallable _ _ => "S0006"
  | .incompatibleKinds _ _ _ => "S0007"
  | .invalidOperand _ _ => "S0008"
  | .branchMismatch _ _ => "S0009"
  | .assignmentMismatch _ _ _ => "S0010"
  | .invalidTarget _ => "S0011"
  | .untypedDeclaration _ => "S0012"
  | .untypedParameter _ _ => "S0013"
  | .returnMismatch _ _ _ => "S0014"
  | .unsupportedSyntax _ => "S0015"

/-- A text in backticks. -/
def tick (s : String) : String := "`" ++ s ++ "`"

/-- The message of a fault. -/
def message : TypeFault → String
  | .unresolvedIdentifier name => "cannot resolve identifier " ++ tick name
  | .unknownMember object member => tick object.display ++ " has no member " ++ tick member
  | .unknownConstructor name => tick name ++ " is not a known constructor"
  | .argumentMismatch callee index expected found =>
    "argument " ++ toString (index + 1) ++ " of " ++ tick callee ++ ": expected "
      ++ expected.display ++ ", found " ++ found.display
  | .arityMismatch callee least most found =>
    if least = most then
      tick callee ++ " takes " ++ toString least ++ " argument(s), found " ++ toString found
    else
      tick callee ++ " takes " ++ toString least ++ " to " ++ toString most
        ++ " arguments, found " ++ toString found
  | .notCallable callee ty => tick callee ++ " of type " ++ ty.display ++ " is not callable"
  | .incompatibleKinds op left right =>
    "operator " ++ tick op ++ " cannot combine " ++ (Ty.object left).display ++ " with "
      ++ (Ty.object right).display
  | .invalidOperand op ty => "operator " ++ tick op ++ " cannot be applied to " ++ ty.display
  | .branchMismatch consequent alternate =>
    "conditional branches disagree: " ++ consequent.display ++ " vs " ++ alternate.display
  | .assignmentMismatch target expected found =>
    "cannot assign " ++ found.display ++ " to " ++ tick target ++ " of type " ++ expected.display
  | .invalidTarget kind => "cannot assign to a " ++ kind
  | .untypedDeclaration name => "variable " ++ tick name ++ " is never given a type"
  | .untypedParameter function name =>
    "parameter " ++ tick name ++ " of " ++ tick function ++ " has no injected type"
  | .returnMismatch function first second =>
    tick function ++ " returns both " ++ first.display ++ " and " ++ second.display
  | .unsupportedSyntax kind => "unsupported syntax: " ++ kind

/-- What is said about the place of a fault. -/
def label : TypeFault → String
  | .unresolvedIdentifier _ => "not found in scope or injections"
  | .unknownMember object _ => "not a member of " ++ object.display
  | .unknownConstructor _ => "not constructible"
  | .argumentMismatch _ _ expected found =>
    "expected " ++ expected.display ++ ", found " ++ found.display
  | .arityMismatch _ _ _ found => toString found ++ " argument(s) given"
  | .notCallable _ ty => "has type " ++ ty.display
  | .incompatibleKinds _ left right =>
    (Ty.object left).display ++ " and " ++ (Ty.object right).display
  | .invalidOperand _ ty => "operand of type " ++ ty.display
  | .branchMismatch consequent alternate => consequent.display ++ " vs " ++ alternate.display
  | .assignmentMismatch _ _ found => "this is " ++ found.display
  | .invalidTarget _ => "not assignable"
  | .untypedDeclaration _ => "declared here"
  | .untypedParameter _ _ => "parameter without a type"
  | .returnMismatch _ _ second => "this returns " ++ second.display
  | .unsupportedSyntax _ => "outside the shader subset"

/-- How a fault may be mended. -/
def help? : TypeFault → Option String
  | .untypedParameter _ name => some ("add `" ++ name ++ " = \"<type>\"` to the [inject] table")
  | .untypedDeclaration name =>
    some ("initialize " ++ tick name ++ " or assign to it before the end of its block")
  | .returnMismatch _ first _ => some ("earlier returns produce " ++ first.display)
  | .incompatibleKinds _ _ _ => some "operands of one operator must share an object kind"
  | _ => none

end TypeFault

/-- A fault and where it is. -/
structure TypeError where
  fault : TypeFault
  span : Option Span
deriving DecidableEq, Repr

end Shader
