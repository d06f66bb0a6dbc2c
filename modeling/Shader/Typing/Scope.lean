import Shader.Table
import Shader.Typing.Ascription

/-!
# Scopes

Local names are bound in a stack of frames.  The outermost frame is always there; it takes the names
that are not declared in any block.
-/

namespace Shader

/-- What a local name stands for. -/
inductive Binding where
  /-- Declared, and not yet given a type. -/
  | pending
  | typed (ty : Ty)
  /-- A parameter whose value the host fixes, as long as it is not assigned. -/
  | constant (ty : Ty) (value : Constant)
deriving DecidableEq, Repr

namespace Binding

/-- The type of a bound name. -/
def ty? : Binding → Option Ty
  | .pending => none
  | .typed ty => some ty
  | .constant ty _ => some ty

/-- The binding of a name with an ascription. -/
def ofAscription (a : Ascription) : Binding :=
  match a.value with
  | some v => .constant a.ty v
  | none => .typed a.ty

end Binding

/-- The names of one scope. -/
abbrev Frame := Table Binding

/-- A stack of scopes.  `inner` has the innermost frame first. -/
structure Scopes where
  inner : List Frame
  outermost : Frame

namespace Scopes

/-- The outermost scope alone, without names. -/
def initial : Scopes := ⟨[], .empty⟩

/-- The number of frames. -/
def depth (s : Scopes) : Nat := s.inner.length + 1

/-- Open a scope. -/
def push (s : Scopes) : Scopes := { s with inner := .empty :: s.inner }

/-- Close the innermost scope and hand back its frame.  The outermost scope cannot be closed. -/
def pop? (s : Scopes) : Option (Frame × Scopes) :=
  match s.inner with
  | [] => none
  | frame :: rest => some (frame, { s with inner := rest })

/-- Close the innermost scope and hand back its frame, where there is one to close. -/
def pop (s : Scopes) : Frame × Scopes := s.pop?.getD (.empty, s)

/-- Opening a scope adds a frame. -/
@[simp] theorem depth_push (s : Scopes) : s.push.depth = s.depth + 1 := rfl

/-- Closing the scope that was opened last gives back the scopes before it. -/
@[simp] theorem pop_push (s : Scopes) : s.push.pop = (.empty, s) := rfl

/-- Bind a name in the innermost scope. -/
def insert (s : Scopes) (name : String) (b : Binding) : Scopes :=
  match s.inner with
  | [] => { s with outermost := s.outermost.insert name b }
  | frame :: rest => { s with inner := frame.insert name b :: rest }

/-- Bind a name in the outermost scope. -/
def insertOutermost (s : Scopes) (name : String) (b : Binding) : Scopes :=
  { s with outermost := s.outermost.insert name b }

/-- The binding of a name in the first frame that has one. -/
def findFrame? (name : String) : List Frame → Option Binding
  | [] => none
  | frame :: rest =>
    match frame.get? name with
    | some b => some b
    | none => findFrame? name rest

/-- The binding of a name in the innermost scope that has one. -/
def lookup? (s : Scopes) (name : String) : Option Binding :=
  match findFrame? name s.inner with
  | some b => some b
  | none => s.outermost.get? name

/-- The frames with a new binding in the first frame that has the name. -/
def setFrame? (name : String) (b : Binding) : List Frame → Option (List Frame)
  | [] => none
  | frame :: rest =>
    if frame.contains name then some (frame.insert name b :: rest)
    else (setFrame? name b rest).map (frame :: ·)

/-- Replace the binding of a name where it is bound; a name that is not bound changes nothing. -/
def set (s : Scopes) (name : String) (b : Binding) : Scopes :=
  match setFrame? name b s.inner with
  | some inner => { s with inner }
  | none => if s.outermost.contains name then s.insertOutermost name b else s

end Scopes

end Shader
