import Shader.Table
import Shader.Ty.Basic

/-!
# The registry of built-in objects

An entry describes one kind of object: its name, how it is constructed, its fields and methods.  A
registry holds entries whose names and kinds are pairwise distinct, so that an entry can be found by
either.
-/

namespace Shader

/-- A member of a built-in object. -/
inductive Member where
  | field (ty : Ty)
  | method (signature : Signature)
deriving DecidableEq, Repr

/-- The type of an expression that names a member. -/
def Member.ty : Member → Ty
  | .field ty => ty
  | .method signature => signature.toTy

/-- How objects of an entry are constructed. -/
inductive Constructor where
  /-- Not at all: namespaces have no instances. -/
  | none
  /-- From any arguments, which are not checked. -/
  | untyped
  | typed (signature : Signature)
deriving DecidableEq, Repr

/-- One kind of built-in object. -/
structure Entry where
  name : String
  kind : Kind
  construction : Constructor
  members : Table Member

/-- The member of a name. -/
def Entry.member? (e : Entry) (name : String) : Option Member := e.members.get? name

/-- Why a list of entries is no registry. -/
inductive RegistryError where
  | duplicateName (name : String)
  | duplicateKind (kind : Kind) (first second : String)
deriving DecidableEq, Repr

/-- The message of an error. -/
def RegistryError.message : RegistryError → String
  | .duplicateName name => "registry entry `" ++ name ++ "` is defined twice"
  | .duplicateKind kind first second =>
    "registry entries `" ++ first ++ "` and `" ++ second ++ "` both claim kind `" ++ kind.name ++ "`"

/-- Built-in objects, by name and by kind. -/
structure Registry where
  entries : List Entry

namespace Registry

/-- The entry of a name. -/
def byName? (r : Registry) (name : String) : Option Entry := r.entries.find? fun e => e.name == name

/-- The entry of a kind. -/
def byKind? (r : Registry) (kind : Kind) : Option Entry := r.entries.find? fun e => e.kind == kind

/-- The registry with one more entry, whose name and kind must be new. -/
def add (r : Registry) (e : Entry) : Except RegistryError Registry :=
  match r.byName? e.name with
  | some _ => .error (.duplicateName e.name)
  | none =>
    match r.byKind? e.kind with
    | some first => .error (.duplicateKind e.kind first.name e.name)
    | none => .ok ⟨r.entries ++ [e]⟩

/-- The registry of a list of entries. -/
def ofEntries (entries : List Entry) : Except RegistryError Registry :=
  entries.foldlM add ⟨[]⟩

/-- The type of a global name.  Only namespaces are values on their own. -/
def global? (r : Registry) (name : String) : Option Ty :=
  match r.byName? name with
  | some e => if e.kind.isNamespace then some (.object e.kind) else none
  | none => none

/-- The type of a member of an object. -/
def memberTy? (r : Registry) (kind : Kind) (name : String) : Option Ty :=
  ((r.byKind? kind).bind fun e => e.member? name).map Member.ty

end Registry

end Shader
