import Shader.Json.Reader
import Shader.Source.Span

/-!
# Nodes of ESTree documents

ESTree is the JSON form in which parsers hand over syntax trees: every node is an object with a
string field `type`.  This file is the access to such nodes: fields of the expected shape, spans,
and the errors for what is missing or malformed.

A value found in a field of a node is smaller than the node.  The accessors return it together with
that fact, which is what lets the readers of trees recurse.
-/

namespace Shader

/-- Why a document is no program. -/
inductive LoadError where
  /-- The text is not JSON, for a reason. -/
  | invalidJson (reason : String)
  /-- A value where a node was expected is none. -/
  | notANode (found : String)
  /-- A node lacks a field that its kind requires. -/
  | missingField (node field : String) (span : Option Span)
  /-- A field holds a value of the wrong shape. -/
  | invalidField (node field expected : String) (span : Option Span)
  /-- An operator outside the shader subset. -/
  | unsupportedOperator (node operator : String) (span : Option Span)
  /-- A statement at top level that is no function. -/
  | unexpectedTopLevel (kind : String) (span : Option Span)
deriving DecidableEq, Repr

namespace LoadError

/-- Where the offending node was written. -/
def span : LoadError → Option Span
  | .invalidJson _ => none
  | .notANode _ => none
  | .missingField _ _ s => s
  | .invalidField _ _ _ s => s
  | .unsupportedOperator _ _ s => s
  | .unexpectedTopLevel _ s => s

/-- The message of an error. -/
def message : LoadError → String
  | .invalidJson reason => "invalid ESTree JSON: " ++ reason
  | .notANode found => "expected an ESTree node, found " ++ found
  | .missingField node field _ => "`" ++ node ++ "` node is missing field `" ++ field ++ "`"
  | .invalidField node field expected _ =>
    "field `" ++ field ++ "` of `" ++ node ++ "` must be " ++ expected
  | .unsupportedOperator node operator _ =>
    "unsupported operator `" ++ operator ++ "` in `" ++ node ++ "`"
  | .unexpectedTopLevel kind _ =>
    "only function declarations may appear at top level, found `" ++ kind ++ "`"

end LoadError

namespace Json

/-- What a value that is no node is called in a message. -/
def describe : Json → String
  | .null => "null"
  | .bool _ => "a boolean"
  | .int _ => "a number"
  | .real _ => "a number"
  | .string _ => "a string"
  | .array _ => "an array"
  | .object _ => "an object without `type`"

/-- A source offset: an integer of 32 bits. -/
def offset? : Json → Option UInt32
  | .int n => if 0 ≤ n ∧ n < 4294967296 then some n.toNat.toUInt32 else none
  | _ => none

end Json

/-- The span between two offsets that are in order. -/
def Span.ofOffsets? (start stop : UInt32) : Option Span :=
  if start ≤ stop then some ⟨start, stop⟩ else none

/-- The span that the fields `start` and `end` give. -/
def Span.ofEnds? (fields : List (String × Json)) : Option Span := do
  let start ← (Table.find? "start" fields).bind Json.offset?
  let stop ← (Table.find? "end" fields).bind Json.offset?
  Span.ofOffsets? start stop

/-- The span of a node: a `range` of two offsets, or else the fields `start` and `end`. -/
def Span.ofFields? (fields : List (String × Json)) : Option Span :=
  match Table.find? "range" fields with
  | some (.array [first, second]) =>
    match first.offset?, second.offset? with
    | some start, some stop => Span.ofOffsets? start stop
    | _, _ => Span.ofEnds? fields
  | _ => Span.ofEnds? fields

/-- An object with a kind. -/
structure Node where
  kind : String
  fields : List (String × Json)
  span : Option Span

namespace Node

/-- The size of a node, which is greater than that of any value in its fields. -/
noncomputable def weight (n : Node) : Nat := sizeOf n.fields

/-- A value inside a node. -/
abbrev Inside (n : Node) : Type := { v : Json // sizeOf v < n.weight }

/-- A node inside a node. -/
abbrev Child (n : Node) : Type := { m : Node // m.weight < n.weight }

/-- A node inside a node is smaller. -/
theorem weight_child {n : Node} (m : n.Child) : m.1.weight < n.weight := m.2

/-- The value of a field is smaller than the list of fields. -/
theorem sizeOf_find? {name : String} {fields : List (String × Json)} {v : Json}
    (h : Table.find? name fields = some v) : sizeOf v < sizeOf fields := by
  induction fields with
  | nil => simp [Table.find?] at h
  | cons pair rest ih =>
    obtain ⟨key, value⟩ := pair
    simp only [Table.find?] at h
    split at h
    · cases h
      simp only [List.cons.sizeOf_spec, Prod.mk.sizeOf_spec]
      omega
    · have := ih h
      simp only [List.cons.sizeOf_spec]
      omega

/-- The node that a value is. -/
def ofJson? : Json → Option Node
  | .object fields =>
    match Table.find? "type" fields with
    | some (.string kind) => some ⟨kind, fields, Span.ofFields? fields⟩
    | _ => none
  | _ => none

/-- A node is smaller than the value it is. -/
theorem weight_ofJson? {v : Json} {n : Node} (h : ofJson? v = some n) : n.weight < sizeOf v := by
  unfold ofJson? at h
  split at h
  · split at h
    · cases h
      simp only [weight, Json.object.sizeOf_spec]
      omega
    · cases h
  · cases h

/-- The value of a field that is present and not null. -/
def value? (n : Node) (field : String) : Option n.Inside :=
  match h : Table.find? field n.fields with
  | none => none
  | some .null => none
  | some v => some ⟨v, sizeOf_find? h⟩

/-- The error for a field that is not of the expected shape. -/
def invalid (n : Node) (field expected : String) : LoadError :=
  .invalidField n.kind field expected n.span

/-- The value of a field that must be present. -/
def value (n : Node) (field : String) : Except LoadError n.Inside :=
  match n.value? field with
  | some v => .ok v
  | none => .error (.missingField n.kind field n.span)

/-- The node that a value inside a node is. -/
def inner? (n : Node) (v : n.Inside) : Option n.Child :=
  match h : ofJson? v.1 with
  | some m => some ⟨m, Nat.lt_trans (weight_ofJson? h) v.2⟩
  | none => none

/-- The node that an item of an array is. -/
def item (n : Node) (v : n.Inside) : Except LoadError n.Child :=
  match n.inner? v with
  | some m => .ok m
  | none => .error (.notANode v.1.describe)

/-- The node in a field. -/
def child (n : Node) (field : String) : Except LoadError n.Child := do
  let v ← n.value field
  match n.inner? v with
  | some m => .ok m
  | none => .error (n.invalid field "a node")

/-- The node in a field that may be missing. -/
def child? (n : Node) (field : String) : Except LoadError (Option n.Child) :=
  match n.value? field with
  | none => .ok none
  | some v =>
    match n.inner? v with
    | some m => .ok (some m)
    | none => .error (n.invalid field "a node")

/-- The string in a field. -/
def string (n : Node) (field : String) : Except LoadError String := do
  let v ← n.value field
  match v.1 with
  | .string s => .ok s
  | _ => .error (n.invalid field "a string")

/-- The boolean in a field; a missing one is false. -/
def bool (n : Node) (field : String) : Except LoadError Bool :=
  match n.value? field with
  | none => .ok false
  | some v =>
    match v.1 with
    | .bool b => .ok b
    | _ => .error (n.invalid field "a boolean")

/-- The items of an array inside a node are inside the node. -/
theorem lt_weight_of_mem {n : Node} {items : List Json} (h : sizeOf (Json.array items) < n.weight)
    {v : Json} (hv : v ∈ items) : sizeOf v < n.weight := by
  have := List.sizeOf_lt_of_mem hv
  simp only [Json.array.sizeOf_spec] at h
  omega

/-- The items of the array in a field. -/
def items (n : Node) (field : String) : Except LoadError (List n.Inside) := do
  let v ← n.value field
  match v with
  | ⟨.array items, h⟩ => .ok (items.attach.map fun w => ⟨w.1, lt_weight_of_mem h w.2⟩)
  | _ => .error (n.invalid field "an array")

/-- The array in a field, each item read as a node. -/
def mapItems {α : Type} (n : Node) (field : String) (read : n.Child → Except LoadError α) :
    Except LoadError (List α) := do
  (← n.items field).mapM fun v => do read (← n.item v)

end Node

end Shader
