import Mathlib.Data.List.Forall2
import Shader.Json.Value
import Shader.Proofs.Provenance

/-!
# Documents of syntax trees

A syntax tree has many ESTree documents: a place is written as a `range` or as `start` and `end`, a
missing part as null or not at all, a whole number as an integer or not, and the fields of a node
stand in any order, next to fields that say nothing about the tree.  `Program.WrittenAs` is the
relation between a program and its documents.  It asks for the fields of each node by name, which is
what leaves the order and the other fields open, and lets each node choose its own spelling.

`Program.toJson` writes one document for each way of spelling places and missing parts, and
`Program.writtenAs_toJson` says that it is one of the documents.
-/

namespace Shader

/-! ## Fields of a document -/

namespace Json

/-- A field is missing when it is not there or is null. -/
def Lacks (v : Json) (field : String) : Prop :=
  v.field? field = none ∨ v.field? field = some .null

/-- A field holds a document of some part. -/
def Holds (v : Json) (field : String) (part : Json → Prop) : Prop :=
  ∃ w, v.field? field = some w ∧ part w

/-- A field holds a document of a part that may be missing. -/
def HoldsOptional (v : Json) (field : String) : Option (Json → Prop) → Prop
  | none => v.Lacks field
  | some part => v.Holds field part

/-- A field holds an array of documents. -/
def HoldsItems (v : Json) (field : String) (parts : List Json → Prop) : Prop :=
  ∃ items, v.field? field = some (.array items) ∧ parts items

/-- The number of a source offset. -/
def ofOffset (offset : UInt32) : Json := .int offset.toNat

/-- A number.  An infinite number and `NaN` have no form of their own, and become null. -/
def ofFloat (x : Float) : Json := if h : x.isFinite = true then .real ⟨x, h⟩ else .null

/-- `v.PlacedAt span`: the place `span` is what the document `v` says about where its node was
written. -/
inductive PlacedAt (v : Json) : Option Span → Prop where
  | range {start stop : UInt32} : v.field? "range" = some (.array [ofOffset start, ofOffset stop]) →
      PlacedAt v (some ⟨start, stop⟩)
  | ends {start stop : UInt32} : v.Lacks "range" → v.field? "start" = some (ofOffset start) →
      v.field? "end" = some (ofOffset stop) → PlacedAt v (some ⟨start, stop⟩)
  | nowhere : v.Lacks "range" → v.Lacks "start" → v.Lacks "end" → PlacedAt v none

/-- `v.IsNode kind span`: the document `v` is that of a node of the given kind and place. -/
structure IsNode (v : Json) (kind : String) (span : Option Span) : Prop where
  kind : v.field? "type" = some (.string kind)
  span : v.PlacedAt span

end Json

/-! ## The documents of a tree -/

/-- The documents of a constant.  Every number that denotes the double will do. -/
def Constant.WrittenAs : Constant → Json → Prop
  | .number x, v => v.number? = some x
  | .string s, v => v = .string s
  | .bool b, v => v = .bool b

/-- The documents of a literal. -/
def Literal.WrittenAs (l : Literal) (v : Json) : Prop :=
  v.Lacks "regex" ∧ v.HoldsOptional "value" (l.value.map Constant.WrittenAs) ∧
    v.HoldsOptional "raw" (l.raw.map fun raw w => w = .string raw)

/-- The documents of a name. -/
def Ident.WrittenAs (id : Ident) (v : Json) : Prop :=
  v.IsNode "Identifier" id.span ∧ v.field? "name" = some (.string id.name)

namespace Expr

mutual

/-- The documents of an expression. -/
def WrittenAs : Expr → Json → Prop
  | .literal l span, v => v.IsNode "Literal" span ∧ l.WrittenAs v
  | .ident name span, v => Ident.WrittenAs ⟨name, span⟩ v
  | .member object property span, v =>
    v.IsNode "MemberExpression" span ∧ v.Holds "object" object.WrittenAs ∧
      (v.Lacks "computed" ∨ v.field? "computed" = some (.bool false)) ∧
      v.Holds "property" property.WrittenAs
  | .index object i span, v =>
    v.IsNode "MemberExpression" span ∧ v.Holds "object" object.WrittenAs ∧
      v.field? "computed" = some (.bool true) ∧ v.Holds "property" i.WrittenAs
  | .call callee args span, v =>
    v.IsNode "CallExpression" span ∧ v.Holds "callee" callee.WrittenAs ∧
      v.HoldsItems "arguments" (WrittenAsArgs args)
  | .construct callee args span, v =>
    v.IsNode "NewExpression" span ∧ v.Holds "callee" callee.WrittenAs ∧
      v.HoldsItems "arguments" (WrittenAsArgs args)
  | .binary op left right span, v =>
    v.IsNode "BinaryExpression" span ∧ v.field? "operator" = some (.string op.text) ∧
      v.Holds "left" left.WrittenAs ∧ v.Holds "right" right.WrittenAs
  | .logical op left right span, v =>
    v.IsNode "LogicalExpression" span ∧ v.field? "operator" = some (.string op.text) ∧
      v.Holds "left" left.WrittenAs ∧ v.Holds "right" right.WrittenAs
  | .assign op target value span, v =>
    v.IsNode "AssignmentExpression" span ∧ v.field? "operator" = some (.string op.text) ∧
      v.Holds "left" target.WrittenAs ∧ v.Holds "right" value.WrittenAs
  | .conditional test consequent alternate span, v =>
    v.IsNode "ConditionalExpression" span ∧ v.Holds "test" test.WrittenAs ∧
      v.Holds "consequent" consequent.WrittenAs ∧ v.Holds "alternate" alternate.WrittenAs
  | .unary op argument span, v =>
    v.IsNode "UnaryExpression" span ∧ v.field? "operator" = some (.string op.text) ∧
      v.Holds "argument" argument.WrittenAs
  | .unsupported kind span, v => v.IsNode kind span

/-- The documents of arguments, one for each. -/
def WrittenAsArgs : List Expr → List Json → Prop
  | [], items => items = []
  | e :: rest, items => ∃ v vs, items = v :: vs ∧ e.WrittenAs v ∧ WrittenAsArgs rest vs

end

end Expr

/-- The documents of a declarator. -/
def Declarator.WrittenAs (d : Declarator) (v : Json) : Prop :=
  v.IsNode "VariableDeclarator" d.span ∧ v.Holds "id" d.name.WrittenAs ∧
    v.HoldsOptional "init" (d.init.map Expr.WrittenAs)

namespace Stmt

mutual

/-- The documents of a statement. -/
def WrittenAs : Stmt → Json → Prop
  | .declare ds span, v =>
    v.IsNode "VariableDeclaration" span ∧
      v.HoldsItems "declarations" (List.Forall₂ Declarator.WrittenAs ds)
  | .expr e span, v => v.IsNode "ExpressionStatement" span ∧ v.Holds "expression" e.WrittenAs
  | .ret value span, v =>
    v.IsNode "ReturnStatement" span ∧ v.HoldsOptional "argument" (value.map Expr.WrittenAs)
  | .branch test consequent none span, v =>
    v.IsNode "IfStatement" span ∧ v.Holds "test" test.WrittenAs ∧
      v.Holds "consequent" consequent.WrittenAs ∧ v.Lacks "alternate"
  | .branch test consequent (some alternate) span, v =>
    v.IsNode "IfStatement" span ∧ v.Holds "test" test.WrittenAs ∧
      v.Holds "consequent" consequent.WrittenAs ∧ v.Holds "alternate" alternate.WrittenAs
  | .block body span, v => v.IsNode "BlockStatement" span ∧ v.HoldsItems "body" (WrittenAsAll body)
  | .unsupported kind span, v => v.IsNode kind span

/-- The documents of statements, one for each. -/
def WrittenAsAll : List Stmt → List Json → Prop
  | [], items => items = []
  | s :: rest, items => ∃ v vs, items = v :: vs ∧ s.WrittenAs v ∧ WrittenAsAll rest vs

end

end Stmt

/-- The documents of a function.  The tree does not tell where the block of the body stands, so that
block may stand anywhere. -/
def Function.WrittenAs (f : Function) (v : Json) : Prop :=
  v.IsNode "FunctionDeclaration" f.span ∧ v.Holds "id" f.name.WrittenAs ∧
    v.HoldsItems "params" (List.Forall₂ Ident.WrittenAs f.params) ∧
    v.Holds "body" fun w =>
      w.field? "type" = some (.string "BlockStatement") ∧
        w.HoldsItems "body" (Stmt.WrittenAsAll f.body)

/-- The documents of a program. -/
def Program.WrittenAs (p : Program) (v : Json) : Prop :=
  v.IsNode "Program" p.span ∧ v.HoldsItems "body" (List.Forall₂ Function.WrittenAs p.functions)

/-! ## Writing a document -/

/-- A way to spell what a document may say in two ways. -/
structure Spelling where
  /-- A place is written as a `range`, and not as `start` and `end`. -/
  ranges : Bool
  /-- A missing part is written as null, and not left out. -/
  nulls : Bool

namespace Spelling

/-- The fields of a place. -/
def place (w : Spelling) : Option Span → List (String × Json)
  | none => []
  | some span =>
    if w.ranges then [("range", .array [.ofOffset span.start, .ofOffset span.stop])]
    else [("start", .ofOffset span.start), ("end", .ofOffset span.stop)]

/-- The field of a part that may be missing. -/
def optional (w : Spelling) (field : String) : Option Json → List (String × Json)
  | none => if w.nulls then [(field, .null)] else []
  | some v => [(field, v)]

/-- A node with its fields. -/
def node (w : Spelling) (kind : String) (span : Option Span) (fields : List (String × Json)) :
    Json :=
  .object (("type", .string kind) :: (w.place span ++ fields))

end Spelling

/-- The value of a constant. -/
def Constant.toJson : Constant → Json
  | .number x => .ofFloat x
  | .string s => .string s
  | .bool b => .bool b

/-- A name, written down. -/
def Ident.toJson (w : Spelling) (id : Ident) : Json :=
  w.node "Identifier" id.span [("name", .string id.name)]

namespace Expr

mutual

/-- An expression, written down. -/
def toJson (w : Spelling) : Expr → Json
  | .literal l span =>
    w.node "Literal" span
      (w.optional "value" (l.value.map Constant.toJson) ++ w.optional "raw" (l.raw.map .string))
  | .ident name span => Ident.toJson w ⟨name, span⟩
  | .member object property span =>
    w.node "MemberExpression" span
      [("object", object.toJson w), ("property", property.toJson w), ("computed", .bool false)]
  | .index object i span =>
    w.node "MemberExpression" span
      [("object", object.toJson w), ("property", i.toJson w), ("computed", .bool true)]
  | .call callee args span =>
    w.node "CallExpression" span
      [("callee", callee.toJson w), ("arguments", .array (toJsonArgs w args))]
  | .construct callee args span =>
    w.node "NewExpression" span
      [("callee", callee.toJson w), ("arguments", .array (toJsonArgs w args))]
  | .binary op left right span =>
    w.node "BinaryExpression" span
      [("operator", .string op.text), ("left", left.toJson w), ("right", right.toJson w)]
  | .logical op left right span =>
    w.node "LogicalExpression" span
      [("operator", .string op.text), ("left", left.toJson w), ("right", right.toJson w)]
  | .assign op target value span =>
    w.node "AssignmentExpression" span
      [("operator", .string op.text), ("left", target.toJson w), ("right", value.toJson w)]
  | .conditional test consequent alternate span =>
    w.node "ConditionalExpression" span
      [("test", test.toJson w), ("consequent", consequent.toJson w),
        ("alternate", alternate.toJson w)]
  | .unary op argument span =>
    w.node "UnaryExpression" span
      [("operator", .string op.text), ("prefix", .bool true), ("argument", argument.toJson w)]
  | .unsupported kind span => w.node kind span []

/-- Arguments, written down. -/
def toJsonArgs (w : Spelling) : List Expr → List Json
  | [] => []
  | e :: rest => e.toJson w :: toJsonArgs w rest

end

end Expr

/-- A declarator, written down. -/
def Declarator.toJson (w : Spelling) (d : Declarator) : Json :=
  w.node "VariableDeclarator" d.span
    (("id", d.name.toJson w) :: w.optional "init" (d.init.map (Expr.toJson w)))

namespace Stmt

mutual

/-- A statement, written down. -/
def toJson (w : Spelling) : Stmt → Json
  | .declare ds span =>
    w.node "VariableDeclaration" span [("declarations", .array (ds.map (Declarator.toJson w)))]
  | .expr e span => w.node "ExpressionStatement" span [("expression", e.toJson w)]
  | .ret value span =>
    w.node "ReturnStatement" span (w.optional "argument" (value.map (Expr.toJson w)))
  | .branch test consequent none span =>
    w.node "IfStatement" span
      (("test", test.toJson w) :: ("consequent", consequent.toJson w) ::
        w.optional "alternate" none)
  | .branch test consequent (some alternate) span =>
    w.node "IfStatement" span
      [("test", test.toJson w), ("consequent", consequent.toJson w),
        ("alternate", alternate.toJson w)]
  | .block body span => w.node "BlockStatement" span [("body", .array (toJsonAll w body))]
  | .unsupported kind span => w.node kind span []

/-- Statements, written down. -/
def toJsonAll (w : Spelling) : List Stmt → List Json
  | [] => []
  | s :: rest => s.toJson w :: toJsonAll w rest

end

end Stmt

/-- A function, written down.  The place of the function stands in for that of its body. -/
def Function.toJson (w : Spelling) (f : Function) : Json :=
  w.node "FunctionDeclaration" f.span
    [("id", f.name.toJson w), ("params", .array (f.params.map (Ident.toJson w))),
      ("body", w.node "BlockStatement" f.span [("body", .array (Stmt.toJsonAll w f.body))])]

/-- A program, written down. -/
def Program.toJson (w : Spelling) (p : Program) : Json :=
  w.node "Program" p.span [("body", .array (p.functions.map (Function.toJson w)))]

/-! ## What is written is a document of the tree -/

/-- A list of fields holds what its first part holds, and else what its second part holds. -/
theorem Table.find?_append {α : Type} (name : String) (fields fields' : List (String × α)) :
    find? name (fields ++ fields') = (find? name fields).or (find? name fields') := by
  induction fields with
  | nil => rfl
  | cons pair rest ih =>
    obtain ⟨key, value⟩ := pair
    by_cases h : key = name
    · simp [find?, h]
    · simp [find?, h, ih]

namespace Spelling

variable {w : Spelling} {kind name : String} {span : Option Span} {fields : List (String × Json)}

/-- A place is written in its own fields only. -/
theorem find?_place (h : name ∉ ["range", "start", "end"]) :
    Table.find? name (w.place span) = none := by
  simp only [List.mem_cons, List.not_mem_nil, or_false, not_or] at h
  obtain ⟨hrange, hstart, hend⟩ := h
  cases span with
  | none => rfl
  | some span =>
    by_cases hw : w.ranges = true
    · simp [place, Table.find?, Ne.symm hrange, hw]
    · simp [place, Table.find?, Ne.symm hstart, Ne.symm hend, hw]

/-- A part that may be missing is written in its own field only. -/
theorem find?_optional_of_ne {field : String} (h : field ≠ name) (part : Option Json) :
    Table.find? name (w.optional field part) = none := by
  cases part with
  | none =>
    by_cases hw : w.nulls = true
    · simp [optional, Table.find?, h, hw]
    · simp [optional, Table.find?, hw]
  | some v => simp [optional, Table.find?, h]

/-- A node has its kind. -/
theorem field?_type_node : (w.node kind span fields).field? "type" = some (.string kind) := by
  simp [node, Json.field?, Table.find?]

/-- A node holds what its own fields hold, apart from the fields that every node has. -/
theorem field?_node (h : name ∉ ["type", "range", "start", "end"]) :
    (w.node kind span fields).field? name = Table.find? name fields := by
  obtain ⟨htype, hplace⟩ := not_or.1 (List.mem_cons.not.1 h)
  simp [node, Json.field?, Table.find?, Table.find?_append, find?_place hplace, Ne.symm htype]

/-- A node is placed where it says, when its own fields say nothing about that. -/
theorem isNode_node (h : ∀ name ∈ ["range", "start", "end"], Table.find? name fields = none) :
    (w.node kind span fields).IsNode kind span := by
  have hrange : Table.find? "range" fields = none := h _ (by simp)
  have hstart : Table.find? "start" fields = none := h _ (by simp)
  have hend : Table.find? "end" fields = none := h _ (by simp)
  refine ⟨field?_type_node, ?_⟩
  cases span with
  | none =>
    refine .nowhere (.inl ?_) (.inl ?_) (.inl ?_)
    · simp [node, place, Json.field?, Table.find?, hrange]
    · simp [node, place, Json.field?, Table.find?, hstart]
    · simp [node, place, Json.field?, Table.find?, hend]
  | some span =>
    by_cases hw : w.ranges = true
    · refine .range ?_
      simp [node, place, Json.field?, Table.find?, hw]
    · refine .ends (.inl ?_) ?_ ?_
      · simp [node, place, Json.field?, Table.find?, hrange, hw]
      · simp [node, place, Json.field?, Table.find?, hw]
      · simp [node, place, Json.field?, Table.find?, hw]

/-- A node holds the part in one of its own fields. -/
theorem holds_node {v : Json} {part : Json → Prop} (h : name ∉ ["type", "range", "start", "end"])
    (hfield : Table.find? name fields = some v) (hpart : part v) :
    (w.node kind span fields).Holds name part :=
  ⟨v, (field?_node h).trans hfield, hpart⟩

/-- A node holds the items in one of its own fields. -/
theorem holdsItems_node {items : List Json} {parts : List Json → Prop}
    (h : name ∉ ["type", "range", "start", "end"])
    (hfield : Table.find? name fields = some (.array items)) (hparts : parts items) :
    (w.node kind span fields).HoldsItems name parts :=
  ⟨items, (field?_node h).trans hfield, hparts⟩

/-- A node lacks a part that is written as missing. -/
theorem lacks_node (h : name ∉ ["type", "range", "start", "end"])
    (hfield : Table.find? name fields = Table.find? name (w.optional name none)) :
    (w.node kind span fields).Lacks name := by
  rw [Json.Lacks, field?_node h, hfield]
  by_cases hw : w.nulls = true
  · exact .inr (by simp [optional, Table.find?, hw])
  · exact .inl (by simp [optional, Table.find?, hw])

/-- A node holds a part that may be missing. -/
theorem holdsOptional_node {α : Type} {part : α → Json → Prop} {a? : Option α} (write : α → Json)
    (h : name ∉ ["type", "range", "start", "end"])
    (hfield : Table.find? name fields = Table.find? name (w.optional name (a?.map write)))
    (hpart : ∀ a ∈ a?, part a (write a)) :
    (w.node kind span fields).HoldsOptional name (a?.map part) := by
  cases a? with
  | none => exact lacks_node h hfield
  | some a => exact holds_node h (hfield.trans (by simp [optional, Table.find?])) (hpart a rfl)

end Spelling

/-- A literal is finite when it is not an infinite number and not `NaN`. -/
def Literal.IsFinite (l : Literal) : Prop := ∀ x, l.value = some (.number x) → x.isFinite = true

/-- A constant is written down, unless it is an infinite number or `NaN`. -/
theorem Constant.writtenAs_toJson {c : Constant} (h : ∀ x, c = .number x → x.isFinite = true) :
    c.WrittenAs c.toJson := by
  cases c with
  | number x =>
    have hx : x.isFinite = true := h x rfl
    simp [WrittenAs, toJson, Json.ofFloat, hx, Json.number?]
  | string s => rfl
  | bool b => rfl

theorem Ident.writtenAs_toJson (w : Spelling) (id : Ident) : id.WrittenAs (id.toJson w) := by
  refine ⟨Spelling.isNode_node (by simp [Table.find?]), ?_⟩
  exact Spelling.field?_node (by decide)

namespace Expr

open Spelling

mutual

/-- A written expression is a document of the expression. -/
theorem writtenAs_toJson (w : Spelling) :
    ∀ e : Expr, (∀ l ∈ e.literals, l.IsFinite) → e.WrittenAs (e.toJson w)
  | .literal l span, h => by
    have hl : l.IsFinite := h l (by simp [literals])
    rw [toJson, WrittenAs]
    refine ⟨isNode_node ?_, .inl ?_, holdsOptional_node Constant.toJson (by decide) ?_ ?_,
      holdsOptional_node Json.string (by decide) ?_ ?_⟩
    · simp [Table.find?_append, find?_optional_of_ne]
    · rw [field?_node (by decide)]
      simp [Table.find?_append, find?_optional_of_ne]
    · simp [Table.find?_append, find?_optional_of_ne]
    · intro c hc
      exact Constant.writtenAs_toJson fun x hx => hl x (by rw [← hx, hc])
    · simp [Table.find?_append, find?_optional_of_ne]
    · exact fun raw _ => rfl
  | .ident name span, _ => by
    rw [toJson, WrittenAs]
    exact Ident.writtenAs_toJson w ⟨name, span⟩
  | .member object property span, h => by
    have hobject := writtenAs_toJson w object h
    have hproperty := property.writtenAs_toJson w
    rw [toJson, WrittenAs]
    exact ⟨isNode_node (by simp [Table.find?]), holds_node (by decide) rfl hobject,
      .inr (field?_node (by decide)), holds_node (by decide) rfl hproperty⟩
  | .index object i span, h => by
    simp only [literals, List.forall_mem_append] at h
    have hobject := writtenAs_toJson w object h.1
    have hi := writtenAs_toJson w i h.2
    rw [toJson, WrittenAs]
    exact ⟨isNode_node (by simp [Table.find?]), holds_node (by decide) rfl hobject,
      field?_node (by decide), holds_node (by decide) rfl hi⟩
  | .call callee args span, h => by
    simp only [literals, List.forall_mem_append] at h
    have hcallee := writtenAs_toJson w callee h.1
    have hargs := writtenAsArgs_toJsonArgs w args h.2
    rw [toJson, WrittenAs]
    exact ⟨isNode_node (by simp [Table.find?]), holds_node (by decide) rfl hcallee,
      holdsItems_node (by decide) rfl hargs⟩
  | .construct callee args span, h => by
    simp only [literals, List.forall_mem_append] at h
    have hcallee := writtenAs_toJson w callee h.1
    have hargs := writtenAsArgs_toJsonArgs w args h.2
    rw [toJson, WrittenAs]
    exact ⟨isNode_node (by simp [Table.find?]), holds_node (by decide) rfl hcallee,
      holdsItems_node (by decide) rfl hargs⟩
  | .binary op left right span, h => by
    simp only [literals, List.forall_mem_append] at h
    have hleft := writtenAs_toJson w left h.1
    have hright := writtenAs_toJson w right h.2
    rw [toJson, WrittenAs]
    exact ⟨isNode_node (by simp [Table.find?]), field?_node (by decide),
      holds_node (by decide) rfl hleft, holds_node (by decide) rfl hright⟩
  | .logical op left right span, h => by
    simp only [literals, List.forall_mem_append] at h
    have hleft := writtenAs_toJson w left h.1
    have hright := writtenAs_toJson w right h.2
    rw [toJson, WrittenAs]
    exact ⟨isNode_node (by simp [Table.find?]), field?_node (by decide),
      holds_node (by decide) rfl hleft, holds_node (by decide) rfl hright⟩
  | .assign op target value span, h => by
    simp only [literals, List.forall_mem_append] at h
    have htarget := writtenAs_toJson w target h.1
    have hvalue := writtenAs_toJson w value h.2
    rw [toJson, WrittenAs]
    exact ⟨isNode_node (by simp [Table.find?]), field?_node (by decide),
      holds_node (by decide) rfl htarget, holds_node (by decide) rfl hvalue⟩
  | .conditional test consequent alternate span, h => by
    simp only [literals, List.forall_mem_append] at h
    have htest := writtenAs_toJson w test h.1
    have hconsequent := writtenAs_toJson w consequent h.2.1
    have halternate := writtenAs_toJson w alternate h.2.2
    rw [toJson, WrittenAs]
    exact ⟨isNode_node (by simp [Table.find?]), holds_node (by decide) rfl htest,
      holds_node (by decide) rfl hconsequent, holds_node (by decide) rfl halternate⟩
  | .unary op argument span, h => by
    have hargument := writtenAs_toJson w argument h
    rw [toJson, WrittenAs]
    exact ⟨isNode_node (by simp [Table.find?]), field?_node (by decide),
      holds_node (by decide) rfl hargument⟩
  | .unsupported kind span, _ => by
    rw [toJson, WrittenAs]
    exact isNode_node (by simp [Table.find?])

/-- Written arguments are documents of the arguments. -/
theorem writtenAsArgs_toJsonArgs (w : Spelling) :
    ∀ args : List Expr, (∀ l ∈ literalsArgs args, l.IsFinite) →
      WrittenAsArgs args (toJsonArgs w args)
  | [], _ => rfl
  | e :: rest, h => by
    simp only [literalsArgs, List.forall_mem_append] at h
    exact ⟨_, _, rfl, writtenAs_toJson w e h.1, writtenAsArgs_toJsonArgs w rest h.2⟩

end

end Expr

open Spelling in
/-- A written declarator is a document of the declarator. -/
theorem Declarator.writtenAs_toJson (w : Spelling) {d : Declarator}
    (h : ∀ e ∈ d.init, ∀ l ∈ e.literals, l.IsFinite) : d.WrittenAs (d.toJson w) := by
  refine ⟨isNode_node ?_, holds_node (by decide) rfl (d.name.writtenAs_toJson w),
    holdsOptional_node (Expr.toJson w) (by decide) ?_ fun e he => e.writtenAs_toJson w (h e he)⟩
  · simp [Table.find?, find?_optional_of_ne]
  · simp [Table.find?]

namespace Stmt

open Spelling

mutual

/-- A written statement is a document of the statement. -/
theorem writtenAs_toJson (w : Spelling) :
    ∀ st : Stmt, (∀ l ∈ st.literals, l.IsFinite) → st.WrittenAs (st.toJson w)
  | .declare ds span, h => by
    have hds : ∀ d ∈ ds, d.WrittenAs (d.toJson w) := by
      intro d hd
      refine d.writtenAs_toJson w fun e he l hl => h l ?_
      rw [literals, List.mem_flatMap]
      exact ⟨d, hd, by simpa [Option.mem_def.1 he] using hl⟩
    rw [toJson, WrittenAs]
    refine ⟨isNode_node (by simp [Table.find?]), holdsItems_node (by decide) rfl ?_⟩
    rw [List.forall₂_map_right_iff, List.forall₂_same]
    exact hds
  | .expr e span, h => by
    rw [toJson, WrittenAs]
    exact ⟨isNode_node (by simp [Table.find?]),
      holds_node (by decide) rfl (e.writtenAs_toJson w h)⟩
  | .ret value span, h => by
    rw [toJson, WrittenAs]
    refine ⟨isNode_node ?_, holdsOptional_node (Expr.toJson w) (by decide) rfl ?_⟩
    · simp [find?_optional_of_ne]
    · intro e he
      obtain rfl := Option.mem_def.1 he
      exact e.writtenAs_toJson w h
  | .branch test consequent none span, h => by
    simp only [literals, List.forall_mem_append] at h
    have htest := test.writtenAs_toJson w h.1
    have hconsequent := writtenAs_toJson w consequent h.2
    rw [toJson, WrittenAs]
    refine ⟨isNode_node ?_, holds_node (by decide) rfl htest,
      holds_node (by decide) rfl hconsequent, lacks_node (by decide) ?_⟩
    · simp [Table.find?, find?_optional_of_ne]
    · simp [Table.find?]
  | .branch test consequent (some alternate) span, h => by
    simp only [literals, List.forall_mem_append] at h
    have htest := test.writtenAs_toJson w h.1
    have hconsequent := writtenAs_toJson w consequent h.2.1
    have halternate := writtenAs_toJson w alternate h.2.2
    rw [toJson, WrittenAs]
    exact ⟨isNode_node (by simp [Table.find?]), holds_node (by decide) rfl htest,
      holds_node (by decide) rfl hconsequent, holds_node (by decide) rfl halternate⟩
  | .block body span, h => by
    rw [toJson, WrittenAs]
    exact ⟨isNode_node (by simp [Table.find?]),
      holdsItems_node (by decide) rfl (writtenAsAll_toJsonAll w body h)⟩
  | .unsupported kind span, _ => by
    rw [toJson, WrittenAs]
    exact isNode_node (by simp [Table.find?])

/-- Written statements are documents of the statements. -/
theorem writtenAsAll_toJsonAll (w : Spelling) :
    ∀ sts : List Stmt, (∀ l ∈ literalsAll sts, l.IsFinite) → WrittenAsAll sts (toJsonAll w sts)
  | [], _ => rfl
  | st :: rest, h => by
    simp only [literalsAll, List.forall_mem_append] at h
    exact ⟨_, _, rfl, writtenAs_toJson w st h.1, writtenAsAll_toJsonAll w rest h.2⟩

end

end Stmt

open Spelling in
/-- A written function is a document of the function. -/
theorem Function.writtenAs_toJson (w : Spelling) {f : Function}
    (h : ∀ l ∈ f.literals, l.IsFinite) : f.WrittenAs (f.toJson w) := by
  refine ⟨isNode_node (by simp [Table.find?]),
    holds_node (by decide) rfl (f.name.writtenAs_toJson w), holdsItems_node (by decide) rfl ?_,
    holds_node (by decide) rfl ⟨field?_type_node, holdsItems_node (by decide) rfl ?_⟩⟩
  · rw [List.forall₂_map_right_iff, List.forall₂_same]
    exact fun id _ => id.writtenAs_toJson w
  · exact Stmt.writtenAsAll_toJsonAll w f.body h

open Spelling in
/-- A written program is a document of the program. -/
theorem Program.writtenAs_toJson (w : Spelling) {p : Program}
    (h : ∀ l ∈ p.literals, l.IsFinite) : p.WrittenAs (p.toJson w) := by
  refine ⟨isNode_node (by simp [Table.find?]), holdsItems_node (by decide) rfl ?_⟩
  rw [List.forall₂_map_right_iff, List.forall₂_same]
  intro f hf
  exact f.writtenAs_toJson w fun l hl => h l (List.mem_flatMap.2 ⟨f, hf, hl⟩)

end Shader
