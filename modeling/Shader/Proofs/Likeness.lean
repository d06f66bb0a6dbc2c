import Mathlib.Data.List.Forall2
import Shader.Proofs.Loading

/-!
# Values that loading takes for the same

Loading looks at a document through a fixed set of fields and takes a null for a missing value.  Two
values are *alike* when each reader takes them for the same, whatever else sets them apart.  The
main statement is `Json.alike_object`: objects are alike when the values in their fields are, so
likeness of documents is a matter of one node at a time.

Each reader is opened once, for a single node.  What it finds in the fields of two nodes is related:
the same error, or values alike (`ResultRel`).  The nodes among these values are alike already, so
that no reader is followed into the depth of the tree.
-/

namespace Shader

/-! ## Related results -/

theorem optionRel_cases {α β : Type} {R : α → β → Prop} {x : Option α} {y : Option β}
    (h : Option.Rel R x y) :
    (x = none ∧ y = none) ∨ ∃ a b, x = some a ∧ y = some b ∧ R a b := by
  cases h with
  | none => exact .inl ⟨rfl, rfl⟩
  | some hab => exact .inr ⟨_, _, rfl, rfl, hab⟩

/-- `ResultRel R x y`: both steps fail with the same error, or both succeed with related results. -/
inductive ResultRel {α β : Type} (R : α → β → Prop) :
    Except LoadError α → Except LoadError β → Prop where
  | error (e : LoadError) : ResultRel R (.error e) (.error e)
  | ok {a : α} {b : β} : R a b → ResultRel R (.ok a) (.ok b)

/-- What follows related steps is the same, where it is the same for related results. -/
theorem ResultRel.bind_eq {α β γ : Type} {R : α → β → Prop} {x : Except LoadError α}
    {y : Except LoadError β} {f : α → Except LoadError γ} {g : β → Except LoadError γ}
    (h : ResultRel R x y) (hfg : ∀ a b, R a b → f a = g b) : x >>= f = y >>= g := by
  cases h with
  | error e => rfl
  | ok hab => exact hfg _ _ hab

/-- Related steps after related steps are related. -/
theorem ResultRel.bind {α β γ δ : Type} {R : α → β → Prop} {S : γ → δ → Prop}
    {x : Except LoadError α} {y : Except LoadError β} {f : α → Except LoadError γ}
    {g : β → Except LoadError δ} (h : ResultRel R x y)
    (hfg : ∀ a b, R a b → ResultRel S (f a) (g b)) : ResultRel S (x >>= f) (y >>= g) := by
  cases h with
  | error e => exact .error e
  | ok hab => exact hfg _ _ hab

/-- Related lists are read alike, where related items are. -/
theorem mapM_eq_of_forall₂ {α β γ : Type} {R : α → β → Prop} {as : List α} {bs : List β}
    {f : α → Except LoadError γ} {g : β → Except LoadError γ} (h : List.Forall₂ R as bs)
    (hfg : ∀ a b, R a b → f a = g b) : as.mapM f = bs.mapM g := by
  induction h with
  | nil => rfl
  | cons hab _ ih => rw [List.mapM_cons, List.mapM_cons, hfg _ _ hab, ih]

/-! ## Likeness -/

/-- The items of the body, each read by `read`, without those that give nothing: the statements of a
block, and the functions of a program. -/
def Node.kept {α : Type} (n : Node) (read : Node → Except LoadError (Option α)) :
    Except LoadError (List α) := do
  let items ← n.mapItems "body" fun m => read m.1
  return items.filterMap id

/-- Two nodes that each reader takes for the same. -/
structure Node.Alike (n m : Node) : Prop where
  kind : n.kind = m.kind
  span : n.span = m.span
  ident? : n.ident? = m.ident?
  expr : n.expr = m.expr
  declarator : n.declarator = m.declarator
  stmt : n.stmt = m.stmt
  body : n.kept Node.stmt? = m.kept Node.stmt?
  topLevel : n.topLevel = m.topLevel
  program : n.program = m.program

theorem Node.Alike.refl (n : Node) : n.Alike n := ⟨rfl, rfl, rfl, rfl, rfl, rfl, rfl, rfl, rfl⟩

/-- Two values that are read alike: they are the same, or both arrays of such values, or both
objects that are nodes alike or no nodes at all. -/
inductive Json.Alike : Json → Json → Prop where
  | same (v : Json) : Alike v v
  | array {vs ws : List Json} : List.Forall₂ Alike vs ws → Alike (.array vs) (.array ws)
  | object {fields fields' : List (String × Json)} :
      Option.Rel Node.Alike (Node.ofJson? (.object fields)) (Node.ofJson? (.object fields')) →
      Alike (.object fields) (.object fields')

namespace Json

variable {v w : Json} {fields fields' : List (String × Json)} {name : String}

theorem Alike.describe (h : Alike v w) : v.describe = w.describe := by
  cases h <;> rfl

theorem Alike.offset? (h : Alike v w) : v.offset? = w.offset? := by
  cases h <;> rfl

theorem Alike.node (h : Alike v w) : Option.Rel Node.Alike (Node.ofJson? v) (Node.ofJson? w) := by
  cases h with
  | same =>
    cases Node.ofJson? v with
    | none => exact .none
    | some n => exact .some (.refl n)
  | array => exact .none
  | object h => exact h

/-- The value that a list of fields holds under a name, where null counts as missing. -/
def held? (name : String) (fields : List (String × Json)) : Option Json :=
  match Table.find? name fields with
  | some .null => none
  | found => found

theorem lacks_of_held? (h : held? name fields = none) : (Json.object fields).Lacks name := by
  unfold held? at h
  split at h
  · next hnull => exact .inr hnull
  · exact .inl h

theorem find?_of_held? (h : held? name fields = some v) :
    Table.find? name fields = some v ∧ v ≠ .null := by
  unfold held? at h
  split at h
  · cases h
  · next hnull =>
    refine ⟨h, ?_⟩
    rintro rfl
    exact hnull h

/-- Two lists of fields hold values alike under a name, or neither holds one. -/
def AlikeAt (fields fields' : List (String × Json)) (name : String) : Prop :=
  Option.Rel Alike (held? name fields) (held? name fields')

theorem alikeAt_of_eq (h : held? name fields = held? name fields') :
    AlikeAt fields fields' name := by
  rw [AlikeAt, h]
  cases held? name fields' with
  | none => exact .none
  | some v => exact .some (.same v)

theorem alikeAt_of_alike (hv : Table.find? name fields = some v)
    (hw : Table.find? name fields' = some w) (h : Alike v w) : AlikeAt fields fields' name := by
  cases h with
  | same => exact alikeAt_of_eq (by rw [held?, held?, hv, hw])
  | array hall =>
    rw [AlikeAt, held?, held?, hv, hw]
    exact .some (.array hall)
  | object hnode =>
    rw [AlikeAt, held?, held?, hv, hw]
    exact .some (.object hnode)

end Json

namespace Node

/-- The names of the fields that are read, the body apart. -/
def partNames : List String :=
  ["type", "range", "start", "end", "directive", "id", "params", "declarations", "init",
    "expression", "argument", "test", "consequent", "alternate", "name", "object", "computed",
    "property", "callee", "arguments", "operator", "left", "right", "regex", "value", "raw"]

/-- The names of all fields that are ever read. -/
def vocabulary : List String := "body" :: partNames

/-- Two nodes of one kind and place whose fields hold values alike, the body apart. -/
structure Agrees (n m : Node) : Prop where
  kind : n.kind = m.kind
  span : n.span = m.span
  fields : ∀ name ∈ partNames, Json.AlikeAt n.fields m.fields name

/-! ## What the ways of access find -/

section Access

variable {n m : Node} {field : String}

theorem value?_rel (h : Json.AlikeAt n.fields m.fields field) :
    Option.Rel (fun v w => Json.Alike v.1 w.1) (n.value? field) (m.value? field) := by
  rcases optionRel_cases h with ⟨hn, hm⟩ | ⟨v, w, hn, hm, halike⟩
  · rw [value?_eq_none (Json.lacks_of_held? hn), value?_eq_none (Json.lacks_of_held? hm)]
    exact .none
  · obtain ⟨hfound, hv⟩ := Json.find?_of_held? hn
    obtain ⟨hfound', hw⟩ := Json.find?_of_held? hm
    obtain ⟨_, hvalue⟩ := value?_eq_some hfound hv
    obtain ⟨_, hvalue'⟩ := value?_eq_some hfound' hw
    rw [hvalue, hvalue']
    exact .some halike

theorem inner?_eq_none {v : n.Inside} (h : ofJson? v.1 = none) : n.inner? v = none := by
  unfold inner?
  split
  · next m hm => cases hm.symm.trans h
  · rfl

theorem inner?_rel {v : n.Inside} {w : m.Inside} (h : Json.Alike v.1 w.1) :
    Option.Rel (fun a b => Alike a.1 b.1) (n.inner? v) (m.inner? w) := by
  rcases optionRel_cases h.node with ⟨hv, hw⟩ | ⟨a, b, hv, hw, halike⟩
  · rw [inner?_eq_none hv, inner?_eq_none hw]
    exact .none
  · obtain ⟨_, hinner⟩ := inner?_eq_some hv
    obtain ⟨_, hinner'⟩ := inner?_eq_some hw
    rw [hinner, hinner']
    exact .some halike

theorem item_rel {v : n.Inside} {w : m.Inside} (h : Json.Alike v.1 w.1) :
    ResultRel (fun a b => Alike a.1 b.1) (n.item v) (m.item w) := by
  rcases optionRel_cases (inner?_rel h) with ⟨hv, hw⟩ | ⟨a, b, hv, hw, halike⟩
  · rw [item, item, hv, hw, h.describe]
    exact .error _
  · rw [item, item, hv, hw]
    exact .ok halike

/-- The items of arrays alike are alike. -/
theorem forall₂_inside {vs ws : List Json} (h : List.Forall₂ Json.Alike vs ws)
    (hvs : sizeOf (Json.array vs) < n.weight) (hws : sizeOf (Json.array ws) < m.weight) :
    List.Forall₂ (fun v w => Json.Alike v.1 w.1)
      (vs.attach.map fun v => (⟨v.1, lt_weight_of_mem hvs v.2⟩ : n.Inside))
      (ws.attach.map fun w => (⟨w.1, lt_weight_of_mem hws w.2⟩ : m.Inside)) := by
  rw [List.forall₂_map_left_iff, List.forall₂_map_right_iff]
  refine List.forall₂_map_left_iff.1 (List.forall₂_map_right_iff.1 ?_)
  rwa [List.attach_map_subtype_val, List.attach_map_subtype_val]

/-- A string that need not be there is the same in both places. -/
theorem text?_eq {α : Type} (h : Json.AlikeAt n.fields m.fields field) (f : String → α) :
    (match n.value? field with
      | some ⟨.string s, _⟩ => some (f s)
      | _ => none) =
    (match m.value? field with
      | some ⟨.string s, _⟩ => some (f s)
      | _ => none) := by
  rcases optionRel_cases (value?_rel h) with ⟨hn, hm⟩ | ⟨⟨v, _⟩, ⟨w, _⟩, hn, hm, halike⟩
  · rw [hn, hm]
  · rw [hn, hm]
    cases halike with
    | same => cases v <;> rfl
    | array _ => rfl
    | object _ => rfl

theorem Agrees.invalid (h : n.Agrees m) (expected : String) :
    n.invalid field expected = m.invalid field expected := by
  rw [Node.invalid, Node.invalid, h.kind, h.span]

variable (h : n.Agrees m) (hfield : Json.AlikeAt n.fields m.fields field)

include h hfield

theorem value_rel :
    ResultRel (fun v w => Json.Alike v.1 w.1) (n.value field) (m.value field) := by
  rcases optionRel_cases (value?_rel hfield) with ⟨hn, hm⟩ | ⟨v, w, hn, hm, halike⟩
  · rw [value, value, hn, hm, h.kind, h.span]
    exact .error _
  · rw [value, value, hn, hm]
    exact .ok halike

theorem child_rel : ResultRel (fun a b => Alike a.1 b.1) (n.child field) (m.child field) := by
  refine (value_rel h hfield).bind fun v w halike => ?_
  rcases optionRel_cases (inner?_rel halike) with ⟨hv, hw⟩ | ⟨a, b, hv, hw, hnode⟩
  · rw [hv, hw, h.invalid]
    exact .error _
  · rw [hv, hw]
    exact .ok hnode

theorem child?_rel :
    ResultRel (Option.Rel fun a b => Alike a.1 b.1) (n.child? field) (m.child? field) := by
  rcases optionRel_cases (value?_rel hfield) with ⟨hn, hm⟩ | ⟨v, w, hn, hm, halike⟩
  · rw [child?, child?, hn, hm]
    exact .ok .none
  · rw [child?, child?, hn, hm]
    rcases optionRel_cases (inner?_rel halike) with ⟨hv, hw⟩ | ⟨a, b, hv, hw, hnode⟩
    · simp only [hv, hw]
      rw [h.invalid]
      exact .error _
    · simp only [hv, hw]
      exact .ok (.some hnode)

theorem string_eq : n.string field = m.string field := by
  refine (value_rel h hfield).bind_eq ?_
  rintro ⟨v, _⟩ ⟨w, _⟩ halike
  rw [h.invalid]
  cases halike with
  | same => rfl
  | array _ => rfl
  | object _ => rfl

theorem bool_eq : n.bool field = m.bool field := by
  rcases optionRel_cases (value?_rel hfield) with ⟨hn, hm⟩ | ⟨⟨v, _⟩, ⟨w, _⟩, hn, hm, halike⟩
  · rw [bool, bool, hn, hm]
  · rw [bool, bool, hn, hm, h.invalid]
    cases halike with
    | same => rfl
    | array _ => rfl
    | object _ => rfl

theorem items_rel :
    ResultRel (List.Forall₂ fun v w => Json.Alike v.1 w.1) (n.items field) (m.items field) := by
  refine (value_rel h hfield).bind ?_
  rintro ⟨v, hv⟩ ⟨w, hw⟩ halike
  rw [h.invalid]
  cases halike with
  | same =>
    cases v with
    | array vs => exact .ok (forall₂_inside (List.forall₂_same.2 fun v _ => .same v) hv hw)
    | _ => exact .error _
  | array hall => exact .ok (forall₂_inside hall hv hw)
  | object _ => exact .error _

/-- Arrays are read alike, where nodes alike are. -/
theorem mapItems_eq {α : Type} {read read' : Node → Except LoadError α}
    (hread : ∀ a b, Alike a b → read a = read' b) :
    n.mapItems field (fun a => read a.1) = m.mapItems field (fun b => read' b.1) := by
  refine (items_rel h hfield).bind_eq fun vs ws hall => ?_
  refine mapM_eq_of_forall₂ hall fun v w halike => ?_
  exact (item_rel halike).bind_eq fun a b hnode => hread _ _ hnode

theorem ident_eq : n.ident field = m.ident field := by
  refine (child_rel h hfield).bind_eq fun a b hnode => ?_
  rw [hnode.ident?, h.invalid]

theorem expr?_eq : n.expr? field = m.expr? field := by
  refine (child?_rel h hfield).bind_eq fun a b hnode => ?_
  cases hnode with
  | none => rfl
  | some hnode =>
    simp only
    rw [hnode.expr]

end Access

/-! ## Readers of names and expressions -/

section Readers

variable {n m : Node} (h : n.Agrees m)

include h

theorem Agrees.operator {α : Type} (ofText? : String → Option α) :
    n.operator ofText? = m.operator ofText? := by
  rw [Node.operator, Node.operator, string_eq h (h.fields "operator" (by decide)), h.kind, h.span]

theorem Agrees.ident? : n.ident? = m.ident? := by
  unfold Node.ident?
  rw [h.kind, h.span]
  exact ite_congr rfl (fun _ => text?_eq (h.fields "name" (by decide)) _) fun _ => rfl

theorem Agrees.raw? : n.raw? = m.raw? := text?_eq (h.fields "raw" (by decide)) _

theorem Agrees.literal : n.literal = m.literal := by
  unfold Node.literal
  rw [h.raw?, h.span, h.invalid]
  rcases optionRel_cases (value?_rel (h.fields "regex" (by decide))) with
    ⟨hn, hm⟩ | ⟨_, _, hn, hm, -⟩
  · rw [hn, hm]
    rcases optionRel_cases (value?_rel (h.fields "value" (by decide))) with
      ⟨hn, hm⟩ | ⟨⟨v, _⟩, ⟨w, _⟩, hn, hm, halike⟩
    · rw [hn, hm]
    · rw [hn, hm]
      cases halike with
      | same => rfl
      | array _ => rfl
      | object _ => rfl
  · rw [hn, hm]

/-- The expression in a field is read alike, and what follows it. -/
theorem Agrees.childExpr {α : Type} {field : String} (hfield : field ∈ partNames)
    {k k' : Expr → Except LoadError α} (hk : ∀ e, k e = k' e) :
    (n.child field >>= fun c => c.1.expr >>= k) = (m.child field >>= fun c => c.1.expr >>= k') := by
  refine (child_rel h (h.fields field hfield)).bind_eq fun a b hnode => ?_
  rw [hnode.expr]
  exact bind_congr hk

theorem Agrees.args :
    (n.mapItems "arguments" fun c => c.1.expr) = m.mapItems "arguments" fun c => c.1.expr :=
  mapItems_eq h (h.fields "arguments" (by decide)) fun _ _ hnode => hnode.expr

theorem Agrees.expr : n.expr = m.expr := by
  rw [Node.expr.eq_def n, Node.expr.eq_def m, h.kind, h.span]
  -- One case for each kind of expression, in the order of the reader.
  split
  · exact h.literal
  · rw [string_eq h (h.fields "name" (by decide))]
  · refine h.childExpr (by decide) fun object => ?_
    rw [bool_eq h (h.fields "computed" (by decide)), ident_eq h (h.fields "property" (by decide))]
    refine bind_congr fun computed => ?_
    cases computed with
    | true => exact h.childExpr (by decide) fun _ => rfl
    | false => rfl
  · refine h.childExpr (by decide) fun callee => ?_
    rw [h.args]
  · refine h.childExpr (by decide) fun callee => ?_
    rw [h.args]
  · rw [h.operator]
    refine bind_congr fun op => h.childExpr (by decide) fun left => ?_
    exact h.childExpr (by decide) fun _ => rfl
  · rw [h.operator]
    refine bind_congr fun op => h.childExpr (by decide) fun left => ?_
    exact h.childExpr (by decide) fun _ => rfl
  · rw [h.operator]
    refine bind_congr fun op => h.childExpr (by decide) fun target => ?_
    exact h.childExpr (by decide) fun _ => rfl
  · refine h.childExpr (by decide) fun test => h.childExpr (by decide) fun consequent => ?_
    exact h.childExpr (by decide) fun _ => rfl
  · rw [h.operator]
    exact bind_congr fun op => h.childExpr (by decide) fun _ => rfl
  · rfl

theorem Agrees.declarator : n.declarator = m.declarator := by
  rw [Node.declarator, Node.declarator, ident_eq h (h.fields "id" (by decide)),
    expr?_eq h (h.fields "init" (by decide)), h.span]

theorem Agrees.params :
    (n.items "params" >>= fun vs => vs.mapM n.param) =
      m.items "params" >>= fun ws => ws.mapM m.param := by
  refine (items_rel h (h.fields "params" (by decide))).bind_eq fun vs ws hall => ?_
  refine mapM_eq_of_forall₂ hall fun v w halike => ?_
  rcases optionRel_cases (inner?_rel halike) with ⟨hv, hw⟩ | ⟨a, b, hv, hw, hnode⟩
  · rw [param, param, hv, hw, h.invalid]
    rfl
  · rw [param, param, hv, hw, h.invalid, Option.bind_some, Option.bind_some, hnode.ident?]

end Readers

/-! ## Readers of statements and functions -/

/-- A branch is read alike, as nodes alike are empty statements both or neither. -/
theorem Alike.branch {n m : Node} (h : n.Alike m) :
    (n.branch fun _ => n.stmt) = m.branch fun _ => m.stmt := by
  rw [Node.branch, Node.branch, h.kind, h.span, h.stmt]

theorem body_eq_kept (n : Node) : n.body (fun c => c.1.stmt) = n.kept Node.stmt? := rfl

theorem functions_eq_kept (n : Node) (span : Option Span) :
    (n.mapItems "body" (fun c => c.1.topLevel) >>= fun functions =>
      (return ⟨functions.filterMap id, span⟩ : Except LoadError Program)) =
      n.kept Node.topLevel >>= fun functions => return ⟨functions, span⟩ := by
  rw [kept, bind_assoc]
  rfl

/-- Two nodes whose bodies are read alike: as a node, as a list of statements and as a list of
functions. -/
structure BodyAgrees (n m : Node) : Prop where
  child : ResultRel (fun a b => Alike a.1 b.1) (n.child "body") (m.child "body")
  stmts : n.kept Node.stmt? = m.kept Node.stmt?
  functions : n.kept Node.topLevel = m.kept Node.topLevel

/-- Bodies that hold values alike are read alike. -/
theorem BodyAgrees.of_alikeAt {n m : Node} (h : n.Agrees m)
    (hbody : Json.AlikeAt n.fields m.fields "body") : n.BodyAgrees m where
  child := child_rel h hbody
  stmts := by
    rw [kept, kept, mapItems_eq h hbody fun a b hnode => ?_]
    rw [stmt?, stmt?, hnode.kind, hnode.stmt]
  functions := by
    rw [kept, kept, mapItems_eq h hbody fun a b hnode => hnode.topLevel]

section Bodies

variable {n m : Node} (h : n.Agrees m) (hbody : n.BodyAgrees m)

include h hbody

theorem Agrees.stmt : n.stmt = m.stmt := by
  rw [Node.stmt.eq_def n, Node.stmt.eq_def m, h.kind, h.span]
  split
  · rw [mapItems_eq h (h.fields "declarations" (by decide)) fun _ _ hnode => hnode.declarator]
  · exact h.childExpr (by decide) fun _ => rfl
  · rw [expr?_eq h (h.fields "argument" (by decide))]
  · refine h.childExpr (by decide) fun test => ?_
    refine (child_rel h (h.fields "consequent" (by decide))).bind_eq fun a b hnode => ?_
    rw [hnode.branch]
    refine bind_congr fun consequent => ?_
    refine (child?_rel h (h.fields "alternate" (by decide))).bind_eq fun a b hnode => ?_
    cases hnode with
    | none => rfl
    | some hnode =>
      simp only
      rw [hnode.branch]
  · rw [body_eq_kept, body_eq_kept, hbody.stmts]
  · rfl

theorem Agrees.function : n.function = m.function := by
  unfold Node.function
  rw [ident_eq h (h.fields "id" (by decide))]
  refine bind_congr fun name => ?_
  rw [← bind_assoc, ← bind_assoc, h.params]
  refine bind_congr fun params => hbody.child.bind_eq fun a b hnode => ?_
  rw [body_eq_kept, body_eq_kept, hnode.body, hnode.kind, h.span, h.invalid]

theorem Agrees.topLevel : n.topLevel = m.topLevel := by
  have hdirective : (n.value? "directive").isSome = (m.value? "directive").isSome := by
    rcases optionRel_cases (value?_rel (h.fields "directive" (by decide))) with
      ⟨hn, hm⟩ | ⟨_, _, hn, hm, -⟩
    · rw [hn, hm]
      rfl
    · rw [hn, hm]
      rfl
  unfold Node.topLevel
  rw [h.kind, h.span, h.function hbody, hdirective]

theorem Agrees.program : n.program = m.program := by
  unfold Node.program
  rw [h.kind, h.span, h.function hbody]
  split
  · rw [functions_eq_kept, functions_eq_kept, hbody.functions]
  · rfl
  · rfl

/-- Nodes that agree are alike. -/
theorem Agrees.alike : n.Alike m where
  kind := h.kind
  span := h.span
  ident? := h.ident?
  expr := h.expr
  declarator := h.declarator
  stmt := h.stmt hbody
  body := hbody.stmts
  topLevel := h.topLevel hbody
  program := h.program hbody

end Bodies

end Node

/-! ## Places -/

namespace Span

variable {fields fields' : List (String × Json)}

theorem bind_offset?_eq {name : String} (h : Json.AlikeAt fields fields' name) :
    (Table.find? name fields).bind Json.offset? = (Table.find? name fields').bind Json.offset? := by
  have hheld : ∀ fields : List (String × Json),
      (Table.find? name fields).bind Json.offset? = (Json.held? name fields).bind Json.offset? := by
    intro fields
    unfold Json.held?
    split
    · next hnull =>
      rw [hnull]
      rfl
    · rfl
  rw [hheld, hheld]
  rcases optionRel_cases h with ⟨hn, hm⟩ | ⟨v, w, hn, hm, halike⟩
  · rw [hn, hm]
  · rw [hn, hm]
    exact halike.offset?

/-- The place that the value of a range gives, or else `ends`. -/
def ofRange? (range : Option Json) (ends : Option Span) : Option Span :=
  match range with
  | some (.array [first, second]) =>
    match first.offset?, second.offset? with
    | some start, some stop => ofOffsets? start stop
    | _, _ => ends
  | _ => ends

theorem ofFields?_eq_ofRange? :
    ofFields? fields = ofRange? (Json.held? "range" fields) (ofEnds? fields) := by
  unfold Json.held?
  split
  · next hnull =>
    rw [ofFields?, hnull]
    rfl
  · rfl

/-- Ranges that are alike give the same place. -/
theorem ofRange?_eq {v w : Json} (h : v.Alike w) (ends : Option Span) :
    ofRange? (some v) ends = ofRange? (some w) ends := by
  cases h with
  | same => rfl
  | object _ => rfl
  | array hall =>
    match hall with
    | .nil => rfl
    | .cons _ .nil => rfl
    | .cons hfirst (.cons hsecond .nil) =>
      rw [ofRange?, ofRange?, hfirst.offset?, hsecond.offset?]
    | .cons _ (.cons _ (.cons _ _)) => rfl

/-- Fields that hold values alike give the same place. -/
theorem ofFields?_eq_of_alikeAt (h : ∀ name ∈ Node.partNames, Json.AlikeAt fields fields' name) :
    ofFields? fields = ofFields? fields' := by
  have hends : ofEnds? fields = ofEnds? fields' := by
    rw [ofEnds?, ofEnds?, bind_offset?_eq (h "start" (by decide)),
      bind_offset?_eq (h "end" (by decide))]
  rw [ofFields?_eq_ofRange?, ofFields?_eq_ofRange?, hends]
  rcases optionRel_cases (h "range" (by decide)) with ⟨hn, hm⟩ | ⟨v, w, hn, hm, halike⟩
  · rw [hn, hm]
  · rw [hn, hm, ofRange?_eq halike]

end Span

/-! ## Objects -/

namespace Json

variable {fields fields' : List (String × Json)}

theorem ofJson?_eq_held? : Node.ofJson? (.object fields) =
    match held? "type" fields with
    | some (.string kind) => some ⟨kind, fields, Span.ofFields? fields⟩
    | _ => none := by
  rw [Node.ofJson?, held?]
  cases Table.find? "type" fields with
  | none => rfl
  | some v => cases v <;> rfl

/-- Objects whose fields hold values alike are alike, where their bodies are. -/
theorem alike_object (h : ∀ name ∈ Node.partNames, AlikeAt fields fields' name)
    (hbody : ∀ n m : Node, n.fields = fields → m.fields = fields' → n.Agrees m → n.BodyAgrees m) :
    Alike (.object fields) (.object fields') := by
  have hnode : ∀ kind, (Node.mk kind fields (Span.ofFields? fields)).Alike
      ⟨kind, fields', Span.ofFields? fields'⟩ := by
    intro kind
    have hagrees : (Node.mk kind fields (Span.ofFields? fields)).Agrees
        ⟨kind, fields', Span.ofFields? fields'⟩ := ⟨rfl, Span.ofFields?_eq_of_alikeAt h, h⟩
    exact hagrees.alike (hbody _ _ rfl rfl hagrees)
  refine .object ?_
  rw [ofJson?_eq_held?, ofJson?_eq_held?]
  rcases optionRel_cases (h "type" (by decide)) with ⟨hn, hm⟩ | ⟨v, w, hn, hm, halike⟩
  · rw [hn, hm]
    exact .none
  · rw [hn, hm]
    cases halike with
    | array _ => exact .none
    | object _ => exact .none
    | same =>
      cases v with
      | string kind => exact .some (hnode kind)
      | _ => exact .none

/-- Objects that hold values alike under all names that are read are alike. -/
theorem alike_object_of_vocabulary (h : ∀ name ∈ Node.vocabulary, AlikeAt fields fields' name) :
    Alike (.object fields) (.object fields') := by
  rw [Node.vocabulary, List.forall_mem_cons] at h
  refine alike_object h.2 ?_
  rintro n m rfl rfl hagrees
  exact .of_alikeAt hagrees h.1

/-- Values alike load alike. -/
theorem Alike.ofJson_eq {v w : Json} (h : Alike v w) : Program.ofJson v = Program.ofJson w := by
  rw [Program.ofJson, Program.ofJson, h.describe]
  rcases optionRel_cases h.node with ⟨hv, hw⟩ | ⟨n, m, hv, hw, halike⟩
  · rw [hv, hw]
  · rw [hv, hw]
    exact halike.program

end Json

end Shader
