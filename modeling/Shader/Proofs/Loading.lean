import Shader.Proofs.Encoding
import Shader.Proofs.Location
import Shader.Proofs.WholeDouble
import Shader.Syntax.Load

/-!
# Loading reaches every syntax tree

Loading undoes writing: each document of a program loads to that program, place by place and name by
name.  `Program.WrittenAs.ofJson` says so for every program that loading can give at all.  Three
things cannot be reached.  A place that ends before it starts is dropped, a number that is infinite
or `NaN` has no document, and a node that carries the name of a kind inside the shader subset is
read as that kind; `Program.foreign` lists the nodes outside the subset.

The module says first what each way of access to a node finds, given what its fields hold, and then
goes through the tree.  `Loads read a v` is the statement at every node: the value `v` is a node,
and `read` gives `a` for it.
-/

namespace Shader

/-! ## Places and kinds of nodes -/

/-- An offset is read as it was written. -/
theorem Json.offset?_ofOffset (offset : UInt32) : (ofOffset offset).offset? = some offset := by
  have hlt := offset.toNat_lt
  have hbounds : (0 : Int) ≤ offset.toNat ∧ (offset.toNat : Int) < 4294967296 := by omega
  rw [ofOffset, offset?, if_pos hbounds]
  simp

namespace Span

variable {fields : List (String × Json)} {first second : Json} {start stop : UInt32}

/-- A range of two offsets decides the place. -/
theorem ofFields?_range (h : Table.find? "range" fields = some (.array [first, second]))
    (hfirst : first.offset? = some start) (hsecond : second.offset? = some stop) :
    ofFields? fields = ofOffsets? start stop := by
  rw [ofFields?, h]
  simp only [hfirst, hsecond]

/-- Without a range the fields `start` and `end` decide the place. -/
theorem ofFields?_of_lacks (h : (Json.object fields).Lacks "range") :
    ofFields? fields = ofEnds? fields := by
  rcases h with h | h
  · rw [ofFields?, show Table.find? "range" fields = none from h]
  · rw [ofFields?, show Table.find? "range" fields = some .null from h]

/-- Two offsets decide the place. -/
theorem ofEnds?_eq (hstart : Table.find? "start" fields = some first)
    (hstop : Table.find? "end" fields = some second) (hfirst : first.offset? = some start)
    (hsecond : second.offset? = some stop) : ofEnds? fields = ofOffsets? start stop := by
  rw [ofEnds?, hstart, hstop, Option.bind_some, Option.bind_some, hfirst, hsecond]
  rfl

/-- Without a start there is no place. -/
theorem ofEnds?_of_lacks (h : (Json.object fields).Lacks "start") : ofEnds? fields = none := by
  rcases h with h | h
  · rw [ofEnds?, show Table.find? "start" fields = none from h]
    rfl
  · rw [ofEnds?, show Table.find? "start" fields = some .null from h]
    rfl

/-- A place that is in order is read as it was written. -/
theorem ofFields?_eq {span : Option Span} (h : (Json.object fields).PlacedAt span)
    (hspan : ∀ s ∈ span, s.start ≤ s.stop) : ofFields? fields = span := by
  have hordered : ∀ start stop, span = some ⟨start, stop⟩ → ofOffsets? start stop = span := by
    rintro start stop rfl
    exact if_pos (hspan _ rfl)
  cases h with
  | range hrange =>
    rw [ofFields?_range hrange (Json.offset?_ofOffset _) (Json.offset?_ofOffset _)]
    exact hordered _ _ rfl
  | ends hrange hstart hstop =>
    rw [ofFields?_of_lacks hrange,
      ofEnds?_eq hstart hstop (Json.offset?_ofOffset _) (Json.offset?_ofOffset _)]
    exact hordered _ _ rfl
  | nowhere hrange hstart _ => rw [ofFields?_of_lacks hrange, ofEnds?_of_lacks hstart]

end Span

/-- A document with a kind is read as a node of that kind, with the fields of the document. -/
theorem Node.ofJson?_of_type {v : Json} {kind : String}
    (h : v.field? "type" = some (.string kind)) :
    ∃ n, v = .object n.fields ∧ ofJson? v = some n ∧ n.kind = kind ∧
      n.span = Span.ofFields? n.fields := by
  cases v with
  | object fields =>
    refine ⟨⟨kind, fields, Span.ofFields? fields⟩, rfl, ?_, rfl, rfl⟩
    rw [ofJson?, show Table.find? "type" fields = _ from h]
  | _ => cases h

/-- The document of a node is read as a node of that kind and place. -/
theorem Json.IsNode.ofJson? {v : Json} {kind : String} {span : Option Span}
    (h : v.IsNode kind span) (hspan : ∀ s ∈ span, s.start ≤ s.stop) :
    ∃ n, v = .object n.fields ∧ Node.ofJson? v = some n ∧ n.kind = kind ∧ n.span = span := by
  obtain ⟨n, rfl, hn, hkind, hplace⟩ := Node.ofJson?_of_type h.kind
  exact ⟨n, rfl, hn, hkind, hplace.trans (Span.ofFields?_eq h.span hspan)⟩

/-! ## What the ways of access find -/

/-- `Loads read a v`: the value `v` is a node, and `read` gives `a` for it. -/
def Loads {α : Type} (read : Node → Except LoadError α) (a : α) (v : Json) : Prop :=
  ∃ n, Node.ofJson? v = some n ∧ read n = .ok a

theorem Json.Holds.imp {v : Json} {field : String} {part part' : Json → Prop}
    (h : v.Holds field part) (hpart : ∀ w, part w → part' w) : v.Holds field part' := by
  obtain ⟨w, hw, hp⟩ := h
  exact ⟨w, hw, hpart w hp⟩

theorem Json.HoldsItems.imp {v : Json} {field : String} {parts parts' : List Json → Prop}
    (h : v.HoldsItems field parts) (hparts : ∀ items, parts items → parts' items) :
    v.HoldsItems field parts' := by
  obtain ⟨items, hitems, hp⟩ := h
  exact ⟨items, hitems, hparts items hp⟩

/-- Pairs of two lists are related in a second way, when that follows from the first way for each
item of the first list. -/
theorem forall₂_imp_of_mem {α β : Type} {r r' : α → β → Prop} {as : List α} {bs : List β}
    (h : List.Forall₂ r as bs) (hr : ∀ a ∈ as, ∀ b, r a b → r' a b) : List.Forall₂ r' as bs :=
  ((List.forall₂_and_left as bs).2 ⟨hr, h⟩).imp fun _ b hab => hab.1 b hab.2

namespace Node

variable {α : Type} {n m : Node} {field : String} {v : Json}
  {read : Node → Except LoadError α} {a : α}

/-- A step that succeeded hands its result on. -/
theorem ok_bind {β : Type} (a : α) (k : α → Except LoadError β) :
    (Except.ok a >>= k : Except LoadError β) = k a := rfl

theorem value?_eq_none (h : (Json.object n.fields).Lacks field) : n.value? field = none := by
  unfold value?
  split
  · rfl
  · rfl
  · next w hnull hw =>
    rcases h with h | h
    · cases hw.symm.trans h
    · cases hw.symm.trans h
      exact absurd rfl hnull

theorem value?_eq_some (h : (Json.object n.fields).field? field = some v) (hv : v ≠ .null) :
    ∃ hlt, n.value? field = some ⟨v, hlt⟩ := by
  refine ⟨sizeOf_find? h, ?_⟩
  unfold value?
  split
  · next hnone => cases hnone.symm.trans h
  · next hnull =>
    cases hnull.symm.trans h
    exact absurd rfl hv
  · next w _ hw =>
    cases hw.symm.trans h
    rfl

theorem value_eq_ok (h : (Json.object n.fields).field? field = some v) (hv : v ≠ .null) :
    ∃ hlt, n.value field = .ok ⟨v, hlt⟩ := by
  obtain ⟨hlt, hvalue⟩ := value?_eq_some h hv
  exact ⟨hlt, by rw [value, hvalue]⟩

theorem ne_null_of_ofJson? (h : ofJson? v = some m) : v ≠ .null := by
  rintro rfl
  cases h

theorem inner?_eq_some {w : n.Inside} (h : ofJson? w.1 = some m) :
    ∃ hlt, n.inner? w = some ⟨m, hlt⟩ := by
  refine ⟨Nat.lt_trans (weight_ofJson? h) w.2, ?_⟩
  unfold inner?
  split
  · next m' hm' =>
    cases hm'.symm.trans h
    rfl
  · next hnone => cases hnone.symm.trans h

theorem child_eq_ok (h : (Json.object n.fields).field? field = some v) (hm : ofJson? v = some m) :
    ∃ hlt, n.child field = .ok ⟨m, hlt⟩ := by
  obtain ⟨hlt, hvalue⟩ := value_eq_ok h (ne_null_of_ofJson? hm)
  obtain ⟨hlt', hinner⟩ := inner?_eq_some (w := ⟨v, hlt⟩) hm
  refine ⟨hlt', ?_⟩
  rw [child, hvalue, ok_bind, hinner]

/-- The node in a field is found. -/
theorem child_loads (h : (Json.object n.fields).Holds field (Loads read a)) :
    ∃ m, n.child field = .ok m ∧ read m.1 = .ok a := by
  obtain ⟨v, hv, m, hm, hread⟩ := h
  obtain ⟨hlt, hchild⟩ := child_eq_ok hv hm
  exact ⟨⟨m, hlt⟩, hchild, hread⟩

/-- The node in a field that may be missing is found. -/
theorem child?_loads (h : (Json.object n.fields).Holds field (Loads read a)) :
    ∃ m, n.child? field = .ok (some m) ∧ read m.1 = .ok a := by
  obtain ⟨v, hv, m, hm, hread⟩ := h
  obtain ⟨hlt, hvalue⟩ := value?_eq_some hv (ne_null_of_ofJson? hm)
  obtain ⟨hlt', hinner⟩ := inner?_eq_some (w := ⟨v, hlt⟩) hm
  refine ⟨⟨m, hlt'⟩, ?_, hread⟩
  rw [child?, hvalue]
  simp only [hinner]

/-- A missing node is found to be missing. -/
theorem child?_eq_none (h : (Json.object n.fields).Lacks field) : n.child? field = .ok none := by
  rw [child?, value?_eq_none h]

theorem string_eq_ok {s : String} (h : (Json.object n.fields).field? field = some (.string s)) :
    n.string field = .ok s := by
  obtain ⟨hlt, hvalue⟩ := value_eq_ok h nofun
  rw [string, hvalue, ok_bind]

theorem bool_eq_ok {b : Bool} (h : (Json.object n.fields).field? field = some (.bool b)) :
    n.bool field = .ok b := by
  obtain ⟨hlt, hvalue⟩ := value?_eq_some h nofun
  rw [bool, hvalue]

theorem bool_eq_false (h : (Json.object n.fields).Lacks field) : n.bool field = .ok false := by
  rw [bool, value?_eq_none h]

/-- The items of an array are found, in order. -/
theorem items_eq_ok {items : List Json}
    (h : (Json.object n.fields).field? field = some (.array items)) :
    ∃ ws : List n.Inside, n.items field = .ok ws ∧ ws.map (·.1) = items := by
  obtain ⟨hlt, hvalue⟩ := value_eq_ok h nofun
  refine ⟨_, by rw [Node.items, hvalue, ok_bind], ?_⟩
  rw [List.map_map]
  exact items.attach_map_subtype_val

/-- Items that are read one by one are read together. -/
theorem mapM_eq_ok {read : n.Inside → Except LoadError α} {as : List α} {ws : List n.Inside}
    (h : List.Forall₂ (fun a w => read w = .ok a) as ws) : ws.mapM read = .ok as := by
  induction h with
  | nil => rfl
  | cons hread _ ih =>
    rw [List.mapM_cons, hread, ok_bind, ih]
    rfl

/-- The nodes of an array are read, in order. -/
theorem mapItems_loads {as : List α}
    (h : (Json.object n.fields).HoldsItems field (List.Forall₂ (Loads read) as)) :
    n.mapItems field (fun m => read m.1) = .ok as := by
  obtain ⟨items, hitems, hall⟩ := h
  obtain ⟨ws, hws, rfl⟩ := items_eq_ok hitems
  rw [mapItems, hws, ok_bind]
  refine mapM_eq_ok ((List.forall₂_map_right_iff.1 hall).imp ?_)
  rintro a w ⟨m, hm, hread⟩
  obtain ⟨hlt, hinner⟩ := inner?_eq_some hm
  rw [item, hinner, ok_bind, hread]

end Node

/-! ## Names, operators and literals -/

theorem ArithmeticOp.ofText?_text (op : ArithmeticOp) : ofText? op.text = some op := by
  cases op <;> rfl

theorem ComparisonOp.ofText?_text (op : ComparisonOp) : ofText? op.text = some op := by
  cases op <;> rfl

/-- No comparison has the text of an arithmetic operator. -/
theorem ArithmeticOp.ofText?_comparison (op : ComparisonOp) : ofText? op.text = none := by
  cases op <;> rfl

theorem BinaryOp.ofText?_text (op : BinaryOp) : ofText? op.text = some op := by
  cases op with
  | arithmetic op => rw [text, ofText?, op.ofText?_text]
  | comparison op =>
    rw [text, ofText?, ArithmeticOp.ofText?_comparison]
    simp only [op.ofText?_text, Option.map_some]

theorem LogicalOp.ofText?_text (op : LogicalOp) : ofText? op.text = some op := by
  cases op <;> rfl

theorem AssignOp.ofText?_text (op : AssignOp) : ofText? op.text = some op := by
  cases op with
  | plain => rfl
  | compound op => cases op <;> rfl

theorem UnaryOp.ofText?_text (op : UnaryOp) : ofText? op.text = some op := by
  cases op <;> rfl

/-- The document of a name is read as that name. -/
theorem Ident.WrittenAs.ident? {id : Ident} {v : Json} (h : id.WrittenAs v)
    (hspan : ∀ s ∈ id.span, s.start ≤ s.stop) :
    ∃ n, Node.ofJson? v = some n ∧ n.ident? = some id := by
  obtain ⟨hnode, hname⟩ := h
  obtain ⟨n, rfl, hn, hkind, hspan⟩ := hnode.ofJson? hspan
  obtain ⟨hlt, hvalue⟩ := Node.value?_eq_some hname nofun
  refine ⟨n, hn, ?_⟩
  rw [Node.ident?, if_pos hkind, hvalue, hspan]

namespace Node

variable {n : Node} {field : String}

theorem ident_eq_ok {id : Ident} (h : (Json.object n.fields).Holds field id.WrittenAs)
    (hspan : ∀ s ∈ id.span, s.start ≤ s.stop) : n.ident field = .ok id := by
  obtain ⟨v, hv, hid⟩ := h
  obtain ⟨m, hm, hident⟩ := hid.ident? hspan
  obtain ⟨hlt, hchild⟩ := child_eq_ok hv hm
  rw [ident, hchild, ok_bind]
  simp only [hident]

theorem param_eq_ok {id : Ident} {w : n.Inside} (h : id.WrittenAs w.1)
    (hspan : ∀ s ∈ id.span, s.start ≤ s.stop) : n.param w = .ok id := by
  obtain ⟨m, hm, hident⟩ := h.ident? hspan
  obtain ⟨hlt, hinner⟩ := inner?_eq_some hm
  rw [param, hinner, Option.bind_some, hident]

theorem operator_eq_ok {α : Type} {ofText? : String → Option α} {text : String} {op : α}
    (h : (Json.object n.fields).field? "operator" = some (.string text))
    (hop : ofText? text = some op) : n.operator ofText? = .ok op := by
  rw [operator, string_eq_ok h, ok_bind, hop]

theorem raw?_eq {raw : Option String}
    (h : (Json.object n.fields).HoldsOptional "raw" (raw.map fun raw w => w = .string raw)) :
    n.raw? = raw := by
  cases raw with
  | none => rw [raw?, value?_eq_none h]
  | some raw =>
    obtain ⟨v, hv, rfl⟩ := h
    obtain ⟨hlt, hvalue⟩ := value?_eq_some hv nofun
    rw [raw?, hvalue]

/-- The document of a literal is read as that literal. -/
theorem literal_eq_ok {l : Literal} (h : l.WrittenAs (.object n.fields)) :
    n.literal = .ok (.literal l n.span) := by
  obtain ⟨hregex, hvalue, hraw⟩ := h
  obtain ⟨value, raw⟩ := l
  rw [literal, value?_eq_none hregex, raw?_eq hraw]
  cases value with
  | none => simp only [value?_eq_none hvalue]
  | some c =>
    obtain ⟨v, hv, hc⟩ := hvalue
    have hnull : v ≠ .null := by
      rintro rfl
      cases c <;> cases hc
    obtain ⟨hlt, hfound⟩ := value?_eq_some hv hnull
    simp only [hfound]
    -- A number may stand there in two forms, any other constant in one.
    cases c with
    | number x => cases v <;> cases hc <;> rfl
    | string s =>
      cases hc
      rfl
    | bool b =>
      cases hc
      rfl

end Node

/-! ## Nodes outside the shader subset -/

/-- A node outside the shader subset: whether it stands for an expression or for a statement, and
the name of its kind. -/
inductive Foreign where
  | expr (kind : String)
  | stmt (kind : String)
deriving DecidableEq, Repr

namespace Foreign

/-- The kinds that are read as expressions of their own. -/
def exprKinds : List String :=
  ["Literal", "Identifier", "MemberExpression", "CallExpression", "NewExpression",
    "BinaryExpression", "LogicalExpression", "AssignmentExpression", "ConditionalExpression",
    "UnaryExpression"]

/-- The kinds that are read as statements of their own, or left out. -/
def stmtKinds : List String :=
  ["VariableDeclaration", "ExpressionStatement", "ReturnStatement", "IfStatement",
    "BlockStatement", "EmptyStatement"]

/-- `x.IsKept`: the kind has no reading of its own where the node stands. -/
def IsKept : Foreign → Prop
  | .expr kind => kind ∉ exprKinds
  | .stmt kind => kind ∉ stmtKinds

instance : DecidablePred IsKept
  | .expr kind => inferInstanceAs (Decidable (kind ∉ exprKinds))
  | .stmt kind => inferInstanceAs (Decidable (kind ∉ stmtKinds))

end Foreign

namespace Expr

mutual

/-- The nodes of an expression that are outside the shader subset. -/
def foreign : Expr → List Foreign
  | .literal _ _ => []
  | .ident _ _ => []
  | .member object _ _ => object.foreign
  | .index object i _ => object.foreign ++ i.foreign
  | .call callee args _ => callee.foreign ++ foreignArgs args
  | .construct callee args _ => callee.foreign ++ foreignArgs args
  | .binary _ left right _ => left.foreign ++ right.foreign
  | .logical _ left right _ => left.foreign ++ right.foreign
  | .assign _ target value _ => target.foreign ++ value.foreign
  | .conditional test consequent alternate _ =>
    test.foreign ++ (consequent.foreign ++ alternate.foreign)
  | .unary _ argument _ => argument.foreign
  | .unsupported kind _ => [.expr kind]

/-- The nodes of arguments that are outside the shader subset. -/
def foreignArgs : List Expr → List Foreign
  | [] => []
  | e :: rest => e.foreign ++ foreignArgs rest

end

end Expr

namespace Stmt

mutual

/-- The nodes of a statement that are outside the shader subset. -/
def foreign : Stmt → List Foreign
  | .declare ds _ => ds.flatMap fun d => d.init.elim [] Expr.foreign
  | .expr e _ => e.foreign
  | .ret value _ => value.elim [] Expr.foreign
  | .branch test consequent none _ => test.foreign ++ consequent.foreign
  | .branch test consequent (some alternate) _ =>
    test.foreign ++ (consequent.foreign ++ alternate.foreign)
  | .block body _ => foreignAll body
  | .unsupported kind _ => [.stmt kind]

/-- The nodes of statements that are outside the shader subset. -/
def foreignAll : List Stmt → List Foreign
  | [] => []
  | s :: rest => s.foreign ++ foreignAll rest

end

end Stmt

/-- The nodes of a program that are outside the shader subset. -/
def Program.foreign (p : Program) : List Foreign :=
  p.functions.flatMap fun f => Stmt.foreignAll f.body

/-- The places of a program: its own and those of its functions. -/
def Program.spans (p : Program) : List (Option Span) := p.span :: p.functions.flatMap Function.spans

/-! ## Loading a tree -/

namespace Expr

mutual

/-- Each document of an expression loads to it. -/
theorem loads_of_writtenAs : ∀ (e : Expr) {v : Json}, e.WrittenAs v →
    (∀ place ∈ e.spans, ∀ s ∈ place, s.start ≤ s.stop) → (∀ x ∈ e.foreign, x.IsKept) →
    Loads Node.expr e v
  | .literal l span, v, h, hspans, _ => by
    obtain ⟨hnode, hliteral⟩ := h
    obtain ⟨n, rfl, hn, hkind, rfl⟩ := hnode.ofJson? (hspans span (by simp [spans]))
    refine ⟨n, hn, ?_⟩
    rw [Node.expr]
    simp only [hkind, Node.literal_eq_ok hliteral]
  | .ident name span, v, h, hspans, _ => by
    obtain ⟨hnode, hname⟩ := h
    obtain ⟨n, rfl, hn, hkind, rfl⟩ := hnode.ofJson? (hspans span (by simp [spans]))
    refine ⟨n, hn, ?_⟩
    rw [Node.expr]
    simp only [hkind, Node.string_eq_ok hname, Node.ok_bind]
    rfl
  | .member object property span, v, h, hspans, hforeign => by
    rw [WrittenAs] at h
    obtain ⟨hnode, hobject, hcomputed, hproperty⟩ := h
    simp only [spans, List.forall_mem_cons] at hspans
    obtain ⟨hspan, hpspan, hospans⟩ := hspans
    obtain ⟨n, rfl, hn, hkind, rfl⟩ := hnode.ofJson? hspan
    obtain ⟨m, hm, hread⟩ := Node.child_loads
      (hobject.imp fun w hw => loads_of_writtenAs object hw hospans hforeign)
    have hbool : n.bool "computed" = .ok false :=
      hcomputed.elim Node.bool_eq_false Node.bool_eq_ok
    have hident := Node.ident_eq_ok hproperty hpspan
    refine ⟨n, hn, ?_⟩
    rw [Node.expr]
    simp only [hkind, hm, hread, hbool, hident, Node.ok_bind]
    rfl
  | .index object i span, v, h, hspans, hforeign => by
    rw [WrittenAs] at h
    obtain ⟨hnode, hobject, hcomputed, hproperty⟩ := h
    simp only [spans, foreign, List.forall_mem_cons, List.forall_mem_append] at hspans hforeign
    obtain ⟨hspan, hospans, hispans⟩ := hspans
    obtain ⟨n, rfl, hn, hkind, rfl⟩ := hnode.ofJson? hspan
    obtain ⟨m, hm, hread⟩ := Node.child_loads
      (hobject.imp fun w hw => loads_of_writtenAs object hw hospans hforeign.1)
    obtain ⟨m', hm', hread'⟩ := Node.child_loads
      (hproperty.imp fun w hw => loads_of_writtenAs i hw hispans hforeign.2)
    refine ⟨n, hn, ?_⟩
    rw [Node.expr]
    simp only [hkind, hm, hread, Node.bool_eq_ok hcomputed, hm', hread', Node.ok_bind]
    rfl
  | .call callee args span, v, h, hspans, hforeign => by
    rw [WrittenAs] at h
    obtain ⟨hnode, hcallee, hargs⟩ := h
    simp only [spans, foreign, List.forall_mem_cons, List.forall_mem_append] at hspans hforeign
    obtain ⟨hspan, hcspans, haspans⟩ := hspans
    obtain ⟨n, rfl, hn, hkind, rfl⟩ := hnode.ofJson? hspan
    obtain ⟨m, hm, hread⟩ := Node.child_loads
      (hcallee.imp fun w hw => loads_of_writtenAs callee hw hcspans hforeign.1)
    have hitems := Node.mapItems_loads
      (hargs.imp fun ws hws => loads_of_writtenAsArgs args hws haspans hforeign.2)
    refine ⟨n, hn, ?_⟩
    rw [Node.expr]
    simp only [hkind, hm, hread, hitems, Node.ok_bind]
    rfl
  | .construct callee args span, v, h, hspans, hforeign => by
    rw [WrittenAs] at h
    obtain ⟨hnode, hcallee, hargs⟩ := h
    simp only [spans, foreign, List.forall_mem_cons, List.forall_mem_append] at hspans hforeign
    obtain ⟨hspan, hcspans, haspans⟩ := hspans
    obtain ⟨n, rfl, hn, hkind, rfl⟩ := hnode.ofJson? hspan
    obtain ⟨m, hm, hread⟩ := Node.child_loads
      (hcallee.imp fun w hw => loads_of_writtenAs callee hw hcspans hforeign.1)
    have hitems := Node.mapItems_loads
      (hargs.imp fun ws hws => loads_of_writtenAsArgs args hws haspans hforeign.2)
    refine ⟨n, hn, ?_⟩
    rw [Node.expr]
    simp only [hkind, hm, hread, hitems, Node.ok_bind]
    rfl
  | .binary op left right span, v, h, hspans, hforeign => by
    rw [WrittenAs] at h
    obtain ⟨hnode, hop, hleft, hright⟩ := h
    simp only [spans, foreign, List.forall_mem_cons, List.forall_mem_append] at hspans hforeign
    obtain ⟨hspan, hlspans, hrspans⟩ := hspans
    obtain ⟨n, rfl, hn, hkind, rfl⟩ := hnode.ofJson? hspan
    have hoperator := Node.operator_eq_ok hop op.ofText?_text
    obtain ⟨m, hm, hread⟩ := Node.child_loads
      (hleft.imp fun w hw => loads_of_writtenAs left hw hlspans hforeign.1)
    obtain ⟨m', hm', hread'⟩ := Node.child_loads
      (hright.imp fun w hw => loads_of_writtenAs right hw hrspans hforeign.2)
    refine ⟨n, hn, ?_⟩
    rw [Node.expr]
    simp only [hkind, hoperator, hm, hread, hm', hread', Node.ok_bind]
    rfl
  | .logical op left right span, v, h, hspans, hforeign => by
    rw [WrittenAs] at h
    obtain ⟨hnode, hop, hleft, hright⟩ := h
    simp only [spans, foreign, List.forall_mem_cons, List.forall_mem_append] at hspans hforeign
    obtain ⟨hspan, hlspans, hrspans⟩ := hspans
    obtain ⟨n, rfl, hn, hkind, rfl⟩ := hnode.ofJson? hspan
    have hoperator := Node.operator_eq_ok hop op.ofText?_text
    obtain ⟨m, hm, hread⟩ := Node.child_loads
      (hleft.imp fun w hw => loads_of_writtenAs left hw hlspans hforeign.1)
    obtain ⟨m', hm', hread'⟩ := Node.child_loads
      (hright.imp fun w hw => loads_of_writtenAs right hw hrspans hforeign.2)
    refine ⟨n, hn, ?_⟩
    rw [Node.expr]
    simp only [hkind, hoperator, hm, hread, hm', hread', Node.ok_bind]
    rfl
  | .assign op target value span, v, h, hspans, hforeign => by
    rw [WrittenAs] at h
    obtain ⟨hnode, hop, htarget, hvalue⟩ := h
    simp only [spans, foreign, List.forall_mem_cons, List.forall_mem_append] at hspans hforeign
    obtain ⟨hspan, htspans, hvspans⟩ := hspans
    obtain ⟨n, rfl, hn, hkind, rfl⟩ := hnode.ofJson? hspan
    have hoperator := Node.operator_eq_ok hop op.ofText?_text
    obtain ⟨m, hm, hread⟩ := Node.child_loads
      (htarget.imp fun w hw => loads_of_writtenAs target hw htspans hforeign.1)
    obtain ⟨m', hm', hread'⟩ := Node.child_loads
      (hvalue.imp fun w hw => loads_of_writtenAs value hw hvspans hforeign.2)
    refine ⟨n, hn, ?_⟩
    rw [Node.expr]
    simp only [hkind, hoperator, hm, hread, hm', hread', Node.ok_bind]
    rfl
  | .conditional test consequent alternate span, v, h, hspans, hforeign => by
    rw [WrittenAs] at h
    obtain ⟨hnode, htest, hconsequent, halternate⟩ := h
    simp only [spans, foreign, List.forall_mem_cons, List.forall_mem_append] at hspans hforeign
    obtain ⟨hspan, htspans, hcspans, haspans⟩ := hspans
    obtain ⟨n, rfl, hn, hkind, rfl⟩ := hnode.ofJson? hspan
    obtain ⟨m, hm, hread⟩ := Node.child_loads
      (htest.imp fun w hw => loads_of_writtenAs test hw htspans hforeign.1)
    obtain ⟨m', hm', hread'⟩ := Node.child_loads
      (hconsequent.imp fun w hw => loads_of_writtenAs consequent hw hcspans hforeign.2.1)
    obtain ⟨m'', hm'', hread''⟩ := Node.child_loads
      (halternate.imp fun w hw => loads_of_writtenAs alternate hw haspans hforeign.2.2)
    refine ⟨n, hn, ?_⟩
    rw [Node.expr]
    simp only [hkind, hm, hread, hm', hread', hm'', hread'', Node.ok_bind]
    rfl
  | .unary op argument span, v, h, hspans, hforeign => by
    rw [WrittenAs] at h
    obtain ⟨hnode, hop, hargument⟩ := h
    simp only [spans, List.forall_mem_cons] at hspans
    obtain ⟨n, rfl, hn, hkind, rfl⟩ := hnode.ofJson? hspans.1
    have hoperator := Node.operator_eq_ok hop op.ofText?_text
    obtain ⟨m, hm, hread⟩ := Node.child_loads
      (hargument.imp fun w hw => loads_of_writtenAs argument hw hspans.2 hforeign)
    refine ⟨n, hn, ?_⟩
    rw [Node.expr]
    simp only [hkind, hoperator, hm, hread, Node.ok_bind]
    rfl
  | .unsupported kind span, v, h, hspans, hforeign => by
    rw [WrittenAs] at h
    obtain ⟨n, rfl, hn, rfl, rfl⟩ := h.ofJson? (hspans span (by simp [spans]))
    have hkept : n.kind ∉ Foreign.exprKinds := hforeign (.expr n.kind) (by simp [foreign])
    refine ⟨n, hn, ?_⟩
    simp only [Foreign.exprKinds, List.mem_cons, List.not_mem_nil, not_or] at hkept
    rw [Node.expr]
    simp [hkept]

/-- Documents of arguments load to them, one by one. -/
theorem loads_of_writtenAsArgs : ∀ (args : List Expr) {items : List Json},
    WrittenAsArgs args items → (∀ place ∈ spansArgs args, ∀ s ∈ place, s.start ≤ s.stop) →
    (∀ x ∈ foreignArgs args, x.IsKept) → List.Forall₂ (Loads Node.expr) args items
  | [], items, h, _, _ => by
    rw [WrittenAsArgs] at h
    subst h
    exact .nil
  | e :: rest, items, h, hspans, hforeign => by
    rw [WrittenAsArgs] at h
    obtain ⟨v, vs, rfl, hv, hvs⟩ := h
    simp only [spansArgs, foreignArgs, List.forall_mem_append] at hspans hforeign
    exact .cons (loads_of_writtenAs e hv hspans.1 hforeign.1)
      (loads_of_writtenAsArgs rest hvs hspans.2 hforeign.2)

end

end Expr

/-- The document of an expression that may be missing loads to it. -/
theorem Node.expr?_eq_ok {n : Node} {field : String} {e? : Option Expr}
    (h : (Json.object n.fields).HoldsOptional field (e?.map Expr.WrittenAs))
    (hspans : ∀ place ∈ e?.elim [] Expr.spans, ∀ s ∈ place, s.start ≤ s.stop)
    (hforeign : ∀ x ∈ e?.elim [] Expr.foreign, x.IsKept) : n.expr? field = .ok e? := by
  cases e? with
  | none =>
    rw [expr?, child?_eq_none h]
    rfl
  | some e =>
    obtain ⟨m, hm, hread⟩ := child?_loads
      (Json.Holds.imp h fun w hw => e.loads_of_writtenAs hw hspans hforeign)
    rw [expr?, hm, ok_bind]
    simp only [hread, ok_bind]
    rfl

/-- Each document of a declarator loads to it. -/
theorem Declarator.WrittenAs.loads {d : Declarator} {v : Json} (h : d.WrittenAs v)
    (hspans : ∀ place ∈ d.spans, ∀ s ∈ place, s.start ≤ s.stop)
    (hforeign : ∀ x ∈ d.init.elim [] Expr.foreign, x.IsKept) : Loads Node.declarator d v := by
  obtain ⟨hnode, hname, hinit⟩ := h
  simp only [spans, List.forall_mem_cons] at hspans
  obtain ⟨hspan, hnspan, hispans⟩ := hspans
  obtain ⟨n, rfl, hn, -, hplace⟩ := hnode.ofJson? hspan
  refine ⟨n, hn, ?_⟩
  rw [Node.declarator, Node.ident_eq_ok hname hnspan, Node.ok_bind,
    Node.expr?_eq_ok hinit hispans hforeign, Node.ok_bind, hplace]
  rfl

/-- `st.LoadsFrom v`: the value `v` is a node that is not left out, and loads to the statement. -/
def Stmt.LoadsFrom (st : Stmt) (v : Json) : Prop :=
  ∃ n, Node.ofJson? v = some n ∧ n.kind ≠ "EmptyStatement" ∧ n.stmt = .ok st

/-- A statement that is not left out is a branch as it stands. -/
theorem Stmt.LoadsFrom.branch {st : Stmt} {v : Json} (h : st.LoadsFrom v) :
    Loads (fun n => n.branch fun _ => n.stmt) st v := by
  obtain ⟨n, hn, hkind, hstmt⟩ := h
  exact ⟨n, hn, (if_neg hkind).trans hstmt⟩

/-- The statement of an item of a block, or `none` for an item that is left out. -/
def Node.stmt? (n : Node) : Except LoadError (Option Stmt) :=
  if n.kind = "EmptyStatement" then .ok none else return some (← n.stmt)

/-- The statements of a block are read, in order. -/
theorem Node.body_eq_ok {n : Node} {body : List Stmt}
    (h : (Json.object n.fields).HoldsItems "body" (List.Forall₂ Stmt.LoadsFrom body)) :
    n.body (fun m => m.1.stmt) = .ok body := by
  have hitems : n.mapItems "body" (fun m => m.1.stmt?) = .ok (body.map some) := by
    refine mapItems_loads (h.imp fun items hall => List.forall₂_map_left_iff.2 (hall.imp ?_))
    rintro st v ⟨m, hm, hkind, hstmt⟩
    refine ⟨m, hm, ?_⟩
    rw [stmt?, if_neg hkind, hstmt]
    rfl
  calc n.body (fun m => m.1.stmt)
      = (n.mapItems "body" fun m => m.1.stmt?) >>= fun items => .ok (items.filterMap id) := rfl
    _ = .ok ((body.map some).filterMap id) := by rw [hitems, ok_bind]
    _ = .ok body := by simp

namespace Stmt

mutual

/-- Each document of a statement loads to it. -/
theorem loadsFrom_of_writtenAs (st : Stmt) {v : Json} (h : st.WrittenAs v)
    (hspans : ∀ place ∈ st.spans, ∀ s ∈ place, s.start ≤ s.stop)
    (hforeign : ∀ x ∈ st.foreign, x.IsKept) : st.LoadsFrom v := by
  match st with
  | .declare ds span =>
    rw [WrittenAs] at h
    obtain ⟨hnode, hds⟩ := h
    simp only [spans, foreign, List.forall_mem_cons] at hspans hforeign
    obtain ⟨n, rfl, hn, hkind, rfl⟩ := hnode.ofJson? hspans.1
    have hloads : ∀ d ∈ ds, ∀ v, d.WrittenAs v → Loads Node.declarator d v := by
      intro d hd v hv
      refine hv.loads (fun place hplace => hspans.2 place ?_) fun x hx => hforeign x ?_
      · exact List.mem_flatMap.2 ⟨d, hd, hplace⟩
      · exact List.mem_flatMap.2 ⟨d, hd, hx⟩
    have hitems := Node.mapItems_loads (hds.imp fun _ hall => forall₂_imp_of_mem hall hloads)
    refine ⟨n, hn, by simp [hkind], ?_⟩
    rw [Node.stmt]
    simp only [hkind, hitems, Node.ok_bind]
    rfl
  | .expr e span =>
    rw [WrittenAs] at h
    obtain ⟨hnode, he⟩ := h
    simp only [spans, foreign, List.forall_mem_cons] at hspans hforeign
    obtain ⟨n, rfl, hn, hkind, rfl⟩ := hnode.ofJson? hspans.1
    obtain ⟨m, hm, hread⟩ := Node.child_loads
      (he.imp fun w hw => e.loads_of_writtenAs hw hspans.2 hforeign)
    refine ⟨n, hn, by simp [hkind], ?_⟩
    rw [Node.stmt]
    simp only [hkind, hm, hread, Node.ok_bind]
    rfl
  | .ret value span =>
    rw [WrittenAs] at h
    obtain ⟨hnode, hvalue⟩ := h
    have hspans' : (∀ s ∈ span, s.start ≤ s.stop) ∧
        ∀ place ∈ value.elim [] Expr.spans, ∀ s ∈ place, s.start ≤ s.stop := by
      cases value <;> simpa [spans] using hspans
    rw [foreign] at hforeign
    obtain ⟨n, rfl, hn, hkind, rfl⟩ := hnode.ofJson? hspans'.1
    refine ⟨n, hn, by simp [hkind], ?_⟩
    rw [Node.stmt]
    simp only [hkind, Node.expr?_eq_ok hvalue hspans'.2 hforeign, Node.ok_bind]
    rfl
  | .branch test consequent none span =>
    rw [WrittenAs] at h
    obtain ⟨hnode, htest, hconsequent, halternate⟩ := h
    simp only [spans, foreign, List.forall_mem_cons, List.forall_mem_append] at hspans hforeign
    obtain ⟨hspan, htspans, hcspans⟩ := hspans
    obtain ⟨n, rfl, hn, hkind, rfl⟩ := hnode.ofJson? hspan
    obtain ⟨m, hm, hread⟩ := Node.child_loads
      (htest.imp fun w hw => test.loads_of_writtenAs hw htspans hforeign.1)
    obtain ⟨m', hm', hread'⟩ := Node.child_loads (hconsequent.imp fun w hw =>
      (loadsFrom_of_writtenAs consequent hw hcspans hforeign.2).branch)
    refine ⟨n, hn, by simp [hkind], ?_⟩
    rw [Node.stmt]
    simp only [hkind, hm, hread, hm', hread', Node.child?_eq_none halternate, Node.ok_bind]
    rfl
  | .branch test consequent (some alternate) span =>
    rw [WrittenAs] at h
    obtain ⟨hnode, htest, hconsequent, halternate⟩ := h
    simp only [spans, foreign, List.forall_mem_cons, List.forall_mem_append] at hspans hforeign
    obtain ⟨hspan, htspans, hcspans, haspans⟩ := hspans
    obtain ⟨n, rfl, hn, hkind, rfl⟩ := hnode.ofJson? hspan
    obtain ⟨m, hm, hread⟩ := Node.child_loads
      (htest.imp fun w hw => test.loads_of_writtenAs hw htspans hforeign.1)
    obtain ⟨m', hm', hread'⟩ := Node.child_loads (hconsequent.imp fun w hw =>
      (loadsFrom_of_writtenAs consequent hw hcspans hforeign.2.1).branch)
    obtain ⟨m'', hm'', hread''⟩ := Node.child?_loads (halternate.imp fun w hw =>
      (loadsFrom_of_writtenAs alternate hw haspans hforeign.2.2).branch)
    refine ⟨n, hn, by simp [hkind], ?_⟩
    rw [Node.stmt]
    simp only [hkind, hm, hread, hm', hread', hm'', hread'', Node.ok_bind]
    rfl
  | .block body span =>
    rw [WrittenAs] at h
    obtain ⟨hnode, hbody⟩ := h
    simp only [spans, foreign, List.forall_mem_cons] at hspans hforeign
    obtain ⟨n, rfl, hn, hkind, rfl⟩ := hnode.ofJson? hspans.1
    have hitems := Node.body_eq_ok
      (hbody.imp fun ws hws => loadsFrom_of_writtenAsAll body hws hspans.2 hforeign)
    refine ⟨n, hn, by simp [hkind], ?_⟩
    rw [Node.stmt]
    simp only [hkind, hitems, Node.ok_bind]
    rfl
  | .unsupported kind span =>
    rw [WrittenAs] at h
    obtain ⟨n, rfl, hn, rfl, rfl⟩ := h.ofJson? (hspans span (by simp [spans]))
    have hkept : n.kind ∉ Foreign.stmtKinds := hforeign (.stmt n.kind) (by simp [foreign])
    simp only [Foreign.stmtKinds, List.mem_cons, List.not_mem_nil, not_or] at hkept
    refine ⟨n, hn, by simp [hkept], ?_⟩
    rw [Node.stmt]
    simp [hkept]
termination_by (sizeOf st, 0)

/-- Documents of statements load to them, one by one. -/
theorem loadsFrom_of_writtenAsAll (sts : List Stmt) {items : List Json}
    (h : WrittenAsAll sts items)
    (hspans : ∀ place ∈ spansAll sts, ∀ s ∈ place, s.start ≤ s.stop)
    (hforeign : ∀ x ∈ foreignAll sts, x.IsKept) : List.Forall₂ LoadsFrom sts items := by
  match sts with
  | [] =>
    rw [WrittenAsAll] at h
    subst h
    exact .nil
  | st :: rest =>
    rw [WrittenAsAll] at h
    obtain ⟨v, vs, rfl, hv, hvs⟩ := h
    simp only [spansAll, foreignAll, List.forall_mem_append] at hspans hforeign
    exact .cons (loadsFrom_of_writtenAs st hv hspans.1 hforeign.1)
      (loadsFrom_of_writtenAsAll rest hvs hspans.2 hforeign.2)
termination_by (sizeOf sts, 1)

end

end Stmt

/-- Each document of a function loads to it. -/
theorem Function.WrittenAs.loads {f : Function} {v : Json} (h : f.WrittenAs v)
    (hspans : ∀ place ∈ f.spans, ∀ s ∈ place, s.start ≤ s.stop)
    (hforeign : ∀ x ∈ Stmt.foreignAll f.body, x.IsKept) : Loads Node.topLevel (some f) v := by
  obtain ⟨hnode, hname, ⟨params, hparams, hids⟩, w, hw, hblock, hbody⟩ := h
  simp only [Function.spans, List.forall_mem_cons, List.forall_mem_append, List.forall_mem_map]
    at hspans
  obtain ⟨hspan, hnspan, hpspans, hbspans⟩ := hspans
  obtain ⟨n, rfl, hn, hkind, hplace⟩ := hnode.ofJson? hspan
  obtain ⟨ws, hws, rfl⟩ := Node.items_eq_ok hparams
  have hparam : ws.mapM n.param = .ok f.params :=
    Node.mapM_eq_ok (forall₂_imp_of_mem (List.forall₂_map_right_iff.1 hids)
      fun id hid w hw => Node.param_eq_ok hw (hpspans id hid))
  obtain ⟨m, rfl, hm, hmkind, -⟩ := Node.ofJson?_of_type hblock
  obtain ⟨hlt, hchild⟩ := Node.child_eq_ok hw hm
  have hstmts := Node.body_eq_ok
    (hbody.imp fun items hitems => Stmt.loadsFrom_of_writtenAsAll f.body hitems hbspans hforeign)
  have hfunction : n.function = .ok f := by
    rw [Node.function, Node.ident_eq_ok hname hnspan]
    simp only [hws, hparam, hchild, hmkind, hstmts, hplace, Node.ok_bind, if_true]
    rfl
  refine ⟨n, hn, ?_⟩
  rw [Node.topLevel]
  simp only [hkind, hfunction, Node.ok_bind]
  rfl

/-- Each document of a program loads to it. -/
theorem Program.WrittenAs.ofJson {p : Program} {v : Json} (h : p.WrittenAs v)
    (hspans : ∀ place ∈ p.spans, ∀ s ∈ place, s.start ≤ s.stop)
    (hforeign : ∀ x ∈ p.foreign, x.IsKept) : Program.ofJson v = .ok p := by
  obtain ⟨hnode, hfunctions⟩ := h
  simp only [spans, List.forall_mem_cons] at hspans
  obtain ⟨n, rfl, hn, hkind, hplace⟩ := hnode.ofJson? hspans.1
  have hloads : ∀ f ∈ p.functions, ∀ v, f.WrittenAs v → Loads Node.topLevel (some f) v := by
    intro f hf v hv
    refine hv.loads (fun place hplace => hspans.2 place ?_) fun x hx => hforeign x ?_
    · exact List.mem_flatMap.2 ⟨f, hf, hplace⟩
    · exact List.mem_flatMap.2 ⟨f, hf, hx⟩
  have hitems : n.mapItems "body" (fun m => m.1.topLevel) = .ok (p.functions.map some) :=
    Node.mapItems_loads (hfunctions.imp fun _ hall =>
      List.forall₂_map_left_iff.2 (forall₂_imp_of_mem hall hloads))
  rw [Program.ofJson, hn]
  simp only [Node.program, hkind, hitems, hplace, Node.ok_bind, List.filterMap_map]
  exact congrArg (fun fs => Except.ok (Program.mk fs p.span)) (by simp)

/-- Loading reaches every program faithfully.  Where no place ends before it starts, no number is
infinite or `NaN`, and nodes outside the shader subset have kinds that are outside, each document
of the program loads to exactly that program; and the program has a document, in each spelling of
places and missing parts. -/
theorem Program.documents_load (p : Program)
    (hspans : ∀ place ∈ p.spans, ∀ span ∈ place, span.start ≤ span.stop)
    (hliterals : ∀ l ∈ p.literals, l.IsFinite) (hforeign : ∀ x ∈ p.foreign, x.IsKept) :
    (∀ v, p.WrittenAs v → Program.ofJson v = .ok p) ∧
      ∀ w : Spelling, p.WrittenAs (p.toJson w) ∧ Program.ofJson (p.toJson w) = .ok p := by
  refine ⟨fun v hv => hv.ofJson hspans hforeign, fun w => ?_⟩
  have hwritten := p.writtenAs_toJson w hliterals
  exact ⟨hwritten, hwritten.ofJson hspans hforeign⟩

namespace Sample

/-- `function halve(t) { for (;;) {} return t.x / 2; }` -/
def halve : Program where
  functions := [{
    name := ⟨"halve", some ⟨9, 14⟩⟩
    params := [⟨"t", none⟩]
    body := [
      .unsupported "ForStatement" (some ⟨20, 31⟩),
      .ret (some (.binary (.arithmetic .div) (.member (.ident "t" none) ⟨"x", none⟩ (some ⟨39, 42⟩))
        (.literal ⟨some (.number (Number.ofInt 2)), some "2"⟩ (some ⟨45, 46⟩)) none)) none]
    span := some ⟨0, 49⟩ }]
  span := some ⟨0, 49⟩

/-- A document of the sample program in which each node has its own spelling. -/
def halveDocument : Json :=
  .object [
    ("sourceType", .string "module"), ("type", .string "Program"), ("range", .null),
    ("start", .int 0), ("end", .int 49), ("body", .array [.object [
      ("type", .string "FunctionDeclaration"), ("range", .array [.int 0, .int 49]),
      ("id", .object [("range", .array [.int 9, .int 14]), ("name", .string "halve"),
        ("type", .string "Identifier")]),
      ("params", .array [.object [("type", .string "Identifier"), ("name", .string "t")]]),
      ("body", .object [("type", .string "BlockStatement"), ("body", .array [
        .object [("type", .string "ForStatement"), ("start", .int 20), ("end", .int 31)],
        .object [("type", .string "ReturnStatement"), ("start", .null),
          ("argument", .object [
            ("operator", .string "/"), ("type", .string "BinaryExpression"),
            ("left", .object [("type", .string "MemberExpression"),
              ("range", .array [.int 39, .int 42]),
              ("object", .object [("type", .string "Identifier"), ("name", .string "t")]),
              ("property", .object [("type", .string "Identifier"), ("name", .string "x")])]),
            ("right", .object [("type", .string "Literal"), ("start", .int 45), ("end", .int 46),
              ("value", .int 2), ("raw", .string "2")])])]])])]])]

/-- The document is one of the sample program. -/
theorem halve_writtenAs : halve.WrittenAs halveDocument := by
  refine ⟨⟨rfl, .ends (.inr rfl) rfl rfl⟩, _, rfl,
    .cons ⟨⟨rfl, .range rfl⟩, ?name, ?params, ?body⟩ .nil⟩
  case name => exact ⟨_, rfl, ⟨rfl, .range rfl⟩, rfl⟩
  case params =>
    exact ⟨_, rfl, .cons ⟨⟨rfl, .nowhere (.inl rfl) (.inl rfl) (.inl rfl)⟩, rfl⟩ .nil⟩
  case body =>
    refine ⟨_, rfl, rfl, _, rfl, _, _, rfl, ⟨rfl, .ends (.inl rfl) rfl rfl⟩, _, _, rfl, ?_, rfl⟩
    refine ⟨⟨rfl, .nowhere (.inl rfl) (.inr rfl) (.inl rfl)⟩, _, rfl, ?_⟩
    refine ⟨⟨rfl, .nowhere (.inl rfl) (.inl rfl) (.inl rfl)⟩, rfl, ⟨_, rfl, ?left⟩, _, rfl, ?right⟩
    case left =>
      exact ⟨⟨rfl, .range rfl⟩,
        ⟨_, rfl, ⟨rfl, .nowhere (.inl rfl) (.inl rfl) (.inl rfl)⟩, rfl⟩, .inl (.inl rfl),
        _, rfl, ⟨rfl, .nowhere (.inl rfl) (.inl rfl) (.inl rfl)⟩, rfl⟩
    case right =>
      exact ⟨⟨rfl, .ends (.inl rfl) rfl rfl⟩, .inl rfl, ⟨_, rfl, rfl⟩, _, rfl, rfl⟩

/-- The sample program is loaded from that document, and from what is written for it. -/
theorem halve_is_loaded :
    (∀ place ∈ halve.spans, ∀ span ∈ place, span.start ≤ span.stop) ∧
      (∀ l ∈ halve.literals, l.IsFinite) ∧ (∀ x ∈ halve.foreign, x.IsKept) ∧
      halve.WrittenAs halveDocument ∧ Program.ofJson halveDocument = .ok halve ∧
      Program.ofJson (halve.toJson ⟨true, false⟩) = .ok halve := by
  have hspans : ∀ place ∈ halve.spans, ∀ span ∈ place, span.start ≤ span.stop := by decide
  have hliterals : ∀ l ∈ halve.literals, l.IsFinite := by
    intro l hl
    obtain rfl : l = ⟨some (.number (Number.ofInt 2)), some "2"⟩ := List.mem_singleton.1 hl
    rintro x ⟨⟩
    exact Number.isFinite_of_isWhole (Number.isWhole_ofInt 2)
  have hforeign : ∀ x ∈ halve.foreign, x.IsKept := by decide
  obtain ⟨hload, hwrite⟩ := halve.documents_load hspans hliterals hforeign
  exact ⟨hspans, hliterals, hforeign, halve_writtenAs, hload _ halve_writtenAs,
    (hwrite ⟨true, false⟩).2⟩

end Sample

end Shader
