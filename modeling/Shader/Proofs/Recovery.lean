import Shader.Proofs.Folding
import Shader.Proofs.Grouping

/-!
# The nesting of operators is recovered from the text

The decoder of plain shapes undoes rendering.  An expression of names, members, calls and operators
is rendered without warnings, and its text is decoded to its shape, however deep its operators are
nested.

What is lost in the text is lost to values: a number stands for an expression whose value is known,
and two members with the same value have the same text (`Sample.twins_are_not_told_apart`).
Inference computes values from values only, so a value anywhere in an expression comes from a
literal, a name or a member, and it is enough to ask that none of the names and members has one.
-/

namespace Shader

/-! ## Where values come from -/

/-- Whether an ascription is that of a numeric expression with a known value. -/
def Ascription.isFolded (a : Ascription) : Bool := a.ty.isNumeric && a.value.isSome

theorem Ascription.isFolded_of_number? {a : Ascription} {x : Float} (hty : a.ty.isNumeric = true)
    (hx : a.number? = some x) : a.isFolded = true := by
  rw [isFolded, hty, number?_eq_some hx]
  rfl

/-- An operation on numbers has a known value only if its operands have. -/
theorem binaryAscription_isFolded {op : BinaryOp} {left right a : Ascription} {span : Option Span}
    (h : binaryAscription op left right span = .ok a) (ha : a.isFolded = true) :
    left.isFolded = true ∧ right.isFolded = true := by
  obtain ⟨hnumeric, hvalue⟩ := Bool.and_eq_true_iff.1 ha
  obtain ⟨v, hv⟩ := Option.isSome_iff_exists.1 hvalue
  obtain ⟨⟨hl, x, hx⟩, hr, y, hy⟩ := binaryAscription_operands h hnumeric hv
  exact ⟨Ascription.isFolded_of_number? hl hx, Ascription.isFolded_of_number? hr hy⟩

/-- A signed number has a known value only if its argument has. -/
theorem unaryAscription_isFolded {op : UnaryOp} {argument a : Ascription} {span : Option Span}
    (h : unaryAscription op argument span = .ok a) (ha : a.isFolded = true) :
    argument.isFolded = true := by
  obtain ⟨hnumeric, hvalue⟩ := Bool.and_eq_true_iff.1 ha
  obtain ⟨v, hv⟩ := Option.isSome_iff_exists.1 hvalue
  obtain ⟨hargument, y, hy⟩ := unaryAscription_operand h hnumeric hv
  exact Ascription.isFolded_of_number? hargument hy

/-- Whether an expression is a literal, a name or a member. -/
def TypedExpr.isAtom : TypedExpr → Bool
  | .literal _ _ | .ident _ _ | .member _ _ _ => true
  | _ => false

/-- An expression whose value is known has a literal, a name or a member whose value is known. -/
theorem ExprRun.exists_isFolded_atom {cx : Context} {s s' : Scopes} {e : Expr} {t : TypedExpr}
    (h : ExprRun cx s e t s') (ht : t.isFolded = true) :
    ∃ x ∈ t.all, x.isAtom = true ∧ x.isFolded = true := by
  induction h using ExprRun.induct with
  | literal | ident | member => exact ⟨_, TypedExpr.self_mem_all _, rfl, ht⟩
  | binary _ _ ha ihl _ =>
    obtain ⟨hleft, -⟩ := binaryAscription_isFolded ha ht
    obtain ⟨x, hx, hatom⟩ := ihl hleft
    exact ⟨x, List.mem_cons_of_mem _ (List.mem_append_left _ hx), hatom⟩
  | unary _ ha ih =>
    obtain ⟨x, hx, hatom⟩ := ih (unaryAscription_isFolded ha ht)
    exact ⟨x, List.mem_cons_of_mem _ hx, hatom⟩
  | call | construct | logical | assignIdent | assignMember | conditional =>
    cases (Bool.and_eq_true_iff.1 ht).2

/-- Where no literal, name or member of an inferred expression has a known value, the expression has
none. -/
theorem Function.isFolded_of_atoms {f : Function} {injections : Injections} {registry : Registry}
    {t : TypedFunction} (h : f.infer injections registry = .ok t) {e : TypedExpr}
    (he : e ∈ t.exprs) (hatoms : ∀ x ∈ e.all, x.isAtom = true → x.isFolded = false) :
    e.isFolded = false := by
  cases (Function.infer_sourced h).derived e he with
  | run hrun _ =>
    by_contra hfolded
    obtain ⟨x, hx, hatom, hvalue⟩ := hrun.exists_isFolded_atom (Bool.not_eq_false _ ▸ hfolded)
    rw [hatoms x hx hatom] at hvalue
    cases hvalue
  | target _ hnone => rw [TypedExpr.isFolded, hnone, Option.isSome_none, Bool.and_false]

/-! ## Decoding what was rendered -/

namespace TypedExpr

/-- Whether a node keeps its form in the code: it is neither a literal nor a constructor, its name
is plain, and the object of a member and the callee of a call are names, members or calls. -/
def isLegible (e : TypedExpr) : Bool := e.shape.isPlain && e.shape.isGrouped

/-- The text of a legible expression is decoded to its shape. -/
theorem decode_embree {e : TypedExpr} (hlegible : ∀ x ∈ e.all, x.isLegible = true)
    (htargets : e.shape.every Shape.hasPlaceTarget = true)
    (hfolded : ∀ x ∈ e.all, x.isFolded = false) :
    ∃ text, Dialect.embree.expr e = .ok (text, []) ∧ Shape.decode text.toList = some e.shape := by
  have hplain : e.shape.every Shape.isPlain = true :=
    every_shape fun x hx => (Bool.and_eq_true_iff.1 (hlegible x hx)).1
  have hgrouped : e.shape.every Shape.isGrouped = true :=
    every_shape fun x hx => (Bool.and_eq_true_iff.1 (hlegible x hx)).2
  refine ⟨_, embree_shape hfolded hplain, ?_⟩
  rw [String.toList_ofList]
  exact Shape.decode_chars hplain hgrouped htargets

end TypedExpr

/-- The nesting of operators is recovered from the text.  The code of any legible expression whose
targets are names and members, and in which no value takes the place of a part, is decoded to the
shape of the expression, with its names and operators.  In inferred functions all targets are names
and members, and no value takes the place of a part when no name and no member has one. -/
theorem Shape.decode_embree_expr :
    (∀ e : TypedExpr, (∀ x ∈ e.all, x.isLegible = true) →
      (∀ x ∈ e.all, x.shape.hasPlaceTarget = true) → (∀ x ∈ e.all, x.isFolded = false) →
      ∃ text, Dialect.embree.expr e = .ok (text, []) ∧ decode text.toList = some e.shape) ∧
    ∀ {f : Function} {injections : Injections} {registry : Registry} {t : TypedFunction},
      f.infer injections registry = .ok t → ∀ e ∈ t.exprs, (∀ x ∈ e.all, x.isLegible = true) →
      (∀ x ∈ e.all, x.isPlace = true → x.isFolded = false) →
      ∃ text, Dialect.embree.expr e = .ok (text, []) ∧ decode text.toList = some e.shape := by
  constructor
  · intro e hlegible htargets hfolded
    exact TypedExpr.decode_embree hlegible (TypedExpr.every_shape htargets) hfolded
  · intro f injections registry t h e he hlegible hplaces
    refine TypedExpr.decode_embree hlegible (Function.every_hasPlaceTarget h he) fun x hx => ?_
    have hmem : x ∈ t.exprs := TypedStmt.all_subset_exprsAll he x hx
    refine Function.isFolded_of_atoms h hmem fun y hy hatom => ?_
    have hpart : y ∈ e.all := TypedExpr.all_subset hx y hy
    cases y with
    | literal value m => cases hlegible _ hpart
    | ident | member => exact hplaces _ hpart rfl
    | _ => cases hatom

namespace Sample

/-- `name.r` -/
def red (name : String) : Expr := Bare.member (Bare.ident name) "r"

/-- `a = a.r > -b.r && !(a.r == b.r) ? a.scale(b.r * (a.r + b.r)) : b` -/
def choice : Expr :=
  Bare.assign .plain (Bare.ident "a")
    (Bare.conditional
      (Bare.logical .and
        (Bare.binary (.comparison .gt) (red "a") (Bare.unary .neg (red "b")))
        (Bare.unary .not (Bare.binary (.comparison .eq) (red "a") (red "b"))))
      (Bare.call (Bare.member (Bare.ident "a") "scale")
        [Bare.binary (.arithmetic .mul) (red "b")
          (Bare.binary (.arithmetic .add) (red "a") (red "b"))])
      (Bare.ident "b"))

/-- The typed form of `name.r`. -/
def typedRed (name : String) : TypedExpr := .member (typedColor name) "r" (mark .number)

/-- What inference makes of `choice`. -/
def typedChoice : TypedExpr :=
  .assign .plain (typedColor "a")
    (.conditional
      (.logical .and
        (.binary (.comparison .gt) (typedRed "a") (.unary .neg (typedRed "b") (mark .number))
          (mark .boolean))
        (.unary .not (.binary (.comparison .eq) (typedRed "a") (typedRed "b") (mark .boolean))
          (mark .boolean))
        (mark .boolean))
      (.call (.member (typedColor "a") "scale" (mark (.function [.number] 1 (.object .color))))
        [.binary (.arithmetic .mul) (typedRed "b")
          (.binary (.arithmetic .add) (typedRed "a") (typedRed "b") (mark .number)) (mark .number)]
        (mark (.object .color)))
      (typedColor "b") (mark (.object .color)))
    (mark (.object .color))

/-- The shape of an assignment with operators of all kinds below it is read off its text, also where
it is an operand of a sum that stands in no function. -/
theorem choice_is_decoded :
    ((mix choice (Bare.ident "a")).infer colors registry =
        .ok (typedMix typedChoice (typedColor "a")) ∧
      typedChoice ∈ (typedMix typedChoice (typedColor "a")).exprs ∧
      ∃ text, Dialect.embree.expr typedChoice = .ok (text, []) ∧
        Shape.decode text.toList = some typedChoice.shape) ∧
    ∃ text, Dialect.embree.expr (typedColors .add (typedColor "b") typedChoice) = .ok (text, []) ∧
      Shape.decode text.toList = some (typedColors .add (typedColor "b") typedChoice).shape := by
  have hinfer : (mix choice (Bare.ident "a")).infer colors registry =
      .ok (typedMix typedChoice (typedColor "a")) := rfl
  have hmem : typedChoice ∈ (typedMix typedChoice (typedColor "a")).exprs := List.mem_cons_self ..
  refine ⟨⟨hinfer, hmem, ?_⟩, ?_⟩
  · exact Shape.decode_embree_expr.2 hinfer _ hmem (by decide) (by decide)
  · exact Shape.decode_embree_expr.1 _ (by decide) (by decide) (by decide)

/-- A name and two of its members, whose values are the same. -/
def twins : Injections :=
  ⟨[("env", ⟨.object .float3, none⟩), ("env.x", ⟨.number, some (.number (Number.ofInt 3))⟩),
    ("env.y", ⟨.number, some (.number (Number.ofInt 3))⟩)]⟩

/-- `function pick(env) { return env.name; }` -/
def pickTwin (name : String) : Function :=
  Bare.function "pick" ["env"] [Bare.ret (some (Bare.member (Bare.ident "env") name))]

/-- The typed form of `env`. -/
def typedEnv : TypedExpr := .ident "env" (mark (.object .float3))

/-- The typed form of `env.name`. -/
def typedTwin (name : String) : TypedExpr :=
  .member typedEnv name ⟨⟨.number, some (.number (Number.ofInt 3))⟩, none⟩

/-- No decoder tells apart two members of a name that is not replaced by a value, when the members
are replaced by the same one; and none tells a name with an operator in it from an operation. -/
theorem twins_are_not_told_apart :
    (typedEnv.isFolded = false ∧
      (∃ t, (pickTwin "x").infer twins registry = .ok t ∧ typedTwin "x" ∈ t.exprs) ∧
      (∃ t, (pickTwin "y").infer twins registry = .ok t ∧ typedTwin "y" ∈ t.exprs) ∧
      ∃ text, Dialect.embree.expr (typedTwin "x") = .ok (text, []) ∧
        Dialect.embree.expr (typedTwin "y") = .ok (text, []) ∧
        ¬ ∃ decode : List Char → Option Shape,
          decode text.toList = some (typedTwin "x").shape ∧
          decode text.toList = some (typedTwin "y").shape) ∧
    ∃ text, Dialect.embree.expr (typedColor "a + b") = .ok (text, []) ∧
      Dialect.embree.expr (typedColors .add (typedColor "a") (typedColor "b")) = .ok (text, []) ∧
      ¬ ∃ decode : List Char → Option Shape,
        decode text.toList = some (typedColor "a + b").shape ∧
        decode text.toList = some (typedColors .add (typedColor "a") (typedColor "b")).shape := by
  refine ⟨⟨rfl, ⟨_, rfl, List.mem_cons_self⟩, ⟨_, rfl, List.mem_cons_self⟩, "3.0", rfl, rfl, ?_⟩,
    "a + b", rfl, rfl, ?_⟩
  · rintro ⟨decode, hx, hy⟩
    have hshapes : (typedTwin "x").shape = (typedTwin "y").shape :=
      Option.some.inj (hx.symm.trans hy)
    have hnames : "x" = "y" := (Shape.member.inj hshapes).2
    exact absurd hnames (by decide)
  · rintro ⟨decode, hname, hsum⟩
    cases hname.symm.trans hsum

end Sample

end Shader
