import Shader.Proofs.Judgement
import Shader.Proofs.Provenance

/-!
# Operands of operators

Namespaces and references to methods are there to be read and to be called, not to be computed with.
Arithmetic, comparisons, connectives, signs and compound assignments each check the types of their
operands, in five different places.  The negation `!` does not: it takes anything that has a type.

So an operand of such a type stands under `!` and nowhere else
(`Function.operand_of_refers`), and under `!` it always may stand.
-/

namespace Shader

namespace Ty

/-- `ty.Refers`: values of the type `ty` are references to methods, or namespaces. -/
inductive Refers : Ty → Prop where
  | method {params : List Ty} {required : Nat} {result : Ty} :
      Refers (.function params required result)
  | math : Refers (.object .math)
  | shade : Refers (.object .shade)
  | system : Refers (.object .system)
  | record : Refers (.object .record)

/-- What the operators check for are the other types. -/
theorem isOperand_eq_false_iff {ty : Ty} : ty.isOperand = false ↔ ty.Refers := by
  constructor
  · intro h
    cases ty with
    | object kind =>
      cases kind with
      | math => exact .math
      | shade => exact .shade
      | system => exact .system
      | record => exact .record
      | _ => cases h
    | function params required result => exact .method
    | _ => cases h
  · intro h
    cases h <;> rfl

/-- A sign takes operands only. -/
theorem Negates.isOperand {op : UnaryOp} {argument result : Ty} (h : Negates op argument result)
    (hop : op ≠ .not) : argument.isOperand = true := by
  cases h with
  | not => exact absurd rfl hop
  | number _ hnumeric => exact (isScalar_iff.1 (isScalar_of_isNumeric hnumeric)).1
  | object _ hkind => exact isOperand_object.2 hkind

end Ty

/-- The operands of an operator.  A plain assignment has none: it puts its value where it is. -/
def TypedExpr.operands : TypedExpr → List TypedExpr
  | .binary _ left right _ => [left, right]
  | .logical _ left right _ => [left, right]
  | .assign (.compound _) target value _ => [target, value]
  | .unary _ argument _ => [argument]
  | _ => []

/-- A compound assignment takes operands only. -/
theorem isOperand_of_assignedTy {op : ArithmeticOp} {name : String} {target value result : Ty}
    {span : Option Span} (h : assignedTy (.compound op) name target value span = .ok result) :
    target.isOperand = true ∧ value.isOperand = true := by
  obtain ⟨hyields, -⟩ := assignedTy_eq_ok_iff.1 h
  cases hyields with
  | compound hcombines => exact hcombines.isOperand

/-- Whichever way an assigned name is bound, the type of its value is checked against its own. -/
theorem Context.assignedTy_of_assignIdent {cx : Context} {s s' : Scopes} {op : ArithmeticOp}
    {name : String} {targetSpan span : Option Span} {value target result : Ty}
    (h : cx.assignIdent s (.compound op) name targetSpan value span = .ok (target, result, s')) :
    assignedTy (.compound op) name target value span = .ok result := by
  rcases Context.assignIdent_eq_ok h with
    ⟨_, hassigned, _⟩ | ⟨_, _, hassigned, _⟩ | ⟨_, hplain, _⟩ | ⟨_, hassigned, _⟩
  · exact hassigned
  · exact hassigned
  · cases hplain
  · exact hassigned

/-- The operator of a derived expression has checked its operands, unless it is `!`. -/
theorem ExprRun.isOperand_or_not {cx : Context} {s s' : Scopes} {e : Expr} {t : TypedExpr}
    (h : ExprRun cx s e t s') :
    (∀ x ∈ t.operands, x.ty.isOperand = true) ∨ ∃ x mark, t = .unary .not x mark := by
  cases h with
  | @binary _ _ _ _ _ _ _ l r _ _ _ ha =>
    have hboth : l.ty.isOperand = true ∧ r.ty.isOperand = true := by
      rcases binaryAscription_eq_ok ha with ⟨_, hcombines⟩ | ⟨_, hleft, hright, _⟩
      · exact hcombines.isOperand
      · exact ⟨hleft, hright⟩
    exact .inl (by simpa [TypedExpr.operands] using hboth)
  | logical _ _ hty =>
    have hboth := (logicalTy_eq_ok_iff.1 hty).isOperand
    exact .inl (by simpa [TypedExpr.operands] using hboth)
  | @assignIdent _ _ _ op _ _ _ _ _ _ _ _ ha =>
    cases op with
    | plain => exact .inl (by simp [TypedExpr.operands])
    | compound op =>
      have hboth := isOperand_of_assignedTy (Context.assignedTy_of_assignIdent ha)
      refine .inl (List.forall_mem_cons.2 ⟨hboth.1, ?_⟩)
      simpa using hboth.2
  | @assignMember _ _ _ op _ _ _ _ _ _ t _ _ ht hassigned =>
    cases op with
    | plain => exact .inl (by simp [TypedExpr.operands])
    | compound op =>
      have hforget : t.forgetValue.ty = t.ty := by
        cases ht
        rfl
      have hboth := isOperand_of_assignedTy hassigned
      exact .inl (by simpa [TypedExpr.operands, hforget] using hboth)
  | @unary _ _ op _ _ x _ _ ha =>
    by_cases hop : op = .not
    · subst hop
      exact .inr ⟨x, _, rfl⟩
    · refine .inl ?_
      intro y hy
      obtain rfl := List.mem_singleton.1 hy
      exact (unaryAscription_eq_ok ha).isOperand hop
  | _ => exact .inl (by simp [TypedExpr.operands])

/-- A place has no operands. -/
theorem TypedExpr.operands_of_isPlace {x : TypedExpr} (h : x.isPlace = true) : x.operands = [] := by
  cases x with
  | ident _ _ => rfl
  | member _ _ _ => rfl
  | _ => cases h

/-- The negation of an expression succeeds whenever the expression does. -/
theorem Context.yields_not {cx : Context} {argument : Expr} {span : Option Span}
    {s s' : InferState} {x : TypedExpr} (h : (cx.expr argument).Yields s x s') :
    (cx.expr (.unary .not argument span)).Yields s
      (.unary .not x ⟨⟨.boolean, foldNot x.ascription⟩, span⟩) s' := by
  rw [Context.expr]
  refine Infer.yields_bind_iff.2 ⟨x, s', h, ?_⟩
  refine Infer.yields_bind_iff.2 ⟨⟨.boolean, foldNot x.ascription⟩, s', ?_, ?_⟩
  · exact Infer.yields_ofExcept_iff.2 ⟨rfl, rfl⟩
  · exact Infer.yields_pure_iff.2 ⟨rfl, rfl⟩

/-- An operand that is a namespace or a reference to a method stands under `!`, in every function
that inference accepts; and `!` may be applied to every expression that inference accepts. -/
theorem Function.operand_of_refers (f : Function) (injections : Injections) (registry : Registry) :
    (∀ t, f.infer injections registry = .ok t →
      ∀ e ∈ t.exprs, ∀ x ∈ e.operands, x.ty.Refers → ∃ mark, e = .unary .not x mark) ∧
    (∀ (argument : Expr) (span : Option Span) (s s' : InferState) (x : TypedExpr),
      ((f.context injections registry).expr argument).Yields s x s' →
      ((f.context injections registry).expr (.unary .not argument span)).Yields s
        (.unary .not x ⟨⟨.boolean, foldNot x.ascription⟩, span⟩) s') := by
  refine ⟨?_, fun _ _ _ _ _ => Context.yields_not⟩
  intro t h e he x hx hrefers
  have hfalse : x.ty.isOperand = false := Ty.isOperand_eq_false_iff.2 hrefers
  cases (Function.infer_sourced h).derived e he with
  | run hrun _ =>
    rcases hrun.isOperand_or_not with hchecked | ⟨y, mark, rfl⟩
    · have htrue := hchecked x hx
      rw [hfalse] at htrue
      cases htrue
    · obtain rfl := List.mem_singleton.1 hx
      exact ⟨mark, rfl⟩
  | target hplace _ =>
    rw [TypedExpr.operands_of_isPlace hplace] at hx
    cases hx

namespace Sample

/-- The namespace `Math`, with one method. -/
def mathOnly : Registry :=
  ⟨[⟨"Math", .math, .none, ⟨[("sin", .method (.exactly [.number] .number))]⟩⟩]⟩

/-- `function negated() { return !Math; }` -/
def negated : Function :=
  Bare.function "negated" [] [Bare.ret (some (Bare.unary .not (Bare.ident "Math")))]

/-- The negation of a namespace is accepted. -/
theorem negated_operand : ∃ t e x, negated.infer ⟨[]⟩ mathOnly = .ok t ∧ e ∈ t.exprs ∧
    x ∈ e.operands ∧ x.ty.Refers := by
  refine ⟨_, _, _, rfl, List.mem_cons_self, List.mem_cons_self, ?_⟩
  exact .math

/-- The namespace in it is an operand, and it is the operand of `!`. -/
theorem negated_operand_of_refers : ∃ t e x mark, negated.infer ⟨[]⟩ mathOnly = .ok t ∧
    e ∈ t.exprs ∧ x ∈ e.operands ∧ x.ty.Refers ∧ e = .unary .not x mark := by
  obtain ⟨t, e, x, h, he, hx, hrefers⟩ : ∃ t e x, negated.infer ⟨[]⟩ mathOnly = .ok t ∧
      e ∈ t.exprs ∧ x ∈ e.operands ∧ x.ty.Refers :=
    ⟨_, _, _, rfl, List.mem_cons_self, List.mem_cons_self, .math⟩
  obtain ⟨mark, hmark⟩ :=
    (Function.operand_of_refers negated ⟨[]⟩ mathOnly).1 t h e he x hx hrefers
  exact ⟨t, e, x, mark, h, he, hx, hrefers, hmark⟩

end Sample

end Shader
