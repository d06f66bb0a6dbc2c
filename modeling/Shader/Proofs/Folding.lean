import Shader.Proofs.KnownValue

/-!
# What lies below a known value

The renderer writes a number in place of a numeric expression whose value is known, and does not
look at the parts of the expression.  Nothing is lost by this: a value is known only of a literal, a
name, a path of members, or an operation on such, so that no part of the expression assigns, calls
or constructs anything.

Names and members are the only parts of a replaced expression that need not be replaced themselves.
The object of a member has a type of its own, which need not be numeric; the operands of an
operation on numbers are numbers.
-/

namespace Shader

namespace TypedExpr

/-- Whether an expression is of a form that may have a known value: a literal other than `null`, a
name, a member or an operation on operands that are always evaluated. -/
def isFoldable : TypedExpr → Bool
  | .literal (some _) _ | .ident _ _ | .member _ _ _ | .binary _ _ _ _ | .unary _ _ _ => true
  | _ => false

theorem isFoldable_of_isPlace {e : TypedExpr} (h : e.isPlace = true) : e.isFoldable = true := by
  cases e with
  | ident | member => rfl
  | _ => cases h

end TypedExpr

/-! ## Operands -/

/-- A result is computed from known numbers only. -/
theorem ArithmeticOp.operands_of_fold {op : ArithmeticOp} {ty : Ty} {left right : Ascription}
    {v : Constant} (h : op.fold ty left right = some v) :
    (∃ x, left.number? = some x) ∧ ∃ y, right.number? = some y := by
  obtain ⟨x, hx, h⟩ := Option.bind_eq_some_iff.1 h
  obtain ⟨y, hy, -⟩ := Option.bind_eq_some_iff.1 h
  exact ⟨⟨x, hx⟩, y, hy⟩

theorem argument_of_foldNot {argument : Ascription} {v : Constant}
    (h : foldNot argument = some v) : argument.value.isSome = true := by
  unfold foldNot at h
  split at h
  · rename_i b hb
    rw [hb]
    rfl
  · cases h

/-- The value of a unary expression is computed from that of its argument. -/
theorem unaryAscription_argument {op : UnaryOp} {argument a : Ascription} {span : Option Span}
    (h : unaryAscription op argument span = .ok a) {v : Constant} (hv : a.value = some v) :
    argument.value.isSome = true := by
  by_cases hop : op = .not
  · rw [hop] at h
    obtain rfl := Except.ok.inj h
    exact argument_of_foldNot hv
  · rcases unaryAscription_value h hv with ⟨hty, -⟩ | ⟨-, -, hsign⟩
    · -- A sign never makes a boolean.
      have hnegates := unaryAscription_eq_ok h
      rw [hty] at hnegates
      generalize argument.ty = ty at hnegates
      cases hnegates with
      | not => exact absurd rfl hop
      | number _ hnumeric => cases hnumeric
    · obtain ⟨x, y, -, hy, -⟩ := foldSign_eq_some hsign
      rw [hy]
      rfl

/-- The operands of an operation with a numeric result are numeric. -/
theorem Ty.Combines.isNumeric {a b c : Ty} (h : a.Combines b c) (hc : c.isNumeric = true) :
    a.isNumeric = true ∧ b.isNumeric = true := by
  cases h with
  | promoted hpromotes => exact hpromotes.isNumeric
  | objects | objectNumber | numberObject => cases hc

/-- An operation of numeric type whose value is known has numeric operands whose values are
known. -/
theorem binaryAscription_operands {op : BinaryOp} {left right a : Ascription} {span : Option Span}
    (h : binaryAscription op left right span = .ok a) (hnumeric : a.ty.isNumeric = true)
    {v : Constant} (hv : a.value = some v) :
    (left.ty.isNumeric = true ∧ ∃ x, left.number? = some x) ∧
      right.ty.isNumeric = true ∧ ∃ y, right.number? = some y := by
  obtain ⟨arith, hfold⟩ := binaryAscription_value h hv
  obtain ⟨hleft, hright⟩ := ArithmeticOp.operands_of_fold hfold
  rcases binaryAscription_eq_ok h with ⟨-, hcombines⟩ | ⟨-, -, -, hboolean⟩
  · obtain ⟨hl, hr⟩ := hcombines.isNumeric hnumeric
    exact ⟨⟨hl, hleft⟩, hr, hright⟩
  · rw [hboolean] at hnumeric
    cases hnumeric

/-- A signed number whose value is known has a numeric argument whose value is known. -/
theorem unaryAscription_operand {op : UnaryOp} {argument a : Ascription} {span : Option Span}
    (h : unaryAscription op argument span = .ok a) (hnumeric : a.ty.isNumeric = true)
    {v : Constant} (hv : a.value = some v) :
    argument.ty.isNumeric = true ∧ ∃ y, argument.number? = some y := by
  rcases unaryAscription_value h hv with ⟨hboolean, -⟩ | ⟨hty, -, hsign⟩
  · rw [hboolean] at hnumeric
    cases hnumeric
  · obtain ⟨x, y, -, hy, -⟩ := foldSign_eq_some hsign
    rw [← hty, Ascription.number?, hy]
    exact ⟨hnumeric, y, rfl⟩

namespace TypedExpr

/-- A replaced expression is numeric, and its value is known to be a number. -/
theorem propagated?_eq_some_iff {e : TypedExpr} {x : Float} :
    e.propagated? = some x ↔ e.ty.isNumeric = true ∧ e.ascription.number? = some x := by
  unfold propagated?
  split
  · rename_i hnumeric
    simp [hnumeric]
  · rename_i hnumeric
    simp [hnumeric]

end TypedExpr

/-! ## Derivations -/

namespace ExprRun

variable {cx : Context} {s s' : Scopes} {e : Expr} {t : TypedExpr}

/-- Every part of an expression whose value is known is of a form that may have a known value. -/
theorem isFoldable_parts (h : ExprRun cx s e t s') (hvalue : t.ascription.value.isSome = true) :
    ∀ x ∈ t.all, x.isFoldable = true := by
  induction h using ExprRun.induct with
  | @literal s l span =>
    have hsome : l.value.isSome = true := by
      rw [← Context.literal_value l]
      exact hvalue
    intro x hx
    obtain rfl := List.mem_singleton.1 hx
    obtain ⟨v, hv⟩ := Option.isSome_iff_exists.1 hsome
    rw [hv]
    rfl
  | ident _ =>
    intro x hx
    obtain rfl := List.mem_singleton.1 hx
    rfl
  | @member s s₁ object property span o a ho ha _ =>
    -- The registry gives a type only, so the value comes from the path.
    rcases Context.member_eq_ok ha with ⟨path, hpath, -⟩ | ⟨-, hnone, -⟩
    · rw [← (ExprRun.member ho ha).path?_eq] at hpath
      intro x hx
      exact TypedExpr.isFoldable_of_isPlace (TypedExpr.isPlace_of_path? hpath x hx)
    · change a.value.isSome = true at hvalue
      rw [hnone] at hvalue
      cases hvalue
  | @binary s s₁ s₂ op left right span l r a _ _ ha ihl ihr =>
    obtain ⟨v, hv⟩ := Option.isSome_iff_exists.1 hvalue
    obtain ⟨arith, hfold⟩ := binaryAscription_value ha hv
    obtain ⟨⟨x, hx⟩, y, hy⟩ := ArithmeticOp.operands_of_fold hfold
    have hleft : l.ascription.value.isSome = true := by
      rw [Ascription.number?_eq_some hx]
      rfl
    have hright : r.ascription.value.isSome = true := by
      rw [Ascription.number?_eq_some hy]
      rfl
    rw [TypedExpr.all, List.forall_mem_cons, List.forall_mem_append]
    exact ⟨rfl, ihl hleft, ihr hright⟩
  | unary _ ha ih =>
    obtain ⟨v, hv⟩ := Option.isSome_iff_exists.1 hvalue
    rw [TypedExpr.all, List.forall_mem_cons]
    exact ⟨rfl, ih (unaryAscription_argument ha hv)⟩
  | call | construct | logical | assignIdent | assignMember | conditional => cases hvalue

/-- Every part of a replaced expression is a name, a member, or replaced itself. -/
theorem isPlace_or_propagated (h : ExprRun cx s e t s') (ht : t.propagated?.isSome = true) :
    ∀ x ∈ t.all, x.isPlace = true ∨ x.propagated?.isSome = true := by
  induction h using ExprRun.induct with
  | literal =>
    intro x hx
    obtain rfl := List.mem_singleton.1 hx
    exact .inr ht
  | ident _ =>
    intro x hx
    obtain rfl := List.mem_singleton.1 hx
    exact .inl rfl
  | @member s s₁ object property span o a ho ha _ =>
    obtain ⟨v, hv⟩ := Option.isSome_iff_exists.1 ht
    rcases Context.member_eq_ok ha with ⟨path, hpath, -⟩ | ⟨-, hnone, -⟩
    · rw [← (ExprRun.member ho ha).path?_eq] at hpath
      intro x hx
      exact .inl (TypedExpr.isPlace_of_path? hpath x hx)
    · have hsome := TypedExpr.value_of_propagated? hv
      change a.value = _ at hsome
      rw [hnone] at hsome
      cases hsome
  | @binary s s₁ s₂ op left right span l r a _ _ ha ihl ihr =>
    obtain ⟨v, hv⟩ := Option.isSome_iff_exists.1 ht
    obtain ⟨hnumeric, -⟩ := TypedExpr.propagated?_eq_some_iff.1 hv
    obtain ⟨⟨hl, x, hx⟩, hr, y, hy⟩ :=
      binaryAscription_operands ha hnumeric (TypedExpr.value_of_propagated? hv)
    have hleft : l.propagated? = some x := TypedExpr.propagated?_eq_some_iff.2 ⟨hl, hx⟩
    have hright : r.propagated? = some y := TypedExpr.propagated?_eq_some_iff.2 ⟨hr, hy⟩
    rw [TypedExpr.all, List.forall_mem_cons, List.forall_mem_append]
    refine ⟨.inr ht, ihl ?_, ihr ?_⟩
    · rw [hleft]
      rfl
    · rw [hright]
      rfl
  | @unary s s₁ op argument span t a _ ha ih =>
    obtain ⟨v, hv⟩ := Option.isSome_iff_exists.1 ht
    obtain ⟨hnumeric, -⟩ := TypedExpr.propagated?_eq_some_iff.1 hv
    obtain ⟨hargument, y, hy⟩ :=
      unaryAscription_operand ha hnumeric (TypedExpr.value_of_propagated? hv)
    have hreplaced : t.propagated? = some y :=
      TypedExpr.propagated?_eq_some_iff.2 ⟨hargument, hy⟩
    rw [TypedExpr.all, List.forall_mem_cons]
    refine ⟨.inr ht, ih ?_⟩
    rw [hreplaced]
    rfl
  | call | construct | logical | assignIdent | assignMember | conditional =>
    obtain ⟨v, hv⟩ := Option.isSome_iff_exists.1 ht
    cases TypedExpr.value_of_propagated? hv

end ExprRun

/-! ## Functions -/

namespace Function

variable {f : Function} {injections : Injections} {registry : Registry} {t : TypedFunction}
  {e : TypedExpr}

/-- Below a known value there are only forms that may have a known value. -/
theorem isFoldable_of_value (h : f.infer injections registry = .ok t) (he : e ∈ t.exprs)
    (hvalue : e.ascription.value.isSome = true) : ∀ x ∈ e.all, x.isFoldable = true := by
  cases (Function.infer_sourced h).derived e he with
  | run hrun _ => exact hrun.isFoldable_parts hvalue
  | target _ hnone =>
    rw [hnone] at hvalue
    cases hvalue

/-- Below a replaced expression everything but names and members is replaced. -/
theorem isPlace_or_propagated (h : f.infer injections registry = .ok t) (he : e ∈ t.exprs)
    (hreplaced : e.propagated?.isSome = true) :
    ∀ x ∈ e.all, x.isPlace = true ∨ x.propagated?.isSome = true := by
  cases (Function.infer_sourced h).derived e he with
  | run hrun _ => exact hrun.isPlace_or_propagated hreplaced
  | target _ hnone =>
    obtain ⟨v, hv⟩ := Option.isSome_iff_exists.1 hreplaced
    have hvalue := TypedExpr.value_of_propagated? hv
    rw [hnone] at hvalue
    cases hvalue

/-- A literal has the value that it spells. -/
theorem value_of_literal {value : Option Constant} {m : Mark}
    (h : f.infer injections registry = .ok t) (he : .literal value m ∈ t.exprs) :
    m.ascription.value = value := by
  cases (Function.infer_sourced h).derived _ he with
  | run hrun _ =>
    cases hrun with
    | literal => exact Context.literal_value _
  | target hplace _ => cases hplace

end Function

end Shader
