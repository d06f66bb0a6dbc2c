import Shader.Proofs.Lookup

/-!
# Judgements on types

The rules of the language, as relations between the types of the parts of an expression and the type
of the whole.  Each relation lists the combinations that are allowed, and each check of inference is
shown to succeed exactly on them: `arithmeticTy_eq_ok_iff`, `logicalTy_eq_ok_iff`,
`checkArguments_eq_ok_iff` and so on.
-/

namespace Shader

namespace Ty

/-- Numeric promotion: two integers make an integer, any other two numbers make a number. -/
inductive Promotes : Ty → Ty → Ty → Prop where
  | int : Promotes .int .int .int
  | number : Promotes .number .number .number
  | numberInt : Promotes .number .int .number
  | intNumber : Promotes .int .number .number

/-- The common type of two types: equal types, or the promotion of numbers. -/
inductive Unifies : Ty → Ty → Ty → Prop where
  | same {a : Ty} : Unifies a a a
  | promoted {a b c : Ty} : Promotes a b c → Unifies a b c

/-- `Admits expected found`: a value of type `found` may stand where `expected` is asked for. -/
inductive Admits : Ty → Ty → Prop where
  | same {a : Ty} : Admits a a
  | numeric {a b : Ty} : a.isNumeric = true → b.isNumeric = true → Admits a b

/-- Whether a type is neither an object nor a method. -/
def isScalar : Ty → Bool
  | .object _ | .function _ _ _ => false
  | _ => true

/-- Arithmetic: numbers are promoted, and objects of one kind, which is no namespace, combine with
each other and with numbers. -/
inductive Combines : Ty → Ty → Ty → Prop where
  | promoted {a b c : Ty} : Promotes a b c → Combines a b c
  | objects {k : Kind} : k.isNamespace = false → Combines (.object k) (.object k) (.object k)
  | objectNumber {k : Kind} {b : Ty} : k.isNamespace = false → b.isNumeric = true →
      Combines (.object k) b (.object k)
  | numberObject {k : Kind} {a : Ty} : k.isNamespace = false → a.isNumeric = true →
      Combines a (.object k) (.object k)

/-- Connectives: an object prevails over a scalar, numbers are promoted, and any other two scalars
make a boolean. -/
inductive Connects : Ty → Ty → Ty → Prop where
  | objects {k : Kind} : k.isNamespace = false → Connects (.object k) (.object k) (.object k)
  | objectScalar {k : Kind} {b : Ty} : k.isNamespace = false → b.isScalar = true →
      Connects (.object k) b (.object k)
  | scalarObject {k : Kind} {a : Ty} : k.isNamespace = false → a.isScalar = true →
      Connects a (.object k) (.object k)
  | promoted {a b c : Ty} : Promotes a b c → Connects a b c
  | boolean {a b : Ty} : a.isScalar = true → b.isScalar = true →
      (a.isNumeric && b.isNumeric) = false → Connects a b .boolean

/-- Signs keep the type of a number or of an object that is no namespace; a negation is a
boolean. -/
inductive Negates : UnaryOp → Ty → Ty → Prop where
  | not {a : Ty} : Negates .not a .boolean
  | number {op : UnaryOp} {a : Ty} : op ≠ .not → a.isNumeric = true → Negates op a a
  | object {op : UnaryOp} {k : Kind} : op ≠ .not → k.isNamespace = false →
      Negates op (.object k) (.object k)

/-- What an assignment puts into its target: the value, or what a compound operator makes of
both. -/
inductive Yields : AssignOp → Ty → Ty → Ty → Prop where
  | plain {target value : Ty} : Yields .plain target value value
  | compound {op : ArithmeticOp} {target value result : Ty} : Combines target value result →
      Yields (.compound op) target value result

/-- `UnifiesAll a types b`: unifying `a` with the types one after the other gives `b`. -/
inductive UnifiesAll : Ty → List Ty → Ty → Prop where
  | nil {a : Ty} : UnifiesAll a [] a
  | cons {a b c d : Ty} {types : List Ty} : Unifies a b c → UnifiesAll c types d →
      UnifiesAll a (b :: types) d

/-- The result of a function with returns of the given types, in order. -/
inductive Results : List Ty → Ty → Prop where
  | none : Results [] .undefined
  | some {a b : Ty} {types : List Ty} : UnifiesAll a types b → Results (a :: types) b

end Ty

/-- Arguments of the given types satisfy a signature. -/
structure Signature.Takes (s : Signature) (args : List Ty) : Prop where
  required_le : s.required ≤ args.length
  length_le : args.length ≤ s.params.length
  admits : ∀ (i : Nat) (param arg : Ty), s.params[i]? = some param → args[i]? = some arg →
    param.Admits arg

/-! ## The checks succeed exactly on the judgements -/

namespace Ty

variable {a b c : Ty}

/-- Promotion computes the judgement. -/
theorem promote?_eq_some_iff : a.promote? b = some c ↔ Promotes a b c := by
  constructor
  · intro h
    unfold promote? at h
    split at h
    · rename_i hint
      obtain ⟨rfl, rfl⟩ := hint
      obtain rfl := Option.some.inj h
      exact .int
    · rename_i hint
      split at h
      · rename_i hnumeric
        obtain rfl := Option.some.inj h
        rw [Bool.and_eq_true] at hnumeric
        obtain ⟨ha, hb⟩ := hnumeric
        cases a <;> cases ha <;> cases b <;> cases hb
        · exact .number
        · exact .numberInt
        · exact .intNumber
        · exact absurd ⟨rfl, rfl⟩ hint
      · cases h
  · intro h
    cases h <;> rfl

/-- Only numbers are promoted. -/
theorem Promotes.isNumeric (h : Promotes a b c) : a.isNumeric = true ∧ b.isNumeric = true := by
  cases h <;> exact ⟨rfl, rfl⟩

/-- Numbers always promote. -/
theorem promote?_eq_none_iff : a.promote? b = none ↔ (a.isNumeric && b.isNumeric) = false := by
  constructor
  · intro h
    unfold promote? at h
    split at h
    · cases h
    · split at h
      · cases h
      · rename_i hnumeric
        exact Bool.not_eq_true _ ▸ hnumeric
  · intro h
    cases hp : a.promote? b with
    | none => rfl
    | some c =>
      obtain ⟨ha, hb⟩ := (promote?_eq_some_iff.1 hp).isNumeric
      simp [ha, hb] at h

/-- Unification computes the judgement. -/
theorem unify?_eq_some_iff : a.unify? b = some c ↔ Unifies a b c := by
  constructor
  · intro h
    unfold unify? at h
    split at h
    · rename_i hab
      obtain rfl := hab
      obtain rfl := Option.some.inj h
      exact .same
    · exact .promoted (promote?_eq_some_iff.1 h)
  · intro h
    unfold unify?
    cases h with
    | same => rw [if_pos rfl]
    | promoted hp =>
      split
      · rename_i hab
        subst hab
        cases hp <;> rfl
      · exact promote?_eq_some_iff.2 hp

/-- Acceptance decides the judgement. -/
theorem accepts_eq_true_iff : a.accepts b = true ↔ Admits a b := by
  unfold accepts
  rw [Bool.or_eq_true, Bool.and_eq_true, decide_eq_true_eq]
  constructor
  · rintro (⟨ha, hb⟩ | rfl)
    · exact .numeric ha hb
    · exact .same
  · intro h
    cases h with
    | same => exact .inr rfl
    | numeric ha hb => exact .inl ⟨ha, hb⟩

/-- Only object types have a kind. -/
theorem kind?_eq_some_iff {k : Kind} : a.kind? = some k ↔ a = .object k := by
  cases a <;> simp [kind?]

/-- Object types are operands unless their kind is a namespace. -/
theorem isOperand_object {k : Kind} : (Ty.object k).isOperand = true ↔ k.isNamespace = false := by
  simp [isOperand]

/-- The other operands are the scalars. -/
theorem isScalar_iff : a.isScalar = true ↔ a.isOperand = true ∧ a.kind? = none := by
  cases a <;> simp [isScalar, isOperand, kind?]

/-- Numbers are scalars. -/
theorem isScalar_of_isNumeric (h : a.isNumeric = true) : a.isScalar = true := by
  cases a <;> first | rfl | cases h

/-- What is combined are operands. -/
theorem Combines.isOperand (h : Combines a b c) : a.isOperand = true ∧ b.isOperand = true := by
  cases h with
  | promoted hp => cases hp <;> exact ⟨rfl, rfl⟩
  | objects hk => exact ⟨isOperand_object.2 hk, isOperand_object.2 hk⟩
  | objectNumber hk hb =>
    exact ⟨isOperand_object.2 hk, (isScalar_iff.1 (isScalar_of_isNumeric hb)).1⟩
  | numberObject hk ha =>
    exact ⟨(isScalar_iff.1 (isScalar_of_isNumeric ha)).1, isOperand_object.2 hk⟩

/-- What a connective takes are operands. -/
theorem Connects.isOperand (h : Connects a b c) : a.isOperand = true ∧ b.isOperand = true := by
  cases h with
  | objects hk => exact ⟨isOperand_object.2 hk, isOperand_object.2 hk⟩
  | objectScalar hk hb => exact ⟨isOperand_object.2 hk, (isScalar_iff.1 hb).1⟩
  | scalarObject hk ha => exact ⟨(isScalar_iff.1 ha).1, isOperand_object.2 hk⟩
  | promoted hp => cases hp <;> exact ⟨rfl, rfl⟩
  | boolean ha hb _ => exact ⟨(isScalar_iff.1 ha).1, (isScalar_iff.1 hb).1⟩

end Ty

section Operators

variable {left right ty : Ty} {span : Option Span}

/-- Operands are checked on both sides. -/
theorem checkOperands_eq_ok_iff {op : String} :
    checkOperands op left right span = .ok () ↔ left.isOperand = true ∧ right.isOperand = true := by
  unfold checkOperands
  cases left.isOperand <;> cases right.isOperand <;> simp [fault]

/-- Arithmetic succeeds on the operands that combine. -/
theorem arithmeticTy_eq_ok_iff {op : String} :
    arithmeticTy op left right span = .ok ty ↔ left.Combines right ty := by
  unfold arithmeticTy
  constructor
  · intro h
    obtain ⟨⟨⟩, hcheck, hty⟩ := bind_eq_ok_iff.1 h
    obtain ⟨hleft, hright⟩ := checkOperands_eq_ok_iff.1 hcheck
    split at hty
    · rename_i k l hk hl
      obtain rfl := Ty.kind?_eq_some_iff.1 hk
      obtain rfl := Ty.kind?_eq_some_iff.1 hl
      split at hty
      · rename_i hkl
        obtain rfl := hkl
        obtain rfl := Except.ok.inj hty
        exact .objects (Ty.isOperand_object.1 hleft)
      · exact absurd hty fault_ne_ok
    · rename_i k hk hnone
      obtain rfl := Ty.kind?_eq_some_iff.1 hk
      split at hty
      · rename_i hnumeric
        obtain rfl := Except.ok.inj hty
        exact .objectNumber (Ty.isOperand_object.1 hleft) hnumeric
      · exact absurd hty fault_ne_ok
    · rename_i l hnone hl
      obtain rfl := Ty.kind?_eq_some_iff.1 hl
      split at hty
      · rename_i hnumeric
        obtain rfl := Except.ok.inj hty
        exact .numberObject (Ty.isOperand_object.1 hright) hnumeric
      · exact absurd hty fault_ne_ok
    · split at hty
      · rename_i hpromote
        obtain rfl := Except.ok.inj hty
        exact .promoted (Ty.promote?_eq_some_iff.1 hpromote)
      · exact absurd hty fault_ne_ok
  · intro h
    refine bind_eq_ok_iff.2 ⟨(), checkOperands_eq_ok_iff.2 h.isOperand, ?_⟩
    cases h with
    | promoted hp => cases hp <;> rfl
    | objects _ => simp [Ty.kind?]
    | objectNumber _ hb =>
      have hnone := (Ty.isScalar_iff.1 (Ty.isScalar_of_isNumeric hb)).2
      simp [Ty.kind?_eq_some_iff.2 rfl, hnone, hb]
    | numberObject _ ha =>
      have hnone := (Ty.isScalar_iff.1 (Ty.isScalar_of_isNumeric ha)).2
      simp [Ty.kind?_eq_some_iff.2 rfl, hnone, ha]

/-- Connectives succeed on the operands that they connect. -/
theorem logicalTy_eq_ok_iff {op : LogicalOp} :
    logicalTy op left right span = .ok ty ↔ left.Connects right ty := by
  unfold logicalTy
  constructor
  · intro h
    obtain ⟨⟨⟩, hcheck, hty⟩ := bind_eq_ok_iff.1 h
    obtain ⟨hleft, hright⟩ := checkOperands_eq_ok_iff.1 hcheck
    split at hty
    · rename_i k l hk hl
      obtain rfl := Ty.kind?_eq_some_iff.1 hk
      obtain rfl := Ty.kind?_eq_some_iff.1 hl
      split at hty
      · rename_i hkl
        obtain rfl := hkl
        obtain rfl := Except.ok.inj hty
        exact .objects (Ty.isOperand_object.1 hleft)
      · exact absurd hty fault_ne_ok
    · rename_i k hk hnone
      obtain rfl := Ty.kind?_eq_some_iff.1 hk
      obtain rfl := Except.ok.inj hty
      exact .objectScalar (Ty.isOperand_object.1 hleft) (Ty.isScalar_iff.2 ⟨hright, hnone⟩)
    · rename_i l hnone hl
      obtain rfl := Ty.kind?_eq_some_iff.1 hl
      obtain rfl := Except.ok.inj hty
      exact .scalarObject (Ty.isOperand_object.1 hright) (Ty.isScalar_iff.2 ⟨hleft, hnone⟩)
    · rename_i hl hr
      obtain rfl := Except.ok.inj hty
      cases hpromote : left.promote? right with
      | some c => exact .promoted (Ty.promote?_eq_some_iff.1 hpromote)
      | none =>
        exact .boolean (Ty.isScalar_iff.2 ⟨hleft, hl⟩) (Ty.isScalar_iff.2 ⟨hright, hr⟩)
          (Ty.promote?_eq_none_iff.1 hpromote)
  · intro h
    refine bind_eq_ok_iff.2 ⟨(), checkOperands_eq_ok_iff.2 h.isOperand, ?_⟩
    cases h with
    | objects _ => simp [Ty.kind?]
    | objectScalar _ hb => simp [Ty.kind?_eq_some_iff.2 rfl, (Ty.isScalar_iff.1 hb).2]
    | scalarObject _ ha => simp [Ty.kind?_eq_some_iff.2 rfl, (Ty.isScalar_iff.1 ha).2]
    | promoted hp => cases hp <;> rfl
    | boolean ha hb hnumeric =>
      simp [(Ty.isScalar_iff.1 ha).2, (Ty.isScalar_iff.1 hb).2, Ty.promote?_eq_none_iff.2 hnumeric]

/-- A binary expression is arithmetic, or a comparison of operands. -/
theorem binaryAscription_eq_ok {op : BinaryOp} {l r a : Ascription}
    (h : binaryAscription op l r span = .ok a) :
    (op.isArithmetic = true ∧ l.ty.Combines r.ty a.ty) ∨
      (op.isArithmetic = false ∧ l.ty.isOperand = true ∧ r.ty.isOperand = true ∧
        a.ty = .boolean) := by
  cases op with
  | arithmetic op =>
    obtain ⟨ty, hty, h⟩ := bind_eq_ok_iff.1 h
    obtain rfl := Except.ok.inj h
    exact .inl ⟨rfl, arithmeticTy_eq_ok_iff.1 hty⟩
  | comparison op =>
    obtain ⟨⟨⟩, hcheck, h⟩ := bind_eq_ok_iff.1 h
    obtain rfl := Except.ok.inj h
    obtain ⟨hl, hr⟩ := checkOperands_eq_ok_iff.1 hcheck
    exact .inr ⟨rfl, hl, hr, rfl⟩

/-- A sign or negation has the type that its operator gives. -/
theorem unaryAscription_eq_ok {op : UnaryOp} {argument a : Ascription}
    (h : unaryAscription op argument span = .ok a) : Ty.Negates op argument.ty a.ty := by
  unfold unaryAscription at h
  split at h
  · obtain rfl := Except.ok.inj h
    exact .not
  · rename_i hop
    split at h
    · rename_i hnumeric
      obtain rfl := Except.ok.inj h
      exact .number hop hnumeric
    · split at h
      · rename_i k hk
        split at h
        · exact absurd h fault_ne_ok
        · rename_i hnamespace
          obtain rfl := Except.ok.inj h
          rw [hk]
          exact .object hop (Bool.not_eq_true _ ▸ hnamespace)
      · exact absurd h fault_ne_ok

/-- A conditional has the common type of its branches. -/
theorem conditionalTy_eq_ok_iff :
    conditionalTy left right span = .ok ty ↔ left.Unifies right ty := by
  rw [← Ty.unify?_eq_some_iff, conditionalTy]
  cases left.unify? right <;> simp [fault]

/-- An assignment succeeds when its target admits what is put into it, and it does not put a number
into an integer. -/
theorem assignedTy_eq_ok_iff {op : AssignOp} {name : String} {target value result : Ty} :
    assignedTy op name target value span = .ok result ↔
      Ty.Yields op target value result ∧ target.Admits result ∧
        ¬ (target = .int ∧ result = .number) := by
  have hfits : ∀ ty : Ty, (if (target = .int ∧ ty = .number) ∨ target.accepts ty = false then
        fault (.assignmentMismatch name target ty) span
      else .ok ty) = .ok result ↔
      ty = result ∧ target.Admits result ∧ ¬ (target = .int ∧ result = .number) := by
    intro ty
    rw [← Ty.accepts_eq_true_iff]
    split
    · rename_i hcond
      refine iff_of_false fault_ne_ok ?_
      rintro ⟨rfl, hadmits, hnarrow⟩
      exact hcond.elim hnarrow (by simp [hadmits])
    · rename_i hcond
      rw [not_or, Bool.not_eq_false] at hcond
      constructor
      · intro h
        obtain rfl := Except.ok.inj h
        exact ⟨rfl, hcond.2, hcond.1⟩
      · rintro ⟨rfl, -⟩
        rfl
  cases op with
  | plain =>
    refine (hfits value).trans ⟨?_, ?_⟩
    · rintro ⟨rfl, hadmits⟩
      exact ⟨.plain, hadmits⟩
    · rintro ⟨⟨⟩, hadmits⟩
      exact ⟨rfl, hadmits⟩
  | compound op =>
    refine bind_eq_ok_iff.trans ⟨?_, ?_⟩
    · rintro ⟨ty, hty, h⟩
      obtain ⟨rfl, hadmits⟩ := (hfits ty).1 h
      exact ⟨.compound (arithmeticTy_eq_ok_iff.1 hty), hadmits⟩
    · rintro ⟨hyields, hadmits⟩
      cases hyields with
      | compound hcombines =>
        exact ⟨result, arithmeticTy_eq_ok_iff.2 hcombines, (hfits result).2 ⟨rfl, hadmits⟩⟩

end Operators

/-! ## Arguments and returns -/

/-- Each argument is checked against its parameter, as long as there are both. -/
theorem checkEach_eq_ok_iff {callee : String} {index : Nat} {params : List Ty}
    {args : List TypedExpr} {span : Option Span} :
    checkEach callee index params args span = .ok () ↔
      ∀ (i : Nat) (param arg : Ty), params[i]? = some param →
        (args.map TypedExpr.ty)[i]? = some arg → param.Admits arg := by
  induction params generalizing index args with
  | nil => simp [checkEach]
  | cons param params ih =>
    cases args with
    | nil => simp [checkEach]
    | cons arg args =>
      unfold checkEach
      split
      · rename_i haccepts
        rw [ih]
        constructor
        · intro h i p a hp ha
          cases i with
          | zero =>
            obtain rfl := Option.some.inj hp
            obtain rfl := Option.some.inj ha
            exact Ty.accepts_eq_true_iff.1 haccepts
          | succ i => exact h i p a hp ha
        · intro h i p a hp ha
          exact h (i + 1) p a hp ha
      · rename_i haccepts
        refine iff_of_false fault_ne_ok ?_
        intro h
        exact haccepts (Ty.accepts_eq_true_iff.2 (h 0 param arg.ty rfl rfl))

/-- The check of arguments succeeds on those that the signature takes. -/
theorem checkArguments_eq_ok_iff {callee : String} {signature : Signature} {args : List TypedExpr}
    {span : Option Span} :
    checkArguments callee signature args span = .ok () ↔
      signature.Takes (args.map TypedExpr.ty) := by
  unfold checkArguments Signature.acceptsArity
  split
  · rename_i harity
    rw [Bool.and_eq_true, decide_eq_true_eq, decide_eq_true_eq] at harity
    rw [checkEach_eq_ok_iff]
    constructor
    · intro h
      exact ⟨by simpa using harity.1, by simpa using harity.2, h⟩
    · intro h
      exact h.admits
  · rename_i harity
    refine iff_of_false fault_ne_ok ?_
    intro h
    have hrequired := h.required_le
    have hlength := h.length_le
    rw [List.length_map] at hrequired hlength
    exact harity (by simp [hrequired, hlength])

/-- Returns are unified one after the other. -/
theorem unifyReturns_eq_ok_iff {function : String} {unified ty : Ty}
    {returns : List (Ty × Option Span)} :
    unifyReturns function unified returns = .ok ty ↔
      unified.UnifiesAll (returns.map Prod.fst) ty := by
  induction returns generalizing unified with
  | nil =>
    constructor
    · intro h
      obtain rfl := Except.ok.inj h
      exact .nil
    · rintro ⟨⟩
      rfl
  | cons r returns ih =>
    unfold unifyReturns
    cases hunify : unified.unify? r.1 with
    | some both =>
      refine ih.trans ⟨.cons (Ty.unify?_eq_some_iff.1 hunify), ?_⟩
      rintro (_ | ⟨hboth, hrest⟩)
      rw [← Ty.unify?_eq_some_iff, hunify] at hboth
      obtain rfl := Option.some.inj hboth
      exact hrest
    | none =>
      refine iff_of_false fault_ne_ok ?_
      rintro (_ | ⟨hboth, hrest⟩)
      rw [← Ty.unify?_eq_some_iff, hunify] at hboth
      cases hboth

/-- The result of a function unifies its returns. -/
theorem resultTy_eq_ok_iff {function : String} {returns : List (Ty × Option Span)} {ty : Ty} :
    resultTy function returns = .ok ty ↔ Ty.Results (returns.map Prod.fst) ty := by
  cases returns with
  | nil =>
    constructor
    · intro h
      obtain rfl := Except.ok.inj h
      exact .none
    · rintro ⟨⟩
      rfl
  | cons r returns =>
    refine unifyReturns_eq_ok_iff.trans ⟨.some, ?_⟩
    rintro (_ | h)
    exact h

end Shader
