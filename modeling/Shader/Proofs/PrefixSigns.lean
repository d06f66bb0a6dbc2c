import Shader.Proofs.Folding
import Shader.Proofs.Names
import Shader.Proofs.SignedText

/-!
# Prefix operators before signs

A prefix operator is written directly before its operand.  Where the operand starts with the same
sign, the two signs make up another token, a decrement or an increment.  Operands that are binary
operations, assignments or conditionals are put in parentheses, but an operand may be another prefix
operator, or a value with a minus sign, and it may be a member or a call of such.

`Program.sign_doubled_iff` says that this is the only way to a doubled sign: outside string literals
the code of an expression has one exactly when a prefix operator in it clashes with its operand.
Values rarely take part.  Inference computes the sign of a known value away, unless it is an integer
whose negation does not fit into 64 bits.
-/

namespace Shader

/-! ## Renderings that go together -/

namespace Render

variable {α β γ δ : Type}

/-- A step that may fail has succeeded. -/
theorem eq_ok_of_ofExcept {x : Except CodegenError α} {a : α} {warnings : List Warning}
    (h : (ofExcept x).Yields a warnings) : x = .ok a := by
  cases x with
  | error e => cases h
  | ok b =>
    cases h
    rfl

/-- `x.Lifts R y`: whenever `x` succeeds, `y` does so with the same warnings, and the results are
related. -/
def Lifts (R : α → β → Prop) (x : Render α) (y : Render β) : Prop :=
  ∀ a warnings, x.Yields a warnings → ∃ b, y.Yields b warnings ∧ R a b

namespace Lifts

variable {R : α → β → Prop} {S : γ → δ → Prop}

theorem pure {a : α} {b : β} (h : R a b) : (Pure.pure a : Render α).Lifts R (Pure.pure b) := by
  intro a' warnings ha
  obtain ⟨rfl, rfl⟩ := yields_pure_iff.1 ha
  exact ⟨b, yields_pure_iff.2 ⟨rfl, rfl⟩, h⟩

theorem bind {x : Render α} {y : Render β} {f : α → Render γ} {g : β → Render δ}
    (h : x.Lifts R y) (hf : ∀ a b, R a b → (f a).Lifts S (g b)) : (x >>= f).Lifts S (y >>= g) := by
  intro c warnings hc
  obtain ⟨a, before, after, ha, hfa, rfl⟩ := yields_bind_iff.1 hc
  obtain ⟨b, hb, hab⟩ := h a before ha
  obtain ⟨d, hd, hcd⟩ := hf a b hab c after hfa
  exact ⟨d, yields_bind_iff.2 ⟨b, before, after, hb, hd, rfl⟩, hcd⟩

theorem mono {R' : α → β → Prop} {x : Render α} {y : Render β} (h : x.Lifts R y)
    (hR : ∀ a b, R a b → R' a b) : x.Lifts R' y := by
  intro a warnings ha
  obtain ⟨b, hb, hab⟩ := h a warnings ha
  exact ⟨b, hb, hR a b hab⟩

/-- The same step twice. -/
theorem self {R : α → α → Prop} {x : Render α} (h : ∀ a warnings, x.Yields a warnings → R a a) :
    x.Lifts R x := fun a warnings ha => ⟨a, ha, h a warnings ha⟩

end Lifts

end Render

/-! ## Emptied strings -/

namespace TypedExpr

mutual

/-- The expression with its string literals emptied. -/
def withoutStrings : TypedExpr → TypedExpr
  | .literal (some (.string _)) m => .literal (some (.string "")) m
  | .literal value m => .literal value m
  | .ident name m => .ident name m
  | .member object property m => .member object.withoutStrings property m
  | .call callee args m => .call callee.withoutStrings (withoutStringsArgs args) m
  | .construct name args m => .construct name (withoutStringsArgs args) m
  | .binary op left right m => .binary op left.withoutStrings right.withoutStrings m
  | .logical op left right m => .logical op left.withoutStrings right.withoutStrings m
  | .assign op target value m => .assign op target.withoutStrings value.withoutStrings m
  | .conditional test consequent alternate m =>
    .conditional test.withoutStrings consequent.withoutStrings alternate.withoutStrings m
  | .unary op argument m => .unary op argument.withoutStrings m

/-- The arguments with their string literals emptied. -/
def withoutStringsArgs : List TypedExpr → List TypedExpr
  | [] => []
  | e :: rest => e.withoutStrings :: withoutStringsArgs rest

end

@[simp] theorem mark_withoutStrings (e : TypedExpr) : e.withoutStrings.mark = e.mark := by
  cases e with
  | literal value m => rcases value with _ | (_ | _ | _) <;> rfl
  | _ => rfl

@[simp] theorem isCompound_withoutStrings (e : TypedExpr) :
    e.withoutStrings.isCompound = e.isCompound := by
  cases e with
  | literal value m => rcases value with _ | (_ | _ | _) <;> rfl
  | _ => rfl

@[simp] theorem isFolded_withoutStrings (e : TypedExpr) :
    e.withoutStrings.isFolded = e.isFolded := by
  rw [isFolded, isFolded, ty, ty, ascription, ascription, mark_withoutStrings]

@[simp] theorem propagated?_withoutStrings (e : TypedExpr) :
    e.withoutStrings.propagated? = e.propagated? := by
  rw [propagated?, propagated?, ty, ty, ascription, ascription, mark_withoutStrings]

@[simp] theorem ty_withoutStrings (e : TypedExpr) : e.withoutStrings.ty = e.ty := by
  rw [ty, ty, ascription, ascription, mark_withoutStrings]

end TypedExpr

/-! ## Signs of expressions -/

/-- The character of a prefix operator. -/
def UnaryOp.char : UnaryOp → Char
  | .neg => '-'
  | .plus => '+'
  | .not => '!'

theorem UnaryOp.toList_text (op : UnaryOp) : op.text.toList = [op.char] := by
  cases op <;> rfl

theorem UnaryOp.char_inj {op own : UnaryOp} : own.char = op.char ↔ own = op := by
  cases op <;> cases own <;> decide

theorem UnaryOp.isSign_char {op : UnaryOp} (h : op ≠ .not) : isSign op.char = true := by
  cases op with
  | not => exact absurd rfl h
  | _ => rfl

/-- The sign that the text of a number starts with. -/
def Number.sign? (x : Float) : Option UnaryOp := if hasMinus x then some .neg else none

namespace TypedExpr

/-- Whether an expression is put in parentheses as an operand.  Only a placeholder at its start can
prevent that. -/
def isEnclosed (e : TypedExpr) : Bool := e.isCompound && !e.isFolded

mutual

/-- The sign that the code of an expression starts with. -/
def sign? (e : TypedExpr) : Option UnaryOp :=
  match e.propagated? with
  | some value => Number.sign? value
  | none =>
    match e with
    | .literal (some (.number value)) _ => Number.sign? value
    | .literal _ _ | .ident _ _ | .construct _ _ _ => none
    | .member object _ _ => object.sign?
    | .call callee _ _ => callee.sign?
    | .binary _ left _ _ => if left.isEnclosed then none else left.sign?
    | .logical _ left _ _ => if left.isEnclosed then none else left.sign?
    | .assign _ target _ _ => target.placeSign? target.sign?
    | .conditional test _ _ _ => if test.isEnclosed then none else test.sign?
    | .unary op _ _ => if op = .not then none else some op

/-- The sign that the code of a target starts with.  `sign` is that of the target as an
expression. -/
def placeSign? (e : TypedExpr) (sign : Option UnaryOp) : Option UnaryOp :=
  match e with
  | .ident _ _ => none
  | .member object _ _ => object.placeSign? object.sign?
  | _ => sign

end

mutual

/-- The expression and those of its parts that are written out: no value takes the place of an
expression around them, and they do not belong to the path of a target. -/
def written (e : TypedExpr) : List TypedExpr :=
  e ::
    match e.propagated? with
    | some _ => []
    | none =>
      match e with
      | .literal _ _ | .ident _ _ => []
      | .member object _ _ => object.written
      | .call callee args _ => callee.written ++ writtenArgs args
      | .construct _ args _ => writtenArgs args
      | .binary _ left right _ => left.written ++ right.written
      | .logical _ left right _ => left.written ++ right.written
      | .assign _ target value _ => target.writtenPlace target.written ++ value.written
      | .conditional test consequent alternate _ =>
        test.written ++ (consequent.written ++ alternate.written)
      | .unary _ argument _ => argument.written

/-- The parts of a target that are written out.  `parts` are those of the target as an
expression. -/
def writtenPlace (e : TypedExpr) (parts : List TypedExpr) : List TypedExpr :=
  match e with
  | .ident _ _ => []
  | .member object _ _ => object.writtenPlace object.written
  | _ => parts

/-- The parts of arguments that are written out. -/
def writtenArgs : List TypedExpr → List TypedExpr
  | [] => []
  | e :: rest => e.written ++ writtenArgs rest

end

/-- Whether an expression is the prefix operator `op`, written directly before the same sign. -/
def clashes (op : UnaryOp) : TypedExpr → Bool
  | .unary own argument m =>
    (TypedExpr.unary own argument m).propagated?.isNone && own == op && !argument.isEnclosed &&
      argument.sign? == some op
  | _ => false

/-- `Doubles op es`: among the expressions there is one whose sign clashes with its operand. -/
def Doubles (op : UnaryOp) (es : List TypedExpr) : Prop := ∃ x ∈ es, x.clashes op = true

theorem doubles_append {op : UnaryOp} {xs ys : List TypedExpr} :
    Doubles op (xs ++ ys) ↔ Doubles op xs ∨ Doubles op ys := by
  simp [Doubles, or_and_right, exists_or]

theorem doubles_cons {op : UnaryOp} {x : TypedExpr} {xs : List TypedExpr} :
    Doubles op (x :: xs) ↔ x.clashes op = true ∨ Doubles op xs := by
  simp [Doubles]

@[simp] theorem not_doubles_nil {op : UnaryOp} : ¬ Doubles op [] := by
  rintro ⟨x, hx, -⟩
  cases hx

/-- An expression whose value is known does not clash. -/
theorem clashes_of_propagated? {op : UnaryOp} {e : TypedExpr} {x : Float}
    (h : e.propagated? = some x) : e.clashes op = false := by
  cases e with
  | unary own argument m => rw [clashes, h, Option.isNone_some, Bool.false_and, Bool.false_and,
      Bool.false_and]
  | _ => rfl

/-- A name of its own that an expression brings into the code. -/
def ownName? : TypedExpr → Option String
  | .ident name _ => some name
  | .member _ property _ => some property
  | _ => none

/-! ## Signs in the code -/

/-- `Marks op e`: with its string literals emptied, the code of `e` starts with the sign of `op` and
has it twice in a row just when the tree says so. -/
def Marks (op : UnaryOp) (e : TypedExpr) : Prop :=
  (Dialect.embree.expr e).Lifts
    (fun code bare => Marked op.char (e.sign? = some op) (Doubles op e.written)
      code.toList bare.toList)
    (Dialect.embree.expr e.withoutStrings)

/-- `MarksPlace op e`: the same for `e` as a target. -/
def MarksPlace (op : UnaryOp) (e : TypedExpr) : Prop :=
  (Dialect.embree.place e fun _ => Dialect.embree.expr e).Lifts
    (fun code bare => Marked op.char (e.placeSign? e.sign? = some op)
      (Doubles op (e.writtenPlace e.written)) code.toList bare.toList)
    (Dialect.embree.place e.withoutStrings fun _ => Dialect.embree.expr e.withoutStrings)

/-- `MarksArgs op es`: the same for the arguments of a call, but for what they start with. -/
def MarksArgs (op : UnaryOp) (es : List TypedExpr) : Prop :=
  (Dialect.embree.args es).Lifts
    (fun codes bares => codes.length = bares.length ∧ ∃ starts, Marked op.char starts
      (Doubles op (writtenArgs es)) (", ".intercalate codes).toList
      (", ".intercalate bares).toList)
    (Dialect.embree.args (withoutStringsArgs es))

/-! ### Texts -/

theorem toList_member (object property : String) :
    (object ++ "." ++ property).toList = object.toList ++ '.' :: property.toList := by
  simp [String.toList_append]

theorem toList_call (callee args : String) :
    (callee ++ "(" ++ args ++ ")").toList = callee.toList ++ '(' :: (args.toList ++ [')']) := by
  simp [String.toList_append]

theorem toList_words (left word right : String) :
    (left ++ " " ++ word ++ " " ++ right).toList =
      left.toList ++ ' ' :: (word.toList ++ ' ' :: right.toList) := by
  simp [String.toList_append]

theorem toList_conditional (test consequent alternate : String) :
    (test ++ " ? " ++ consequent ++ " : " ++ alternate).toList =
      test.toList ++ ' ' :: ("?".toList ++ ' ' :: (consequent.toList ++ ' ' :: (":".toList ++
        ' ' :: alternate.toList))) := by
  simp [String.toList_append]

section Marks

variable {op : UnaryOp} (hop : isSign op.char = true)

include hop

/-- The code of a number starts with a sign when the number does. -/
theorem marked_number {x : Float} {ty : Ty} {code : String}
    (h : Dialect.embree.number x ty = .ok code) :
    Marked op.char (Number.sign? x = some op) False code.toList code.toList := by
  obtain ⟨digits, hcode, hdigits⟩ := Dialect.embree_number_sign h
  have hrest := Marked.of_notMem (notMem_of_isSign hop hdigits)
  rw [hcode, Number.sign?]
  cases Number.hasMinus x with
  | false => exact hrest.congr (by simp) Iff.rfl
  | true =>
    by_cases hneg : op = .neg
    · subst hneg
      exact hrest.sign.congr (by simp) (by simp)
    · have hne : '-' ≠ op.char := by
        cases op with
        | neg => exact absurd rfl hneg
        | plus | not => decide
      exact (hrest.other hne).congr (by simp [Ne.symm hneg]) Iff.rfl

/-- An operand starts with the sign of its expression, unless it is put in parentheses. -/
theorem marked_operand {e : TypedExpr} {doubled : Prop} {code bare : String}
    (h : Marked op.char (e.sign? = some op) doubled code.toList bare.toList) :
    Marked op.char ((if e.isEnclosed then none else e.sign?) = some op) doubled
      (operand e code).toList (operand e.withoutStrings bare).toList := by
  have hoperand := Marked.operand hop h e.isCompound_withoutStrings e.isFolded_withoutStrings
  refine hoperand.congr ?_ Iff.rfl
  rw [isEnclosed]
  cases e.isCompound && !e.isFolded <;> simp

/-- Two operands with an operator between them. -/
theorem marked_operands {left right : TypedExpr} {dl dr : Prop} {l l' r r' word : String}
    (hl : Marked op.char (left.sign? = some op) dl l.toList l'.toList)
    (hr : Marked op.char (right.sign? = some op) dr r.toList r'.toList)
    (hword : ¬ [op.char, op.char] <:+: word.toList) :
    Marked op.char ((if left.isEnclosed then none else left.sign?) = some op) (dl ∨ dr)
      (operand left l ++ " " ++ word ++ " " ++ operand right r).toList
      (operand left.withoutStrings l' ++ " " ++ word ++ " " ++
        operand right.withoutStrings r').toList := by
  have hboth := Marked.between hop (marked_operand hop hl) hword (marked_operand hop hr)
  rwa [toList_words, toList_words]

/-- A property after its object. -/
theorem marked_member {starts doubled : Prop} {code bare property : String}
    (h : Marked op.char starts doubled code.toList bare.toList)
    (hproperty : op.char ∉ property.toList) :
    Marked op.char starts doubled (code ++ "." ++ property).toList
      (bare ++ "." ++ property).toList := by
  rw [toList_member, toList_member]
  have hpoint : '.' ≠ op.char := ne_of_isSign hop rfl
  exact (h.append hpoint (.of_notMem hproperty)).congr Iff.rfl (or_false _).to_iff

/-- An operator before its operand.  Only here can two signs meet. -/
theorem marked_unary {own : UnaryOp} {argument : TypedExpr} {m : Mark}
    (hvalue : (TypedExpr.unary own argument m).propagated? = none) {doubled : Prop}
    {code bare : String}
    (h : Marked op.char (argument.sign? = some op) doubled code.toList bare.toList) :
    Marked op.char ((if own = .not then none else some own) = some op)
      ((TypedExpr.unary own argument m).clashes op = true ∨ doubled)
      (own.text ++ operand argument code).toList
      (own.text ++ operand argument.withoutStrings bare).toList := by
  have hoperand := marked_operand hop h
  rw [String.toList_append, String.toList_append, UnaryOp.toList_text]
  by_cases hown : own = op
  · subst hown
    have hnot : own ≠ .not := by
      rintro rfl
      cases hop
    refine hoperand.sign.congr (iff_of_true trivial (if_neg hnot)) (or_congr_left ?_)
    cases hargument : argument.isEnclosed <;> simp [clashes, hvalue, hargument]
  · have hchar : own.char ≠ op.char := fun heq => hown (UnaryOp.char_inj.1 heq)
    have hsign : (if own = .not then none else some own) ≠ some op := by
      split
      · exact nofun
      · exact fun heq => hown (Option.some.inj heq)
    refine (hoperand.other hchar).congr (iff_of_false not_false hsign) ?_
    simp [clashes, hown]

/-- A number in place of an expression that does not clash. -/
theorem lifts_number (x : Float) (ty : Ty) {es : List TypedExpr} (hes : ¬ Doubles op es) :
    (Render.ofExcept (Dialect.embree.number x ty)).Lifts
      (fun code bare => Marked op.char (Number.sign? x = some op) (Doubles op es)
        code.toList bare.toList)
      (Render.ofExcept (Dialect.embree.number x ty)) := by
  refine .self fun code warnings hcode => ?_
  have hnumber : Dialect.embree.number x ty = .ok code := Render.eq_ok_of_ofExcept hcode
  exact (marked_number hop hnumber).congr Iff.rfl (iff_of_false not_false hes)

/-- The word for a type has no sign. -/
theorem lifts_typeName (ty : Ty) :
    (Render.ofExcept (Dialect.embree.typeName ty)).Lifts
      (fun word word' => Marked op.char False False word.toList word'.toList)
      (Render.ofExcept (Dialect.embree.typeName ty)) := by
  refine .self fun word warnings hword => .of_notMem (notMem_of_isSign hop ?_)
  exact Dialect.embree_typeName_sign (Dialect.typeName_eq_ok (Render.eq_ok_of_ofExcept hword))

/-- A placeholder has no sign. -/
theorem lifts_placeholder :
    (placeholder "Literal").Lifts
      (fun code bare => Marked op.char False False code.toList bare.toList)
      (placeholder "Literal") := by
  have hcode : op.char ∉ (placeholderStart ++ ": " ++ "Literal" ++ ">").toList :=
    notMem_of_isSign hop (by decide)
  refine .bind (.self (R := fun _ _ => True) fun _ _ _ => trivial) fun _ _ _ => .pure ?_
  exact .of_notMem hcode

/-- An operator is written with one sign at most. -/
theorem not_doubled_binary (own : BinaryOp) : ¬ [op.char, op.char] <:+: own.text.toList := by
  refine not_doubled_of_countP hop ?_
  rcases own with own | own <;> cases own <;> decide

theorem not_doubled_logical (own : LogicalOp) : ¬ [op.char, op.char] <:+: own.text.toList := by
  refine not_doubled_of_countP hop ?_
  cases own <;> decide

theorem not_doubled_assign (own : AssignOp) : ¬ [op.char, op.char] <:+: own.text.toList := by
  refine not_doubled_of_countP hop ?_
  rcases own with _ | own
  · decide
  · cases own <;> decide

mutual

/-- The code of an expression has the signs that the tree says, where the names have none. -/
theorem marks (e : TypedExpr)
    (hnames : ∀ x ∈ e.all, ∀ name, x.ownName? = some name → op.char ∉ name.toList) :
    Marks op e := by
  unfold Marks
  -- Both renderings take the same branch, as emptying strings changes neither forms nor values.
  rw [Dialect.expr.eq_def, Dialect.expr.eq_def Dialect.embree e.withoutStrings,
    propagated?_withoutStrings, sign?.eq_def, written.eq_def]
  cases hvalue : e.propagated? with
  | some value =>
    simp only [ty_withoutStrings]
    refine lifts_number hop value e.ty ?_
    simp [doubles_cons, clashes_of_propagated? hvalue]
  | none =>
    simp only
    match e with
    | .literal value m =>
      -- A literal has no parts and is no operator.
      have hnone : ¬ Doubles op [TypedExpr.literal value m] := by simp [doubles_cons, clashes]
      match value with
      | some (.number x) => exact lifts_number hop x m.ascription.ty hnone
      | some (.string s) =>
        exact .pure ((Marked.string hop s).congr (by simp) (iff_of_false not_false hnone))
      | some (.bool b) =>
        have hword : op.char ∉ (if b then "true" else "false").toList :=
          notMem_of_isSign hop (by cases b <;> decide)
        exact .pure ((Marked.of_notMem hword).congr (by simp) (iff_of_false not_false hnone))
      | none =>
        refine (lifts_placeholder hop).mono fun code bare h => ?_
        exact h.congr (by simp) (iff_of_false not_false hnone)
    | .ident name m =>
      have hname := Marked.of_notMem (hnames _ (self_mem_all _) name rfl)
      have hnone : ¬ Doubles op [TypedExpr.ident name m] := by simp [doubles_cons, clashes]
      exact .pure (hname.congr (by simp) (iff_of_false not_false hnone))
    | .member object property m =>
      have hproperty := hnames _ (self_mem_all _) property rfl
      rw [all, List.forall_mem_cons] at hnames
      simp only [doubles_cons, clashes, Bool.false_eq_true, false_or]
      exact (marks object hnames.2).bind fun code bare h => .pure (marked_member hop h hproperty)
    | .call callee args m =>
      rw [all, List.forall_mem_cons, List.forall_mem_append] at hnames
      simp only [doubles_cons, clashes, Bool.false_eq_true, false_or, doubles_append]
      refine (marks callee hnames.2.1).bind fun code bare h => ?_
      refine (marksArgs args hnames.2.2).bind fun codes bares hargs => .pure ?_
      obtain ⟨-, starts, hargs⟩ := hargs
      rw [toList_call, toList_call]
      exact h.append (ne_of_isSign hop rfl) (hargs.close hop)
    | .construct name args m =>
      rw [all, List.forall_mem_cons] at hnames
      simp only [doubles_cons, clashes, Bool.false_eq_true, false_or]
      refine (lifts_typeName hop m.ascription.ty).bind fun word word' hword => ?_
      refine (marksArgs args hnames.2).bind fun codes bares hargs => .pure ?_
      obtain ⟨-, starts, hargs⟩ := hargs
      rw [toList_call, toList_call]
      exact (hword.append (ne_of_isSign hop rfl) (hargs.close hop)).congr (by simp) (by simp)
    | .binary own left right m =>
      rw [all, List.forall_mem_cons, List.forall_mem_append] at hnames
      simp only [doubles_cons, clashes, Bool.false_eq_true, false_or, doubles_append]
      refine (marks left hnames.2.1).bind fun l l' hl => ?_
      refine (marks right hnames.2.2).bind fun r r' hr => .pure ?_
      exact marked_operands hop hl hr (not_doubled_binary hop own)
    | .logical own left right m =>
      rw [all, List.forall_mem_cons, List.forall_mem_append] at hnames
      simp only [doubles_cons, clashes, Bool.false_eq_true, false_or, doubles_append]
      refine (marks left hnames.2.1).bind fun l l' hl => ?_
      refine (marks right hnames.2.2).bind fun r r' hr => .pure ?_
      exact marked_operands hop hl hr (not_doubled_logical hop own)
    | .assign own target value m =>
      rw [all, List.forall_mem_cons, List.forall_mem_append] at hnames
      simp only [doubles_cons, clashes, Bool.false_eq_true, false_or, doubles_append]
      refine (marksPlace target hnames.2.1).bind fun l l' hl => ?_
      refine (marks value hnames.2.2).bind fun r r' hr => .pure ?_
      rw [toList_words, toList_words]
      exact hl.between hop (not_doubled_assign hop own) hr
    | .conditional test consequent alternate m =>
      rw [all, List.forall_mem_cons, List.forall_mem_append, List.forall_mem_append] at hnames
      simp only [doubles_cons, clashes, Bool.false_eq_true, false_or, doubles_append]
      have hquestion : ¬ [op.char, op.char] <:+: "?".toList :=
        not_doubled_of_notMem (notMem_of_isSign hop (by decide))
      have hcolon : ¬ [op.char, op.char] <:+: ":".toList :=
        not_doubled_of_notMem (notMem_of_isSign hop (by decide))
      refine (marks test hnames.2.1).bind fun t t' ht => ?_
      refine (marks consequent hnames.2.2.1).bind fun c c' hc => ?_
      refine (marks alternate hnames.2.2.2).bind fun a a' ha => .pure ?_
      have hbranches := (marked_operand hop hc).between hop hcolon (marked_operand hop ha)
      rw [toList_conditional, toList_conditional]
      exact (marked_operand hop ht).between hop hquestion hbranches
    | .unary own argument m =>
      rw [all, List.forall_mem_cons] at hnames
      rw [doubles_cons]
      exact (marks argument hnames.2).bind fun code bare h => .pure (marked_unary hop hvalue h)
termination_by (sizeOf e, 0)

/-- The code of a target has the signs that the tree says. -/
theorem marksPlace (e : TypedExpr)
    (hnames : ∀ x ∈ e.all, ∀ name, x.ownName? = some name → op.char ∉ name.toList) :
    MarksPlace op e := by
  match e with
  | .ident name m =>
    have hname := Marked.of_notMem (hnames _ (self_mem_all _) name rfl)
    exact .pure (hname.congr (by simp [placeSign?]) (by simp [writtenPlace]))
  | .member object property m =>
    have hproperty := hnames _ (self_mem_all _) property rfl
    rw [all, List.forall_mem_cons] at hnames
    unfold MarksPlace
    rw [Dialect.place, withoutStrings, Dialect.place, placeSign?, writtenPlace]
    exact (marksPlace object hnames.2).bind fun code bare h =>
      .pure (marked_member hop h hproperty)
  | .literal none _ | .literal (some (.number _)) _ | .literal (some (.string _)) _
  | .literal (some (.bool _)) _ | .call _ _ _ | .construct _ _ _ | .binary _ _ _ _
  | .logical _ _ _ _ | .assign _ _ _ _ | .conditional _ _ _ _ | .unary _ _ _ =>
    exact marks _ hnames
termination_by (sizeOf e, 1)

/-- The codes of arguments have the signs that the trees say. -/
theorem marksArgs (es : List TypedExpr)
    (hnames : ∀ x ∈ allArgs es, ∀ name, x.ownName? = some name → op.char ∉ name.toList) :
    MarksArgs op es := by
  match es with
  | [] =>
    have hempty : Marked op.char False False [] [] := .of_notMem (by simp)
    exact .pure ⟨rfl, False, hempty.congr Iff.rfl (by simp [writtenArgs])⟩
  | e :: rest =>
    rw [allArgs, List.forall_mem_append] at hnames
    unfold MarksArgs
    rw [Dialect.args, withoutStringsArgs, Dialect.args, writtenArgs]
    refine (marks e hnames.1).bind fun code bare h => ?_
    refine (marksArgs rest hnames.2).bind fun codes bares ⟨hlength, hrest⟩ => .pure ?_
    rw [doubles_append]
    exact ⟨congrArg (· + 1) hlength, h.intercalate hop hlength hrest⟩
termination_by (sizeOf es, 0)

end

end Marks

end TypedExpr

/-! ## Inferred programs -/

/-- The negation of a known integer is not known only if it does not fit into 64 bits. -/
theorem foldNeg_eq_none {ty : Ty} {x : Float} (h : foldNeg ty x = none) :
    ty = .int ∧ ∀ n, Number.toInt64? x = some n → n = -9223372036854775808 := by
  unfold foldNeg at h
  split at h
  · rename_i hint
    refine ⟨hint, fun n hn => ?_⟩
    have hfits : Number.fitsInt64 n = true := (Option.filter_eq_some_iff.1 hn).2
    have hunfit : Number.fitsInt64 (-n) = false := by
      rw [hn, Option.bind_some, Option.map_eq_none_iff, Option.filter_eq_none_iff] at h
      exact Bool.eq_false_iff.2 (h _ rfl)
    simp only [Number.fitsInt64, Bool.and_eq_true, decide_eq_true_eq, Bool.and_eq_false_iff,
      decide_eq_false_iff_not] at hfits hunfit
    omega
  · cases h

theorem Ascription.number?_map (ty : Ty) (x : Option Float) :
    (⟨ty, x.map .number⟩ : Ascription).number? = x := by
  cases x <;> rfl

/-- A signed number has the type of the number. -/
theorem unaryAscription_of_isNumeric {op : UnaryOp} {argument a : Ascription} {span : Option Span}
    (h : unaryAscription op argument span = .ok a) (hop : op ≠ .not)
    (hnumeric : argument.ty.isNumeric = true) :
    a = ⟨argument.ty, foldSign op argument.ty argument⟩ := by
  unfold unaryAscription at h
  split at h
  · exact absurd rfl hop
  · rw [if_pos hnumeric] at h
    exact (Except.ok.inj h).symm

/-- A sign before a known number is computed away, unless the negation of an integer does not fit
into 64 bits. -/
theorem foldSign_eq_none {op : UnaryOp} (hop : op ≠ .not) {ty : Ty} {argument : Ascription}
    {x : Float} (hx : argument.number? = some x)
    (h : (⟨ty, foldSign op ty argument⟩ : Ascription).number? = none) :
    op = .neg ∧ ty = .int ∧ ∀ n, Number.toInt64? x = some n → n = -9223372036854775808 := by
  cases op with
  | not => exact absurd rfl hop
  | plus =>
    rw [foldSign, Ascription.number?_map, hx] at h
    · cases h
    · exact nofun
  | neg =>
    rw [foldSign, Ascription.number?_map, hx, Option.bind_some] at h
    exact ⟨rfl, foldNeg_eq_none h⟩

namespace Function

variable {f : Function} {injections : Injections} {registry : Registry} {t : TypedFunction}
  {e : TypedExpr}

/-- The names in the typed form of a function are names in the function. -/
theorem mem_names_of_ownName? (h : f.infer injections registry = .ok t) (he : e ∈ t.exprs)
    {name : String} (hname : e.ownName? = some name) : name ∈ f.names := by
  have hplace : e.isPlace = true ∧ name ∈ e.erase.names := by
    cases e with
    | ident own m =>
      obtain rfl := Option.some.inj hname
      exact ⟨rfl, List.mem_singleton_self _⟩
    | member object property m =>
      obtain rfl := Option.some.inj hname
      exact ⟨rfl, List.mem_append_right _ (List.mem_singleton_self _)⟩
    | _ => cases hname
  obtain ⟨pre, ev, post, hevents, hev⟩ := TypedFunction.exists_event he hplace.1
  have hmem : ev ∈ t.events := by
    rw [hevents]
    exact List.mem_append_right _ (List.mem_cons_self ..)
  refine mem_names_of_mem_events h hmem ?_
  cases ev with
  | read x =>
    obtain rfl := Option.some.inj hev
    exact hplace.2
  | assign op target value =>
    change (if target.isPlace then some target else none) = some e at hev
    split at hev
    · obtain rfl := Option.some.inj hev
      exact hplace.2
    · cases hev
  | _ => cases hev

/-- A sign is written before a known number only if its negation does not fit into 64 bits. -/
theorem written_sign (h : f.infer injections registry = .ok t) {op : UnaryOp} {m : Mark}
    (he : .unary op e m ∈ t.exprs) (hop : op ≠ .not)
    (hwritten : (TypedExpr.unary op e m).propagated? = none) {x : Float}
    (hx : e.propagated? = some x) :
    op = .neg ∧ e.ty = .int ∧ ∀ n, Number.toInt64? x = some n → n = -9223372036854775808 := by
  obtain ⟨hnumeric, hnumber⟩ := TypedExpr.propagated?_eq_some_iff.1 hx
  cases (Function.infer_sourced h).derived _ he with
  | run hrun _ =>
    cases hrun with
    | @unary _ _ _ _ span _ a _ ha =>
      have hsigned : a = ⟨e.ty, foldSign op e.ty e.ascription⟩ :=
        unaryAscription_of_isNumeric ha hop hnumeric
      refine foldSign_eq_none hop hnumber ?_
      rw [← hsigned]
      by_contra hknown
      obtain ⟨y, hy⟩ := Option.ne_none_iff_exists'.1 hknown
      have hty : (TypedExpr.unary op e ⟨a, span⟩).ty.isNumeric = true := by
        show a.ty.isNumeric = true
        rw [hsigned]
        exact hnumeric
      have hreplaced := TypedExpr.propagated?_eq_some_iff.2 ⟨hty, hy⟩
      rw [hwritten] at hreplaced
      cases hreplaced
  | target hplace _ => cases hplace

end Function

/-- Where the names have no sign, the code of an expression has a sign twice in a row, outside
string literals, exactly when a prefix operator is written directly before the same sign.  That sign
is the one of a known value only if the value is an integer whose negation does not fit into 64
bits. -/
theorem Program.sign_doubled_iff {p : Program} {injections : Injections} {registry : Registry}
    {t : TypedProgram} (h : p.infer injections registry = .ok t)
    (hnames : ∀ f ∈ p.functions, ∀ name ∈ f.names, '-' ∉ name.toList ∧ '+' ∉ name.toList)
    {g : TypedFunction} (hg : g ∈ t.functions) {e : TypedExpr} (he : e ∈ g.exprs) {code : String}
    {warnings : List Warning} (hcode : Dialect.embree.expr e = .ok (code, warnings)) :
    (∃ bare, Dialect.embree.expr e.withoutStrings = .ok (bare, warnings) ∧
      Emptied code.toList bare.toList ∧
      ∀ op : UnaryOp, op ≠ .not →
        ((op.text ++ op.text).toList <:+: bare.toList ↔ ∃ x ∈ e.written, x.clashes op = true)) ∧
    ∀ op argument m x, .unary op argument m ∈ e.all → op ≠ .not →
      (TypedExpr.unary op argument m).propagated? = none → argument.propagated? = some x →
      op = .neg ∧ argument.ty = .int ∧
        ∀ n, Number.toInt64? x = some n → n = -9223372036854775808 := by
  obtain ⟨typed, htyped, hok⟩ := bind_eq_ok_iff.1 h
  obtain rfl := Except.ok.inj hok
  obtain ⟨f, hf, hinfer⟩ := exists_of_mem_mapM htyped hg
  have hparts : ∀ x ∈ e.all, x ∈ g.exprs := TypedStmt.all_subset_exprsAll he
  have hmarks : ∀ op : UnaryOp, op ≠ .not → TypedExpr.Marks op e := by
    intro op hop
    refine TypedExpr.marks (UnaryOp.isSign_char hop) e fun x hx name hname => ?_
    have hfree := hnames f hf name (Function.mem_names_of_ownName? hinfer (hparts x hx) hname)
    cases op with
    | neg => exact hfree.1
    | plus => exact hfree.2
    | not => exact absurd rfl hop
  constructor
  · obtain ⟨bare, hbare, hmarked⟩ := hmarks .neg nofun code warnings hcode
    refine ⟨bare, hbare, hmarked.emptied, fun op hop => ?_⟩
    obtain ⟨bare', hbare', hmarked'⟩ := hmarks op hop code warnings hcode
    cases hbare.symm.trans hbare'
    rw [String.toList_append, UnaryOp.toList_text]
    exact hmarked'.doubled_iff
  · intro op argument m x hmem hop hwritten hx
    exact Function.written_sign hinfer (hparts _ hmem) hop hwritten hx

namespace Sample

/-- Two numbers and a string. -/
def signedInjections : Injections :=
  ⟨[("a", .ofTy .number), ("b", .ofTy .number), ("s", .ofTy .string)]⟩

/-- `function f(a, b, s) { return s == "--" ? -(a - -b) : a; }` -/
def signed : Program :=
  ⟨[Bare.function "f" ["a", "b", "s"] [
    Bare.ret (some (Bare.conditional
      (Bare.binary (.comparison .eq) (Bare.ident "s") (Bare.string "--"))
      (Bare.unary .neg (Bare.binary (.arithmetic .sub) (Bare.ident "a")
        (Bare.unary .neg (Bare.ident "b"))))
      (Bare.ident "a")))]], none⟩

/-- What inference makes of the returned expression. -/
def typedSigned : TypedExpr :=
  .conditional
    (.binary (.comparison .eq) (.ident "s" (mark .string))
      (.literal (some (.string "--")) ⟨⟨.string, some (.string "--")⟩, none⟩) (mark .boolean))
    (.unary .neg (.binary (.arithmetic .sub) (.ident "a" (mark .number))
      (.unary .neg (.ident "b" (mark .number)) (mark .number)) (mark .number)) (mark .number))
    (.ident "a" (mark .number)) (mark .number)

/-- What inference makes of the function. -/
def typedSignedFunction : TypedFunction where
  name := "f"
  params := [⟨"a", .number, none⟩, ⟨"b", .number, none⟩, ⟨"s", .string, none⟩]
  body := [.ret (some typedSigned)]
  result := .number
  span := none

/-- A sign in parentheses and one after a blank stay apart, and a string does not count. -/
theorem signs_stay_apart :
    signed.infer signedInjections ⟨[]⟩ = .ok ⟨[typedSignedFunction]⟩ ∧
    typedSigned ∈ typedSignedFunction.exprs ∧
    Dialect.embree.expr typedSigned = .ok ("(s == \"--\") ? -(a - -b) : a", []) ∧
    ∃ bare, Dialect.embree.expr typedSigned.withoutStrings = .ok (bare, []) ∧
      ¬ "--".toList <:+: bare.toList ∧ ¬ "++".toList <:+: bare.toList := by
  have hinfer : signed.infer signedInjections ⟨[]⟩ = .ok ⟨[typedSignedFunction]⟩ := rfl
  have hmem : typedSigned ∈ typedSignedFunction.exprs := List.mem_cons_self ..
  have hcode : Dialect.embree.expr typedSigned =
      .ok ("(s == \"--\") ? -(a - -b) : a", []) := rfl
  obtain ⟨⟨bare, hbare, -, hdoubled⟩, -⟩ := Program.sign_doubled_iff hinfer (by decide)
    (List.mem_singleton_self _) hmem hcode
  refine ⟨hinfer, hmem, hcode, bare, hbare, ?_, ?_⟩
  · exact (hdoubled .neg nofun).not.2 (by decide)
  · exact (hdoubled .plus nofun).not.2 (by decide)

/-- `function f(a) { return -(-a); }` -/
def negatedTwice : Program :=
  ⟨[Bare.function "f" ["a"] [
    Bare.ret (some (Bare.unary .neg (Bare.unary .neg (Bare.ident "a"))))]], none⟩

/-- What inference makes of the returned expression. -/
def typedNegatedTwice : TypedExpr :=
  .unary .neg (.unary .neg (.ident "a" (mark .number)) (mark .number)) (mark .number)

/-- The negation of a negation is written as a decrement. -/
theorem negated_twice_is_decremented :
    (∃ g, negatedTwice.infer signedInjections ⟨[]⟩ = .ok ⟨[g]⟩ ∧ typedNegatedTwice ∈ g.exprs) ∧
    (∀ f ∈ negatedTwice.functions, ∀ name ∈ f.names,
      '-' ∉ name.toList ∧ '+' ∉ name.toList) ∧
    typedNegatedTwice.withoutStrings = typedNegatedTwice ∧
    Dialect.embree.expr typedNegatedTwice = .ok ("--a", []) ∧
    "--".toList <:+: "--a".toList := by
  exact ⟨⟨_, rfl, List.mem_cons_self ..⟩, by decide, rfl, rfl, [], ['a'], rfl⟩

end Sample

end Shader
