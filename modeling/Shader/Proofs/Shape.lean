import Shader.Proofs.WellTyped
import Shader.Target.Expression

/-!
# The shape of an expression and its text

The *shape* of an expression is its tree with names and operators, and without types, values and
spans.  Names, members, calls and operators keep their shape in the target code.  `Shape.chars` is a
plain printer for them, and `TypedExpr.embree_shape` shows that rendering prints the shape of an
expression, as long as no value takes the place of a part.

Operands are put in parentheses where they are operations themselves.  The object of a member and
the callee of a call are not, so that `Shape.isGrouped` asks for more than the printer does.
-/

namespace Shader

/-! ## Shapes -/

/-- An expression without types, values and spans. -/
inductive Shape where
  | literal (value : Option Constant)
  | ident (name : String)
  | member (object : Shape) (property : String)
  | call (callee : Shape) (args : List Shape)
  | construct (name : String) (args : List Shape)
  | binary (op : BinaryOp) (left right : Shape)
  | logical (op : LogicalOp) (left right : Shape)
  | assign (op : AssignOp) (target value : Shape)
  | conditional (test consequent alternate : Shape)
  | unary (op : UnaryOp) (argument : Shape)

namespace TypedExpr

mutual

/-- The shape of an expression. -/
def shape : TypedExpr → Shape
  | .literal value _ => .literal value
  | .ident name _ => .ident name
  | .member object property _ => .member object.shape property
  | .call callee args _ => .call callee.shape (shapeArgs args)
  | .construct name args _ => .construct name (shapeArgs args)
  | .binary op left right _ => .binary op left.shape right.shape
  | .logical op left right _ => .logical op left.shape right.shape
  | .assign op target value _ => .assign op target.shape value.shape
  | .conditional test consequent alternate _ =>
    .conditional test.shape consequent.shape alternate.shape
  | .unary op argument _ => .unary op argument.shape

/-- The shapes of arguments. -/
def shapeArgs : List TypedExpr → List Shape
  | [] => []
  | e :: rest => e.shape :: shapeArgs rest

end

end TypedExpr

/-- Whether a character may stand in a plain name: it is neither a blank nor punctuation, and no
operator is written with it. -/
def isNameChar (c : Char) : Bool := !" ().,?:+-*/%<>=!&|".toList.contains c

/-- Whether a name has a character, and only such as a plain name may have. -/
def isPlainName (name : String) : Bool := !name.toList.isEmpty && name.toList.all isNameChar

namespace Shape

/-- Whether a shape is an operation that binds its operands loosely. -/
def isCompound : Shape → Bool
  | .binary _ _ _ | .logical _ _ _ | .assign _ _ _ | .conditional _ _ _ => true
  | _ => false

/-- Whether a shape is a name, a member or a call. -/
def isPostfix : Shape → Bool
  | .ident _ | .member _ _ | .call _ _ => true
  | _ => false

/-- Whether a shape is a name or a member. -/
def isPlace : Shape → Bool
  | .ident _ | .member _ _ => true
  | _ => false

/-- Whether a node is neither a literal nor a constructor, whose texts depend on types, and its name
is plain. -/
def isPlain : Shape → Bool
  | .literal _ | .construct _ _ => false
  | .ident name => isPlainName name
  | .member _ property => isPlainName property
  | _ => true

/-- Whether the object of a member and the callee of a call are names, members or calls. -/
def isGrouped : Shape → Bool
  | .member object _ => object.isPostfix
  | .call callee _ => callee.isPostfix
  | _ => true

/-- Whether the target of an assignment is a name or a member. -/
def hasPlaceTarget : Shape → Bool
  | .assign _ target _ => target.isPlace
  | _ => true

mutual

/-- Whether a condition holds at every node. -/
def every (p : Shape → Bool) : Shape → Bool
  | .literal value => p (.literal value)
  | .ident name => p (.ident name)
  | .member object property => p (.member object property) && object.every p
  | .call callee args => p (.call callee args) && (callee.every p && everyArgs p args)
  | .construct name args => p (.construct name args) && everyArgs p args
  | .binary op left right => p (.binary op left right) && (left.every p && right.every p)
  | .logical op left right => p (.logical op left right) && (left.every p && right.every p)
  | .assign op target value => p (.assign op target value) && (target.every p && value.every p)
  | .conditional test consequent alternate =>
    p (.conditional test consequent alternate) &&
      (test.every p && (consequent.every p && alternate.every p))
  | .unary op argument => p (.unary op argument) && argument.every p

/-- Whether a condition holds at every node of the arguments. -/
def everyArgs (p : Shape → Bool) : List Shape → Bool
  | [] => true
  | s :: rest => s.every p && everyArgs p rest

end

/-! ## Printing -/

/-- A text, in parentheses if asked for. -/
def enclose (parentheses : Bool) (text : List Char) : List Char :=
  if parentheses then '(' :: (text ++ [')']) else text

/-- Two operands with a word between them. -/
def join (left : List Char) (word : String) (right : List Char) : List Char :=
  left ++ ' ' :: (word.toList ++ ' ' :: right)

mutual

/-- The text of a shape, where it is free of literals and constructors. -/
def chars : Shape → List Char
  | .literal _ => []
  | .construct _ _ => []
  | .ident name => name.toList
  | .member object property => object.chars ++ '.' :: property.toList
  | .call callee args => callee.chars ++ '(' :: (charsArgs args ++ [')'])
  | .binary op left right =>
    join (enclose left.isCompound left.chars) op.text (enclose right.isCompound right.chars)
  | .logical op left right =>
    join (enclose left.isCompound left.chars) op.text (enclose right.isCompound right.chars)
  | .assign op target value => join target.chars op.text value.chars
  | .conditional test consequent alternate =>
    join (enclose test.isCompound test.chars) "?"
      (join (enclose consequent.isCompound consequent.chars) ":"
        (enclose alternate.isCompound alternate.chars))
  | .unary op argument => op.text.toList ++ enclose argument.isCompound argument.chars

/-- The text of arguments, with a comma and a blank between any two. -/
def charsArgs : List Shape → List Char
  | [] => []
  | [s] => s.chars
  | s :: next :: rest => s.chars ++ ',' :: ' ' :: charsArgs (next :: rest)

end

/-- The text of a shape as an operand. -/
def operandChars (s : Shape) : List Char := enclose s.isCompound s.chars

/-- Whether a text may start with a character: that of a plain name, a prefix operator or a
parenthesis. -/
def isFirstChar (c : Char) : Bool := isNameChar c || "(-+!".toList.contains c

/-- A plain name starts with a character that a name may have. -/
theorem exists_cons_of_isPlainName {name : String} (h : isPlainName name = true) :
    ∃ c cs, name.toList = c :: cs ∧ isNameChar c = true ∧ cs.all isNameChar = true := by
  simp only [isPlainName, Bool.and_eq_true, Bool.not_eq_true'] at h
  cases hname : name.toList with
  | nil => simp [hname] at h
  | cons c cs =>
    rw [hname, List.all_cons, Bool.and_eq_true] at h
    exact ⟨c, cs, rfl, h.2⟩

/-- What is true of the first character of a text is true of that of the text in parentheses. -/
theorem exists_cons_enclose {b : Bool} {text : List Char}
    (h : ∃ c cs, text = c :: cs ∧ isFirstChar c = true) :
    ∃ c cs, enclose b text = c :: cs ∧ isFirstChar c = true := by
  cases b with
  | true => exact ⟨'(', _, rfl, rfl⟩
  | false => exact h

/-- What is true of the first character of a text is true of that of a longer one. -/
theorem exists_cons_append {text more : List Char}
    (h : ∃ c cs, text = c :: cs ∧ isFirstChar c = true) :
    ∃ c cs, text ++ more = c :: cs ∧ isFirstChar c = true := by
  obtain ⟨c, cs, rfl, hc⟩ := h
  exact ⟨c, cs ++ more, rfl, hc⟩

/-- The text of a plain shape starts with a name, a prefix operator or a parenthesis. -/
theorem exists_cons_chars : ∀ {s : Shape}, s.every isPlain = true →
    ∃ c cs, s.chars = c :: cs ∧ isFirstChar c = true
  | .literal _, h => by cases h
  | .construct _ _, h => by cases h
  | .ident name, h => by
    obtain ⟨c, cs, hname, hc, -⟩ := exists_cons_of_isPlainName h
    exact ⟨c, cs, hname, by rw [isFirstChar, hc, Bool.true_or]⟩
  | .member object property, h => by
    simp only [every, Bool.and_eq_true] at h
    exact exists_cons_append (exists_cons_chars h.2)
  | .call callee args, h => by
    simp only [every, Bool.and_eq_true] at h
    exact exists_cons_append (exists_cons_chars h.2.1)
  | .binary op left right, h => by
    simp only [every, Bool.and_eq_true] at h
    exact exists_cons_append (exists_cons_enclose (exists_cons_chars h.2.1))
  | .logical op left right, h => by
    simp only [every, Bool.and_eq_true] at h
    exact exists_cons_append (exists_cons_enclose (exists_cons_chars h.2.1))
  | .assign op target value, h => by
    simp only [every, Bool.and_eq_true] at h
    exact exists_cons_append (exists_cons_chars h.2.1)
  | .conditional test consequent alternate, h => by
    simp only [every, Bool.and_eq_true] at h
    exact exists_cons_append (exists_cons_enclose (exists_cons_chars h.2.1))
  | .unary op argument, _ => by cases op <;> exact ⟨_, _, rfl, rfl⟩

/-- No text of a plain shape is taken for a placeholder. -/
theorem startsWithPlaceholder_chars {s : Shape} (h : s.every isPlain = true) :
    startsWithPlaceholder (String.ofList s.chars) = false := by
  obtain ⟨c, cs, hchars, hc⟩ := exists_cons_chars h
  rw [startsWithPlaceholder, String.toList_ofList, hchars]
  have hne : c ≠ '<' := by
    rintro rfl
    exact absurd hc (by decide)
  have hstart : placeholderStart.toList = '<' :: "unhandled".toList := by decide
  rw [hstart, List.isPrefixOf_cons_cons, Bool.and_eq_false_imp]
  intro heq
  exact absurd (beq_iff_eq.1 heq).symm hne

/-- A text between two others. -/
theorem ofList_join (left : List Char) (word : String) (right : List Char) :
    String.ofList (join left word right)
      = String.ofList left ++ " " ++ word ++ " " ++ String.ofList right := by
  simp [join, String.append_assoc]

/-- The texts of arguments, put together. -/
theorem intercalate_chars : ∀ ss : List Shape,
    ", ".intercalate (ss.map fun s => String.ofList s.chars) = String.ofList (charsArgs ss)
  | [] => rfl
  | [s] => by simp [charsArgs]
  | s :: next :: rest => by
    have hrest := intercalate_chars (next :: rest)
    rw [List.map_cons] at hrest
    rw [List.map_cons, List.map_cons, String.intercalate_cons_cons, hrest, ← String.toList_inj]
    simp [charsArgs]

end Shape

/-! ## Rendering prints the shape -/

namespace Render

/-- A step after a result without warnings. -/
@[simp] theorem pure_bind {α β : Type} (a : α) (f : α → Render β) :
    ((Pure.pure a : Render α) >>= f) = f a := by
  show Render.bind (Render.pure a) f = f a
  unfold Render.bind Render.pure
  cases h : f a with
  | error e =>
    simp only [h]
    rfl
  | ok r =>
    simp only [h, List.nil_append]
    rfl

end Render

namespace TypedExpr

/-- What is not folded has no value in its place. -/
theorem propagated?_of_isFolded {e : TypedExpr} (h : e.isFolded = false) :
    e.propagated? = none := by
  unfold propagated?
  split
  · rename_i hnumeric
    rw [isFolded, hnumeric, Bool.true_and, Option.isSome_eq_false_iff] at h
    rw [Ascription.number?, Option.isNone_iff_eq_none.1 h]
    rfl
  · rfl

/-- An expression binds its operands as loosely as its shape. -/
theorem isCompound_shape (e : TypedExpr) : e.shape.isCompound = e.isCompound := by
  cases e <;> rfl

/-- A place has the shape of one. -/
theorem isPlace_shape (e : TypedExpr) : e.shape.isPlace = e.isPlace := by
  cases e <;> rfl

/-- An operand is printed like its shape. -/
theorem operand_shape {e : TypedExpr} (hfolded : e.isFolded = false)
    (hplain : e.shape.every Shape.isPlain = true) :
    operand e (String.ofList e.shape.chars) = String.ofList e.shape.operandChars := by
  unfold operand Shape.operandChars Shape.enclose
  rw [isCompound_shape, hfolded, Shape.startsWithPlaceholder_chars hplain]
  cases e.isCompound with
  | true => simp [String.append_assoc]
  | false => simp

/-- The expression comes first among its parts. -/
theorem self_mem_all (e : TypedExpr) : e ∈ e.all := by
  cases e <;> simp [all]

/-- A target is printed like any expression, where no value takes the place of a part. -/
theorem place_eq_expr (d : Dialect) : ∀ {e : TypedExpr}, (∀ x ∈ e.all, x.isFolded = false) →
    d.place e (fun _ => d.expr e) = d.expr e
  | .ident name m, h => by
    rw [Dialect.place, Dialect.expr, propagated?_of_isFolded (h _ (self_mem_all _))]
  | .member object property m, h => by
    rw [Dialect.place, place_eq_expr d fun x hx => h x (List.mem_cons_of_mem _ hx), Dialect.expr,
      propagated?_of_isFolded (h _ (self_mem_all _))]
  | .literal _ _, _ | .call _ _ _, _ | .construct _ _ _, _ | .binary _ _ _ _, _
  | .logical _ _ _ _, _ | .assign _ _ _ _, _ | .conditional _ _ _ _, _ | .unary _ _ _, _ => by
    rw [Dialect.place]
    all_goals simp

/-- Two operands are printed like their shapes. -/
theorem embree_operands {left right : TypedExpr} (hfoldedl : left.isFolded = false)
    (hfoldedr : right.isFolded = false) (hplainl : left.shape.every Shape.isPlain = true)
    (hplainr : right.shape.every Shape.isPlain = true)
    (htextl : Dialect.embree.expr left = pure (String.ofList left.shape.chars))
    (htextr : Dialect.embree.expr right = pure (String.ofList right.shape.chars)) (word : String) :
    (do
      let l ← Dialect.embree.expr left
      let r ← Dialect.embree.expr right
      return operand left l ++ " " ++ word ++ " " ++ operand right r)
      = (pure (String.ofList (Shape.join left.shape.operandChars word right.shape.operandChars)) :
          Render String) := by
  rw [htextl, htextr]
  simp only [Render.pure_bind, Shape.ofList_join]
  rw [operand_shape hfoldedl hplainl, operand_shape hfoldedr hplainr]

mutual

/-- Where no value takes the place of a part, a plain expression is rendered as the text of its
shape, without warnings. -/
theorem embree_shape : ∀ {e : TypedExpr}, (∀ x ∈ e.all, x.isFolded = false) →
    e.shape.every Shape.isPlain = true →
    Dialect.embree.expr e = pure (String.ofList e.shape.chars)
  | .literal _ _, _, h => by cases h
  | .construct _ _ _, _, h => by cases h
  | .ident name m, hfolded, _ => by
    rw [Dialect.expr, propagated?_of_isFolded (hfolded _ (self_mem_all _))]
    simp [shape, Shape.chars]
  | .member object property m, hfolded, hplain => by
    rw [Dialect.expr, propagated?_of_isFolded (hfolded _ (self_mem_all _))]
    simp only [all, List.forall_mem_cons] at hfolded
    simp only [shape, Shape.every, Bool.and_eq_true] at hplain
    simp only
    rw [embree_shape hfolded.2 hplain.2]
    simp [shape, Shape.chars, String.append_assoc]
  | .call callee args m, hfolded, hplain => by
    rw [Dialect.expr, propagated?_of_isFolded (hfolded _ (self_mem_all _))]
    simp only [all, List.forall_mem_cons, List.forall_mem_append] at hfolded
    simp only [shape, Shape.every, Bool.and_eq_true] at hplain
    simp only
    rw [embree_shape hfolded.2.1 hplain.2.1, embree_shapeArgs hfolded.2.2 hplain.2.2]
    simp [shape, Shape.chars, Shape.intercalate_chars, String.append_assoc]
  | .binary op left right m, hfolded, hplain => by
    rw [Dialect.expr, propagated?_of_isFolded (hfolded _ (self_mem_all _))]
    simp only [all, List.forall_mem_cons, List.forall_mem_append] at hfolded
    simp only [shape, Shape.every, Bool.and_eq_true] at hplain
    exact embree_operands (hfolded.2.1 _ (self_mem_all _)) (hfolded.2.2 _ (self_mem_all _))
      hplain.2.1 hplain.2.2 (embree_shape hfolded.2.1 hplain.2.1)
      (embree_shape hfolded.2.2 hplain.2.2) op.text
  | .logical op left right m, hfolded, hplain => by
    rw [Dialect.expr, propagated?_of_isFolded (hfolded _ (self_mem_all _))]
    simp only [all, List.forall_mem_cons, List.forall_mem_append] at hfolded
    simp only [shape, Shape.every, Bool.and_eq_true] at hplain
    exact embree_operands (hfolded.2.1 _ (self_mem_all _)) (hfolded.2.2 _ (self_mem_all _))
      hplain.2.1 hplain.2.2 (embree_shape hfolded.2.1 hplain.2.1)
      (embree_shape hfolded.2.2 hplain.2.2) op.text
  | .assign op target value m, hfolded, hplain => by
    rw [Dialect.expr, propagated?_of_isFolded (hfolded _ (self_mem_all _))]
    simp only [all, List.forall_mem_cons, List.forall_mem_append] at hfolded
    simp only [shape, Shape.every, Bool.and_eq_true] at hplain
    simp only
    rw [place_eq_expr Dialect.embree hfolded.2.1, embree_shape hfolded.2.1 hplain.2.1,
      embree_shape hfolded.2.2 hplain.2.2]
    simp only [Render.pure_bind, shape, Shape.chars, Shape.ofList_join]
  | .conditional test consequent alternate m, hfolded, hplain => by
    rw [Dialect.expr, propagated?_of_isFolded (hfolded _ (self_mem_all _))]
    simp only [all, List.forall_mem_cons, List.forall_mem_append] at hfolded
    simp only [shape, Shape.every, Bool.and_eq_true] at hplain
    simp only
    rw [if_pos (show Dialect.embree.hasConditional = true from rfl),
      embree_shape hfolded.2.1 hplain.2.1, embree_shape hfolded.2.2.1 hplain.2.2.1,
      embree_shape hfolded.2.2.2 hplain.2.2.2]
    simp only [Render.pure_bind, shape, Shape.chars, Shape.ofList_join]
    rw [operand_shape (hfolded.2.1 _ (self_mem_all _)) hplain.2.1,
      operand_shape (hfolded.2.2.1 _ (self_mem_all _)) hplain.2.2.1,
      operand_shape (hfolded.2.2.2 _ (self_mem_all _)) hplain.2.2.2]
    simp [Shape.operandChars, String.append_assoc]
  | .unary op argument m, hfolded, hplain => by
    rw [Dialect.expr, propagated?_of_isFolded (hfolded _ (self_mem_all _))]
    simp only [all, List.forall_mem_cons] at hfolded
    simp only [shape, Shape.every, Bool.and_eq_true] at hplain
    simp only
    rw [if_pos (show Dialect.embree.hasUnary = true from rfl), embree_shape hfolded.2 hplain.2]
    simp only [Render.pure_bind, shape, Shape.chars]
    rw [operand_shape (hfolded.2 _ (self_mem_all _)) hplain.2]
    simp [Shape.operandChars]

/-- Arguments are rendered one after the other. -/
theorem embree_shapeArgs : ∀ {es : List TypedExpr}, (∀ x ∈ allArgs es, x.isFolded = false) →
    Shape.everyArgs Shape.isPlain (shapeArgs es) = true →
    Dialect.embree.args es = pure ((shapeArgs es).map fun s => String.ofList s.chars)
  | [], _, _ => by
    rw [Dialect.args]
    rfl
  | e :: rest, hfolded, hplain => by
    simp only [allArgs, List.forall_mem_append] at hfolded
    simp only [shapeArgs, Shape.everyArgs, Bool.and_eq_true] at hplain
    rw [Dialect.args, embree_shape hfolded.1 hplain.1, embree_shapeArgs hfolded.2 hplain.2]
    simp [shapeArgs]

end

end TypedExpr

/-! ## Shapes in functions -/

namespace TypedExpr

mutual

/-- The parts of a part of an expression are parts of the expression. -/
theorem all_subset : ∀ {e x : TypedExpr}, x ∈ e.all → ∀ y ∈ x.all, y ∈ e.all
  | .literal _ _, x, h, y, hy => by
    obtain rfl := List.mem_singleton.1 h
    exact hy
  | .ident _ _, x, h, y, hy => by
    obtain rfl := List.mem_singleton.1 h
    exact hy
  | .member object _ _, x, h, y, hy => by
    rcases List.mem_cons.1 h with rfl | h
    · exact hy
    · exact List.mem_cons_of_mem _ (all_subset h y hy)
  | .call callee args _, x, h, y, hy => by
    rcases List.mem_cons.1 h with rfl | h
    · exact hy
    · refine List.mem_cons_of_mem _ (List.mem_append.2 ?_)
      exact (List.mem_append.1 h).imp (all_subset · y hy) (allArgs_subset · y hy)
  | .construct _ args _, x, h, y, hy => by
    rcases List.mem_cons.1 h with rfl | h
    · exact hy
    · exact List.mem_cons_of_mem _ (allArgs_subset h y hy)
  | .binary _ left right _, x, h, y, hy => by
    rcases List.mem_cons.1 h with rfl | h
    · exact hy
    · refine List.mem_cons_of_mem _ (List.mem_append.2 ?_)
      exact (List.mem_append.1 h).imp (all_subset · y hy) (all_subset · y hy)
  | .logical _ left right _, x, h, y, hy => by
    rcases List.mem_cons.1 h with rfl | h
    · exact hy
    · refine List.mem_cons_of_mem _ (List.mem_append.2 ?_)
      exact (List.mem_append.1 h).imp (all_subset · y hy) (all_subset · y hy)
  | .assign _ target value _, x, h, y, hy => by
    rcases List.mem_cons.1 h with rfl | h
    · exact hy
    · refine List.mem_cons_of_mem _ (List.mem_append.2 ?_)
      exact (List.mem_append.1 h).imp (all_subset · y hy) (all_subset · y hy)
  | .conditional test consequent alternate _, x, h, y, hy => by
    rcases List.mem_cons.1 h with rfl | h
    · exact hy
    · refine List.mem_cons_of_mem _ (List.mem_append.2 ?_)
      refine (List.mem_append.1 h).imp (all_subset · y hy) fun h => List.mem_append.2 ?_
      exact (List.mem_append.1 h).imp (all_subset · y hy) (all_subset · y hy)
  | .unary _ argument _, x, h, y, hy => by
    rcases List.mem_cons.1 h with rfl | h
    · exact hy
    · exact List.mem_cons_of_mem _ (all_subset h y hy)

/-- The parts of a part of some arguments are parts of the arguments. -/
theorem allArgs_subset : ∀ {es : List TypedExpr} {x : TypedExpr}, x ∈ allArgs es →
    ∀ y ∈ x.all, y ∈ allArgs es
  | e :: rest, x, h, y, hy => by
    refine List.mem_append.2 ?_
    exact (List.mem_append.1 h).imp (all_subset · y hy) (allArgs_subset · y hy)

end

mutual

/-- A condition that holds for the shape of every part of an expression holds at every node of its
shape. -/
theorem every_shape {p : Shape → Bool} : ∀ {e : TypedExpr}, (∀ x ∈ e.all, p x.shape = true) →
    e.shape.every p = true
  | .literal value m, h => h _ (self_mem_all _)
  | .ident name m, h => h _ (self_mem_all _)
  | .member object property m, h => by
    simp only [all, List.forall_mem_cons] at h
    exact Bool.and_eq_true_iff.2 ⟨h.1, every_shape h.2⟩
  | .call callee args m, h => by
    simp only [all, List.forall_mem_cons, List.forall_mem_append] at h
    simp only [shape, Shape.every, Bool.and_eq_true]
    exact ⟨h.1, every_shape h.2.1, everyArgs_shape h.2.2⟩
  | .construct name args m, h => by
    simp only [all, List.forall_mem_cons] at h
    exact Bool.and_eq_true_iff.2 ⟨h.1, everyArgs_shape h.2⟩
  | .binary op left right m, h => by
    simp only [all, List.forall_mem_cons, List.forall_mem_append] at h
    simp only [shape, Shape.every, Bool.and_eq_true]
    exact ⟨h.1, every_shape h.2.1, every_shape h.2.2⟩
  | .logical op left right m, h => by
    simp only [all, List.forall_mem_cons, List.forall_mem_append] at h
    simp only [shape, Shape.every, Bool.and_eq_true]
    exact ⟨h.1, every_shape h.2.1, every_shape h.2.2⟩
  | .assign op target value m, h => by
    simp only [all, List.forall_mem_cons, List.forall_mem_append] at h
    simp only [shape, Shape.every, Bool.and_eq_true]
    exact ⟨h.1, every_shape h.2.1, every_shape h.2.2⟩
  | .conditional test consequent alternate m, h => by
    simp only [all, List.forall_mem_cons, List.forall_mem_append] at h
    simp only [shape, Shape.every, Bool.and_eq_true]
    exact ⟨h.1, every_shape h.2.1, every_shape h.2.2.1, every_shape h.2.2.2⟩
  | .unary op argument m, h => by
    simp only [all, List.forall_mem_cons] at h
    exact Bool.and_eq_true_iff.2 ⟨h.1, every_shape h.2⟩

/-- A condition that holds for the shape of every part of some arguments holds at every node of
their shapes. -/
theorem everyArgs_shape {p : Shape → Bool} : ∀ {es : List TypedExpr},
    (∀ x ∈ allArgs es, p x.shape = true) → Shape.everyArgs p (shapeArgs es) = true
  | [], _ => rfl
  | e :: rest, h => by
    simp only [allArgs, List.forall_mem_append] at h
    exact Bool.and_eq_true_iff.2 ⟨every_shape h.1, everyArgs_shape h.2⟩

end

end TypedExpr

namespace TypedStmt

mutual

/-- The parts of an expression in a statement are in the statement. -/
theorem all_subset_exprs {e : TypedExpr} : ∀ {t : TypedStmt}, e ∈ t.exprs → ∀ x ∈ e.all, x ∈ t.exprs
  | .declare ds, h, x, hx => by
    rw [exprs] at h ⊢
    obtain ⟨d, hd, h⟩ := List.mem_flatMap.1 h
    refine List.mem_flatMap.2 ⟨d, hd, ?_⟩
    cases hinit : d.init with
    | none => simp [hinit] at h
    | some e' =>
      rw [hinit] at h
      exact TypedExpr.all_subset h x hx
  | .expr e', h, x, hx => TypedExpr.all_subset h x hx
  | .ret none, h, _, _ => by cases h
  | .ret (some e'), h, x, hx => TypedExpr.all_subset h x hx
  | .branch test consequent none, h, x, hx => by
    rw [exprs, List.mem_append] at h ⊢
    exact h.imp (TypedExpr.all_subset · x hx) (all_subset_exprsAll · x hx)
  | .branch test consequent (some alternate), h, x, hx => by
    rw [exprs, List.mem_append, List.mem_append] at h ⊢
    exact h.imp (TypedExpr.all_subset · x hx)
      (Or.imp (all_subset_exprsAll · x hx) (all_subset_exprsAll · x hx))
  | .block body, h, x, hx => by
    rw [exprs] at h ⊢
    exact all_subset_exprsAll h x hx

/-- The parts of an expression in some statements are in the statements. -/
theorem all_subset_exprsAll {e : TypedExpr} : ∀ {ts : List TypedStmt}, e ∈ exprsAll ts →
    ∀ x ∈ e.all, x ∈ exprsAll ts
  | t :: rest, h, x, hx => by
    rw [exprsAll, List.mem_append] at h ⊢
    exact h.imp (all_subset_exprs · x hx) (all_subset_exprsAll · x hx)

end

end TypedStmt

namespace Function

variable {f : Function} {injections : Injections} {registry : Registry} {t : TypedFunction}

/-- Inferred assignments have a name or a member as their target. -/
theorem isPlace_of_assign (h : f.infer injections registry = .ok t) {op : AssignOp}
    {target value : TypedExpr} {m : Mark} (he : TypedExpr.assign op target value m ∈ t.exprs) :
    target.isPlace = true := by
  have hmem : (op, target, value) ∈ t.events.filterMap Event.assignment? :=
    t.assignments_perm.mem_iff.2 (List.mem_filterMap.2 ⟨_, he, rfl⟩)
  obtain ⟨ev, hev, hassign⟩ := List.mem_filterMap.1 hmem
  obtain ⟨pre, post, hevents⟩ := List.append_of_mem hev
  obtain ⟨s, s', -, htrace⟩ := Function.infer_follows h hevents
  cases htrace with
  | cons hstep _ =>
    cases hstep with
    | assignIdent _ =>
      obtain ⟨-, rfl, -⟩ := Prod.mk.inj (Option.some.inj hassign)
      rfl
    | assignMember _ _ =>
      obtain ⟨-, rfl, -⟩ := Prod.mk.inj (Option.some.inj hassign)
      rfl
    | _ => cases hassign

/-- In the shape of an inferred expression every target is a name or a member. -/
theorem every_hasPlaceTarget (h : f.infer injections registry = .ok t) {e : TypedExpr}
    (he : e ∈ t.exprs) : e.shape.every Shape.hasPlaceTarget = true := by
  refine TypedExpr.every_shape ?_
  intro x hx
  have hmem : x ∈ t.exprs := TypedStmt.all_subset_exprsAll he x hx
  cases x with
  | assign op target value m =>
    have hplace := isPlace_of_assign h hmem
    rw [← TypedExpr.isPlace_shape] at hplace
    exact hplace
  | _ => rfl

end Function

end Shader
