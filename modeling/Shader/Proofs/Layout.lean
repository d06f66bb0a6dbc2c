import Shader.Proofs.Shape

/-!
# The layout of generated code

Rendering turns an expression into text, warnings or a failure in one go.  A *layout* is what lies
between: a tree of pieces, in which the text of each expression is marked as such, and whose leaves
are words, texts of the program, numbers, types, and gaps where the target has no form.  A layout
can always be made; only reading its leaves may fail, for a number or a type that the target has no
spelling for.

`Dialect.expr_eq_read` shows that rendering an expression is reading the leaves of its layout.  So
which expressions stand in the code, where the gaps are and what can fail are questions about
layouts, which need no look at the renderer.
-/

namespace Shader

/-! ## Rendering is a monad -/

namespace Render

variable {α β γ : Type}

theorem bind_pure (x : Render α) : (x >>= fun a => Pure.pure a) = x := by
  show Render.bind x Render.pure = x
  rcases x with e | ⟨a, before⟩
  · rfl
  · simp only [Render.bind, Render.pure, List.append_nil]
    rfl

theorem bind_assoc (x : Render α) (f : α → Render β) (g : β → Render γ) :
    x >>= f >>= g = x >>= fun a => f a >>= g := by
  show Render.bind (Render.bind x f) g = Render.bind x fun a => Render.bind (f a) g
  rcases x with e | ⟨a, before⟩
  · rfl
  · rcases hf : f a with e | ⟨b, middle⟩
    · simp only [Render.bind, hf]
      rfl
    · rcases hg : g b with e | ⟨c, after⟩
      · simp only [Render.bind, hf, hg]
        rfl
      · simp only [Render.bind, hf, hg, List.append_assoc]
        rfl

/-- `x.Yields a warnings`: the step succeeds with a result and warnings. -/
def Yields (x : Render α) (a : α) (warnings : List Warning) : Prop := x = Except.ok (a, warnings)

/-- A sequence succeeds when both steps do, and the warnings add up. -/
theorem yields_bind_iff {x : Render α} {f : α → Render β} {b : β} {warnings : List Warning} :
    (x >>= f).Yields b warnings ↔ ∃ a before after, x.Yields a before ∧ (f a).Yields b after ∧
      before ++ after = warnings := by
  constructor
  · intro h
    change Render.bind x f = Except.ok (b, warnings) at h
    unfold Render.bind at h
    split at h
    · cases h
    · rename_i a before
      split at h
      · cases h
      · rename_i c after hf
        cases h
        exact ⟨a, before, after, rfl, hf, rfl⟩
  · rintro ⟨a, before, after, hx, hf, rfl⟩
    change Render.bind x f = Except.ok (b, before ++ after)
    rw [hx, Render.bind, hf]

/-- Returning a result gives no warnings. -/
theorem yields_pure_iff {a b : α} {warnings : List Warning} :
    (Pure.pure a : Render α).Yields b warnings ↔ a = b ∧ [] = warnings := by
  change (Except.ok (a, []) : Except CodegenError (α × List Warning)) = Except.ok (b, warnings) ↔ _
  simp

/-- What follows a step needs to be the same for the results of the step only. -/
theorem bind_congr_of_yields {x : Render α} {f g : α → Render β}
    (h : ∀ a warnings, x.Yields a warnings → f a = g a) : x >>= f = x >>= g := by
  show Render.bind x f = Render.bind x g
  rcases x with e | ⟨a, before⟩
  · rfl
  · rw [Render.bind, Render.bind, h a before rfl]

end Render

instance : LawfulMonad Render :=
  LawfulMonad.mk' Render Render.bind_pure Render.pure_bind Render.bind_assoc

/-! ## Leaves -/

/-- The text that stands in the code where a warning was given. -/
def Warning.sign : Warning → String
  | .placeholder kind => placeholderStart ++ ": " ++ kind ++ ">"
  | .marker kind => "<unsupported statement: " ++ kind ++ ">"

/-- A smallest piece of code. -/
inductive Leaf where
  /-- Punctuation, an operator or a word of the target language. -/
  | word (text : String)
  /-- A text of the program: a name or a string. -/
  | given (text : String)
  /-- A number on an expression of a type. -/
  | number (value : Float) (ty : Ty)
  /-- The word for a type. -/
  | typeWord (ty : Ty)
  /-- Something that the target language cannot express. -/
  | gap (warning : Warning)

/-- The warnings for a leaf. -/
def Leaf.warnings : Leaf → List Warning
  | .gap warning => [warning]
  | _ => []

namespace Dialect

/-- The code of a leaf, if the language has a spelling for it. -/
def spell (d : Dialect) : Leaf → Except CodegenError String
  | .word text => .ok text
  | .given text => .ok text
  | .number value ty => d.number value ty
  | .typeWord ty => d.typeName ty
  | .gap warning => .ok warning.sign

theorem embree_number_of_ne {ty : Ty} (h : ty ≠ .number) (value : Float) :
    embree.number value ty = .ok (Number.text value) := by
  cases ty with
  | number => exact absurd rfl h
  | _ => rfl

theorem typeName_eq_ok {d : Dialect} {ty : Ty} {word : String} (h : d.typeName ty = .ok word) :
    d.typeName? ty = some word := by
  unfold typeName at h
  split at h
  · rename_i word' hword
    rw [hword, Except.ok.inj h]
  · cases h

/-- Read a leaf: its code and its warnings. -/
def readLeaf (d : Dialect) (leaf : Leaf) : Render String :=
  (d.spell leaf).map fun code => (code, leaf.warnings)

/-- Reading a leaf succeeds when it has a spelling. -/
theorem yields_readLeaf_iff {d : Dialect} {leaf : Leaf} {code : String} {warnings : List Warning} :
    (d.readLeaf leaf).Yields code warnings ↔
      d.spell leaf = .ok code ∧ leaf.warnings = warnings := by
  change (d.spell leaf).map (fun code => (code, leaf.warnings)) = Except.ok (code, warnings) ↔ _
  cases d.spell leaf with
  | error e => simp [Except.map]
  | ok c => simp [Except.map]

/-- Read leaves in order: their code and their warnings, or the first failure. -/
def read (d : Dialect) : List Leaf → Render String
  | [] => return ""
  | leaf :: rest => do
    let code ← d.readLeaf leaf
    let codes ← d.read rest
    return code ++ codes

/-- The code of leaves; one without a spelling has none. -/
def text (d : Dialect) : List Leaf → String
  | [] => ""
  | leaf :: rest => (d.spell leaf).toOption.getD "" ++ d.text rest

theorem read_append (d : Dialect) (xs ys : List Leaf) :
    d.read (xs ++ ys) = do return (← d.read xs) ++ (← d.read ys) := by
  induction xs with
  | nil =>
    simp only [read, List.nil_append, pure_bind, String.empty_append]
    exact (Render.bind_pure _).symm
  | cons leaf rest ih =>
    simp only [read, List.cons_append, ih, bind_assoc, pure_bind, String.append_assoc]

@[simp] theorem text_append (d : Dialect) (xs ys : List Leaf) :
    d.text (xs ++ ys) = d.text xs ++ d.text ys := by
  induction xs with
  | nil => simp [text]
  | cons leaf rest ih => simp [text, ih, String.append_assoc]

/-- Reading succeeds when every leaf has a spelling. -/
theorem yields_read_iff {d : Dialect} {leaves : List Leaf} {code : String}
    {warnings : List Warning} :
    (d.read leaves).Yields code warnings ↔
      (∀ leaf ∈ leaves, ∃ code, d.spell leaf = .ok code) ∧ d.text leaves = code ∧
        leaves.flatMap Leaf.warnings = warnings := by
  induction leaves generalizing code warnings with
  | nil =>
    simp only [read, Render.yields_pure_iff]
    simp [text]
  | cons leaf rest ih =>
    simp only [read, Render.yields_bind_iff, Render.yields_pure_iff, yields_readLeaf_iff, ih,
      List.forall_mem_cons, List.flatMap_cons, text]
    constructor
    · rintro ⟨c, _, _, ⟨hleaf, rfl⟩, ⟨codes, _, _, ⟨hrest, rfl, rfl⟩, ⟨rfl, rfl⟩, rfl⟩, rfl⟩
      exact ⟨⟨⟨c, hleaf⟩, hrest⟩, by simp [hleaf, Except.toOption], by simp⟩
    · rintro ⟨⟨⟨c, hleaf⟩, hrest⟩, rfl, rfl⟩
      refine ⟨c, _, _, ⟨hleaf, rfl⟩, ⟨d.text rest, _, [], ⟨hrest, rfl, rfl⟩, ⟨?_, rfl⟩, rfl⟩, ?_⟩
      · simp [hleaf, Except.toOption]
      · simp

end Dialect

/-! ## Pieces -/

/-- A piece of code: a leaf, or all pieces that an expression was rendered to. -/
inductive Piece where
  | leaf (leaf : Leaf)
  | node (e : TypedExpr) (inside : List Piece)

namespace Piece

/-- A word as a piece. -/
def word (text : String) : Piece := .leaf (.word text)

/-- A text of the program as a piece. -/
def given (text : String) : Piece := .leaf (.given text)

mutual

/-- The leaves of a piece, in order. -/
def leaves : Piece → List Leaf
  | .leaf l => [l]
  | .node _ inside => leavesAll inside

/-- The leaves of pieces, in order. -/
def leavesAll : List Piece → List Leaf
  | [] => []
  | p :: rest => p.leaves ++ leavesAll rest

end

mutual

/-- The expressions in a piece with their pieces, each before those inside it. -/
def nodes : Piece → List (TypedExpr × List Piece)
  | .leaf _ => []
  | .node e inside => (e, inside) :: nodesAll inside

/-- The expressions in pieces with their pieces. -/
def nodesAll : List Piece → List (TypedExpr × List Piece)
  | [] => []
  | p :: rest => p.nodes ++ nodesAll rest

end

@[simp] theorem leavesAll_append (ps qs : List Piece) :
    leavesAll (ps ++ qs) = leavesAll ps ++ leavesAll qs := by
  induction ps with
  | nil => rfl
  | cons p rest ih => rw [List.cons_append, leavesAll, leavesAll, ih, List.append_assoc]

@[simp] theorem nodesAll_append (ps qs : List Piece) :
    nodesAll (ps ++ qs) = nodesAll ps ++ nodesAll qs := by
  induction ps with
  | nil => rfl
  | cons p rest ih => rw [List.cons_append, nodesAll, nodesAll, ih, List.append_assoc]

end Piece

/-! ## The layout of an expression -/

namespace Dialect

/-- The pieces of an operand: in parentheses when it is an operation itself, unless it was replaced
by a value or starts with a placeholder. -/
def operandPieces (d : Dialect) (e : TypedExpr) (inside : List Piece) : List Piece :=
  if e.isCompound && !e.isFolded && !startsWithPlaceholder (d.text (Piece.leavesAll inside)) then
    [.word "(", .node e inside, .word ")"]
  else [.node e inside]

mutual

/-- The pieces that an expression is rendered to. -/
def inside (d : Dialect) (e : TypedExpr) : List Piece :=
  match e.propagated? with
  | some value => [.leaf (.number value e.ty)]
  | none =>
    match e with
    | .literal (some (.number value)) mark => [.leaf (.number value mark.ascription.ty)]
    | .literal (some (.string s)) _ => [.given (stringLiteral s)]
    | .literal (some (.bool b)) _ => [.word (if b then "true" else "false")]
    | .literal none _ => [.leaf (.gap (.placeholder "Literal"))]
    | .ident name _ => [.given name]
    | .member object property _ =>
      [.node object (d.inside object), .word ".", .given property]
    | .call callee args _ =>
      [.node callee (d.inside callee), .word "("] ++
        ((d.insideArgs args).intersperse (.word ", ") ++ [.word ")"])
    | .construct _ args mark =>
      [.leaf (.typeWord mark.ascription.ty), .word "("] ++
        ((d.insideArgs args).intersperse (.word ", ") ++ [.word ")"])
    | .binary op left right _ =>
      d.operandPieces left (d.inside left) ++
        (.word (" " ++ op.text ++ " ") :: d.operandPieces right (d.inside right))
    | .logical op left right _ =>
      d.operandPieces left (d.inside left) ++
        (.word (" " ++ op.text ++ " ") :: d.operandPieces right (d.inside right))
    | .assign op target value _ =>
      d.placePieces target (d.inside target) ++
        [.word (" " ++ op.text ++ " "), .node value (d.inside value)]
    | .conditional test consequent alternate _ =>
      if d.hasConditional then
        d.operandPieces test (d.inside test) ++
          (.word " ? " :: (d.operandPieces consequent (d.inside consequent) ++
            (.word " : " :: d.operandPieces alternate (d.inside alternate))))
      else [.leaf (.gap (.placeholder "ConditionalExpression"))]
    | .unary op argument _ =>
      if d.hasUnary then .word op.text :: d.operandPieces argument (d.inside argument)
      else [.leaf (.gap (.placeholder "UnaryExpression"))]

/-- The pieces of the target of an assignment.  `inside` are those that the target is rendered to as
an expression. -/
def placePieces (d : Dialect) (e : TypedExpr) (inside : List Piece) : List Piece :=
  match e with
  | .ident name _ => [.given name]
  | .member object property _ =>
    d.placePieces object (d.inside object) ++ [.word ".", .given property]
  | _ => [.node e inside]

/-- One piece for each argument. -/
def insideArgs (d : Dialect) : List TypedExpr → List Piece
  | [] => []
  | e :: rest => .node e (d.inside e) :: d.insideArgs rest

end

/-! ## Rendering is reading the layout -/

/-- Read the leaves of pieces. -/
def readPieces (d : Dialect) (ps : List Piece) : Render String := d.read (Piece.leavesAll ps)

theorem readPieces_nil (d : Dialect) : d.readPieces [] = pure "" := rfl

theorem readPieces_append (d : Dialect) (ps qs : List Piece) :
    d.readPieces (ps ++ qs) = do return (← d.readPieces ps) ++ (← d.readPieces qs) := by
  unfold readPieces
  rw [Piece.leavesAll_append, read_append]

theorem readPieces_cons (d : Dialect) (p : Piece) (rest : List Piece) :
    d.readPieces (p :: rest) = do return (← d.read p.leaves) ++ (← d.readPieces rest) := by
  unfold readPieces
  rw [Piece.leavesAll, read_append]

theorem readPieces_singleton (d : Dialect) (p : Piece) : d.readPieces [p] = d.read p.leaves := by
  unfold readPieces
  rw [Piece.leavesAll, Piece.leavesAll, List.append_nil]

theorem read_node (d : Dialect) (e : TypedExpr) (inside : List Piece) :
    d.read (Piece.node e inside).leaves = d.readPieces inside := by
  rw [Piece.leaves, readPieces]

theorem read_leaf (d : Dialect) (leaf : Leaf) :
    d.read (Piece.leaf leaf).leaves = d.readLeaf leaf := by
  simp only [Piece.leaves, read, pure_bind, String.append_empty]
  exact Render.bind_pure _

theorem read_word (d : Dialect) (text : String) : d.read (Piece.word text).leaves = pure text :=
  read_leaf d (.word text)

theorem read_given (d : Dialect) (text : String) : d.read (Piece.given text).leaves = pure text :=
  read_leaf d (.given text)

/-- Reading what yields a text yields the text of the leaves. -/
theorem text_of_yields {d : Dialect} {ps : List Piece} {code : String} {warnings : List Warning}
    (h : (d.readPieces ps).Yields code warnings) : d.text (Piece.leavesAll ps) = code :=
  (yields_read_iff.1 h).2.1

/-- An operand is put in parentheses by its text, which is that of its leaves. -/
theorem readPieces_operand (d : Dialect) (e : TypedExpr) (inside : List Piece) :
    d.readPieces (d.operandPieces e inside) = do return operand e (← d.readPieces inside) := by
  have hoperand : (do return operand e (← d.readPieces inside) : Render String) = do
      let code ← d.readPieces inside
      return if e.isCompound && !e.isFolded &&
        !startsWithPlaceholder (d.text (Piece.leavesAll inside)) then "(" ++ code ++ ")"
        else code := by
    apply Render.bind_congr_of_yields
    intro code warnings hcode
    rw [operand, text_of_yields hcode]
  rw [hoperand]
  unfold operandPieces
  split
  · simp only [readPieces_cons, readPieces_nil, read_word, read_node, bind_assoc, pure_bind,
      String.append_empty, String.append_assoc]
  · rw [readPieces_singleton, read_node]
    exact (Render.bind_pure _).symm

/-- Arguments are read with a separator between them. -/
theorem readPieces_intersperse (d : Dialect) (separator : String) : ∀ ps : List Piece,
    d.readPieces (ps.intersperse (.word separator)) =
      do return separator.intercalate (← ps.mapM fun p => d.read p.leaves)
  | [] => by
    rw [List.mapM_nil, pure_bind]
    rfl
  | [p] => by
    rw [List.intersperse_singleton, readPieces_singleton, List.mapM_cons, List.mapM_nil]
    simp only [bind_assoc, pure_bind, String.intercalate_singleton]
    exact (Render.bind_pure _).symm
  | p :: q :: rest => by
    have hrest := readPieces_intersperse d separator (q :: rest)
    rw [List.intersperse_cons_cons, readPieces_cons, readPieces_cons, hrest, read_word]
    simp only [List.mapM_cons, bind_assoc, pure_bind, String.intercalate_cons_cons,
      String.append_assoc]

mutual

/-- Rendering an expression is reading its layout. -/
theorem expr_eq_read (d : Dialect) (e : TypedExpr) : d.expr e = d.readPieces (d.inside e) := by
  rw [expr.eq_def, inside.eq_def]
  cases hvalue : e.propagated? with
  | some value =>
    simp only
    rw [readPieces_singleton, read_leaf]
    rfl
  | none =>
    simp only
    match e with
    | .literal (some (.number value)) m =>
      rw [readPieces_singleton, read_leaf]
      rfl
    | .literal (some (.string s)) m =>
      rw [readPieces_singleton, read_given]
      rfl
    | .literal (some (.bool b)) m =>
      rw [readPieces_singleton, read_word]
      rfl
    | .literal none m =>
      rw [readPieces_singleton, read_leaf]
      rfl
    | .ident name m =>
      rw [readPieces_singleton, read_given]
    | .member object property m =>
      simp only [readPieces_cons, readPieces_nil, read_word, read_given, read_node,
        expr_eq_read d object, pure_bind, String.append_empty, String.append_assoc]
    | .call callee args m =>
      simp only [readPieces_append, readPieces_cons, readPieces_nil, read_word, read_node,
        readPieces_intersperse, expr_eq_read d callee, args_eq_read d args, bind_assoc, pure_bind,
        String.append_empty, String.append_assoc]
    | .construct name args m =>
      have hword : d.read (Piece.leaf (.typeWord m.ascription.ty)).leaves =
          Render.ofExcept (d.typeName m.ascription.ty) := read_leaf d _
      simp only [readPieces_append, readPieces_cons, readPieces_nil, read_word, hword,
        readPieces_intersperse, args_eq_read d args, bind_assoc, pure_bind,
        String.append_empty, String.append_assoc]
    | .binary op left right m =>
      simp only [readPieces_append, readPieces_cons, read_word, readPieces_operand,
        expr_eq_read d left, expr_eq_read d right, bind_assoc, pure_bind, String.append_assoc]
    | .logical op left right m =>
      simp only [readPieces_append, readPieces_cons, read_word, readPieces_operand,
        expr_eq_read d left, expr_eq_read d right, bind_assoc, pure_bind, String.append_assoc]
    | .assign op target value m =>
      simp only [readPieces_append, readPieces_cons, readPieces_nil, read_word, read_node,
        place_eq_read d target, expr_eq_read d value, bind_assoc, pure_bind, String.append_empty,
        String.append_assoc]
    | .conditional test consequent alternate m =>
      cases hform : d.hasConditional with
      | true =>
        simp only [if_true, readPieces_append, readPieces_cons, read_word, readPieces_operand,
          expr_eq_read d test, expr_eq_read d consequent, expr_eq_read d alternate, bind_assoc,
          pure_bind, String.append_assoc]
      | false =>
        simp only [Bool.false_eq_true, if_false]
        rw [readPieces_singleton, read_leaf]
        rfl
    | .unary op argument m =>
      cases hform : d.hasUnary with
      | true =>
        simp only [if_true, readPieces_cons, read_word, readPieces_operand,
          expr_eq_read d argument, bind_assoc, pure_bind]
      | false =>
        simp only [Bool.false_eq_true, if_false]
        rw [readPieces_singleton, read_leaf]
        rfl
termination_by (sizeOf e, 0)

/-- Rendering a target is reading its layout. -/
theorem place_eq_read (d : Dialect) (e : TypedExpr) :
    d.place e (fun _ => d.expr e) = d.readPieces (d.placePieces e (d.inside e)) := by
  rw [place.eq_def, placePieces.eq_def]
  match e with
  | .ident name m => rw [readPieces_singleton, read_given]
  | .member object property m =>
    simp only [readPieces_append, readPieces_cons, readPieces_nil, read_word, read_given,
      place_eq_read d object, pure_bind, String.append_empty, String.append_assoc]
  | .literal _ _ | .call _ _ _ | .construct _ _ _ | .binary _ _ _ _
  | .logical _ _ _ _ | .assign _ _ _ _ | .conditional _ _ _ _ | .unary _ _ _ =>
    simp only
    rw [readPieces_singleton, read_node, expr_eq_read]
termination_by (sizeOf e, 1)

/-- Rendering arguments is reading their layouts one after the other. -/
theorem args_eq_read (d : Dialect) (es : List TypedExpr) :
    d.args es = (d.insideArgs es).mapM fun p => d.read p.leaves := by
  match es with
  | [] =>
    rw [args, insideArgs, List.mapM_nil]
  | e :: rest =>
    rw [args, insideArgs, List.mapM_cons, read_node, expr_eq_read d e, args_eq_read d rest]
termination_by (sizeOf es, 0)

end

end Dialect

end Shader
