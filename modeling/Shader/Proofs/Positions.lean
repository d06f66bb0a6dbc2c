import Shader.Proofs.Emission

/-!
# What code generation fails on

Generation fails on a type that the target language has no word for, or on a number that it has no
literal for.  The places where types and numbers are spelled out are the *positions* of a program:
the results of functions, the types of variables and of constructed objects, and the constants.
They are listed by recursion on the typed tree in the order in which they are emitted: the type of a
variable before its initializer, the type of an object before its arguments, the target of an
assignment before its value.

`Dialect.fallible_inside` shows that the positions of an expression are the leaves of its layout
that reading can fail on, in the same order.  Reading stops at the first leaf that has no spelling
(`Dialect.failure?_read`), so a run fails exactly when some position has none, and its error is that
of the first one.
-/

namespace Shader

/-! ## The failure of a step -/

namespace Render

variable {α β : Type}

/-- The error of a step that fails. -/
def failure? : Render α → Option CodegenError
  | .error err => some err
  | .ok _ => none

@[simp] theorem failure?_pure (a : α) : (Pure.pure a : Render α).failure? = none := rfl

/-- A sequence fails where its first step does, and else where the rest does. -/
theorem failure?_bind {x : Render α} {f : α → Render β} {rest : Option CodegenError}
    (h : ∀ a, (f a).failure? = rest) : (x >>= f).failure? = x.failure?.or rest := by
  show (Render.bind x f).failure? = _
  rcases x with err | ⟨a, before⟩
  · rfl
  · have hrest := h a
    rw [Render.bind]
    rcases hf : f a with err | ⟨b, after⟩
    · rw [hf] at hrest
      exact hrest
    · rw [hf] at hrest
      exact hrest

/-- What is computed from the result of a step does not make it fail. -/
theorem failure?_bind_pure (x : Render α) (g : α → β) :
    (x >>= fun a => Pure.pure (g a)).failure? = x.failure? := by
  rw [failure?_bind fun _ => failure?_pure _, Option.or_none]

theorem output_eq_error_iff {x : Render LineBuffer} {err : CodegenError} :
    x.output = .error err ↔ x.failure? = some err := by
  rcases x with err | ⟨b, warnings⟩ <;> simp [output, failure?]

end Render

namespace Dialect

/-- Why a leaf has no spelling. -/
def fault? (d : Dialect) (leaf : Leaf) : Option CodegenError :=
  match d.spell leaf with
  | .error err => some err
  | .ok _ => none

theorem failure?_readLeaf (d : Dialect) (leaf : Leaf) :
    (d.readLeaf leaf).failure? = d.fault? leaf := by
  unfold readLeaf fault?
  cases d.spell leaf <;> rfl

/-- Reading fails on the first leaf that has no spelling. -/
theorem failure?_read (d : Dialect) (leaves : List Leaf) :
    (d.read leaves).failure? = leaves.findSome? d.fault? := by
  induction leaves with
  | nil => rfl
  | cons leaf rest ih =>
    have hrest : ∀ code : String,
        (do return code ++ (← d.read rest) : Render String).failure? = rest.findSome? d.fault? := by
      intro code
      rw [Render.failure?_bind_pure, ih]
    rw [read, Render.failure?_bind hrest, failure?_readLeaf, ← List.singleton_append,
      List.findSome?_append, List.findSome?_singleton]

theorem failure?_readLines (d : Dialect) (ls : List Line) :
    (ls.mapM d.readLine).failure? = (ls.flatMap Line.leaves).findSome? d.fault? := by
  induction ls with
  | nil => rfl
  | cons l rest ih =>
    have hrest : ∀ text : String,
        (do return text :: (← rest.mapM d.readLine) : Render (List String)).failure? =
          (rest.flatMap Line.leaves).findSome? d.fault? := by
      intro text
      rw [Render.failure?_bind_pure, ih]
    rw [List.mapM_cons, Render.failure?_bind hrest, readLine, Render.failure?_bind_pure, readPieces,
      failure?_read, List.flatMap_cons, List.findSome?_append]
    rfl

/-- A run fails on the first leaf that has no spelling. -/
theorem emit_eq_error_iff {d : Dialect} {ls : List Line} {err : CodegenError} :
    d.emit ls = .error err ↔ (ls.flatMap Line.leaves).findSome? d.fault? = some err := by
  rw [emit, Render.output_eq_error_iff, append, Render.failure?_bind_pure, failure?_readLines]

end Dialect

/-! ## Leaves that reading can fail on -/

/-- Whether a leaf may be without a spelling. -/
def Leaf.isFallible : Leaf → Bool
  | .number _ _ | .typeWord _ => true
  | _ => false

theorem Dialect.fault?_eq_none {d : Dialect} {leaf : Leaf} (h : leaf.isFallible = false) :
    d.fault? leaf = none := by
  cases leaf with
  | number value ty => cases h
  | typeWord ty => cases h
  | _ => rfl

/-- The other leaves do not matter for a failure. -/
theorem Dialect.findSome?_fallible (d : Dialect) (leaves : List Leaf) :
    (leaves.filter Leaf.isFallible).findSome? d.fault? = leaves.findSome? d.fault? := by
  induction leaves with
  | nil => rfl
  | cons leaf rest ih =>
    cases hleaf : leaf.isFallible with
    | true => rw [List.filter_cons_of_pos hleaf, List.findSome?_cons, List.findSome?_cons, ih]
    | false =>
      have hskip : ¬leaf.isFallible = true := Bool.eq_false_iff.1 hleaf
      rw [List.filter_cons_of_neg hskip, List.findSome?_cons, fault?_eq_none hleaf, ih]

theorem Dialect.fault?_typeWord {d : Dialect} {types : List Ty} {ty : Ty}
    (h : d.typeName? ty = none ↔ ty ∉ types) :
    d.fault? (.typeWord ty) =
      if ty ∈ types then none else some (.unsupportedType d.name ty) := by
  have hspell : d.spell (.typeWord ty) = d.typeName ty := rfl
  rw [fault?, hspell, typeName]
  cases hword : d.typeName? ty with
  | none => rw [if_neg (h.1 hword)]
  | some word =>
    have hmem : ty ∈ types := by
      by_contra hnot
      rw [h.2 hnot] at hword
      cases hword
    rw [if_pos hmem]

namespace Piece

/-- The leaves of pieces that reading can fail on. -/
def fallible (ps : List Piece) : List Leaf := (leavesAll ps).filter Leaf.isFallible

@[simp] theorem fallible_nil : fallible [] = [] := rfl

@[simp] theorem fallible_append (ps qs : List Piece) :
    fallible (ps ++ qs) = fallible ps ++ fallible qs := by
  rw [fallible, leavesAll_append, List.filter_append]
  rfl

@[simp] theorem fallible_word (text : String) (ps : List Piece) :
    fallible (.word text :: ps) = fallible ps := rfl

@[simp] theorem fallible_given (text : String) (ps : List Piece) :
    fallible (.given text :: ps) = fallible ps := rfl

@[simp] theorem fallible_gap (w : Warning) (ps : List Piece) :
    fallible (.leaf (.gap w) :: ps) = fallible ps := rfl

@[simp] theorem fallible_number (value : Float) (ty : Ty) (ps : List Piece) :
    fallible (.leaf (.number value ty) :: ps) = .number value ty :: fallible ps := rfl

@[simp] theorem fallible_typeWord (ty : Ty) (ps : List Piece) :
    fallible (.leaf (.typeWord ty) :: ps) = .typeWord ty :: fallible ps := rfl

@[simp] theorem fallible_node (e : TypedExpr) (inside ps : List Piece) :
    fallible (.node e inside :: ps) = fallible inside ++ fallible ps := by
  rw [fallible, leavesAll, leaves, List.filter_append]
  rfl

@[simp] theorem fallible_operand (d : Dialect) (e : TypedExpr) (inside : List Piece) :
    fallible (d.operandPieces e inside) = fallible inside := by
  unfold Dialect.operandPieces
  split
  · simp
  · simp

@[simp] theorem fallible_intersperse (separator : String) : ∀ ps : List Piece,
    fallible (ps.intersperse (.word separator)) = fallible ps
  | [] => rfl
  | [p] => rfl
  | p :: next :: rest => by
    have hrest := fallible_intersperse separator (next :: rest)
    rw [List.intersperse_cons_cons, ← List.singleton_append, fallible_append, fallible_word, hrest,
      ← fallible_append, List.singleton_append]

end Piece

/-! ## Positions -/

/-- A place in the code where a type or a number is spelled out. -/
inductive Position where
  /-- The type of what a function returns. -/
  | result (ty : Ty)
  /-- The type of a variable. -/
  | variable (ty : Ty)
  /-- The type of an object that is constructed. -/
  | construct (ty : Ty)
  /-- A number, on an expression of a type. -/
  | constant (value : Float) (ty : Ty)

/-- What is spelled out at a position. -/
def Position.leaf : Position → Leaf
  | .result ty | .variable ty | .construct ty => .typeWord ty
  | .constant value ty => .number value ty

namespace Dialect

mutual

/-- The positions of an expression in the order of emission.  An expression whose value is known is
a constant; what the language has no form for is left out with everything in it. -/
def positions (d : Dialect) (e : TypedExpr) : List Position :=
  match e.propagated? with
  | some value => [.constant value e.ty]
  | none =>
    match e with
    | .literal (some (.number value)) mark => [.constant value mark.ascription.ty]
    | .literal _ _ => []
    | .ident _ _ => []
    | .member object _ _ => d.positions object
    | .call callee args _ => d.positions callee ++ d.positionsArgs args
    | .construct _ args mark => .construct mark.ascription.ty :: d.positionsArgs args
    | .binary _ left right _ => d.positions left ++ d.positions right
    | .logical _ left right _ => d.positions left ++ d.positions right
    | .assign _ target value _ =>
      d.targetPositions target (d.positions target) ++ d.positions value
    | .conditional test consequent alternate _ =>
      if d.hasConditional then
        d.positions test ++ (d.positions consequent ++ d.positions alternate)
      else []
    | .unary _ argument _ => if d.hasUnary then d.positions argument else []

/-- The positions of the target of an assignment, which stays a name or a path when its value is
known.  `own` are those that it has as an expression. -/
def targetPositions (d : Dialect) (e : TypedExpr) (own : List Position) : List Position :=
  match e with
  | .ident _ _ => []
  | .member object _ _ => d.targetPositions object (d.positions object)
  | _ => own

/-- The positions of arguments, left to right. -/
def positionsArgs (d : Dialect) : List TypedExpr → List Position
  | [] => []
  | e :: rest => d.positions e ++ d.positionsArgs rest

end

/-- The positions of a declaration of one variable. -/
def declaratorPositions (d : Dialect) (decl : TypedDeclarator) : List Position :=
  .variable decl.ascription.ty :: decl.init.toList.flatMap d.positions

end Dialect

/-- The positions of a function, given those of its body. -/
def TypedFunction.positions (body : List TypedStmt → List Position) (f : TypedFunction) :
    List Position :=
  .result f.result :: body f.body

namespace Glsl

/-- The positions of a statement of a fragment shader.  Branches and blocks are not emitted. -/
def stmtPositions : TypedStmt → List Position
  | .declare decls => decls.flatMap Dialect.glsl.declaratorPositions
  | .expr e => Dialect.glsl.positions e
  | .ret value => value.toList.flatMap Dialect.glsl.positions
  | .branch _ _ _ => []
  | .block _ => []

/-- The positions of a fragment shader. -/
def positions (functions : List TypedFunction) : List Position :=
  functions.flatMap (TypedFunction.positions fun body => body.flatMap stmtPositions)

/-- The types that fragment shaders have words for. -/
def types : List Ty :=
  [.number, .boolean, .undefined, .object .color, .object .float3, .object .float2]

/-- What is wrong with a position of a fragment shader.  A number can always be written. -/
def fault? : Position → Option CodegenError
  | .result ty | .variable ty | .construct ty =>
    if ty ∈ types then none else some (.unsupportedType "GLSL" ty)
  | .constant _ _ => none

end Glsl

namespace Embree

mutual

/-- The positions of a statement of a material. -/
def stmtPositions : TypedStmt → List Position
  | .declare decls => decls.flatMap Dialect.embree.declaratorPositions
  | .expr e => Dialect.embree.positions e
  | .ret value => value.toList.flatMap Dialect.embree.positions
  | .branch test consequent none => Dialect.embree.positions test ++ stmtsPositions consequent
  | .branch test consequent (some alternate) =>
    Dialect.embree.positions test ++ (stmtsPositions consequent ++ stmtsPositions alternate)
  | .block body => stmtsPositions body

/-- The positions of statements. -/
def stmtsPositions : List TypedStmt → List Position
  | [] => []
  | s :: rest => stmtPositions s ++ stmtsPositions rest

end

/-- The positions of a material. -/
def positions (functions : List TypedFunction) : List Position :=
  functions.flatMap (TypedFunction.positions stmtsPositions)

/-- The types that materials have words for. -/
def types : List Ty := .int :: Glsl.types

/-- What is wrong with a position of a material.  A number that is not an integer is written with a
decimal point, and for that it has to be finite. -/
def fault? : Position → Option CodegenError
  | .result ty | .variable ty | .construct ty =>
    if ty ∈ types then none else some (.unsupportedType "Embree" ty)
  | .constant value ty =>
    if ty = .number ∧ value.isFinite = false then some (.invalidFloat value) else none

end Embree

/-! ## Positions are the leaves that reading can fail on -/

namespace Dialect

variable (d : Dialect)

open Piece

mutual

/-- The positions of an expression are the leaves of its layout that reading can fail on. -/
theorem fallible_inside (e : TypedExpr) :
    fallible (d.inside e) = (d.positions e).map Position.leaf := by
  rw [inside.eq_def, positions.eq_def]
  cases hvalue : e.propagated? with
  | some value => rfl
  | none =>
    match e with
    | .literal (some (.number value)) m => rfl
    | .literal (some (.string s)) m => rfl
    | .literal (some (.bool b)) m => rfl
    | .literal none m => rfl
    | .ident name m => rfl
    | .member object property m =>
      have hobject := fallible_inside object
      simp [hobject]
    | .call callee args m =>
      have hcallee := fallible_inside callee
      have hargs := fallible_args args
      simp [hcallee, hargs]
    | .construct name args m =>
      have hargs := fallible_args args
      simp [hargs, Position.leaf]
    | .binary op left right m =>
      have hleft := fallible_inside left
      have hright := fallible_inside right
      simp [hleft, hright]
    | .logical op left right m =>
      have hleft := fallible_inside left
      have hright := fallible_inside right
      simp [hleft, hright]
    | .assign op target value m =>
      have htarget := fallible_place target
      have hright := fallible_inside value
      simp [htarget, hright]
    | .conditional test consequent alternate m =>
      have htest := fallible_inside test
      have hconsequent := fallible_inside consequent
      have halternate := fallible_inside alternate
      cases hform : d.hasConditional with
      | true => simp [htest, hconsequent, halternate]
      | false => rfl
    | .unary op argument m =>
      have hargument := fallible_inside argument
      cases hform : d.hasUnary with
      | true => simp [hargument]
      | false => rfl
termination_by (sizeOf e, 0)

theorem fallible_place (e : TypedExpr) :
    fallible (d.placePieces e (d.inside e)) =
      (d.targetPositions e (d.positions e)).map Position.leaf := by
  rw [placePieces.eq_def, targetPositions.eq_def]
  match e with
  | .ident name m => rfl
  | .member object property m =>
    have hobject := fallible_place object
    simp [hobject]
  | .literal _ _ | .call _ _ _ | .construct _ _ _ | .binary _ _ _ _
  | .logical _ _ _ _ | .assign _ _ _ _ | .conditional _ _ _ _ | .unary _ _ _ =>
    simpa using fallible_inside _
termination_by (sizeOf e, 1)

theorem fallible_args (es : List TypedExpr) :
    fallible (d.insideArgs es) = (d.positionsArgs es).map Position.leaf := by
  match es with
  | [] => rfl
  | e :: rest =>
    have hfirst := fallible_inside e
    have hrest := fallible_args rest
    rw [insideArgs, positionsArgs, fallible_node, hfirst, hrest, List.map_append]
termination_by (sizeOf es, 0)

end

theorem fallible_declarator (decl : TypedDeclarator) :
    fallible (d.declaratorPieces decl) = (d.declaratorPositions decl).map Position.leaf := by
  unfold declaratorPieces declaratorPositions
  cases decl.init with
  | none => rfl
  | some init =>
    have hinit := d.fallible_inside init
    simp [hinit, Position.leaf]

end Dialect

namespace Line

/-- The leaves of lines that reading can fail on. -/
def fallible (ls : List Line) : List Leaf := ls.flatMap fun l => Piece.fallible l.pieces

@[simp] theorem fallible_nil : fallible [] = [] := rfl

@[simp] theorem fallible_cons (l : Line) (ls : List Line) :
    fallible (l :: ls) = Piece.fallible l.pieces ++ fallible ls := List.flatMap_cons

@[simp] theorem fallible_append (ls ls' : List Line) :
    fallible (ls ++ ls') = fallible ls ++ fallible ls' := List.flatMap_append

theorem filter_leaves (ls : List Line) :
    (ls.flatMap Line.leaves).filter Leaf.isFallible = fallible ls := by
  induction ls with
  | nil => rfl
  | cons l rest ih =>
    rw [List.flatMap_cons, List.filter_append, ih, fallible_cons]
    rfl

theorem fallible_ofText (texts : List String) : fallible (texts.map .ofText) = [] := by
  induction texts with
  | nil => rfl
  | cons text rest ih =>
    rw [List.map_cons, fallible_cons, ih]
    rfl

end Line

namespace Dialect

open Line

variable (d : Dialect)

theorem fallible_declaratorLines (level : Nat) (decls : List TypedDeclarator) :
    fallible (d.declaratorLines level decls) =
      (decls.flatMap d.declaratorPositions).map Position.leaf := by
  induction decls with
  | nil => rfl
  | cons decl rest ih =>
    have hfirst := d.fallible_declarator decl
    rw [declaratorLines, List.map_cons, fallible_cons, List.flatMap_cons, List.map_append, ← ih,
      hfirst]
    rfl

theorem fallible_exprLines (level : Nat) (e : TypedExpr) :
    fallible (d.exprLines level e) = (d.positions e).map Position.leaf := by
  have hinside := d.fallible_inside e
  simp [exprLines, hinside]

theorem fallible_retLines (level : Nat) (value : Option TypedExpr) :
    fallible (d.retLines level value) = (value.toList.flatMap d.positions).map Position.leaf := by
  cases value with
  | none => rfl
  | some e =>
    have hinside := d.fallible_inside e
    simp [retLines, hinside]

/-- Parameters are names without types. -/
theorem fallible_params (params : List TypedParam) : Piece.fallible (paramPieces params) = [] := by
  have hnames : Piece.fallible (params.map fun p => .given p.name) = [] := by
    induction params with
    | nil => rfl
    | cons p rest ih => rw [List.map_cons, Piece.fallible_given, ih]
  unfold paramPieces
  split
  · rfl
  · rw [Piece.fallible_intersperse, hnames]

/-- The positions of a function are the leaves that reading can fail on, when those of its body
are. -/
theorem fallible_functionLines {level : Nat} {lines : List TypedStmt → List Line}
    {positions : List TypedStmt → List Position} {f : TypedFunction}
    (h : fallible (lines f.body) = (positions f.body).map Position.leaf) :
    fallible (functionLines level lines f) = (f.positions positions).map Position.leaf := by
  have hparams := fallible_params f.params
  simp [functionLines, TypedFunction.positions, hparams, h, Position.leaf]

theorem fallible_functionsLines {level : Nat} {lines : TypedFunction → List Line}
    {positions : TypedFunction → List Position}
    (h : ∀ f, fallible (lines f) = (positions f).map Position.leaf)
    (functions : List TypedFunction) (separate : Bool) :
    fallible (functionsLines level lines separate functions) =
      (functions.flatMap positions).map Position.leaf := by
  induction functions generalizing separate with
  | nil => rfl
  | cons f rest ih =>
    have hspace : fallible (if separate then [⟨level, []⟩] else []) = [] := by
      cases separate <;> rfl
    rw [functionsLines, fallible_append, fallible_append, hspace, h f, ih true, List.flatMap_cons,
      List.map_append, List.nil_append]

/-- A run fails with the error of the first position that has no spelling. -/
theorem emit_eq_error_iff_of_fallible {d : Dialect} {ls : List Line} {ps : List Position}
    {fault? : Position → Option CodegenError} {err : CodegenError}
    (hps : fallible ls = ps.map Position.leaf)
    (hfault : ∀ p : Position, d.fault? p.leaf = fault? p) :
    d.emit ls = .error err ↔ ∃ before p after, ps = before ++ p :: after ∧
      (∀ q ∈ before, fault? q = none) ∧ fault? p = some err := by
  have hleaves : (ls.flatMap Line.leaves).findSome? d.fault? = ps.findSome? fault? := by
    have hfilter := d.findSome?_fallible (ls.flatMap Line.leaves)
    have hsame : d.fault? ∘ Position.leaf = fault? := funext hfault
    rw [← hfilter, Line.filter_leaves, hps, List.findSome?_map, hsame]
  rw [emit_eq_error_iff, hleaves, List.findSome?_eq_some_iff]
  constructor
  · rintro ⟨before, p, after, hsplit, hp, hbefore⟩
    exact ⟨before, p, after, hsplit, hbefore, hp⟩
  · rintro ⟨before, p, after, hsplit, hbefore, hp⟩
    exact ⟨before, p, after, hsplit, hp, hbefore⟩

end Dialect

namespace Glsl

open Line

theorem fallible_stmtLines (level : Nat) (s : TypedStmt) :
    fallible (stmtLines level s) = (stmtPositions s).map Position.leaf := by
  cases s with
  | declare decls => exact Dialect.fallible_declaratorLines _ level decls
  | expr e => exact Dialect.fallible_exprLines _ level e
  | ret value => exact Dialect.fallible_retLines _ level value
  | branch test consequent alternate => rfl
  | block body => rfl

theorem fallible_stmtsLines (level : Nat) (ss : List TypedStmt) :
    fallible (ss.flatMap (stmtLines level)) = (ss.flatMap stmtPositions).map Position.leaf := by
  induction ss with
  | nil => rfl
  | cons s rest ih =>
    rw [List.flatMap_cons, fallible_append, fallible_stmtLines, ih, List.flatMap_cons,
      List.map_append]

/-- The positions of a fragment shader are the leaves that reading can fail on. -/
theorem fallible_lines (functions : List TypedFunction) (options : GlslOptions) :
    fallible (lines functions options) = (positions functions).map Position.leaf := by
  have hheader : fallible (headerLines options) = [] := by
    unfold headerLines
    split
    · rfl
    · rfl
  have hfunctions : fallible (Dialect.functionsLines 0 functionLines false functions) =
      (positions functions).map Position.leaf := by
    apply Dialect.fallible_functionsLines
    intro f
    exact Dialect.fallible_functionLines (fallible_stmtsLines 1 f.body)
  rw [lines, fallible_append, hheader, hfunctions, List.nil_append]

theorem typeName?_eq_none_iff {ty : Ty} : commonTypeName? ty = none ↔ ty ∉ types := by
  unfold commonTypeName?
  split <;> simp_all [types]

theorem fault?_leaf (p : Position) : Dialect.glsl.fault? p.leaf = fault? p := by
  cases p with
  | constant value ty => rfl
  | _ => exact Dialect.fault?_typeWord typeName?_eq_none_iff

theorem generate_eq_error_iff {functions : List TypedFunction} {options : GlslOptions}
    {err : CodegenError} :
    generate functions options = .error err ↔
      ∃ before p after, positions functions = before ++ p :: after ∧
        (∀ q ∈ before, fault? q = none) ∧ fault? p = some err := by
  rw [generate_eq]
  exact Dialect.emit_eq_error_iff_of_fallible (fallible_lines functions options) fault?_leaf

end Glsl

namespace Embree

open Line

mutual

theorem fallible_stmtLines (level : Nat) : ∀ s : TypedStmt,
    fallible (stmtLines level s) = (stmtPositions s).map Position.leaf
  | .declare decls => Dialect.fallible_declaratorLines _ level decls
  | .expr e => Dialect.fallible_exprLines _ level e
  | .ret value => Dialect.fallible_retLines _ level value
  | .branch test consequent none => by
    have htest := Dialect.embree.fallible_inside test
    have hconsequent := fallible_stmtsLines (level + 1) consequent
    simp [stmtLines, stmtPositions, htest, hconsequent]
  | .branch test consequent (some alternate) => by
    have htest := Dialect.embree.fallible_inside test
    have hconsequent := fallible_stmtsLines (level + 1) consequent
    have halternate := fallible_stmtsLines (level + 1) alternate
    simp [stmtLines, stmtPositions, htest, hconsequent, halternate]
  | .block body => by
    have hbody := fallible_stmtsLines (level + 1) body
    simp [stmtLines, stmtPositions, hbody]

theorem fallible_stmtsLines (level : Nat) : ∀ ss : List TypedStmt,
    fallible (stmtsLines level ss) = (stmtsPositions ss).map Position.leaf
  | [] => rfl
  | s :: rest => by
    have hfirst := fallible_stmtLines level s
    have hrest := fallible_stmtsLines level rest
    rw [stmtsLines, fallible_append, hfirst, hrest, stmtsPositions, List.map_append]

end

/-- The positions of a material are the leaves that reading can fail on. -/
theorem fallible_lines (functions : List TypedFunction) (options : EmbreeOptions) :
    fallible (lines functions options) = (positions functions).map Position.leaf := by
  have hfunctions : fallible (Dialect.functionsLines 0 functionLines false functions) =
      (positions functions).map Position.leaf := by
    apply Dialect.fallible_functionsLines
    intro f
    exact Dialect.fallible_functionLines (fallible_stmtsLines 1 f.body)
  rw [lines, fallible_append, fallible_append, fallible_ofText, fallible_ofText, hfunctions,
    List.nil_append, List.append_nil]

theorem typeName?_eq_none_iff {ty : Ty} : Dialect.embree.typeName? ty = none ↔ ty ∉ types := by
  by_cases hint : ty = .int
  · subst hint
    simp [Dialect.embree, types]
  · have hcommon : Dialect.embree.typeName? ty = commonTypeName? ty := by
      cases ty with
      | int => exact absurd rfl hint
      | _ => rfl
    rw [hcommon, Glsl.typeName?_eq_none_iff, types, List.mem_cons, not_or]
    exact (and_iff_right hint).symm

/-- A number has no literal when it is written with a decimal point and is not finite. -/
theorem fault?_number (value : Float) (ty : Ty) :
    Dialect.embree.fault? (.number value ty) =
      if ty = .number ∧ value.isFinite = false then some (.invalidFloat value) else none := by
  by_cases hty : ty = .number
  · subst hty
    have hspell : Dialect.embree.spell (.number value .number) = floatLiteral value := rfl
    rw [Dialect.fault?, hspell, floatLiteral]
    cases value.isFinite <;> rfl
  · have hspell : Dialect.embree.spell (.number value ty) = .ok (Number.text value) :=
      Dialect.embree_number_of_ne hty value
    rw [Dialect.fault?, hspell, if_neg fun h => hty h.1]

theorem fault?_leaf (p : Position) : Dialect.embree.fault? p.leaf = fault? p := by
  cases p with
  | constant value ty => exact fault?_number value ty
  | _ => exact Dialect.fault?_typeWord typeName?_eq_none_iff

theorem generate_eq_error_iff {functions : List TypedFunction} {options : EmbreeOptions}
    {err : CodegenError} :
    generate functions options = .error err ↔
      ∃ before p after, positions functions = before ++ p :: after ∧
        (∀ q ∈ before, fault? q = none) ∧ fault? p = some err := by
  rw [generate_eq]
  exact Dialect.emit_eq_error_iff_of_fallible (fallible_lines functions options) fault?_leaf

end Embree

/-! ## What never makes generation fail -/

/-- Whether a statement is neither a branch nor a block. -/
def TypedStmt.isStraight : TypedStmt → Bool
  | .branch _ _ _ | .block _ => false
  | _ => true

namespace TypedFunction

/-- A function without its parameters. -/
def withoutParams (f : TypedFunction) : TypedFunction := { f with params := [] }

/-- A function without its parameters, its branches and its blocks. -/
def straightLine (f : TypedFunction) : TypedFunction :=
  { f.withoutParams with body := f.body.filter TypedStmt.isStraight }

end TypedFunction

theorem Glsl.positions_straightLine (functions : List TypedFunction) :
    Glsl.positions (functions.map TypedFunction.straightLine) = Glsl.positions functions := by
  have hbody : ∀ body : List TypedStmt,
      (body.filter TypedStmt.isStraight).flatMap stmtPositions = body.flatMap stmtPositions := by
    intro body
    induction body with
    | nil => rfl
    | cons s rest ih =>
      cases s with
      | branch test consequent alternate => exact ih
      | block inner => exact ih
      | _ => rw [List.filter_cons_of_pos rfl, List.flatMap_cons, List.flatMap_cons, ih]
  have hfunction : ∀ f : TypedFunction,
      f.straightLine.positions (List.flatMap stmtPositions) =
        f.positions (List.flatMap stmtPositions) := by
    intro f
    exact congrArg (Position.result f.result :: ·) (hbody f.body)
  rw [positions, List.flatMap_map]
  exact congrArg (functions.flatMap ·) (funext hfunction)

theorem Embree.positions_withoutParams (functions : List TypedFunction) :
    Embree.positions (functions.map TypedFunction.withoutParams) = Embree.positions functions := by
  rw [positions, List.flatMap_map]
  rfl

/-- Generation fails exactly when a position has no spelling in the target language, and then with
the error of the first such position.  The parameters of functions do not matter for that, and in
fragment shaders branches and blocks do not, either. -/
theorem generate_fails_at_first_position (functions : List TypedFunction) (err : CodegenError) :
    (∀ options, Glsl.generate functions options = .error err ↔
      ∃ before p after, Glsl.positions functions = before ++ p :: after ∧
        (∀ q ∈ before, Glsl.fault? q = none) ∧ Glsl.fault? p = some err) ∧
    (∀ options, Embree.generate functions options = .error err ↔
      ∃ before p after, Embree.positions functions = before ++ p :: after ∧
        (∀ q ∈ before, Embree.fault? q = none) ∧ Embree.fault? p = some err) ∧
    (∀ options, Glsl.generate functions options = .error err ↔
      Glsl.generate (functions.map TypedFunction.straightLine) options = .error err) ∧
    (∀ options, Embree.generate functions options = .error err ↔
      Embree.generate (functions.map TypedFunction.withoutParams) options = .error err) := by
  refine ⟨fun _ => Glsl.generate_eq_error_iff, fun _ => Embree.generate_eq_error_iff, ?_, ?_⟩
  · intro options
    rw [Glsl.generate_eq_error_iff, Glsl.generate_eq_error_iff, Glsl.positions_straightLine]
  · intro options
    rw [Embree.generate_eq_error_iff, Embree.generate_eq_error_iff, Embree.positions_withoutParams]

end Shader
