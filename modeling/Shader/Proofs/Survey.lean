import Shader.Proofs.Emission

/-!
# Surveys of generated code

What stands in the code of a program is asked of its pieces: which expressions, which gaps, which
texts.  A *survey* lists such things, one piece after the other, and finds nothing in the frame of
the code: the words between the expressions, the names that are declared, and the types.

So a survey of a program lists what it finds in the expressions of the statements, in order
(`Embree.survey_lines`).  In a fragment shader the markers come in between (`Glsl.survey_lines`).
-/

namespace Shader

/-! ## Roots -/

namespace TypedStmt

mutual

/-- The outermost expressions of a statement, in source order. -/
def roots : TypedStmt → List TypedExpr
  | .declare decls => decls.flatMap fun d => d.init.toList
  | .expr e => [e]
  | .ret value => value.toList
  | .branch test consequent none => test :: rootsAll consequent
  | .branch test consequent (some alternate) => test :: (rootsAll consequent ++ rootsAll alternate)
  | .block body => rootsAll body

/-- The outermost expressions of statements. -/
def rootsAll : List TypedStmt → List TypedExpr
  | [] => []
  | s :: rest => s.roots ++ rootsAll rest

end

mutual

/-- The expressions of a statement are its outermost ones and their parts. -/
theorem exprs_eq_flatMap : ∀ s : TypedStmt, s.exprs = s.roots.flatMap TypedExpr.all
  | .declare decls => by
    rw [exprs, roots, List.flatMap_assoc]
    refine List.flatMap_congr fun d _ => ?_
    cases d.init with
    | none => rfl
    | some e => simp
  | .expr e => by simp [exprs, roots]
  | .ret none => rfl
  | .ret (some e) => by simp [exprs, roots]
  | .branch test consequent none => by
    rw [exprs, roots, List.flatMap_cons, exprsAll_eq_flatMap consequent]
  | .branch test consequent (some alternate) => by
    rw [exprs, roots, List.flatMap_cons, List.flatMap_append, exprsAll_eq_flatMap consequent,
      exprsAll_eq_flatMap alternate]
  | .block body => by rw [exprs, roots, exprsAll_eq_flatMap body]

/-- The expressions of statements are their outermost ones and the parts of these. -/
theorem exprsAll_eq_flatMap : ∀ ss : List TypedStmt,
    exprsAll ss = (rootsAll ss).flatMap TypedExpr.all
  | [] => rfl
  | s :: rest => by
    rw [exprsAll, rootsAll, List.flatMap_append, exprs_eq_flatMap s, exprsAll_eq_flatMap rest]

end

/-- The expressions of a statement are among those of the statements around it. -/
theorem mem_exprsAll {s : TypedStmt} {x : TypedExpr} (hx : x ∈ s.exprs) : ∀ {ss : List TypedStmt},
    s ∈ ss → x ∈ exprsAll ss
  | first :: rest, hs => by
    rw [exprsAll, List.mem_append]
    rcases List.mem_cons.1 hs with rfl | hs
    · exact .inl hx
    · exact .inr (mem_exprsAll hx hs)

end TypedStmt

namespace TypedFunction

/-- The outermost expressions of a function, in source order. -/
def roots (f : TypedFunction) : List TypedExpr := TypedStmt.rootsAll f.body

/-- The parts of an outermost expression of a function are expressions of the function. -/
theorem mem_exprs_of_mem_roots {f : TypedFunction} {e x : TypedExpr} (he : e ∈ f.roots)
    (hx : x ∈ e.all) : x ∈ f.exprs := by
  rw [exprs, TypedStmt.exprsAll_eq_flatMap]
  exact List.mem_flatMap.2 ⟨e, he, hx⟩

/-- The same for the outermost expressions of a statement of its body. -/
theorem mem_exprs_of_mem_body {t : TypedFunction} {s : TypedStmt} (hs : s ∈ t.body)
    {e : TypedExpr} (he : e ∈ s.roots) : e.all ⊆ t.exprs := by
  intro x hx
  refine TypedStmt.mem_exprsAll ?_ hs
  rw [TypedStmt.exprs_eq_flatMap]
  exact List.mem_flatMap.2 ⟨e, he, hx⟩

/-- The expressions of functions are the outermost ones and their parts. -/
theorem flatMap_exprs (functions : List TypedFunction) :
    functions.flatMap exprs = (functions.flatMap roots).flatMap TypedExpr.all := by
  rw [List.flatMap_assoc]
  exact List.flatMap_congr fun f _ => TypedStmt.exprsAll_eq_flatMap f.body

/-- The names that a function introduces: its own, and those of its parameters and variables. -/
def newNames (f : TypedFunction) : List String := f.name :: f.boundNames

end TypedFunction

/-! ## Words without signs -/

/-- How often a placeholder or a marker starts in a text: how often `<` stands in front of `u`. -/
def signs : List Char → Nat
  | [] => 0
  | c :: rest => (if c = '<' ∧ rest.head? = some 'u' then 1 else 0) + signs rest

/-- Whether a text has no placeholder and no marker in it, and none starts with its end. -/
def isQuiet (text : String) : Bool :=
  signs text.toList == 0 && text.toList.getLast? != some '<'

theorem signs_of_notMem {cs : List Char} (h : '<' ∉ cs) : signs cs = 0 := by
  induction cs with
  | nil => rfl
  | cons c rest ih =>
    rw [List.mem_cons, not_or] at h
    have hc : ¬ (c = '<' ∧ rest.head? = some 'u') := fun hboth => h.1 hboth.1.symm
    rw [signs, if_neg hc, ih h.2]

theorem isQuiet_margin (level : Nat) : isQuiet (LineBuffer.margin level) = true := by
  have hblank : '<' ∉ List.replicate (4 * level) ' ' := by
    intro hmem
    exact absurd (List.mem_replicate.1 hmem).2 (by decide)
  rw [isQuiet, LineBuffer.margin, String.toList_ofList, signs_of_notMem hblank,
    List.getLast?_replicate]
  split
  · rfl
  · rfl

/-! ## Surveys -/

/-- `Survey F known`: `F` lists what it finds in one piece after the other, and finds nothing in
quiet words, in known names and in types. -/
structure Survey {β : Type} (F : List Piece → List β) (known : String → Prop) : Prop where
  append : ∀ ps qs, F (ps ++ qs) = F ps ++ F qs
  word : ∀ {text}, isQuiet text = true → F [.word text] = []
  given : ∀ {text}, known text → F [.given text] = []
  typeWord : ∀ ty, F [.leaf (.typeWord ty)] = []

namespace Line

variable {β : Type} {F : List Piece → List β}

/-- What is found on lines. -/
def survey (F : List Piece → List β) (ls : List Line) : List β := ls.flatMap fun l => F l.pieces

@[simp] theorem survey_nil : survey F [] = [] := rfl

@[simp] theorem survey_cons (l : Line) (ls : List Line) :
    survey F (l :: ls) = F l.pieces ++ survey F ls := List.flatMap_cons

@[simp] theorem survey_append (ls ls' : List Line) :
    survey F (ls ++ ls') = survey F ls ++ survey F ls' := List.flatMap_append

end Line

namespace Survey

variable {β : Type} {F : List Piece → List β} {known : String → Prop}

/-- What is found in each leaf on its own is found by a survey. -/
theorem ofLeaves {f : Leaf → List β} (hword : ∀ text, f (.word text) = [])
    (hgiven : ∀ text, f (.given text) = []) (htype : ∀ ty, f (.typeWord ty) = []) :
    Survey (fun ps => (Piece.leavesAll ps).flatMap f) known where
  append ps qs := by rw [Piece.leavesAll_append, List.flatMap_append]
  word _ := List.append_eq_nil_iff.2 ⟨hword _, rfl⟩
  given _ := List.append_eq_nil_iff.2 ⟨hgiven _, rfl⟩
  typeWord _ := List.append_eq_nil_iff.2 ⟨htype _, rfl⟩

theorem nil (hF : Survey F known) : F [] = [] := by
  have happend := hF.append [] []
  rw [List.append_nil] at happend
  exact List.self_eq_append_right.1 happend

theorem cons (hF : Survey F known) (p : Piece) (ps : List Piece) : F (p :: ps) = F [p] ++ F ps :=
  hF.append [p] ps

theorem word_cons (hF : Survey F known) {text : String} (h : isQuiet text = true)
    (ps : List Piece) : F (.word text :: ps) = F ps := by
  rw [hF.cons, hF.word h, List.nil_append]

theorem given_cons (hF : Survey F known) {text : String} (h : known text) (ps : List Piece) :
    F (.given text :: ps) = F ps := by
  rw [hF.cons, hF.given h, List.nil_append]

theorem typeWord_cons (hF : Survey F known) (ty : Ty) (ps : List Piece) :
    F (.leaf (.typeWord ty) :: ps) = F ps := by
  rw [hF.cons, hF.typeWord, List.nil_append]

/-- Nothing is found in quiet words that separate pieces. -/
theorem intersperse (hF : Survey F known) {separator : String} (h : isQuiet separator = true) :
    ∀ ps : List Piece, F (ps.intersperse (.word separator)) = F ps
  | [] => rfl
  | [p] => rfl
  | p :: next :: rest => by
    rw [List.intersperse_cons_cons, hF.cons p, hF.word_cons h, hF.intersperse h (next :: rest),
      ← hF.cons p]

/-! ## Lines -/

variable {d : Dialect} {level : Nat}

/-- Nothing is found on lines of quiet text. -/
theorem ofText (hF : Survey F known) {texts : List String}
    (h : ∀ text ∈ texts, isQuiet text = true) : Line.survey F (texts.map .ofText) = [] := by
  induction texts with
  | nil => rfl
  | cons text rest ih =>
    obtain ⟨htext, hrest⟩ := List.forall_mem_cons.1 h
    rw [List.map_cons, Line.survey_cons, ih hrest]
    exact congrArg (· ++ []) (hF.word htext)

/-- On the lines of a declaration things are found in the initializers. -/
theorem declaratorLines (hF : Survey F known) {decls : List TypedDeclarator}
    (h : ∀ decl ∈ decls, known decl.name) :
    Line.survey F (d.declaratorLines level decls) =
      (decls.flatMap fun decl => decl.init.toList).flatMap fun e => F [.node e (d.inside e)] := by
  induction decls with
  | nil => rfl
  | cons decl rest ih =>
    obtain ⟨hdecl, hrest⟩ := List.forall_mem_cons.1 h
    have hline : F (d.declaratorPieces decl) =
        decl.init.toList.flatMap fun e => F [.node e (d.inside e)] := by
      unfold Dialect.declaratorPieces
      rw [hF.append, hF.typeWord_cons, hF.word_cons rfl, hF.given_cons hdecl, hF.nil]
      cases decl.init with
      | none => exact hF.word rfl
      | some e =>
        simp only
        rw [hF.word_cons rfl, hF.cons, hF.word rfl]
        simp
    rw [Dialect.declaratorLines, List.map_cons, Line.survey_cons, List.flatMap_cons,
      List.flatMap_append, ← ih hrest, hline]
    rfl

theorem exprLines (hF : Survey F known) (e : TypedExpr) :
    Line.survey F (d.exprLines level e) = F [.node e (d.inside e)] := by
  rw [Dialect.exprLines, Line.survey_cons, Line.survey_nil, hF.cons, hF.word rfl, List.append_nil,
    List.append_nil]

theorem retLines (hF : Survey F known) (value : Option TypedExpr) :
    Line.survey F (d.retLines level value) =
      value.toList.flatMap fun e => F [.node e (d.inside e)] := by
  cases value with
  | none =>
    rw [Dialect.retLines, Line.survey_cons, Line.survey_nil, hF.word rfl]
    rfl
  | some e =>
    rw [Dialect.retLines, Line.survey_cons, Line.survey_nil, hF.word_cons rfl, hF.cons,
      hF.word rfl]
    simp

/-- Nothing is found in the parameters of a function. -/
theorem paramPieces (hF : Survey F known) {params : List TypedParam}
    (h : ∀ p ∈ params, known p.name) : F (Dialect.paramPieces params) = [] := by
  have hnames : F (params.map fun p => .given p.name) = [] := by
    induction params with
    | nil => exact hF.nil
    | cons p rest ih =>
      obtain ⟨hp, hrest⟩ := List.forall_mem_cons.1 h
      rw [List.map_cons, hF.given_cons hp, ih hrest]
  unfold Dialect.paramPieces
  split
  · exact hF.word rfl
  · rw [hF.intersperse rfl, hnames]

/-- On the lines of a function things are found in its body. -/
theorem functionLines (hF : Survey F known) {body : List TypedStmt → List Line} {f : TypedFunction}
    (h : ∀ name ∈ f.newNames, known name) :
    Line.survey F (Dialect.functionLines level body f) = Line.survey F (body f.body) := by
  have hparams : ∀ p ∈ f.params, known p.name := by
    intro p hp
    have hbound : p.name ∈ f.boundNames := List.mem_append_left _ (List.mem_map_of_mem hp)
    exact h p.name (List.mem_cons_of_mem _ hbound)
  have hopening : F ([.leaf (.typeWord f.result), .word " ", .given f.name, .word "("] ++
      (Dialect.paramPieces f.params ++ [.word ") \x7b"])) = [] := by
    rw [hF.append, hF.typeWord_cons, hF.word_cons rfl, hF.given_cons (h _ List.mem_cons_self),
      hF.word rfl, hF.append, hF.paramPieces hparams, hF.word rfl]
    rfl
  rw [Dialect.functionLines, Line.survey_cons, Line.survey_append, Line.survey_cons, hopening,
    hF.word rfl]
  exact List.append_nil _

/-- On the lines of functions things are found in one function after the other. -/
theorem functionsLines (hF : Survey F known) {lines : TypedFunction → List Line}
    {found : TypedFunction → List β} {functions : List TypedFunction}
    (h : ∀ f ∈ functions, Line.survey F (lines f) = found f) (separate : Bool) :
    Line.survey F (Dialect.functionsLines level lines separate functions) =
      functions.flatMap found := by
  have hspace : Line.survey F (if separate then [⟨level, []⟩] else []) = [] := by
    cases separate with
    | false => rfl
    | true => exact congrArg (· ++ []) hF.nil
  induction functions generalizing separate with
  | nil => rfl
  | cons f rest ih =>
    obtain ⟨hf, hrest⟩ := List.forall_mem_cons.1 h
    have hafter := ih hrest true (congrArg (· ++ []) hF.nil)
    rw [Dialect.functionsLines, Line.survey_append, Line.survey_append, hspace, hf, hafter]
    rfl

/-! ## The whole code -/

theorem linePieces (hF : Survey F known) (l : Line) : F (d.linePieces l) = F l.pieces := by
  unfold Dialect.linePieces
  split
  · rfl
  · exact hF.word_cons (isQuiet_margin l.level) _

/-- What is found in the code is found on its lines. -/
theorem codePieces (hF : Survey F known) : ∀ ls : List Line,
    F (d.codePieces ls) = Line.survey F ls
  | [] => hF.nil
  | [l] => by
    rw [Dialect.codePieces, hF.linePieces, Line.survey_cons, Line.survey_nil, List.append_nil]
  | l :: next :: rest => by
    have hrest := hF.codePieces (next :: rest)
    rw [Dialect.codePieces, hF.append, hF.linePieces, hF.word_cons rfl, hrest,
      ← Line.survey_cons l]
    exact List.cons_ne_nil _ _

end Survey

/-! ## Programs -/

section Programs

variable {β : Type} {F : List Piece → List β} {known : String → Prop}

namespace Embree

mutual

theorem survey_stmtLines (hF : Survey F known) (level : Nat) : ∀ s : TypedStmt,
    (∀ decl ∈ s.declarations, known decl.name) →
    Line.survey F (stmtLines level s) =
      s.roots.flatMap fun e => F [.node e (Dialect.embree.inside e)]
  | .declare decls, h => hF.declaratorLines h
  | .expr e, _ => by
    rw [stmtLines, hF.exprLines, TypedStmt.roots, List.flatMap_singleton]
  | .ret value, _ => by
    rw [stmtLines, hF.retLines, TypedStmt.roots]
  | .branch test consequent none, h => by
    have hbody := survey_stmtsLines hF (level + 1) consequent h
    rw [stmtLines, Line.survey_cons, Line.survey_append, hbody, Line.survey_cons, hF.word rfl,
      hF.word_cons rfl, hF.cons, hF.word rfl, TypedStmt.roots, List.flatMap_cons]
    simp
  | .branch test consequent (some alternate), h => by
    obtain ⟨hc, ha⟩ := List.forall_mem_append.1 h
    have hconsequent := survey_stmtsLines hF (level + 1) consequent hc
    have halternate := survey_stmtsLines hF (level + 1) alternate ha
    rw [stmtLines, Line.survey_cons, Line.survey_append, hconsequent, Line.survey_cons,
      Line.survey_append, halternate, Line.survey_cons, hF.word rfl, hF.word rfl, hF.word_cons rfl,
      hF.cons, hF.word rfl, TypedStmt.roots, List.flatMap_cons, List.flatMap_append]
    simp
  | .block body, h => by
    have hbody := survey_stmtsLines hF (level + 1) body h
    rw [stmtLines, Line.survey_cons, Line.survey_append, hbody, Line.survey_cons, hF.word rfl,
      hF.word rfl, TypedStmt.roots]
    simp

theorem survey_stmtsLines (hF : Survey F known) (level : Nat) : ∀ ss : List TypedStmt,
    (∀ decl ∈ TypedStmt.declarationsAll ss, known decl.name) →
    Line.survey F (stmtsLines level ss) =
      (TypedStmt.rootsAll ss).flatMap fun e => F [.node e (Dialect.embree.inside e)]
  | [], _ => rfl
  | s :: rest, h => by
    obtain ⟨hs, hrest⟩ := List.forall_mem_append.1 h
    rw [stmtsLines, Line.survey_append, survey_stmtLines hF level s hs,
      survey_stmtsLines hF level rest hrest, TypedStmt.rootsAll, List.flatMap_append]

end

/-- A survey of a material finds what it finds in the expressions of the program. -/
theorem survey_lines (hF : Survey F known) {functions : List TypedFunction}
    {options : EmbreeOptions} (h : ∀ f ∈ functions, ∀ name ∈ f.newNames, known name) :
    Line.survey F (lines functions options) =
      (functions.flatMap TypedFunction.roots).flatMap fun e =>
        F [.node e (Dialect.embree.inside e)] := by
  have hheader : Line.survey F ((if options.omitHeader then [] else header).map .ofText) = [] := by
    apply hF.ofText
    split
    · exact List.forall_mem_nil _
    · exact List.all_eq_true.1 rfl
  have hepilog : Line.survey F ((if options.omitHeader then [] else epilog).map .ofText) = [] := by
    apply hF.ofText
    split
    · exact List.forall_mem_nil _
    · exact List.all_eq_true.1 rfl
  have hfunctions : ∀ f ∈ functions, Line.survey F (functionLines f) =
      f.roots.flatMap fun e => F [.node e (Dialect.embree.inside e)] := by
    intro f hf
    rw [functionLines, hF.functionLines (h f hf)]
    refine survey_stmtsLines hF 1 f.body fun decl hdecl => h f hf decl.name ?_
    exact List.mem_cons_of_mem _ (List.mem_append_right _ (List.mem_map_of_mem hdecl))
  rw [lines, Line.survey_append, Line.survey_append, hheader, hepilog,
    hF.functionsLines hfunctions, List.append_nil, List.nil_append, List.flatMap_assoc]

end Embree

namespace Glsl

/-- What a survey finds in a statement: a marker in place of a branch or a block, and else what it
finds in the expressions. -/
def found (F : List Piece → List β) (s : TypedStmt) : List β :=
  match s with
  | .branch _ _ _ | .block _ => F [.leaf (.gap (.marker s.kindName))]
  | _ => s.roots.flatMap fun e => F [.node e (Dialect.glsl.inside e)]

theorem survey_stmtLines (hF : Survey F known) (level : Nat) {s : TypedStmt}
    (h : ∀ decl ∈ s.declarations, known decl.name) :
    Line.survey F (stmtLines level s) = found F s := by
  cases s with
  | declare decls => exact hF.declaratorLines h
  | expr e =>
    have hline : Line.survey F (stmtLines level (.expr e)) = F [.node e (Dialect.glsl.inside e)] :=
      hF.exprLines e
    simp only [hline, found, TypedStmt.roots, List.flatMap_singleton]
  | ret value => exact hF.retLines value
  | branch test consequent alternate => exact List.append_nil _
  | block body => exact List.append_nil _

/-- A survey of a fragment shader finds what it finds in the statements of the functions. -/
theorem survey_lines (hF : Survey F known) {functions : List TypedFunction} {options : GlslOptions}
    (hprecision : options.omitHeader = true ∨ known options.floatPrecision)
    (h : ∀ f ∈ functions, ∀ name ∈ f.newNames, known name) :
    Line.survey F (lines functions options) =
      functions.flatMap fun f => f.body.flatMap (found F) := by
  have hheader : Line.survey F (headerLines options) = [] := by
    unfold headerLines
    split
    · rfl
    · rename_i hkept
      have hknown := hprecision.resolve_left hkept
      rw [Line.survey_cons, Line.survey_cons, Line.survey_nil, hF.word_cons rfl,
        hF.given_cons hknown, hF.word rfl]
      exact congrArg (· ++ []) (hF.word rfl)
  have hbody : ∀ ss : List TypedStmt, (∀ decl ∈ TypedStmt.declarationsAll ss, known decl.name) →
      Line.survey F (ss.flatMap (stmtLines 1)) = ss.flatMap (found F) := by
    intro ss hss
    induction ss with
    | nil => rfl
    | cons s rest ih =>
      obtain ⟨hs, hrest⟩ := List.forall_mem_append.1 hss
      rw [List.flatMap_cons, Line.survey_append, survey_stmtLines hF 1 hs, ih hrest,
        List.flatMap_cons]
  have hfunctions : ∀ f ∈ functions, Line.survey F (functionLines f) =
      f.body.flatMap (found F) := by
    intro f hf
    rw [functionLines, hF.functionLines (h f hf)]
    refine hbody f.body fun decl hdecl => h f hf decl.name ?_
    exact List.mem_cons_of_mem _ (List.mem_append_right _ (List.mem_map_of_mem hdecl))
  rw [lines, Line.survey_append, hheader, hF.functionsLines hfunctions, List.nil_append]

end Glsl

end Programs

end Shader
