import Shader.Proofs.Layout
import Shader.Target.Fragment
import Shader.Target.Material

/-!
# The lines of generated code

The layout of whole functions: a list of lines, each with its level of indentation and its pieces.
The lines of a statement depend on the statement and the level only.  Emission adds them to a buffer
one after the other, and ends on the level it started from: `Glsl.stmts_emit`, `Embree.stmts_emit`.

So the output of a run is read off the lines of the program (`Glsl.generate_eq`,
`Embree.generate_eq`), and `Dialect.emit_eq_ok_iff` says when there is one and what it is.
-/

namespace Shader

/-! ## Lines -/

/-- A line of code: the level of its indentation, and what stands on it. -/
structure Line where
  level : Nat
  pieces : List Piece

namespace Line

/-- The leaves of a line. -/
def leaves (l : Line) : List Leaf := Piece.leavesAll l.pieces

/-- A line of fixed text at level zero. -/
def ofText (text : String) : Line := ⟨0, [.word text]⟩

end Line

/-- A text with the blanks in front that a line at a level has. -/
def indented (level : Nat) (text : String) : String :=
  if text.isEmpty then "" else LineBuffer.margin level ++ text

theorem append_ne_empty {text : String} (h : text ≠ "") (more : String) : text ++ more ≠ "" :=
  fun hempty => h (String.append_eq_empty_iff.1 hempty).1

namespace LineBuffer

/-- The buffer with more lines, which have their indentation already. -/
def extend (b : LineBuffer) (texts : List String) : LineBuffer := ⟨b.lines ++ texts, b.level⟩

theorem line_eq_extend (b : LineBuffer) (text : String) :
    b.line text = b.extend [indented b.level text] := rfl

theorem extend_nil (b : LineBuffer) : b.extend [] = b := by
  rw [extend, List.append_nil]

theorem extend_extend (b : LineBuffer) (xs ys : List String) :
    (b.extend xs).extend ys = b.extend (xs ++ ys) := by
  rw [extend, extend, extend, List.append_assoc]

/-- Text that is added to the end of a line makes a longer line. -/
theorem append_line (b : LineBuffer) {text : String} (h : text ≠ "") (more : String) :
    (b.line text).append more = b.line (text ++ more) := by
  have hlonger : text ++ more ≠ "" := append_ne_empty h more
  have hlast : (b.line text).lines.getLast? = some (margin b.level ++ text) := by
    simp [line, h]
  rw [append, hlast]
  simp [line, h, hlonger, String.append_assoc]

@[simp] theorem level_addLines (b : LineBuffer) (texts : List String) :
    (b.addLines texts).level = b.level := by
  induction texts generalizing b with
  | nil => rfl
  | cons text rest ih => exact ih (b.line text)

end LineBuffer

/-- `Adds level x f`: at the level, `f` adds the lines that `x` gives to a buffer. -/
def Adds (level : Nat) (x : Render (List String)) (f : LineBuffer → Render LineBuffer) : Prop :=
  ∀ b : LineBuffer, b.level = level → f b = do return b.extend (← x)

section Adds

variable {level : Nat} {x y : Render (List String)} {f g : LineBuffer → Render LineBuffer}

/-- The level does not change while lines are added. -/
theorem level_extend {b b' : LineBuffer} {warnings : List Warning}
    (h : (do return b.extend (← x) : Render LineBuffer).Yields b' warnings) :
    b'.level = b.level := by
  obtain ⟨texts, _, _, -, hb, -⟩ := Render.yields_bind_iff.1 h
  rw [← (Render.yields_pure_iff.1 hb).1]
  rfl

theorem Adds.level_eq (hf : Adds level x f) {b b' : LineBuffer} {warnings : List Warning}
    (hb : b.level = level) (h : (f b).Yields b' warnings) : b'.level = level := by
  rw [hf b hb] at h
  exact (level_extend h).trans hb

theorem Adds.nil : Adds level (pure []) fun b => pure b := by
  intro b _
  rw [pure_bind, LineBuffer.extend_nil]

/-- Lines are added after lines. -/
theorem Adds.bind (hf : Adds level x f) (hg : Adds level y g) :
    Adds level (do return (← x) ++ (← y)) fun b => f b >>= g := by
  intro b hb
  show f b >>= g = _
  simp only [hf b hb, bind_assoc, pure_bind]
  apply Render.bind_congr_of_yields
  intro texts warnings _
  simp only [hg (b.extend texts) hb, LineBuffer.extend_extend]

/-- Lines at the next level are added between two changes of the level. -/
theorem Adds.indent (hf : Adds (level + 1) x f) :
    Adds level x fun b => do return (← f b.indent).dedent := by
  rintro b rfl
  have hinside : f b.indent = do return b.indent.extend (← x) := hf b.indent rfl
  simp only [hinside, bind_assoc, pure_bind]
  rfl

end Adds

namespace Dialect

/-- Read a line with its indentation. -/
def readLine (d : Dialect) (l : Line) : Render String :=
  return indented l.level (← d.readPieces l.pieces)

/-- Read lines and add them to a buffer. -/
def append (d : Dialect) (b : LineBuffer) (ls : List Line) : Render LineBuffer :=
  return b.extend (← ls.mapM d.readLine)

/-- `d.Emits level ls f`: at the level, `f` adds the lines `ls` to a buffer. -/
def Emits (d : Dialect) (level : Nat) (ls : List Line) (f : LineBuffer → Render LineBuffer) :
    Prop :=
  ∀ b : LineBuffer, b.level = level → f b = d.append b ls

section Append

variable {d : Dialect} {level : Nat} {ls ls' : List Line} {f g : LineBuffer → Render LineBuffer}

theorem append_nil (d : Dialect) (b : LineBuffer) : d.append b [] = pure b := by
  rw [append, List.mapM_nil, pure_bind, LineBuffer.extend_nil]

theorem append_append (d : Dialect) (b : LineBuffer) (ls ls' : List Line) :
    d.append b (ls ++ ls') = d.append b ls >>= fun b' => d.append b' ls' := by
  unfold append
  simp only [List.mapM_append, bind_assoc, pure_bind, LineBuffer.extend_extend]

theorem level_append {b b' : LineBuffer} {warnings : List Warning}
    (h : (d.append b ls).Yields b' warnings) : b'.level = b.level :=
  level_extend h

theorem append_singleton (d : Dialect) (b : LineBuffer) (pieces : List Piece) :
    d.append b [⟨b.level, pieces⟩] = do return b.line (← d.readPieces pieces) := by
  unfold append readLine
  simp only [List.mapM_cons, List.mapM_nil, bind_assoc, pure_bind, LineBuffer.line_eq_extend]

theorem emits_nil : d.Emits level [] (fun b => pure b) := by
  intro b _
  rw [append_nil]

/-- One line is added. -/
theorem emits_line (level : Nat) (pieces : List Piece) :
    d.Emits level [⟨level, pieces⟩] fun b => do return b.line (← d.readPieces pieces) := by
  rintro b rfl
  rw [append_singleton]

theorem Emits.bind (hf : d.Emits level ls f) (hg : d.Emits level ls' g) :
    d.Emits level (ls ++ ls') fun b => f b >>= g := by
  intro b hb
  rw [append, List.mapM_append]
  exact Adds.bind hf hg b hb

theorem Emits.indent (hf : d.Emits (level + 1) ls f) :
    d.Emits level ls fun b => do return (← f b.indent).dedent :=
  Adds.indent hf

end Append

/-! ## Statements -/

/-- The pieces of a declaration of one variable. -/
def declaratorPieces (d : Dialect) (decl : TypedDeclarator) : List Piece :=
  [.leaf (.typeWord decl.ascription.ty), .word " ", .given decl.name] ++
    match decl.init with
    | some init => [.word " = ", .node init (d.inside init), .word ";"]
    | none => [.word ";"]

/-- The lines of a declaration. -/
def declaratorLines (d : Dialect) (level : Nat) (decls : List TypedDeclarator) : List Line :=
  decls.map fun decl => ⟨level, d.declaratorPieces decl⟩

/-- The line of an expression. -/
def exprLines (d : Dialect) (level : Nat) (e : TypedExpr) : List Line :=
  [⟨level, [.node e (d.inside e), .word ";"]⟩]

/-- The line of a return statement. -/
def retLines (d : Dialect) (level : Nat) : Option TypedExpr → List Line
  | some e => [⟨level, [.word "return ", .node e (d.inside e), .word ";"]⟩]
  | none => [⟨level, [.word "return;"]⟩]

theorem declarator_eq_read (d : Dialect) (decl : TypedDeclarator) :
    d.declarator decl = d.readPieces (d.declaratorPieces decl) := by
  have hword : d.read (Piece.leaf (.typeWord decl.ascription.ty)).leaves =
      Render.ofExcept (d.typeName decl.ascription.ty) := read_leaf d _
  unfold declarator declaratorPieces
  cases decl.init with
  | none =>
    simp only [readPieces_append, readPieces_cons, readPieces_nil, hword, read_word, read_given,
      bind_assoc, pure_bind, String.append_empty, String.append_assoc]
  | some init =>
    simp only [readPieces_append, readPieces_cons, readPieces_nil, hword, read_word, read_given,
      read_node, expr_eq_read, bind_assoc, pure_bind, String.append_empty, String.append_assoc]

theorem declarators_emit (d : Dialect) (level : Nat) (decls : List TypedDeclarator) :
    d.Emits level (d.declaratorLines level decls) fun b => d.declarators b decls := by
  induction decls with
  | nil => exact emits_nil
  | cons decl rest ih =>
    intro b hb
    have hbind := (emits_line level (d.declaratorPieces decl)).bind ih b hb
    simp only [bind_assoc, pure_bind] at hbind
    show d.declarators b (decl :: rest) = _
    rw [declarators, declarator_eq_read]
    exact hbind

theorem exprLine_emit (d : Dialect) (level : Nat) (e : TypedExpr) :
    d.Emits level (d.exprLines level e) fun b => d.exprLine b e := by
  intro b hb
  show d.exprLine b e = _
  rw [exprLines, ← emits_line level _ b hb, exprLine, expr_eq_read]
  simp only [readPieces_cons, readPieces_nil, read_node, read_word, bind_assoc, pure_bind,
    String.append_empty]

theorem retLine_emit (d : Dialect) (level : Nat) (value : Option TypedExpr) :
    d.Emits level (d.retLines level value) fun b => d.retLine b value := by
  intro b hb
  show d.retLine b value = _
  cases value with
  | none =>
    rw [retLines, ← emits_line level _ b hb, retLine]
    simp only [readPieces_singleton, read_word, pure_bind]
  | some e =>
    rw [retLines, ← emits_line level _ b hb, retLine, expr_eq_read]
    simp only [readPieces_cons, readPieces_nil, read_node, read_word, bind_assoc, pure_bind,
      String.append_empty, String.append_assoc]

/-- A line of fixed text is added. -/
theorem emits_word (d : Dialect) (level : Nat) (text : String) :
    d.Emits level [⟨level, [.word text]⟩] fun b => pure (b.line text) := by
  intro b hb
  rw [← emits_line level _ b hb]
  simp only [readPieces_singleton, read_word, pure_bind]

/-- The lines of a body, inside a line that opens it and one that closes it. -/
theorem Emits.enclosed {d : Dialect} {level : Nat} {ls : List Line}
    {f : LineBuffer → Render LineBuffer} (hf : d.Emits (level + 1) ls f) (pieces : List Piece)
    (closing : String) :
    d.Emits level (⟨level, pieces⟩ :: (ls ++ [⟨level, [.word closing]⟩])) fun b => do
      let opening ← d.readPieces pieces
      let b ← f (b.line opening).indent
      return b.dedent.line closing := by
  intro b hb
  have hlines := (emits_line level pieces).bind (hf.indent.bind (emits_word d level closing)) b hb
  simp only [bind_assoc, pure_bind, List.singleton_append] at hlines
  exact hlines

end Dialect

/-! ## Bodies of functions -/

namespace Glsl

/-- The lines of a statement of a fragment shader. -/
def stmtLines (level : Nat) : TypedStmt → List Line
  | .declare decls => Dialect.glsl.declaratorLines level decls
  | .expr e => Dialect.glsl.exprLines level e
  | .ret value => Dialect.glsl.retLines level value
  | s => [⟨level, [.leaf (.gap (.marker s.kindName))]⟩]

/-- A marker line is added with its warning. -/
theorem marker_emit (level : Nat) (kind : String) :
    Dialect.glsl.Emits level [⟨level, [.leaf (.gap (.marker kind))]⟩] fun b => do
      Render.warn (.marker kind)
      return b.line ("<unsupported statement: " ++ kind ++ ">") := by
  intro b hb
  rw [← Dialect.emits_line level _ b hb]
  simp only [Dialect.readPieces_singleton, Dialect.read_leaf]
  rfl

theorem stmt_emit (level : Nat) (s : TypedStmt) :
    Dialect.glsl.Emits level (stmtLines level s) fun b => stmt b s := by
  cases s with
  | declare decls => exact Dialect.declarators_emit _ level decls
  | expr e => exact Dialect.exprLine_emit _ level e
  | ret value => exact Dialect.retLine_emit _ level value
  | branch test consequent alternate => exact marker_emit level "IfStatement"
  | block body => exact marker_emit level "BlockStatement"

/-- Statements add their lines. -/
theorem stmts_emit (level : Nat) (ss : List TypedStmt) :
    Dialect.glsl.Emits level (ss.flatMap (stmtLines level)) fun b => stmts b ss := by
  induction ss with
  | nil => exact Dialect.emits_nil
  | cons s rest ih => exact (stmt_emit level s).bind ih

end Glsl

namespace Embree

mutual

/-- The lines of a statement of a material. -/
def stmtLines (level : Nat) : TypedStmt → List Line
  | .declare decls => Dialect.embree.declaratorLines level decls
  | .expr e => Dialect.embree.exprLines level e
  | .ret value => Dialect.embree.retLines level value
  | .branch test consequent none =>
    ⟨level, [.word "if (", .node test (Dialect.embree.inside test), .word ") \x7b"]⟩ ::
      (stmtsLines (level + 1) consequent ++ [⟨level, [.word "\x7d"]⟩])
  | .branch test consequent (some alternate) =>
    ⟨level, [.word "if (", .node test (Dialect.embree.inside test), .word ") \x7b"]⟩ ::
      (stmtsLines (level + 1) consequent ++ ⟨level, [.word "\x7d else \x7b"]⟩ ::
        (stmtsLines (level + 1) alternate ++ [⟨level, [.word "\x7d"]⟩]))
  | .block body =>
    ⟨level, [.word "\x7b"]⟩ :: (stmtsLines (level + 1) body ++ [⟨level, [.word "\x7d"]⟩])

/-- The lines of statements. -/
def stmtsLines (level : Nat) : List TypedStmt → List Line
  | [] => []
  | s :: rest => stmtLines level s ++ stmtsLines level rest

end

theorem read_test (test : TypedExpr) :
    Dialect.embree.readPieces
        [.word "if (", .node test (Dialect.embree.inside test), .word ") \x7b"] =
      do return "if (" ++ (← Dialect.embree.expr test) ++ ") \x7b" := by
  simp only [Dialect.readPieces_cons, Dialect.readPieces_nil, Dialect.read_word, Dialect.read_node,
    Dialect.expr_eq_read, bind_assoc, pure_bind, String.append_empty, String.append_assoc]

mutual

theorem stmt_emit (level : Nat) : ∀ s : TypedStmt,
    Dialect.embree.Emits level (stmtLines level s) fun b => stmt b s
  | .declare decls => Dialect.declarators_emit _ level decls
  | .expr e => Dialect.exprLine_emit _ level e
  | .ret value => Dialect.retLine_emit _ level value
  | .branch test consequent none => by
    intro b hb
    have hbody := (stmts_emit (level + 1) consequent).enclosed
      [.word "if (", .node test (Dialect.embree.inside test), .word ") \x7b"] "\x7d" b hb
    rw [read_test] at hbody
    simp only [bind_assoc, pure_bind] at hbody
    exact hbody
  | .branch test consequent (some alternate) => by
    intro b hb
    have hconsequent := (stmts_emit (level + 1) consequent).enclosed
      [.word "if (", .node test (Dialect.embree.inside test), .word ") \x7b"] "\x7d else \x7b"
    have halternate := (stmts_emit (level + 1) alternate).indent.bind
      (Dialect.emits_word _ level "\x7d")
    have hboth := hconsequent.bind halternate b hb
    rw [read_test] at hboth
    simp only [bind_assoc, pure_bind, List.cons_append, List.append_assoc, List.nil_append]
      at hboth
    exact hboth
  | .block body => by
    intro b hb
    have hbody := (stmts_emit (level + 1) body).enclosed [.word "\x7b"] "\x7d" b hb
    simp only [Dialect.readPieces_singleton, Dialect.read_word, pure_bind] at hbody
    exact hbody

/-- Statements add their lines. -/
theorem stmts_emit (level : Nat) : ∀ ss : List TypedStmt,
    Dialect.embree.Emits level (stmtsLines level ss) fun b => stmts b ss
  | [] => Dialect.emits_nil
  | s :: rest => (stmt_emit level s).bind (stmts_emit level rest)

end

end Embree

/-! ## Programs -/

namespace Dialect

/-- The parameters of a function, as bare names. -/
def paramList (params : List TypedParam) : String :=
  if params.isEmpty then "void" else ", ".intercalate (params.map (·.name))

/-- Names of parameters are added to a line one after the other. -/
theorem appendParams_line (b : LineBuffer) (rest : List TypedParam) :
    ∀ {text : String}, text ≠ "" → ∀ p : TypedParam,
      appendParams false (b.line text) (p :: rest) =
        b.line (text ++ ", ".intercalate ((p :: rest).map (·.name))) := by
  induction rest with
  | nil =>
    intro text htext p
    exact b.append_line htext p.name
  | cons q rest ih =>
    intro text htext p
    have hname : text ++ p.name ≠ "" := append_ne_empty htext p.name
    have hcomma : text ++ p.name ++ ", " ≠ "" := append_ne_empty hname ", "
    calc appendParams false (b.line text) (p :: q :: rest)
        = appendParams false (((b.line text).append p.name).append ", ") (q :: rest) := rfl
      _ = appendParams false (b.line (text ++ p.name ++ ", ")) (q :: rest) := by
          rw [b.append_line htext, b.append_line hname]
      _ = b.line (text ++ p.name ++ ", " ++ ", ".intercalate ((q :: rest).map (·.name))) :=
          ih hcomma q
      _ = b.line (text ++ ", ".intercalate ((p :: q :: rest).map (·.name))) := by
          simp only [List.map_cons, String.intercalate_cons_cons, String.append_assoc]

/-- The header of a function is one line. -/
theorem functionHeader_eq (b : LineBuffer) (word : String) (f : TypedFunction) :
    functionHeader b word f =
      b.line (word ++ " " ++ f.name ++ "(" ++ paramList f.params ++ ") \x7b") := by
  have hopening : word ++ " " ++ f.name ++ "(" ≠ "" := by simp
  unfold functionHeader paramList
  cases f.params with
  | nil =>
    show ((b.line _).append "void").append _ = b.line (_ ++ "void" ++ _)
    rw [b.append_line hopening, b.append_line (append_ne_empty hopening _)]
  | cons p rest =>
    show (appendParams false (b.line _) (p :: rest)).append _ =
      b.line (_ ++ ", ".intercalate ((p :: rest).map (·.name)) ++ _)
    rw [appendParams_line b rest hopening, b.append_line (append_ne_empty hopening _)]

/-- The pieces of the parameters of a function. -/
def paramPieces (params : List TypedParam) : List Piece :=
  if params.isEmpty then [.word "void"]
  else (params.map fun p => .given p.name).intersperse (.word ", ")

/-- The lines of a function, given those of its body. -/
def functionLines (level : Nat) (body : List TypedStmt → List Line) (f : TypedFunction) :
    List Line :=
  ⟨level, [.leaf (.typeWord f.result), .word " ", .given f.name, .word "("] ++
    (paramPieces f.params ++ [.word ") \x7b"])⟩ :: (body f.body ++ [⟨level, [.word "\x7d"]⟩])

/-- The lines of functions, with an empty line in front of each when `separate` holds and between
them in any case. -/
def functionsLines (level : Nat) (lines : TypedFunction → List Line) (separate : Bool) :
    List TypedFunction → List Line
  | [] => []
  | f :: rest =>
    (if separate then [⟨level, []⟩] else []) ++ (lines f ++ functionsLines level lines true rest)

theorem read_params (d : Dialect) (params : List TypedParam) :
    d.readPieces (paramPieces params) = pure (paramList params) := by
  have hnames : ∀ names : List String,
      (names.map Piece.given).mapM (fun p => d.read p.leaves) = pure names := by
    intro names
    induction names with
    | nil => rfl
    | cons name rest ih => simp only [List.map_cons, List.mapM_cons, read_given, ih, pure_bind]
  unfold paramPieces paramList
  split
  · rw [readPieces_singleton, read_word]
  · have hparams := hnames (params.map (·.name))
    rw [List.map_map] at hparams
    rw [readPieces_intersperse]
    show ((params.map (Piece.given ∘ fun p => p.name)).mapM _ >>= _) = _
    rw [hparams, pure_bind]

/-- A function adds its lines when its body does. -/
theorem function_emit {d : Dialect} {level : Nat} {lines : List TypedStmt → List Line}
    {body : LineBuffer → List TypedStmt → Render LineBuffer}
    (hbody : ∀ ss, d.Emits (level + 1) (lines ss) fun b => body b ss) (f : TypedFunction) :
    d.Emits level (functionLines level lines f) fun b => d.function body b f := by
  intro b hb
  have hword : d.read (Piece.leaf (.typeWord f.result)).leaves =
      Render.ofExcept (d.typeName f.result) := read_leaf d _
  have hlines := (hbody f.body).enclosed ([.leaf (.typeWord f.result), .word " ", .given f.name,
    .word "("] ++ (paramPieces f.params ++ [.word ") \x7b"])) "\x7d" b hb
  simp only [readPieces_append, readPieces_cons, readPieces_nil, hword, read_word, read_given,
    read_params, bind_assoc, pure_bind, String.append_empty, String.append_assoc] at hlines
  simp only [function, functionHeader_eq, String.append_assoc]
  exact hlines

/-- Functions add their lines when each of them does. -/
theorem functions_emit {d : Dialect} {level : Nat} {lines : TypedFunction → List Line}
    {emit : LineBuffer → TypedFunction → Render LineBuffer}
    (hemit : ∀ f, d.Emits level (lines f) fun b => emit b f) (fs : List TypedFunction) :
    ∀ separate, d.Emits level (functionsLines level lines separate fs)
      fun b => functions emit separate b fs := by
  induction fs with
  | nil => exact fun _ => emits_nil
  | cons f rest ih =>
    intro separate
    have hrest := (hemit f).bind (ih true)
    cases separate with
    | false => exact hrest
    | true =>
      intro b hb
      have hlines := (emits_line level []).bind hrest b hb
      simp only [readPieces_nil, pure_bind] at hlines
      exact hlines

/-- Fixed lines are added. -/
theorem append_ofText (d : Dialect) (texts : List String) (b : LineBuffer) (hb : b.level = 0) :
    d.append b (texts.map Line.ofText) = pure (b.addLines texts) := by
  induction texts generalizing b with
  | nil => exact append_nil d b
  | cons text rest ih =>
    have hline := emits_word d 0 text b hb
    rw [List.map_cons, ← List.singleton_append, append_append, Line.ofText, ← hline, pure_bind,
      ih (b.line text) hb]
    rfl

/-- The output of a run that adds lines to an empty buffer. -/
def emit (d : Dialect) (ls : List Line) : Except CodegenError Output :=
  (d.append .empty ls).output

end Dialect

namespace Glsl

/-- The lines in front of the functions. -/
def headerLines (options : GlslOptions) : List Line :=
  if options.omitHeader then []
  else [.ofText "// Generated by shade.js",
    ⟨0, [.word "precision ", .given options.floatPrecision, .word " float;"]⟩]

/-- The lines of a function. -/
def functionLines (f : TypedFunction) : List Line :=
  Dialect.functionLines 0 (fun ss => ss.flatMap (stmtLines 1)) f

/-- The lines of functions as a fragment shader. -/
def lines (functions : List TypedFunction) (options : GlslOptions) : List Line :=
  headerLines options ++ Dialect.functionsLines 0 functionLines false functions

theorem functions_eq_append (functions : List TypedFunction) {b : LineBuffer} (hb : b.level = 0) :
    Dialect.functions (Dialect.glsl.function stmts) false b functions =
      Dialect.glsl.append b (Dialect.functionsLines 0 functionLines false functions) :=
  Dialect.functions_emit (fun f => Dialect.function_emit (stmts_emit 1) f) functions false b hb

/-- Generating code is reading the lines of the program. -/
theorem generate_eq (functions : List TypedFunction) (options : GlslOptions) :
    generate functions options = Dialect.glsl.emit (lines functions options) := by
  have hheader : Dialect.glsl.append .empty (headerLines options) =
      pure (LineBuffer.empty.addLines (if options.omitHeader then [] else header options)) := by
    unfold headerLines
    split
    · exact Dialect.append_nil _ _
    -- The second line has the precision in it, which is given and so a piece of its own.
    · have hfirst := Dialect.emits_word Dialect.glsl 0 "// Generated by shade.js" .empty rfl
      rw [← List.singleton_append, Dialect.append_append, Line.ofText, ← hfirst, pure_bind,
        ← Dialect.emits_line 0 _ _ rfl]
      simp only [Dialect.readPieces_cons, Dialect.readPieces_nil, Dialect.read_word,
        Dialect.read_given, pure_bind, String.append_empty]
      simp only [header, LineBuffer.addLines, List.foldl_cons, List.foldl_nil, String.append_assoc]
  have hstart :=
    LineBuffer.level_addLines .empty (if options.omitHeader then [] else header options)
  unfold generate Dialect.emit lines
  rw [Dialect.append_append, hheader, pure_bind, ← functions_eq_append functions hstart]

end Glsl

namespace Embree

/-- The lines of a function. -/
def functionLines (f : TypedFunction) : List Line := Dialect.functionLines 0 (stmtsLines 1) f

/-- The lines of functions as a material. -/
def lines (functions : List TypedFunction) (options : EmbreeOptions) : List Line :=
  (if options.omitHeader then [] else header).map .ofText ++
    (Dialect.functionsLines 0 functionLines false functions ++
      (if options.omitHeader then [] else epilog).map .ofText)

theorem functions_eq_append (functions : List TypedFunction) {b : LineBuffer} (hb : b.level = 0) :
    Dialect.functions (Dialect.embree.function stmts) false b functions =
      Dialect.embree.append b (Dialect.functionsLines 0 functionLines false functions) :=
  Dialect.functions_emit (fun f => Dialect.function_emit (stmts_emit 1) f) functions false b hb

/-- Generating code is reading the lines of the program. -/
theorem generate_eq (functions : List TypedFunction) (options : EmbreeOptions) :
    generate functions options = Dialect.embree.emit (lines functions options) := by
  have hstart := LineBuffer.level_addLines .empty (if options.omitHeader then [] else header)
  have hfunctions := functions_eq_append functions hstart
  unfold generate Dialect.emit lines
  rw [Dialect.append_append, Dialect.append_ofText _ _ _ rfl, pure_bind, Dialect.append_append,
    ← hfunctions]
  refine congrArg Render.output (Render.bind_congr_of_yields ?_)
  intro b warnings hb
  rw [hfunctions] at hb
  rw [Dialect.append_ofText _ _ _ ((Dialect.level_append hb).trans hstart)]

end Embree

/-! ## Outputs -/

theorem Render.output_eq_ok_iff {x : Render LineBuffer} {out : Output} :
    x.output = .ok out ↔ ∃ b warnings, x.Yields b warnings ∧ out = ⟨b.finish, warnings⟩ := by
  unfold Render.output
  constructor
  · intro h
    split at h
    · rename_i b warnings
      obtain rfl := Except.ok.inj h
      exact ⟨b, warnings, rfl, rfl⟩
    · cases h
  · rintro ⟨b, warnings, rfl, rfl⟩
    rfl

namespace Dialect

/-- The text of a line. -/
def lineText (d : Dialect) (l : Line) : String := indented l.level (d.text l.leaves)

/-- Reading lines succeeds when each of their leaves has a spelling. -/
theorem yields_readLines_iff {d : Dialect} {ls : List Line} {texts : List String}
    {warnings : List Warning} :
    (ls.mapM d.readLine).Yields texts warnings ↔
      (∀ leaf ∈ ls.flatMap Line.leaves, ∃ code, d.spell leaf = .ok code) ∧
        ls.map d.lineText = texts ∧ (ls.flatMap Line.leaves).flatMap Leaf.warnings = warnings := by
  induction ls generalizing texts warnings with
  | nil =>
    rw [List.mapM_nil, Render.yields_pure_iff]
    simp
  | cons l rest ih =>
    simp only [List.mapM_cons, readLine, readPieces, Render.yields_bind_iff,
      Render.yields_pure_iff, yields_read_iff, ih, List.flatMap_cons, List.forall_mem_append,
      List.map_cons, List.flatMap_append]
    constructor
    · rintro ⟨_, _, _, ⟨_, _, _, ⟨hl, rfl, rfl⟩, ⟨rfl, rfl⟩, rfl⟩,
        ⟨_, _, _, ⟨hrest, rfl, rfl⟩, ⟨rfl, rfl⟩, rfl⟩, rfl⟩
      refine ⟨⟨hl, hrest⟩, rfl, ?_⟩
      rw [List.append_nil, List.append_nil]
      rfl
    · rintro ⟨⟨hl, hrest⟩, rfl, rfl⟩
      refine ⟨_, _, _, ⟨_, _, _, ⟨hl, rfl, rfl⟩, ⟨rfl, rfl⟩, rfl⟩,
        ⟨_, _, _, ⟨hrest, rfl, rfl⟩, ⟨rfl, rfl⟩, rfl⟩, ?_⟩
      rw [List.append_nil, List.append_nil]
      rfl

/-- There is an output when each leaf has a spelling.  It consists of the texts of the lines and of
the warnings for the gaps. -/
theorem emit_eq_ok_iff {d : Dialect} {ls : List Line} {out : Output} :
    d.emit ls = .ok out ↔
      (∀ leaf ∈ ls.flatMap Line.leaves, ∃ code, d.spell leaf = .ok code) ∧
        out.code = "\n".intercalate (ls.map d.lineText) ∧
        out.warnings = (ls.flatMap Line.leaves).flatMap Leaf.warnings := by
  obtain ⟨code, warnings⟩ := out
  rw [emit, Render.output_eq_ok_iff]
  simp only [append, Render.yields_bind_iff, Render.yields_pure_iff, yields_readLines_iff]
  constructor
  · rintro ⟨_, _, ⟨_, _, _, ⟨hls, rfl, rfl⟩, ⟨rfl, rfl⟩, rfl⟩, hout⟩
    obtain ⟨rfl, rfl⟩ := Output.mk.inj hout
    refine ⟨hls, ?_, ?_⟩
    · rfl
    · exact List.append_nil _
  · rintro ⟨hls, rfl, rfl⟩
    refine ⟨_, _, ⟨_, _, _, ⟨hls, rfl, rfl⟩, ⟨rfl, rfl⟩, rfl⟩, ?_⟩
    rw [List.append_nil]
    rfl

/-- A line as pieces, with the blanks in front. -/
def linePieces (d : Dialect) (l : Line) : List Piece :=
  if (d.text l.leaves).isEmpty then l.pieces else .word (LineBuffer.margin l.level) :: l.pieces

/-- The pieces of the whole code. -/
def codePieces (d : Dialect) : List Line → List Piece
  | [] => []
  | [l] => d.linePieces l
  | l :: rest => d.linePieces l ++ .word "\n" :: d.codePieces rest

theorem text_linePieces (d : Dialect) (l : Line) :
    d.text (Piece.leavesAll (d.linePieces l)) = d.lineText l := by
  unfold linePieces lineText indented
  split
  · rename_i hempty
    rw [String.isEmpty_iff] at hempty
    exact hempty
  · rfl

/-- The pieces of the code make up the texts of the lines. -/
theorem text_codePieces (d : Dialect) : ∀ ls : List Line,
    d.text (Piece.leavesAll (d.codePieces ls)) = "\n".intercalate (ls.map d.lineText)
  | [] => rfl
  | [l] => by
    rw [codePieces, text_linePieces, List.map_singleton, String.intercalate_singleton]
  | l :: next :: rest => by
    have hrest := text_codePieces d (next :: rest)
    rw [List.map_cons, List.map_cons, String.intercalate_cons_cons, ← List.map_cons, ← hrest,
      codePieces, Piece.leavesAll_append, text_append, text_linePieces, String.append_assoc]
    · rfl
    · exact List.cons_ne_nil _ _

theorem mem_leaves_linePieces {d : Dialect} {l : Line} {leaf : Leaf}
    (h : leaf ∈ Piece.leavesAll (d.linePieces l)) :
    leaf ∈ l.leaves ∨ ∃ text, leaf = .word text := by
  unfold linePieces at h
  split at h
  · exact .inl h
  · rcases List.mem_cons.1 h with rfl | h
    · exact .inr ⟨_, rfl⟩
    · exact .inl h

/-- Between the lines there are only words. -/
theorem mem_leaves_codePieces {d : Dialect} {leaf : Leaf} : ∀ {ls : List Line},
    leaf ∈ Piece.leavesAll (d.codePieces ls) →
    leaf ∈ ls.flatMap Line.leaves ∨ ∃ text, leaf = .word text
  | [l], h => by
    rw [List.flatMap_singleton]
    exact mem_leaves_linePieces h
  | l :: next :: rest, h => by
    rw [codePieces, Piece.leavesAll_append, List.mem_append] at h
    · rw [List.flatMap_cons, List.mem_append, or_assoc]
      rcases h with h | h
      · exact (mem_leaves_linePieces h).imp_right .inr
      · rcases List.mem_cons.1 h with rfl | h
        · exact .inr (.inr ⟨_, rfl⟩)
        · exact .inr (mem_leaves_codePieces h)
    · exact List.cons_ne_nil _ _

end Dialect

end Shader
