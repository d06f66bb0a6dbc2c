import Shader.Proofs.Emission

/-!
# Emission is pretty printing

Code is emitted into a buffer that keeps the current level of indentation.  A pretty printer has no
such state: the lines of a statement depend on the statement and its depth, and those of a program
are put together from those of its functions.

Emission and printing give the same code, the same warnings and the same failures.  At every level
a statement adds the lines that the printer gives for it (`Glsl.stmts_adds`, `Embree.stmts_adds`),
which leaves the level as it was.  So a function starts and ends at level zero
(`Dialect.functions_split`), the level is lowered only where it was raised before
(`Embree.stmtsWith_eq`), and the output for a program is that of its functions, one after the other
(`Dialect.joined_printProgram`).
-/

namespace Shader

/-! ## The printer -/

/-- A text with four blanks in front for each level of depth. -/
def atDepth (depth : Nat) (text : String) : String :=
  String.ofList (List.replicate (4 * depth) ' ') ++ text

namespace Dialect

/-- Print a declaration, one line for each variable. -/
def printDeclarators (d : Dialect) (depth : Nat) (decls : List TypedDeclarator) :
    Render (List String) :=
  decls.mapM fun decl => return atDepth depth (← d.declarator decl)

/-- Print an expression as a statement. -/
def printExpr (d : Dialect) (depth : Nat) (e : TypedExpr) : Render (List String) :=
  return [atDepth depth ((← d.expr e) ++ ";")]

/-- Print a return statement. -/
def printRet (d : Dialect) (depth : Nat) : Option TypedExpr → Render (List String)
  | some e => return [atDepth depth ("return " ++ (← d.expr e) ++ ";")]
  | none => return [atDepth depth "return;"]

/-- Print a function, whose body `body` prints. -/
def printFunction (d : Dialect) (body : Nat → List TypedStmt → Render (List String)) (depth : Nat)
    (f : TypedFunction) : Render (List String) := do
  let word ← .ofExcept (d.typeName f.result)
  let inner ← body (depth + 1) f.body
  return atDepth depth (word ++ " " ++ f.name ++ "(" ++ paramList f.params ++ ") \x7b") ::
    (inner ++ [atDepth depth "\x7d"])

/-- Print functions with an empty line between them. -/
def printFunctions (print : TypedFunction → Render (List String)) (fs : List TypedFunction) :
    Render (List String) :=
  return [""].intercalate (← fs.mapM print)

/-- Print functions between the lines of a header and those of an epilog. -/
def printProgram (print : TypedFunction → Render (List String)) (header epilog : List String)
    (fs : List TypedFunction) : Render (List String) :=
  return header ++ ((← printFunctions print fs) ++ epilog)

end Dialect

/-- Printed lines, as the output of a run. -/
def Render.joined (x : Render (List String)) : Except CodegenError Output :=
  match x with
  | .ok (lines, warnings) => .ok ⟨"\n".intercalate lines, warnings⟩
  | .error e => .error e

namespace Glsl

/-- Print a statement of a fragment shader. -/
def printStmt (depth : Nat) : TypedStmt → Render (List String)
  | .declare decls => Dialect.glsl.printDeclarators depth decls
  | .expr e => Dialect.glsl.printExpr depth e
  | .ret value => Dialect.glsl.printRet depth value
  | s => do
    Render.warn (.marker s.kindName)
    return [atDepth depth ("<unsupported statement: " ++ s.kindName ++ ">")]

/-- Print statements of a fragment shader. -/
def printStmts (depth : Nat) : List TypedStmt → Render (List String)
  | [] => return []
  | s :: rest => return (← printStmt depth s) ++ (← printStmts depth rest)

/-- Print a function of a fragment shader. -/
def printFunction (f : TypedFunction) : Render (List String) :=
  Dialect.glsl.printFunction printStmts 0 f

/-- The lines in front of the functions, if there are to be any. -/
def front (options : GlslOptions) : List String :=
  if options.omitHeader then [] else header options

/-- Print functions as a fragment shader. -/
def print (fs : List TypedFunction) (options : GlslOptions) : Render (List String) :=
  Dialect.printProgram printFunction (front options) [] fs

end Glsl

namespace Embree

mutual

/-- Print a statement of a material. -/
def printStmt (depth : Nat) : TypedStmt → Render (List String)
  | .declare decls => Dialect.embree.printDeclarators depth decls
  | .expr e => Dialect.embree.printExpr depth e
  | .ret value => Dialect.embree.printRet depth value
  | .branch test consequent none => do
    let test ← Dialect.embree.expr test
    let inner ← printStmts (depth + 1) consequent
    return atDepth depth ("if (" ++ test ++ ") \x7b") :: (inner ++ [atDepth depth "\x7d"])
  | .branch test consequent (some alternate) => do
    let test ← Dialect.embree.expr test
    let inner ← printStmts (depth + 1) consequent
    let other ← printStmts (depth + 1) alternate
    return atDepth depth ("if (" ++ test ++ ") \x7b") ::
      (inner ++ atDepth depth "\x7d else \x7b" :: (other ++ [atDepth depth "\x7d"]))
  | .block body => do
    let inner ← printStmts (depth + 1) body
    return atDepth depth "\x7b" :: (inner ++ [atDepth depth "\x7d"])

/-- Print statements of a material. -/
def printStmts (depth : Nat) : List TypedStmt → Render (List String)
  | [] => return []
  | s :: rest => return (← printStmt depth s) ++ (← printStmts depth rest)

end

/-- Print a function of a material. -/
def printFunction (f : TypedFunction) : Render (List String) :=
  Dialect.embree.printFunction printStmts 0 f

/-- The lines in front of the functions, if there are to be any. -/
def front (options : EmbreeOptions) : List String := if options.omitHeader then [] else header

/-- The lines after the functions, if there are to be any. -/
def back (options : EmbreeOptions) : List String := if options.omitHeader then [] else epilog

/-- Print functions as a material. -/
def print (fs : List TypedFunction) (options : EmbreeOptions) : Render (List String) :=
  Dialect.printProgram printFunction (front options) (back options) fs

end Embree

/-! ## Statements -/

section Lines

variable {α : Type} {depth : Nat} {x : Render α} {text : α → String} {y : Render (List String)}
  {f : LineBuffer → Render LineBuffer}

theorem indented_of_ne_empty {text : String} (h : text ≠ "") (depth : Nat) :
    indented depth text = atDepth depth text := by
  have hfull : text.isEmpty = false := by simp [h]
  rw [indented, hfull]
  rfl

/-- A line with some text on it is added at its depth. -/
theorem Adds.line (h : ∀ a warnings, x.Yields a warnings → text a ≠ "") :
    Adds depth (do return [atDepth depth (text (← x))]) fun b => do
      return b.line (text (← x)) := by
  rintro b rfl
  simp only [bind_assoc, pure_bind]
  apply Render.bind_congr_of_yields
  intro a warnings ha
  rw [LineBuffer.line_eq_extend, indented_of_ne_empty (h a warnings ha)]

theorem Adds.word {word : String} (h : word ≠ "") :
    Adds depth (pure [atDepth depth word]) fun b => pure (b.line word) := by
  rintro b rfl
  show pure (b.line word) = _
  rw [pure_bind, LineBuffer.line_eq_extend, indented_of_ne_empty h]

/-- The lines of a body are added between the line that opens it and the one that closes it. -/
theorem Adds.enclosed (hf : Adds (depth + 1) y f) (htext : ∀ a, text a ≠ "") {closing : String}
    (hclosing : closing ≠ "") :
    Adds depth
      (do
        let a ← x
        let inner ← y
        return atDepth depth (text a) :: (inner ++ [atDepth depth closing]))
      fun b => do
        let a ← x
        let b ← f (b.line (text a)).indent
        return b.dedent.line closing := by
  intro b hb
  have hopening : Adds depth (do return [atDepth depth (text (← x))]) _ :=
    Adds.line fun a _ _ => htext a
  have hlines := hopening.bind (hf.indent.bind (Adds.word hclosing)) b hb
  simp only [bind_assoc, pure_bind, List.singleton_append] at hlines ⊢
  exact hlines

end Lines

namespace Dialect

theorem declarator_ne_empty {d : Dialect} {decl : TypedDeclarator} {code : String}
    {warnings : List Warning} (h : (d.declarator decl).Yields code warnings) : code ≠ "" := by
  unfold declarator at h
  obtain ⟨word, _, _, -, hcode, -⟩ := Render.yields_bind_iff.1 h
  cases hinit : decl.init with
  | none =>
    rw [hinit] at hcode
    rw [← (Render.yields_pure_iff.1 hcode).1]
    simp
  | some init =>
    rw [hinit] at hcode
    obtain ⟨value, _, _, -, hcode, -⟩ := Render.yields_bind_iff.1 hcode
    rw [← (Render.yields_pure_iff.1 hcode).1]
    simp

theorem declarators_adds (d : Dialect) (depth : Nat) (decls : List TypedDeclarator) :
    Adds depth (d.printDeclarators depth decls) fun b => d.declarators b decls := by
  induction decls with
  | nil => exact .nil
  | cons decl rest ih =>
    intro b hb
    have hfirst : Adds depth (do return [atDepth depth (← d.declarator decl)]) _ :=
      Adds.line fun code warnings h => declarator_ne_empty h
    have hlines := hfirst.bind ih b hb
    simp only [bind_assoc, pure_bind, List.singleton_append] at hlines
    simp only [printDeclarators, List.mapM_cons, bind_assoc, pure_bind, declarators]
    exact hlines

theorem exprLine_adds (d : Dialect) (depth : Nat) (e : TypedExpr) :
    Adds depth (d.printExpr depth e) fun b => d.exprLine b e :=
  Adds.line fun code _ _ => by simp

theorem retLine_adds (d : Dialect) (depth : Nat) : ∀ value : Option TypedExpr,
    Adds depth (d.printRet depth value) fun b => d.retLine b value
  | some e => Adds.line fun code _ _ => by simp
  | none => Adds.word (by decide)

end Dialect

namespace Glsl

/-- A marker is added at its depth, with its warning. -/
theorem marker_adds (depth : Nat) (kind : String) :
    Adds depth
      (do
        Render.warn (.marker kind)
        return [atDepth depth ("<unsupported statement: " ++ kind ++ ">")])
      fun b => do
        Render.warn (.marker kind)
        return b.line ("<unsupported statement: " ++ kind ++ ">") :=
  Adds.line fun _ _ _ => by simp

theorem stmt_adds (depth : Nat) (s : TypedStmt) :
    Adds depth (printStmt depth s) fun b => stmt b s := by
  cases s with
  | declare decls => exact Dialect.declarators_adds _ depth decls
  | expr e => exact Dialect.exprLine_adds _ depth e
  | ret value => exact Dialect.retLine_adds _ depth value
  | branch test consequent alternate => exact marker_adds depth "IfStatement"
  | block body => exact marker_adds depth "BlockStatement"

/-- Statements add the lines that are printed for them. -/
theorem stmts_adds (depth : Nat) (ss : List TypedStmt) :
    Adds depth (printStmts depth ss) fun b => stmts b ss := by
  induction ss with
  | nil => exact .nil
  | cons s rest ih => exact (stmt_adds depth s).bind ih

end Glsl

namespace Embree

mutual

theorem stmt_adds (depth : Nat) : ∀ s : TypedStmt,
    Adds depth (printStmt depth s) fun b => stmt b s
  | .declare decls => Dialect.declarators_adds _ depth decls
  | .expr e => Dialect.exprLine_adds _ depth e
  | .ret value => Dialect.retLine_adds _ depth value
  | .branch test consequent none => by
    apply (stmts_adds (depth + 1) consequent).enclosed
    · intro code
      simp
    · decide
  | .branch test consequent (some alternate) => by
    intro b hb
    -- The line between the two bodies closes the first, and opens the second one level back.
    have hconsequent := (stmts_adds (depth + 1) consequent).enclosed
      (x := Dialect.embree.expr test) (fun code => show "if (" ++ code ++ ") \x7b" ≠ "" by simp)
      (show "\x7d else \x7b" ≠ "" by decide)
    have halternate := (stmts_adds (depth + 1) alternate).indent.bind
      (Adds.word (show "\x7d" ≠ "" by decide))
    have hboth := hconsequent.bind halternate b hb
    simp only [bind_assoc, pure_bind, List.cons_append, List.append_assoc, List.nil_append]
      at hboth
    simp only [printStmt, stmt, bind_assoc, pure_bind]
    exact hboth
  | .block body => by
    intro b hb
    have hbody := (stmts_adds (depth + 1) body).enclosed (x := pure ())
      (fun _ => show "\x7b" ≠ "" by decide) (show "\x7d" ≠ "" by decide) b hb
    simp only [pure_bind] at hbody
    exact hbody

/-- Statements add the lines that are printed for them. -/
theorem stmts_adds (depth : Nat) : ∀ ss : List TypedStmt,
    Adds depth (printStmts depth ss) fun b => stmts b ss
  | [] => .nil
  | s :: rest => (stmt_adds depth s).bind (stmts_adds depth rest)

end

example : printStmts 1 [.block [.ret none], .ret none] =
    pure ["    \x7b", "        return;", "    \x7d", "    return;"] := rfl

end Embree

/-! ## Functions -/

namespace Dialect

/-- A function adds the lines that are printed for it when its body does. -/
theorem function_adds {d : Dialect} {depth : Nat}
    {print : Nat → List TypedStmt → Render (List String)}
    {body : LineBuffer → List TypedStmt → Render LineBuffer}
    (hbody : ∀ ss, Adds (depth + 1) (print (depth + 1) ss) fun b => body b ss)
    (f : TypedFunction) :
    Adds depth (d.printFunction print depth f) fun b => d.function body b f := by
  simp only [function, functionHeader_eq]
  apply (hbody f.body).enclosed
  · intro word
    simp
  · decide

theorem printFunction_ne_nil {d : Dialect} {print : Nat → List TypedStmt → Render (List String)}
    {depth : Nat} {f : TypedFunction} {lines : List String} {warnings : List Warning}
    (h : (d.printFunction print depth f).Yields lines warnings) : lines ≠ [] := by
  unfold printFunction at h
  obtain ⟨word, _, _, -, hlines, -⟩ := Render.yields_bind_iff.1 h
  obtain ⟨inner, _, _, -, hlines, -⟩ := Render.yields_bind_iff.1 hlines
  rw [← (Render.yields_pure_iff.1 hlines).1]
  exact List.cons_ne_nil _ _

theorem intercalate_blank_cons (group : List String) (groups : List (List String)) :
    [""].intercalate (group :: groups) = group ++ groups.flatMap ("" :: ·) := by
  induction groups generalizing group with
  | nil => simp [List.intercalate]
  | cons next rest ih =>
    have hnext := ih next
    simp only [List.intercalate, List.intersperse_cons_cons, List.flatten_cons] at hnext ⊢
    rw [hnext, List.flatMap_cons]
    rfl

section Functions

variable {depth : Nat} {print : TypedFunction → Render (List String)}
  {emit : LineBuffer → TypedFunction → Render LineBuffer}

/-- Functions with an empty line in front of each. -/
theorem functions_adds_separate (hemit : ∀ f, Adds depth (print f) fun b => emit b f)
    (fs : List TypedFunction) :
    Adds depth (do return (← fs.mapM print).flatMap ("" :: ·)) fun b =>
      functions emit true b fs := by
  induction fs with
  | nil => exact .nil
  | cons f rest ih =>
    intro b hb
    -- The empty line has no blanks in front at any depth.
    have hblank : b.line "" = b.extend [""] := rfl
    have hrest := (hemit f).bind ih (b.line "") hb
    simp only [bind_assoc, pure_bind, hblank, LineBuffer.extend_extend] at hrest
    simp only [List.mapM_cons, bind_assoc, pure_bind, List.flatMap_cons]
    exact hrest

/-- Functions add the lines that are printed for them. -/
theorem functions_adds (hemit : ∀ f, Adds depth (print f) fun b => emit b f)
    (fs : List TypedFunction) :
    Adds depth (printFunctions print fs) fun b => functions emit false b fs := by
  cases fs with
  | nil => exact .nil
  | cons f rest =>
    intro b hb
    have hrest := (hemit f).bind (functions_adds_separate hemit rest) b hb
    simp only [bind_assoc, pure_bind] at hrest
    simp only [printFunctions, List.mapM_cons, bind_assoc, pure_bind, intercalate_blank_cons]
    exact hrest

theorem functions_eq_print (hemit : ∀ f, Adds 0 (print f) fun b => emit b f)
    (header : List String) (fs : List TypedFunction) :
    functions emit false ⟨header, 0⟩ fs = do
      return ⟨header ++ (← printFunctions print fs), 0⟩ :=
  functions_adds hemit fs ⟨header, 0⟩ rfl

/-- The functions at the start are emitted first. -/
theorem functions_append (separate : Bool) (b : LineBuffer) (before after : List TypedFunction) :
    functions emit separate b (before ++ after) =
      functions emit separate b before >>= fun b' =>
        functions emit (separate || !before.isEmpty) b' after := by
  induction before generalizing separate b with
  | nil =>
    rw [functions, pure_bind, List.isEmpty_nil, Bool.not_true, Bool.or_false]
    rfl
  | cons f rest ih =>
    simp only [List.cons_append, functions, ih, bind_assoc, Bool.true_or, List.isEmpty_cons,
      Bool.not_false, Bool.or_true]

/-- After the functions at the start, the buffer holds the lines printed for them and is at level
zero. -/
theorem functions_split (hemit : ∀ f, Adds 0 (print f) fun b => emit b f) (header : List String)
    (before after : List TypedFunction) :
    functions emit false ⟨header, 0⟩ (before ++ after) =
      printFunctions print before >>= fun printed =>
        functions emit (!before.isEmpty) ⟨header ++ printed, 0⟩ after := by
  rw [functions_append, functions_eq_print hemit, Bool.false_or, bind_assoc]
  simp only [pure_bind]

end Functions

end Dialect

/-! ## Programs -/

/-- At level zero, lines are added as they are. -/
theorem LineBuffer.addLines_eq_extend (texts : List String) :
    ∀ {b : LineBuffer}, b.level = 0 → b.addLines texts = b.extend texts := by
  induction texts with
  | nil => exact fun _ => (LineBuffer.extend_nil _).symm
  | cons text rest ih =>
    intro b hb
    have hline : b.line text = b.extend [text] := by
      rw [line_eq_extend, hb, indented]
      split
      · rename_i hempty
        rw [String.isEmpty_iff.1 hempty]
      · exact congrArg (fun t => b.extend [t]) (String.empty_append)
    show (b.line text).addLines rest = _
    rw [hline, ih (b := b.extend [text]) hb, LineBuffer.extend_extend]
    rfl

theorem Render.output_eq_joined (x : Render LineBuffer) :
    x.output = (do return (← x).lines : Render (List String)).joined := by
  rcases x with e | ⟨b, warnings⟩
  · rfl
  · show Except.ok _ = Except.ok (Output.mk _ (warnings ++ []))
    rw [List.append_nil]
    rfl

namespace Dialect

/-- Emit functions between the lines of a header and those of an epilog. -/
def program (emit : LineBuffer → TypedFunction → Render LineBuffer) (header epilog : List String)
    (fs : List TypedFunction) : Render LineBuffer := do
  let b ← functions emit false (LineBuffer.empty.addLines header) fs
  return b.addLines epilog

/-- Emitting a program is printing it. -/
theorem program_output {print : TypedFunction → Render (List String)}
    {emit : LineBuffer → TypedFunction → Render LineBuffer}
    (hemit : ∀ f, Adds 0 (print f) fun b => emit b f) (header epilog : List String)
    (fs : List TypedFunction) :
    (program emit header epilog fs).output = (printProgram print header epilog fs).joined := by
  have hheader : LineBuffer.empty.addLines header = ⟨header, 0⟩ :=
    LineBuffer.addLines_eq_extend header rfl
  have hepilog : ∀ lines, (LineBuffer.mk lines 0).addLines epilog = ⟨lines ++ epilog, 0⟩ :=
    fun lines => LineBuffer.addLines_eq_extend epilog rfl
  rw [Render.output_eq_joined, program, hheader, functions_eq_print hemit]
  simp only [bind_assoc, pure_bind, hepilog, List.append_assoc]
  rfl

end Dialect

/-! ## Where the level is lowered -/

/-- `Lowers dedent`: above level zero, `dedent` goes back by one level.  At level zero it may do
anything, and fail in particular. -/
def Lowers (dedent : LineBuffer → Render LineBuffer) : Prop :=
  ∀ b : LineBuffer, 0 < b.level → dedent b = pure b.dedent

/-- After lines at a level above zero, the level is lowered in the same way. -/
theorem Lowers.after {dedent f k : LineBuffer → Render LineBuffer} (hdedent : Lowers dedent)
    {depth : Nat} {x : Render (List String)} (hf : Adds (depth + 1) x f) {b : LineBuffer}
    (hb : b.level = depth + 1) :
    (f b >>= fun b' => dedent b' >>= k) = f b >>= fun b' => k b'.dedent := by
  apply Render.bind_congr_of_yields
  intro b' warnings hb'
  have hlevel : b'.level = depth + 1 := hf.level_eq hb hb'
  rw [hdedent b' (by omega), pure_bind]

namespace Dialect

/-- Emit a function, with `dedent` in place of going back by one level. -/
def functionWith (d : Dialect) (dedent : LineBuffer → Render LineBuffer)
    (body : LineBuffer → List TypedStmt → Render LineBuffer) (b : LineBuffer)
    (f : TypedFunction) : Render LineBuffer := do
  let word ← .ofExcept (d.typeName f.result)
  let b ← body (functionHeader b word f).indent f.body
  return (← dedent b).line "\x7d"

theorem functionWith_eq {d : Dialect} {dedent : LineBuffer → Render LineBuffer}
    (hdedent : Lowers dedent) {body : LineBuffer → List TypedStmt → Render LineBuffer}
    {print : Nat → List TypedStmt → Render (List String)}
    (hbody : ∀ depth ss, Adds depth (print depth ss) fun b => body b ss) (b : LineBuffer)
    (f : TypedFunction) : d.functionWith dedent body b f = d.function body b f := by
  have hlevel : ∀ word, (functionHeader b word f).level = b.level := by
    intro word
    rw [functionHeader_eq]
    rfl
  unfold functionWith function
  apply Render.bind_congr_of_yields
  intro word warnings _
  exact hdedent.after (hbody (b.level + 1) f.body) (congrArg (· + 1) (hlevel word))

end Dialect

/-- Generate a fragment shader, with `dedent` in place of going back by one level. -/
def Glsl.generateWith (dedent : LineBuffer → Render LineBuffer) (fs : List TypedFunction)
    (options : GlslOptions) : Except CodegenError Output :=
  (Dialect.program (Dialect.glsl.functionWith dedent stmts) (front options) [] fs).output

namespace Embree

mutual

/-- Emit a statement, with `dedent` in place of going back by one level. -/
def stmtWith (dedent : LineBuffer → Render LineBuffer) (b : LineBuffer) :
    TypedStmt → Render LineBuffer
  | .declare decls => Dialect.embree.declarators b decls
  | .expr e => Dialect.embree.exprLine b e
  | .ret value => Dialect.embree.retLine b value
  | .branch test consequent none => do
    let test ← Dialect.embree.expr test
    let b ← stmtsWith dedent (b.line ("if (" ++ test ++ ") \x7b")).indent consequent
    return (← dedent b).line "\x7d"
  | .branch test consequent (some alternate) => do
    let test ← Dialect.embree.expr test
    let b ← stmtsWith dedent (b.line ("if (" ++ test ++ ") \x7b")).indent consequent
    let b ← dedent b
    let b ← stmtsWith dedent (b.line "\x7d else \x7b").indent alternate
    return (← dedent b).line "\x7d"
  | .block body => do
    let b ← stmtsWith dedent (b.line "\x7b").indent body
    return (← dedent b).line "\x7d"

/-- Emit statements in order, with `dedent` in place of going back by one level. -/
def stmtsWith (dedent : LineBuffer → Render LineBuffer) (b : LineBuffer) :
    List TypedStmt → Render LineBuffer
  | [] => return b
  | s :: rest => do
    let b ← stmtWith dedent b s
    stmtsWith dedent b rest

end

mutual

theorem stmtWith_eq {dedent : LineBuffer → Render LineBuffer} (hdedent : Lowers dedent)
    (b : LineBuffer) : ∀ s : TypedStmt, stmtWith dedent b s = stmt b s
  | .declare decls => by rw [stmtWith, stmt]
  | .expr e => by rw [stmtWith, stmt]
  | .ret value => by rw [stmtWith, stmt]
  | .branch test consequent none => by
    rw [stmtWith, stmt]
    apply Render.bind_congr_of_yields
    intro code warnings _
    rw [stmtsWith_eq hdedent _ consequent]
    exact hdedent.after (stmts_adds (b.level + 1) consequent) rfl
  | .branch test consequent (some alternate) => by
    rw [stmtWith, stmt]
    apply Render.bind_congr_of_yields
    intro code warnings _
    rw [stmtsWith_eq hdedent _ consequent, hdedent.after (stmts_adds (b.level + 1) consequent) rfl]
    apply Render.bind_congr_of_yields
    intro b' warnings' _
    rw [stmtsWith_eq hdedent _ alternate]
    exact hdedent.after (stmts_adds (b'.dedent.level + 1) alternate) rfl
  | .block body => by
    rw [stmtWith, stmt, stmtsWith_eq hdedent _ body]
    exact hdedent.after (stmts_adds (b.level + 1) body) rfl

/-- Statements lower the level only above level zero. -/
theorem stmtsWith_eq {dedent : LineBuffer → Render LineBuffer} (hdedent : Lowers dedent)
    (b : LineBuffer) : ∀ ss : List TypedStmt, stmtsWith dedent b ss = stmts b ss
  | [] => by rw [stmtsWith, stmts]
  | s :: rest => by
    rw [stmtsWith, stmts, stmtWith_eq hdedent b s]
    apply Render.bind_congr_of_yields
    intro b' warnings _
    exact stmtsWith_eq hdedent b' rest

end

/-- Generate a material, with `dedent` in place of going back by one level. -/
def generateWith (dedent : LineBuffer → Render LineBuffer) (fs : List TypedFunction)
    (options : EmbreeOptions) : Except CodegenError Output :=
  (Dialect.program (Dialect.embree.functionWith dedent (stmtsWith dedent)) (front options)
    (back options) fs).output

end Embree

/-! ## One function at a time -/

/-- Outputs one after the other with an empty line between them, inside the lines of a header and
those of an epilog. -/
def Output.concat (header epilog : List String) (outs : List Output) : Output where
  code := "\n".intercalate (header ++ ((outs.map (·.code)).intersperse "" ++ epilog))
  warnings := outs.flatMap (·.warnings)

/-- Lines that are joined before the rest is. -/
theorem intercalate_joined (header rest : List String) {group : List String} (h : group ≠ []) :
    "\n".intercalate (header ++ "\n".intercalate group :: rest) =
      "\n".intercalate (header ++ (group ++ rest)) := by
  have htail : "\n".intercalate ("\n".intercalate group :: rest) =
      "\n".intercalate (group ++ rest) := by
    by_cases hrest : rest = []
    · rw [hrest, List.append_nil, String.intercalate_singleton]
    · rw [String.intercalate_cons_of_ne_nil hrest, String.intercalate_append_of_ne_nil h hrest]
  by_cases hheader : header = []
  · rw [hheader, List.nil_append, List.nil_append, htail]
  · have hgroup : group ++ rest ≠ [] := fun hnil => h (List.append_eq_nil_iff.1 hnil).1
    rw [String.intercalate_append_of_ne_nil hheader (List.cons_ne_nil _ _), htail,
      String.intercalate_append_of_ne_nil hheader hgroup]

/-- Groups of lines may be joined one by one. -/
theorem intercalate_groups {groups : List (List String)} (h : ∀ group ∈ groups, group ≠ [])
    (header epilog : List String) :
    "\n".intercalate (header ++ ((groups.map "\n".intercalate).intersperse "" ++ epilog)) =
      "\n".intercalate (header ++ ([""].intercalate groups ++ epilog)) := by
  induction groups generalizing header with
  | nil => rfl
  | cons group rest ih =>
    obtain ⟨hgroup, hrest⟩ := List.forall_mem_cons.1 h
    cases rest with
    | nil =>
      have hone : [""].intercalate [group] = group := by simp [List.intercalate]
      rw [hone]
      exact intercalate_joined header epilog hgroup
    | cons next rest =>
      have hnext := ih hrest (header ++ (group ++ [""]))
      simp only [List.append_assoc, List.singleton_append] at hnext
      have hfirst : [""].intercalate (group :: next :: rest) =
          group ++ "" :: [""].intercalate (next :: rest) := by
        simp [List.intercalate]
      rw [List.map_cons, List.map_cons, List.intersperse_cons_cons, ← List.map_cons,
        List.cons_append, intercalate_joined _ _ hgroup, hfirst, List.cons_append, hnext,
        List.append_assoc, List.cons_append]

namespace Render

/-- What holds of every result of a step holds of all results of a run over a list. -/
theorem forall_mem_of_mapM {α β : Type} {P : β → Prop} {f : α → Render β}
    (h : ∀ a b warnings, (f a).Yields b warnings → P b) {as : List α} :
    ∀ {bs : List β} {warnings : List Warning}, (as.mapM f).Yields bs warnings → ∀ b ∈ bs, P b := by
  induction as with
  | nil =>
    intro bs warnings hbs
    rw [List.mapM_nil, yields_pure_iff] at hbs
    simp [← hbs.1]
  | cons a rest ih =>
    intro bs warnings hbs
    simp only [List.mapM_cons, yields_bind_iff, yields_pure_iff] at hbs
    obtain ⟨b, _, _, hb, ⟨bs', _, _, hrest, ⟨rfl, -⟩, -⟩, -⟩ := hbs
    exact List.forall_mem_cons.2 ⟨h a b _ hb, ih hrest⟩

/-- Functions fail to print, together and one by one, with the same error.  Else the outputs for
each of them have the code and the warnings of what is printed for all. -/
theorem mapM_joined_cases (print : TypedFunction → Render (List String))
    (fs : List TypedFunction) :
    (∃ e, (fs.mapM print : Render (List (List String))) = Except.error e ∧
      (fs.mapM fun f => (print f).joined) = .error e) ∨
    ∃ groups warnings outs, (fs.mapM print).Yields groups warnings ∧
      (fs.mapM fun f => (print f).joined) = .ok outs ∧
      outs.map (·.code) = groups.map "\n".intercalate ∧ outs.flatMap (·.warnings) = warnings := by
  induction fs with
  | nil => exact .inr ⟨[], [], [], rfl, rfl, rfl, rfl⟩
  | cons f rest ih =>
    rw [List.mapM_cons, List.mapM_cons]
    rcases print f with e | ⟨lines, before⟩
    · exact .inl ⟨e, rfl, rfl⟩
    · rcases ih with ⟨e, hrest, houts⟩ | ⟨groups, after, outs, hrest, houts, hcodes, hwarnings⟩
      · refine .inl ⟨e, ?_, ?_⟩
        · rw [hrest]
          rfl
        · rw [houts]
          rfl
      · refine .inr ⟨lines :: groups, before ++ after, ⟨"\n".intercalate lines, before⟩ :: outs,
          ?_, ?_, ?_, ?_⟩
        · refine yields_bind_iff.2 ⟨lines, before, after, rfl, ?_, rfl⟩
          refine yields_bind_iff.2 ⟨groups, after, [], hrest, rfl, ?_⟩
          rw [List.append_nil]
        · rw [houts]
          rfl
        · rw [List.map_cons, List.map_cons, hcodes]
        · rw [List.flatMap_cons, hwarnings]

end Render

namespace Dialect

/-- The output for a program is made from the outputs for its functions. -/
theorem joined_printProgram {print : TypedFunction → Render (List String)}
    (hprint : ∀ f lines warnings, (print f).Yields lines warnings → lines ≠ [])
    (header epilog : List String) (fs : List TypedFunction) :
    (printProgram print header epilog fs).joined =
      (fs.mapM fun f => (print f).joined).map (Output.concat header epilog) := by
  unfold printProgram printFunctions
  rcases Render.mapM_joined_cases print fs with
    ⟨e, hfs, houts⟩ | ⟨groups, warnings, outs, hfs, houts, hcodes, hwarnings⟩
  · rw [hfs, houts]
    rfl
  · have hfull : ∀ group ∈ groups, group ≠ [] := Render.forall_mem_of_mapM hprint hfs
    rw [hfs, houts]
    show Except.ok (Output.mk _ (warnings ++ [] ++ [])) =
      Except.ok (Output.concat header epilog outs)
    rw [Output.concat, hcodes, hwarnings, intercalate_groups hfull, List.append_nil,
      List.append_nil]

/-- A function alone is printed without anything around it. -/
theorem printProgram_singleton (print : TypedFunction → Render (List String)) (f : TypedFunction) :
    printProgram print [] [] [f] = print f := by
  have hone : ∀ lines : List String, [""].intercalate [lines] = lines := by
    simp [List.intercalate]
  simp only [printProgram, printFunctions, List.mapM_cons, List.mapM_nil, bind_assoc, pure_bind,
    hone, List.nil_append, List.append_nil]
  exact Render.bind_pure _

end Dialect

/-! ## Both targets -/

namespace Glsl

theorem function_adds (f : TypedFunction) :
    Adds 0 (printFunction f) fun b => Dialect.glsl.function stmts b f :=
  Dialect.function_adds (stmts_adds 1) f

theorem generate_eq_program (fs : List TypedFunction) (options : GlslOptions) :
    generate fs options =
      (Dialect.program (Dialect.glsl.function stmts) (front options) [] fs).output := by
  have hepilog : ∀ b : LineBuffer, b.addLines [] = b := fun _ => rfl
  simp only [Dialect.program, hepilog]
  exact congrArg Render.output (Render.bind_pure _).symm

theorem generate_eq_print (fs : List TypedFunction) (options : GlslOptions) :
    generate fs options = (print fs options).joined := by
  rw [generate_eq_program, Dialect.program_output function_adds, print]

/-- The level is lowered only above level zero. -/
theorem generateWith_eq {dedent : LineBuffer → Render LineBuffer} (hdedent : Lowers dedent)
    (fs : List TypedFunction) (options : GlslOptions) :
    generateWith dedent fs options = generate fs options := by
  have hfunction : Dialect.glsl.functionWith dedent stmts = Dialect.glsl.function stmts := by
    funext b f
    exact Dialect.functionWith_eq hdedent stmts_adds b f
  rw [generateWith, hfunction, generate_eq_program]

/-- A program is generated one function at a time. -/
theorem generate_eq_concat (fs : List TypedFunction) (options : GlslOptions) :
    generate fs options =
      (fs.mapM fun f => generate [f] { options with omitHeader := true }).map
        (Output.concat (front options) []) := by
  have hone : ∀ f, generate [f] { options with omitHeader := true } = (printFunction f).joined := by
    intro f
    rw [generate_eq_print, print, front, if_pos rfl, Dialect.printProgram_singleton]
  simp only [hone, generate_eq_print fs options, print]
  apply Dialect.joined_printProgram
  intro f lines warnings h
  exact Dialect.printFunction_ne_nil h

end Glsl

namespace Embree

theorem function_adds (f : TypedFunction) :
    Adds 0 (printFunction f) fun b => Dialect.embree.function stmts b f :=
  Dialect.function_adds (stmts_adds 1) f

theorem generate_eq_print (fs : List TypedFunction) (options : EmbreeOptions) :
    generate fs options = (print fs options).joined :=
  Dialect.program_output function_adds (front options) (back options) fs

/-- The level is lowered only above level zero. -/
theorem generateWith_eq {dedent : LineBuffer → Render LineBuffer} (hdedent : Lowers dedent)
    (fs : List TypedFunction) (options : EmbreeOptions) :
    generateWith dedent fs options = generate fs options := by
  have hstmts : stmtsWith dedent = stmts := by
    funext b ss
    exact stmtsWith_eq hdedent b ss
  have hfunction : Dialect.embree.functionWith dedent stmts = Dialect.embree.function stmts := by
    funext b f
    exact Dialect.functionWith_eq hdedent stmts_adds b f
  rw [generateWith, hstmts, hfunction]
  rfl

/-- A program is generated one function at a time. -/
theorem generate_eq_concat (fs : List TypedFunction) (options : EmbreeOptions) :
    generate fs options =
      (fs.mapM fun f => generate [f] { options with omitHeader := true }).map
        (Output.concat (front options) (back options)) := by
  have hone : ∀ f, generate [f] { options with omitHeader := true } = (printFunction f).joined := by
    intro f
    rw [generate_eq_print, print, front, back, if_pos rfl, if_pos rfl,
      Dialect.printProgram_singleton]
  simp only [hone, generate_eq_print fs options, print]
  apply Dialect.joined_printProgram
  intro f lines warnings h
  exact Dialect.printFunction_ne_nil h

end Embree

/-- Emission is pretty printing, for both targets.  Generation gives the printed lines, joined, with
the warnings and the failures of printing.  After the functions at the start of a program, the
buffer holds the header and the lines printed for them and is at level zero, and the others follow.
The level is lowered only above level zero, so that it does not matter what lowering it does there.
And what is generated is the outputs for the functions alone, one after the other. -/
theorem emission_is_printing :
    (∀ (fs : List TypedFunction) (options : GlslOptions),
      Glsl.generate fs options = (Glsl.print fs options).joined ∧
      (∀ before after, fs = before ++ after →
        Dialect.functions (Dialect.glsl.function Glsl.stmts) false
            (LineBuffer.empty.addLines (Glsl.front options)) fs =
          Dialect.printFunctions Glsl.printFunction before >>= fun printed =>
            Dialect.functions (Dialect.glsl.function Glsl.stmts) (!before.isEmpty)
              ⟨Glsl.front options ++ printed, 0⟩ after) ∧
      (∀ dedent, Lowers dedent →
        Glsl.generateWith dedent fs options = Glsl.generate fs options) ∧
      Glsl.generate fs options =
        (fs.mapM fun f => Glsl.generate [f] { options with omitHeader := true }).map
          (Output.concat (Glsl.front options) [])) ∧
    (∀ (fs : List TypedFunction) (options : EmbreeOptions),
      Embree.generate fs options = (Embree.print fs options).joined ∧
      (∀ before after, fs = before ++ after →
        Dialect.functions (Dialect.embree.function Embree.stmts) false
            (LineBuffer.empty.addLines (Embree.front options)) fs =
          Dialect.printFunctions Embree.printFunction before >>= fun printed =>
            Dialect.functions (Dialect.embree.function Embree.stmts) (!before.isEmpty)
              ⟨Embree.front options ++ printed, 0⟩ after) ∧
      (∀ dedent, Lowers dedent →
        Embree.generateWith dedent fs options = Embree.generate fs options) ∧
      Embree.generate fs options =
        (fs.mapM fun f => Embree.generate [f] { options with omitHeader := true }).map
          (Output.concat (Embree.front options) (Embree.back options))) := by
  have hstart : ∀ lines, LineBuffer.empty.addLines lines = ⟨lines, 0⟩ :=
    fun lines => LineBuffer.addLines_eq_extend lines rfl
  constructor
  · intro fs options
    refine ⟨Glsl.generate_eq_print fs options, ?_, ?_, Glsl.generate_eq_concat fs options⟩
    · rintro before after rfl
      rw [hstart]
      exact Dialect.functions_split Glsl.function_adds _ before after
    · intro dedent hdedent
      exact Glsl.generateWith_eq hdedent fs options
  · intro fs options
    refine ⟨Embree.generate_eq_print fs options, ?_, ?_, Embree.generate_eq_concat fs options⟩
    · rintro before after rfl
      rw [hstart]
      exact Dialect.functions_split Embree.function_adds _ before after
    · intro dedent hdedent
      exact Embree.generateWith_eq hdedent fs options

end Shader
