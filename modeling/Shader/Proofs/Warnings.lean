import Shader.Proofs.Gaps
import Shader.Proofs.Leaves
import Shader.Proofs.NumberText

/-!
# Warnings account for what is missing

A placeholder or a marker stands in the code where the target has no form for a part of the program,
and a warning is given for each.  So the warnings are known from the typed program: in code for
materials one for each `null`, and in fragment shaders one for each branch or block of a body and
one for each outermost unary or conditional expression or `null` in the other statements.

Conversely the code has no placeholder or marker without a warning.  It consists of leaves, each of
them a gap with its warning, a name or a string of the program, or a text in which no placeholder or
marker starts.
-/

namespace Shader

/-! ## Signs in the code -/

-- A sign takes two characters, so one more could arise where the texts meet.
theorem signs_append {cs ds : List Char} (h : cs.getLast? ≠ some '<') :
    signs (cs ++ ds) = signs cs + signs ds := by
  induction cs with
  | nil => simp [signs]
  | cons c rest ih =>
    cases rest with
    | nil =>
      have hc : c ≠ '<' := fun hc => h (congrArg some hc)
      simp [signs, hc]
    | cons next rest =>
      have hrest := ih (by rwa [List.getLast?_cons_cons] at h)
      rw [List.cons_append, signs, signs, hrest, Nat.add_assoc]
      rfl

theorem isQuiet_iff {text : String} :
    isQuiet text = true ↔ signs text.toList = 0 ∧ text.toList.getLast? ≠ some '<' := by
  simp [isQuiet]

theorem isQuiet_of_notMem {text : String} (h : '<' ∉ text.toList) : isQuiet text = true := by
  refine isQuiet_iff.2 ⟨signs_of_notMem h, fun hlast => h ?_⟩
  exact List.mem_of_getLast? hlast

/-- The kind of node that a warning names. -/
def Warning.kind : Warning → String
  | .placeholder kind => kind
  | .marker kind => kind

/-- A placeholder or marker is one sign. -/
theorem Warning.signs_sign {w : Warning} (h : isQuiet w.kind = true) :
    signs w.sign.toList = 1 ∧ w.sign.toList.getLast? ≠ some '<' := by
  obtain ⟨hsigns, hlast⟩ := isQuiet_iff.1 h
  have hframed : ∀ start : String, signs start.toList = 1 → start.toList.getLast? ≠ some '<' →
      signs (start ++ w.kind ++ ">").toList = 1 ∧
        (start ++ w.kind ++ ">").toList.getLast? ≠ some '<' := by
    intro start hstart hend
    rw [String.toList_append, String.toList_append]
    constructor
    · rw [List.append_assoc, signs_append hend, signs_append hlast, hstart, hsigns]
      rfl
    · rw [show ">".toList = ['>'] from rfl, List.getLast?_concat]
      decide
  cases w with
  | placeholder kind =>
    exact hframed (placeholderStart ++ ": ") rfl (by decide)
  | marker kind =>
    exact hframed "<unsupported statement: " rfl (by decide)

theorem TypedExpr.isQuiet_kindName (e : TypedExpr) : isQuiet e.kindName = true := by
  cases e <;> (rw [kindName]; rfl)

theorem TypedStmt.isQuiet_kindName (s : TypedStmt) : isQuiet s.kindName = true := by
  cases s <;> (rw [kindName]; rfl)

/-- Whether a leaf is a warned gap, one of the given texts of the program, or has no sign in it. -/
def Leaf.isKnown (texts : List String) : Leaf → Bool
  | .word text => isQuiet text
  | .given text => texts.contains text
  | .number _ _ | .typeWord _ => true
  | .gap warning => isQuiet warning.kind

namespace Dialect

/-- `d.IsQuiet`: the numbers and types of a language have no sign in them. -/
structure IsQuiet (d : Dialect) : Prop where
  number : ∀ {value ty code}, d.number value ty = .ok code → isQuiet code = true
  typeName : ∀ {ty word}, d.typeName ty = .ok word → isQuiet word = true

theorem isQuiet_commonTypeName? {ty : Ty} {word : String} (h : commonTypeName? ty = some word) :
    isQuiet word = true := by
  unfold commonTypeName? at h
  split at h <;> cases h <;> rfl

theorem glsl_isQuiet : glsl.IsQuiet where
  number := by
    intro value ty code h
    obtain rfl := Except.ok.inj h
    exact isQuiet_of_notMem (Number.angle_notMem_text value)
  typeName := by
    intro ty word h
    exact isQuiet_commonTypeName? (typeName_eq_ok h)

theorem isQuiet_floatLiteral {value : Float} {code : String} (h : floatLiteral value = .ok code) :
    isQuiet code = true := by
  unfold floatLiteral at h
  split at h
  · obtain rfl := Except.ok.inj h
    apply isQuiet_of_notMem
    unfold Number.pointedText
    simp only
    split
    · exact Number.angle_notMem_text value
    · rw [String.toList_append, List.mem_append, not_or]
      exact ⟨Number.angle_notMem_text value, by decide⟩
  · cases h

theorem embree_isQuiet : embree.IsQuiet where
  number := by
    intro value ty code h
    by_cases hty : ty = .number
    · subst hty
      exact isQuiet_floatLiteral h
    · rw [embree_number_of_ne hty] at h
      obtain rfl := Except.ok.inj h
      exact isQuiet_of_notMem (Number.angle_notMem_text value)
  typeName := by
    intro ty word h
    have hword : embree.typeName? ty = some word := typeName_eq_ok h
    unfold embree at hword
    simp only at hword
    split at hword
    · obtain rfl := Option.some.inj hword
      rfl
    · exact isQuiet_commonTypeName? hword

variable {d : Dialect} {texts : List String}

/-- A known leaf has as many signs as warnings, and no sign starts at its end. -/
theorem signs_of_spell (hd : d.IsQuiet) (htexts : ∀ text ∈ texts, isQuiet text = true) {leaf : Leaf}
    {code : String} (hknown : leaf.isKnown texts = true) (hspell : d.spell leaf = .ok code) :
    signs code.toList = leaf.warnings.length ∧ code.toList.getLast? ≠ some '<' := by
  cases leaf with
  | word text =>
    obtain rfl := Except.ok.inj hspell
    exact isQuiet_iff.1 hknown
  | given text =>
    obtain rfl := Except.ok.inj hspell
    exact isQuiet_iff.1 (htexts text (List.contains_iff_mem.1 hknown))
  | number value ty => exact isQuiet_iff.1 (hd.number hspell)
  | typeWord ty => exact isQuiet_iff.1 (hd.typeName hspell)
  | gap warning =>
    obtain rfl := Except.ok.inj hspell
    exact Warning.signs_sign hknown

/-- Known leaves have as many signs as warnings. -/
theorem signs_text (hd : d.IsQuiet) (htexts : ∀ text ∈ texts, isQuiet text = true)
    {leaves : List Leaf} (hknown : ∀ leaf ∈ leaves, leaf.isKnown texts = true)
    (hspelled : ∀ leaf ∈ leaves, ∃ code, d.spell leaf = .ok code) :
    signs (d.text leaves).toList = (leaves.flatMap Leaf.warnings).length := by
  induction leaves with
  | nil => rfl
  | cons leaf rest ih =>
    obtain ⟨hleaf, hrest⟩ := List.forall_mem_cons.1 hknown
    obtain ⟨⟨code, hcode⟩, hcodes⟩ := List.forall_mem_cons.1 hspelled
    obtain ⟨hsigns, hlast⟩ := signs_of_spell hd htexts hleaf hcode
    rw [text, hcode, List.flatMap_cons, List.length_append, ← hsigns, ← ih hrest hcodes,
      String.toList_append]
    exact signs_append hlast

end Dialect

/-! ## Every leaf of the code is known -/

namespace Piece

/-- The leaves of pieces that are not known. -/
def unknown (texts : List String) (ps : List Piece) : List Leaf :=
  (leavesAll ps).filter fun leaf => !leaf.isKnown texts

variable {texts : List String}

/-- Quiet words, the texts of the program and types are known. -/
theorem unknown_survey : Survey (unknown texts) (· ∈ texts) where
  append := by
    intro ps qs
    rw [unknown, leavesAll_append, List.filter_append]
    rfl
  word := by
    intro text htext
    have hknown : (Leaf.word text).isKnown texts = true := htext
    show List.filter _ [Leaf.word text] = []
    rw [List.filter_singleton, hknown]
    rfl
  given := by
    intro text htext
    have hknown : (Leaf.given text).isKnown texts = true := List.contains_iff_mem.2 htext
    show List.filter _ [Leaf.given text] = []
    rw [List.filter_singleton, hknown]
    rfl
  typeWord _ := rfl

/-- A marker is known. -/
theorem unknown_marker (s : TypedStmt) :
    unknown texts [.leaf (.gap (.marker s.kindName))] = [] := by
  have hknown : (Leaf.gap (.marker s.kindName)).isKnown texts = true := s.isQuiet_kindName
  show List.filter _ [Leaf.gap (.marker s.kindName)] = []
  rw [List.filter_singleton, hknown]
  rfl

theorem unknown_eq_nil_iff {ps : List Piece} :
    unknown texts ps = [] ↔ ∀ leaf ∈ leavesAll ps, leaf.isKnown texts = true := by
  simp [unknown, List.filter_eq_nil_iff]

/-- The leaves of an expression are known where its texts are. -/
theorem unknown_node {d : Dialect} {e : TypedExpr}
    (h : ∀ x ∈ e.all, ∀ text ∈ x.ownTexts, text ∈ texts) :
    unknown texts [.node e (d.inside e)] = [] := by
  refine unknown_eq_nil_iff.2 fun leaf hleaf => ?_
  rw [leavesAll, leaves, leavesAll, List.append_nil] at hleaf
  obtain ⟨x, hx, hof⟩ := d.leaves_inside e leaf hleaf
  cases hof with
  | word htext => exact htext
  | given htext => exact List.contains_iff_mem.2 (h x hx _ htext)
  | known | literal | typeWord => rfl
  | gap => exact TypedExpr.isQuiet_kindName x

end Piece

/-! ## Programs -/

namespace TypedExpr

/-- Whether an expression is the literal `null`. -/
def isNull : TypedExpr → Bool
  | .literal none _ => true
  | _ => false

/-- Whether an expression is of a form that fragment shaders do not have. -/
def isForeign : TypedExpr → Bool
  | .literal none _ | .conditional _ _ _ _ | .unary _ _ _ => true
  | _ => false

/-- Whether an expression is left out of a fragment shader: its form is foreign there, and its value
does not take its place. -/
def isLeftOut (e : TypedExpr) : Bool := e.propagated?.isNone && e.isForeign

theorem lacks_glsl (e : TypedExpr) : Dialect.glsl.lacks e = e.isLeftOut := by
  unfold Dialect.lacks isLeftOut
  cases e with
  | literal value m =>
    cases value with
    | none => rfl
    | some v => rfl
  | _ => rfl

/-- A material has a form for everything but `null`, which is never replaced. -/
theorem lacks_embree {e : TypedExpr} (h : e.propagated?.isSome = true → e.isNull = false) :
    Dialect.embree.lacks e = e.isNull := by
  unfold Dialect.lacks
  cases e with
  | literal value m =>
    cases value with
    | none =>
      cases hvalue : (TypedExpr.literal none m).propagated? with
      | none => rfl
      | some x =>
        rw [hvalue] at h
        cases h rfl
    | some v => exact Bool.and_false _
  | _ => exact Bool.and_false _

theorem isNull_eq_false_of_isFoldable {e : TypedExpr} (h : e.isFoldable = true) :
    e.isNull = false := by
  cases e with
  | literal value m =>
    cases value with
    | none => cases h
    | some v => rfl
  | _ => rfl

theorem all_of_isNull {e : TypedExpr} (h : e.isNull = true) : e.all = [e] := by
  cases e with
  | literal => rfl
  | _ => cases h

end TypedExpr

namespace TypedFunction

/-- The names and strings of a function that may stand in its code. -/
def texts (f : TypedFunction) : List String := f.newNames ++ f.exprs.flatMap TypedExpr.ownTexts

end TypedFunction

/-- The output is made of leaves that are gaps with the warnings of the output, the given texts of
the program, and texts without signs.  So as long as the given texts have no sign in them, there are
as many signs in the code as warnings. -/
def Output.Accounted (d : Dialect) (texts : List String) (out : Output) : Prop :=
  (∃ leaves, d.text leaves = out.code ∧ leaves.flatMap Leaf.warnings = out.warnings ∧
    ∀ leaf ∈ leaves, leaf.isKnown texts = true) ∧
  ((∀ text ∈ texts, isQuiet text = true) → signs out.code.toList = out.warnings.length)

namespace Dialect

/-- An output is accounted for when the leaves on its lines are known. -/
theorem accounted_of_emit {d : Dialect} (hd : d.IsQuiet) {texts : List String}
    {ls : List Line} {out : Output} (h : d.emit ls = .ok out)
    (hknown : Line.survey (Piece.unknown texts) ls = []) : out.Accounted d texts := by
  obtain ⟨hspelled, hcode, -⟩ := emit_eq_ok_iff.1 h
  have htext : d.text (Piece.leavesAll (d.codePieces ls)) = out.code := by
    rw [text_codePieces, hcode]
  have hwarnings : (Piece.leavesAll (d.codePieces ls)).flatMap Leaf.warnings = out.warnings := by
    rw [warnings_of_emit h]
    exact Piece.gaps_survey.codePieces ls
  have hleaves : ∀ leaf ∈ Piece.leavesAll (d.codePieces ls), leaf.isKnown texts = true := by
    rw [← Piece.unknown_survey.codePieces] at hknown
    exact Piece.unknown_eq_nil_iff.1 hknown
  refine ⟨⟨_, htext, hwarnings, hleaves⟩, fun htexts => ?_⟩
  have hcodes : ∀ leaf ∈ Piece.leavesAll (d.codePieces ls), ∃ code, d.spell leaf = .ok code := by
    intro leaf hleaf
    rcases mem_leaves_codePieces hleaf with hline | ⟨text, rfl⟩
    · exact hspelled leaf hline
    · exact ⟨text, rfl⟩
  rw [← htext, ← hwarnings]
  exact signs_text hd htexts hleaves hcodes

end Dialect

/-- Expressions whose texts are among the known ones have no unknown leaves. -/
theorem Piece.unknown_of_mem {d : Dialect} {functions : List TypedFunction} {f : TypedFunction}
    {texts : List String} (htexts : functions.flatMap TypedFunction.texts ⊆ texts)
    (hf : f ∈ functions) {e : TypedExpr} (he : e.all ⊆ f.exprs) :
    Piece.unknown texts [.node e (d.inside e)] = [] := by
  refine Piece.unknown_node fun x hx text htext => htexts (List.mem_flatMap.2 ⟨f, hf, ?_⟩)
  exact List.mem_append_right _ (List.mem_flatMap.2 ⟨x, he hx, htext⟩)

theorem TypedFunction.mem_texts {functions : List TypedFunction} {texts : List String}
    (htexts : functions.flatMap TypedFunction.texts ⊆ texts) :
    ∀ f ∈ functions, ∀ name ∈ f.newNames, name ∈ texts :=
  fun f hf _ hname => htexts (List.mem_flatMap.2 ⟨f, hf, List.mem_append_left _ hname⟩)

namespace Embree

open TypedExpr

variable {functions : List TypedFunction} {options : EmbreeOptions} {out : Output}

/-- Nothing in the code of a material is unknown. -/
theorem unknown_lines (functions : List TypedFunction) (options : EmbreeOptions) :
    Line.survey (Piece.unknown (functions.flatMap TypedFunction.texts)) (lines functions options) =
      [] := by
  have hnames := TypedFunction.mem_texts (List.Subset.refl (functions.flatMap TypedFunction.texts))
  rw [survey_lines Piece.unknown_survey hnames, List.flatMap_eq_nil_iff]
  intro e he
  obtain ⟨f, hf, hroot⟩ := List.mem_flatMap.1 he
  refine Piece.unknown_of_mem (List.Subset.refl _) hf ?_
  exact fun x hx => TypedFunction.mem_exprs_of_mem_roots hroot hx

/-- The warnings for a material: one for each `null`. -/
theorem warnings_eq
    (h : ∀ t ∈ functions, ∃ f injections registry, Function.infer f injections registry = .ok t)
    (hout : generate functions options = .ok out) :
    out.warnings =
      ((functions.flatMap TypedFunction.exprs).filter isNull).map Dialect.placeholderFor := by
  rw [generate_eq] at hout
  rw [Dialect.warnings_of_emit hout, survey_lines Piece.gaps_survey fun _ _ _ _ => trivial,
    TypedFunction.flatMap_exprs, List.filter_flatMap, List.map_flatMap]
  refine List.flatMap_congr fun e he => ?_
  obtain ⟨t, ht, hroot⟩ := List.mem_flatMap.1 he
  obtain ⟨f, injections, registry, hinfer⟩ := h t ht
  have hnull : ∀ x ∈ e.all, Dialect.embree.lacks x = x.isNull := by
    intro x hx
    refine lacks_embree fun hvalue => ?_
    obtain ⟨value, hvalue⟩ := Option.isSome_iff_exists.1 hvalue
    have hknown : x.ascription.value.isSome = true := by
      rw [value_of_propagated? hvalue]
      rfl
    have hmem : x ∈ t.exprs := TypedFunction.mem_exprs_of_mem_roots hroot hx
    exact isNull_eq_false_of_isFoldable
      (Function.isFoldable_of_value hinfer hmem hknown x (self_mem_all x))
  have htopmost : e.topmost Dialect.embree.lacks = e.all.filter Dialect.embree.lacks := by
    refine topmost_eq_filter e fun x hx hlacks => all_of_isNull ?_
    rwa [hnull x hx] at hlacks
  have he : e ∈ t.exprs := TypedFunction.mem_exprs_of_mem_roots hroot (self_mem_all e)
  rw [Dialect.gaps_of_root Dialect.embree hinfer he, htopmost, List.filter_congr hnull]

end Embree

namespace Glsl

open TypedExpr

variable {functions : List TypedFunction} {options : GlslOptions} {out : Output}

/-- The warnings for a statement of a body: one for a branch or a block, and else one for each
outermost expression that is left out. -/
def omissions (s : TypedStmt) : List Warning :=
  match s with
  | .branch _ _ _ | .block _ => [.marker s.kindName]
  | _ => (s.roots.flatMap (topmost isLeftOut)).map Dialect.placeholderFor

/-- The texts in a fragment shader that are not its own. -/
def texts (functions : List TypedFunction) (options : GlslOptions) : List String :=
  (if options.omitHeader then [] else [options.floatPrecision]) ++
    functions.flatMap TypedFunction.texts

/-- Nothing in a fragment shader is unknown. -/
theorem unknown_lines (functions : List TypedFunction) (options : GlslOptions) :
    Line.survey (Piece.unknown (texts functions options)) (lines functions options) = [] := by
  have htexts : functions.flatMap TypedFunction.texts ⊆ texts functions options :=
    List.subset_append_right _ _
  have hprecision : options.omitHeader = true ∨
      options.floatPrecision ∈ texts functions options := by
    cases homit : options.omitHeader with
    | true => exact .inl rfl
    | false =>
      rw [texts, homit]
      exact .inr List.mem_cons_self
  rw [survey_lines Piece.unknown_survey hprecision (TypedFunction.mem_texts htexts),
    List.flatMap_eq_nil_iff]
  intro t ht
  rw [List.flatMap_eq_nil_iff]
  intro s hs
  have hroots : (s.roots.flatMap fun e =>
      Piece.unknown (texts functions options) [.node e (Dialect.glsl.inside e)]) = [] := by
    rw [List.flatMap_eq_nil_iff]
    exact fun e he => Piece.unknown_of_mem htexts ht (TypedFunction.mem_exprs_of_mem_body hs he)
  cases s with
  | declare | expr | ret => exact hroots
  | branch test consequent alternate => exact Piece.unknown_marker _
  | block body => exact Piece.unknown_marker _

/-- The warnings for a fragment shader. -/
theorem warnings_eq
    (h : ∀ t ∈ functions, ∃ f injections registry, Function.infer f injections registry = .ok t)
    (hout : generate functions options = .ok out) :
    out.warnings = functions.flatMap fun t => t.body.flatMap omissions := by
  rw [generate_eq] at hout
  rw [Dialect.warnings_of_emit hout,
    survey_lines Piece.gaps_survey (.inr trivial) fun _ _ _ _ => trivial]
  refine List.flatMap_congr fun t ht => List.flatMap_congr fun s hs => ?_
  obtain ⟨f, injections, registry, hinfer⟩ := h t ht
  have hroots : (s.roots.flatMap fun e => Piece.gaps [.node e (Dialect.glsl.inside e)]) =
      (s.roots.flatMap (topmost isLeftOut)).map Dialect.placeholderFor := by
    rw [List.map_flatMap]
    refine List.flatMap_congr fun e he => ?_
    have hmem : e ∈ t.exprs := TypedFunction.mem_exprs_of_mem_body hs he (self_mem_all e)
    rw [Dialect.gaps_of_root Dialect.glsl hinfer hmem, funext lacks_glsl]
  cases s with
  | declare | expr | ret => exact hroots
  | branch | block => rfl

end Glsl

/-- In code for materials there is one warning for each `null` of the program.  In a fragment shader
there is one for each branch and block that is a statement of a body, and one for each outermost
unary or conditional expression or `null` in the other statements that is not replaced by its value.
The placeholders and markers in the code are those that the warnings are given for. -/
theorem warnings_account_for_gaps {functions : List TypedFunction}
    (h : ∀ t ∈ functions, ∃ f injections registry, Function.infer f injections registry = .ok t) :
    (∀ options out, Embree.generate functions options = .ok out →
      out.warnings = ((functions.flatMap TypedFunction.exprs).filter TypedExpr.isNull).map
        Dialect.placeholderFor ∧
      (out.isClean = true ↔ ∀ t ∈ functions, ∀ e ∈ t.exprs, e.isNull = false) ∧
      out.Accounted Dialect.embree (functions.flatMap TypedFunction.texts)) ∧
    ∀ options out, Glsl.generate functions options = .ok out →
      (out.warnings = functions.flatMap fun t => t.body.flatMap Glsl.omissions) ∧
      out.Accounted Dialect.glsl (Glsl.texts functions options) := by
  refine ⟨fun options out hout => ?_, fun options out hout => ?_⟩
  · have hwarnings := Embree.warnings_eq h hout
    refine ⟨hwarnings, ?_, ?_⟩
    · rw [Output.isClean, hwarnings, List.isEmpty_iff, List.map_eq_nil_iff,
        List.filter_eq_nil_iff]
      simp only [List.mem_flatMap, Bool.not_eq_true]
      constructor
      · exact fun hnone t ht e he => hnone e ⟨t, ht, he⟩
      · rintro hnone e ⟨t, ht, he⟩
        exact hnone t ht e he
    · rw [Embree.generate_eq] at hout
      exact Dialect.accounted_of_emit Dialect.embree_isQuiet hout
        (Embree.unknown_lines functions options)
  · refine ⟨Glsl.warnings_eq h hout, ?_⟩
    rw [Glsl.generate_eq] at hout
    exact Dialect.accounted_of_emit Dialect.glsl_isQuiet hout (Glsl.unknown_lines functions options)

namespace Sample

/-- `function rough(k) { null; -k; k > k ? -k : k; if (k > k) { -k; } return k; }` -/
def rough : Function :=
  Bare.function "rough" ["k"] [
    Bare.expr (Bare.literal none none),
    Bare.expr (Bare.unary .neg (Bare.ident "k")),
    Bare.expr (Bare.conditional
      (Bare.binary (.comparison .gt) (Bare.ident "k") (Bare.ident "k"))
      (Bare.unary .neg (Bare.ident "k")) (Bare.ident "k")),
    Bare.branch (Bare.binary (.comparison .gt) (Bare.ident "k") (Bare.ident "k"))
      [Bare.expr (Bare.unary .neg (Bare.ident "k"))] none,
    Bare.ret (some (Bare.ident "k"))]

/-- Code for materials has a placeholder for `null` only.  The fragment shader has one for each
expression that it cannot express and that is not inside another or inside the branch, and a marker
for the branch. -/
theorem rough_warnings : ∃ t out out', rough.infer numbers registry = .ok t ∧
    Embree.generate [t] {} = .ok out ∧ Glsl.generate [t] {} = .ok out' ∧
    out.warnings = [.placeholder "Literal"] ∧ out.isClean = false ∧
    out'.warnings = [.placeholder "Literal", .placeholder "UnaryExpression",
      .placeholder "ConditionalExpression", .marker "IfStatement"] ∧
    signs out'.code.toList = 4 := by
  obtain ⟨t, out, out', hinfer, hout, hout', hnull, homissions, htexts⟩ :
      ∃ t out out', rough.infer numbers registry = .ok t ∧ Embree.generate [t] {} = .ok out ∧
        Glsl.generate [t] {} = .ok out' ∧
        ((t.exprs.filter TypedExpr.isNull).map Dialect.placeholderFor = [.placeholder "Literal"]) ∧
        t.body.flatMap Glsl.omissions = [.placeholder "Literal", .placeholder "UnaryExpression",
          .placeholder "ConditionalExpression", .marker "IfStatement"] ∧
        (Glsl.texts [t] {}).all isQuiet = true :=
    ⟨_, _, _, rfl, rfl, rfl, rfl, rfl, rfl⟩
  have hfunctions := Function.inferred_singleton hinfer
  obtain ⟨hembree, hglsl⟩ := warnings_account_for_gaps hfunctions
  obtain ⟨hwarnings, -, -⟩ := hembree {} out hout
  obtain ⟨hwarnings', -, hsigns⟩ := hglsl {} out' hout'
  rw [List.flatMap_singleton] at hwarnings hwarnings'
  rw [hnull] at hwarnings
  rw [homissions] at hwarnings'
  refine ⟨t, out, out', hinfer, hout, hout', hwarnings, ?_, hwarnings', ?_⟩
  · rw [Output.isClean, hwarnings]
    rfl
  · rw [hsigns (List.all_eq_true.1 htexts), hwarnings']
    rfl

end Sample

end Shader
