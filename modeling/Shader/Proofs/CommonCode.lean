import Shader.Proofs.Gaps
import Shader.Proofs.Leaves
import Shader.Proofs.NumberText

/-!
# Code that both targets have in common

A fragment shader without warnings has no branches, blocks, unary or conditional expressions in it.
What is left both targets write alike, word for word, but for numbers of type number, which have a
decimal point in code for materials.  So the same functions have code there too: line for line the
same, with `.0` behind the whole numbers.

The proof compares layouts.  A leaf is *shared* when both targets have a spelling for it.  Where all
leaves of a fragment shader are shared, its lines are those of the code for materials.  The one
thing to see is that parentheses are set alike, although the text of an operand decides on them.
-/

namespace Shader

/-! ## Texts with points -/

/-- `Pointed cs ds`: the texts are the same up to `.0` behind digits of the second. -/
inductive Pointed : List Char → List Char → Prop where
  | nil : Pointed [] []
  | cons (c : Char) {cs ds : List Char} : Pointed cs ds → Pointed (c :: cs) (c :: ds)
  | digit {c : Char} {cs ds : List Char} : c.isDigit = true → Pointed cs ds →
      Pointed (c :: cs) (c :: '.' :: '0' :: ds)

namespace Pointed

variable {cs ds cs' ds' : List Char}

theorem refl : ∀ cs : List Char, Pointed cs cs
  | [] => nil
  | c :: rest => cons c (refl rest)

theorem append (h : Pointed cs ds) (h' : Pointed cs' ds') : Pointed (cs ++ cs') (ds ++ ds') := by
  induction h with
  | nil => exact h'
  | cons c _ ih => exact cons c ih
  | digit hc _ ih => exact digit hc ih

/-- A text that ends with a digit may be followed by `.0`. -/
theorem of_last {c : Char} (hlast : cs.getLast? = some c) (hc : c.isDigit = true) :
    Pointed cs (cs ++ ['.', '0']) := by
  obtain ⟨front, rfl⟩ := List.getLast?_eq_some_iff.1 hlast
  rw [List.append_assoc]
  exact (refl front).append (digit hc nil)

theorem eq_nil_iff (h : Pointed cs ds) : cs = [] ↔ ds = [] := by
  cases h with
  | nil => exact Iff.rfl
  | cons | digit => simp

/-- Points behind digits make no lines. -/
theorem count_newline (h : Pointed cs ds) : ds.count '\n' = cs.count '\n' := by
  induction h with
  | nil => rfl
  | cons c _ ih => rw [List.count_cons, List.count_cons, ih]
  | @digit c cs ds _ _ ih =>
    have hpoint : ('.' :: '0' :: ds).count '\n' = ds.count '\n' := rfl
    rw [List.count_cons, hpoint, ih, ← List.count_cons]

/-- A text without digits is in front of both or of none. -/
theorem isPrefixOf_eq (h : Pointed cs ds) {start : List Char}
    (hstart : start.any Char.isDigit = false) : start.isPrefixOf cs = start.isPrefixOf ds := by
  induction h generalizing start with
  | nil => rfl
  | cons c _ ih =>
    cases start with
    | nil => rfl
    | cons s rest =>
      obtain ⟨-, hrest⟩ := Bool.or_eq_false_iff.1 hstart
      rw [List.isPrefixOf, List.isPrefixOf, ih hrest]
  | @digit c _ _ hc _ ih =>
    cases start with
    | nil => rfl
    | cons s rest =>
      obtain ⟨hs, -⟩ := Bool.or_eq_false_iff.1 hstart
      have hne : (s == c) = false := by
        rw [beq_eq_false_iff_ne]
        rintro rfl
        rw [hs] at hc
        cases hc
      rw [List.isPrefixOf, List.isPrefixOf, hne]
      rfl

end Pointed

/-! ## Shared leaves -/

/-- Whether both targets have a spelling for a leaf. -/
def Leaf.isShared : Leaf → Bool
  | .word _ | .given _ => true
  | .number value .number => value.isFinite
  | .number _ _ => true
  | .typeWord ty => (commonTypeName? ty).isSome
  | .gap _ => false

/-- The number that a leaf stands for, with its type. -/
def Leaf.constants : Leaf → List (Float × Ty)
  | .number value ty => [(value, ty)]
  | _ => []

theorem Leaf.mem_constants {leaf : Leaf} {value : Float} {ty : Ty} :
    (value, ty) ∈ leaf.constants ↔ leaf = .number value ty := by
  cases leaf <;> simp [constants, eq_comm]

theorem Leaf.isFinite_of_isShared {value : Float}
    (h : (Leaf.number value .number).isShared = true) : value.isFinite = true := h

/-- A finite number and its form with a point are the same up to the point. -/
theorem Number.pointed_text {value : Float} (h : value.isFinite = true) :
    Pointed (Number.text value).toList (Number.pointedText value).toList := by
  unfold Number.pointedText
  simp only
  split
  · exact .refl _
  · obtain ⟨c, hlast, hdigit⟩ := Number.last_text h
    rw [String.toList_append]
    exact .of_last hlast hdigit

namespace Dialect

theorem embree_typeName?_of_common {ty : Ty} {word : String} (h : commonTypeName? ty = some word) :
    embree.typeName? ty = some word := by
  cases ty with
  | int => cases h
  | _ => exact h

/-- The spellings of a shared leaf are the same up to a point, and the same altogether unless it is
a whole number of type number. -/
theorem spell_shared {leaf : Leaf} (h : leaf.isShared = true) :
    ∃ code code', glsl.spell leaf = .ok code ∧ embree.spell leaf = .ok code' ∧
      Pointed code.toList code'.toList ∧
      ((∀ value, leaf = .number value .number → Number.isWhole value = false) → code' = code) := by
  cases leaf with
  | word text => exact ⟨text, text, rfl, rfl, .refl _, fun _ => rfl⟩
  | given text => exact ⟨text, text, rfl, rfl, .refl _, fun _ => rfl⟩
  | number value ty =>
    by_cases hty : ty = .number
    · subst hty
      have hfinite := Leaf.isFinite_of_isShared h
      have hspell : embree.spell (.number value .number) = .ok (Number.pointedText value) :=
        if_pos hfinite
      refine ⟨_, _, rfl, hspell, Number.pointed_text hfinite, fun hwhole => ?_⟩
      exact Number.pointedText_of_not_isWhole hfinite (hwhole value rfl)
    · have hspell : embree.spell (.number value ty) = .ok (Number.text value) :=
        embree_number_of_ne hty value
      exact ⟨_, _, rfl, hspell, .refl _, fun _ => rfl⟩
  | typeWord ty =>
    obtain ⟨word, hword⟩ := Option.isSome_iff_exists.1 h
    have hglsl : glsl.spell (.typeWord ty) = .ok word := by
      show glsl.typeName ty = .ok word
      unfold typeName
      rw [show glsl.typeName? ty = some word from hword]
    have hembree : embree.spell (.typeWord ty) = .ok word := by
      show embree.typeName ty = .ok word
      unfold typeName
      rw [embree_typeName?_of_common hword]
    exact ⟨word, word, hglsl, hembree, .refl _, fun _ => rfl⟩
  | gap warning => cases h

/-- The texts of shared leaves are the same up to points. -/
theorem text_shared {leaves : List Leaf} (h : ∀ leaf ∈ leaves, leaf.isShared = true) :
    Pointed (glsl.text leaves).toList (embree.text leaves).toList ∧
      ((∀ value, Leaf.number value .number ∈ leaves → Number.isWhole value = false) →
        embree.text leaves = glsl.text leaves) := by
  induction leaves with
  | nil => exact ⟨.nil, fun _ => rfl⟩
  | cons leaf rest ih =>
    obtain ⟨hleaf, hrest⟩ := List.forall_mem_cons.1 h
    obtain ⟨code, code', hglsl, hembree, hpointed, hsame⟩ := spell_shared hleaf
    obtain ⟨hpointeds, hsames⟩ := ih hrest
    rw [text, text, hglsl, hembree, String.toList_append, String.toList_append]
    refine ⟨hpointed.append hpointeds, fun hwhole => ?_⟩
    have hcode : code' = code :=
      hsame fun value hvalue => hwhole value (hvalue ▸ List.mem_cons_self)
    have hcodes := hsames fun value hvalue => hwhole value (List.mem_cons_of_mem _ hvalue)
    rw [hcode, hcodes]

/-! ## Layouts -/

open TypedExpr Piece

/-- `Shared ps`: all leaves of the pieces are shared. -/
def Shared (ps : List Piece) : Prop := ∀ leaf ∈ leavesAll ps, leaf.isShared = true

theorem shared_append {ps qs : List Piece} : Shared (ps ++ qs) ↔ Shared ps ∧ Shared qs := by
  unfold Shared
  rw [leavesAll_append, List.forall_mem_append]

theorem Shared.tail {p : Piece} {ps : List Piece} (h : Shared (p :: ps)) : Shared ps :=
  (shared_append.1 (show Shared ([p] ++ ps) from h)).2

theorem Shared.node {e : TypedExpr} {inside ps : List Piece} (h : Shared (.node e inside :: ps)) :
    Shared inside := by
  unfold Shared at h ⊢
  rw [leavesAll, leaves, List.forall_mem_append] at h
  exact h.1

/-- A placeholder stands in front of both texts or of none. -/
theorem startsWithPlaceholder_shared {ps : List Piece} (h : Shared ps) :
    startsWithPlaceholder (embree.text (leavesAll ps)) =
      startsWithPlaceholder (glsl.text (leavesAll ps)) :=
  ((text_shared h).1.isPrefixOf_eq rfl).symm

theorem Shared.operand {e : TypedExpr} {inside : List Piece}
    (h : Shared (glsl.operandPieces e inside)) : Shared inside := by
  unfold operandPieces at h
  split at h
  · exact h.tail.node
  · exact h.node

/-- Parentheses are set alike. -/
theorem operandPieces_shared {e : TypedExpr} {inside : List Piece} (h : Shared inside) :
    embree.operandPieces e inside = glsl.operandPieces e inside := by
  unfold operandPieces
  rw [startsWithPlaceholder_shared h]

theorem Shared.of_intersperse {separator : String} : ∀ {ps : List Piece},
    Shared (ps.intersperse (.word separator)) → Shared ps
  | [], h => h
  | [p], h => h
  | p :: next :: rest, h => by
    rw [List.intersperse_cons_cons] at h
    obtain ⟨hp, hrest⟩ := shared_append.1 (show Shared ([p] ++ _) from h)
    exact shared_append.2 ⟨hp, of_intersperse hrest.tail⟩

mutual

/-- A layout for fragment shaders whose leaves are shared is the layout for materials. -/
theorem inside_shared (e : TypedExpr) (h : Shared (glsl.inside e)) :
    embree.inside e = glsl.inside e := by
  -- The layout is opened in each case only, where the parts that the recursion is on are known.
  cases hvalue : e.propagated? with
  | some value =>
    rw [inside.eq_def, inside.eq_def glsl, hvalue]
  | none =>
    match e with
    | .literal (some (.number value)) m | .literal (some (.string s)) m
    | .literal (some (.bool b)) m | .literal none m | .ident name m =>
      rw [inside.eq_def, inside.eq_def glsl]
    | .member object property m =>
      rw [inside.eq_def, hvalue] at h
      have hobject := inside_shared object h.node
      rw [inside.eq_def, inside.eq_def glsl, hvalue]
      simp only [hobject]
    | .call callee args m =>
      rw [inside.eq_def, hvalue] at h
      obtain ⟨hc, ha⟩ := shared_append.1 h
      have hcallee := inside_shared callee hc.node
      have hargs := args_shared args (Shared.of_intersperse (shared_append.1 ha).1)
      rw [inside.eq_def, inside.eq_def glsl, hvalue]
      simp only [hcallee, hargs]
    | .construct name args m =>
      rw [inside.eq_def, hvalue] at h
      have ha := (shared_append.1 h).2
      have hargs := args_shared args (Shared.of_intersperse (shared_append.1 ha).1)
      rw [inside.eq_def, inside.eq_def glsl, hvalue]
      simp only [hargs]
    | .binary op left right m =>
      rw [inside.eq_def, hvalue] at h
      obtain ⟨hl, hr⟩ := shared_append.1 h
      have hleft := inside_shared left hl.operand
      have hright := inside_shared right hr.tail.operand
      rw [inside.eq_def, inside.eq_def glsl, hvalue]
      simp only [hleft, hright, operandPieces_shared hl.operand,
        operandPieces_shared hr.tail.operand]
    | .logical op left right m =>
      rw [inside.eq_def, hvalue] at h
      obtain ⟨hl, hr⟩ := shared_append.1 h
      have hleft := inside_shared left hl.operand
      have hright := inside_shared right hr.tail.operand
      rw [inside.eq_def, inside.eq_def glsl, hvalue]
      simp only [hleft, hright, operandPieces_shared hl.operand,
        operandPieces_shared hr.tail.operand]
    | .assign op target value m =>
      rw [inside.eq_def, hvalue] at h
      obtain ⟨ht, hv⟩ := shared_append.1 h
      have htarget := place_shared target ht
      have hright := inside_shared value hv.tail.node
      rw [inside.eq_def, inside.eq_def glsl, hvalue]
      simp only [htarget, hright]
    -- For the last two forms the fragment shader has a gap, and a gap is not shared.
    | .conditional test consequent alternate m =>
      rw [inside.eq_def, hvalue] at h
      cases h _ List.mem_cons_self
    | .unary op argument m =>
      rw [inside.eq_def, hvalue] at h
      cases h _ List.mem_cons_self
termination_by (sizeOf e, 0)

/-- Targets are laid out alike. -/
theorem place_shared (e : TypedExpr) (h : Shared (glsl.placePieces e (glsl.inside e))) :
    embree.placePieces e (embree.inside e) = glsl.placePieces e (glsl.inside e) := by
  match e with
  | .ident name m => rw [placePieces, placePieces]
  | .member object property m =>
    rw [placePieces] at h
    have hobject := place_shared object (shared_append.1 h).1
    rw [placePieces, placePieces, hobject]
  | .literal _ _ | .call _ _ _ | .construct _ _ _ | .binary _ _ _ _
  | .logical _ _ _ _ | .assign _ _ _ _ | .conditional _ _ _ _ | .unary _ _ _ =>
    rw [placePieces.eq_def] at h
    have hinside := inside_shared _ h.node
    rw [placePieces.eq_def, placePieces.eq_def glsl, hinside]
termination_by (sizeOf e, 1)

/-- Arguments are laid out alike. -/
theorem args_shared (es : List TypedExpr) (h : Shared (glsl.insideArgs es)) :
    embree.insideArgs es = glsl.insideArgs es := by
  match es with
  | [] => rw [insideArgs, insideArgs]
  | e :: rest =>
    rw [insideArgs] at h
    have hfirst := inside_shared e h.node
    rw [insideArgs, insideArgs, hfirst, args_shared rest h.tail]
termination_by (sizeOf es, 0)

end

/-! ## Lines -/

/-- `SharedLines ls`: all leaves on the lines are shared. -/
def SharedLines (ls : List Line) : Prop := ∀ l ∈ ls, Shared l.pieces

theorem sharedLines_append {ls ls' : List Line} :
    SharedLines (ls ++ ls') ↔ SharedLines ls ∧ SharedLines ls' := List.forall_mem_append

theorem sharedLines_cons {l : Line} {ls : List Line} :
    SharedLines (l :: ls) ↔ Shared l.pieces ∧ SharedLines ls := List.forall_mem_cons

theorem declaratorPieces_shared {decl : TypedDeclarator}
    (h : Shared (glsl.declaratorPieces decl)) :
    embree.declaratorPieces decl = glsl.declaratorPieces decl := by
  unfold declaratorPieces at h ⊢
  cases hinit : decl.init with
  | none => rfl
  | some e =>
    rw [hinit] at h
    have hinside := inside_shared e (shared_append.1 h).2.tail.node
    simp only [hinside]

theorem declaratorLines_shared {level : Nat} {decls : List TypedDeclarator}
    (h : SharedLines (glsl.declaratorLines level decls)) :
    embree.declaratorLines level decls = glsl.declaratorLines level decls := by
  refine List.map_congr_left fun decl hdecl => ?_
  have hline : Shared (glsl.declaratorPieces decl) := h _ (List.mem_map_of_mem hdecl)
  rw [declaratorPieces_shared hline]

theorem exprLines_shared {level : Nat} {e : TypedExpr} (h : SharedLines (glsl.exprLines level e)) :
    embree.exprLines level e = glsl.exprLines level e := by
  have hinside := inside_shared e (sharedLines_cons.1 h).1.node
  rw [exprLines, exprLines, hinside]

theorem retLines_shared {level : Nat} {value : Option TypedExpr}
    (h : SharedLines (glsl.retLines level value)) :
    embree.retLines level value = glsl.retLines level value := by
  cases value with
  | none => rfl
  | some e =>
    have hinside := inside_shared e (sharedLines_cons.1 h).1.tail.node
    rw [retLines, retLines, hinside]

/-- A statement whose lines in a fragment shader are shared has the same lines in a material. -/
theorem stmtLines_shared {level : Nat} {s : TypedStmt} (h : SharedLines (Glsl.stmtLines level s)) :
    Embree.stmtLines level s = Glsl.stmtLines level s := by
  cases s with
  | declare decls => exact declaratorLines_shared h
  | expr e => exact exprLines_shared h
  | ret value => exact retLines_shared h
  | branch | block => cases (sharedLines_cons.1 h).1 _ List.mem_cons_self

theorem stmtsLines_shared {level : Nat} {ss : List TypedStmt}
    (h : SharedLines (ss.flatMap (Glsl.stmtLines level))) :
    Embree.stmtsLines level ss = ss.flatMap (Glsl.stmtLines level) := by
  induction ss with
  | nil => rfl
  | cons s rest ih =>
    rw [List.flatMap_cons] at h
    obtain ⟨hs, hrest⟩ := sharedLines_append.1 h
    rw [Embree.stmtsLines, stmtLines_shared hs, ih hrest, List.flatMap_cons]

theorem functionLines_shared {f : TypedFunction} (h : SharedLines (Glsl.functionLines f)) :
    Embree.functionLines f = Glsl.functionLines f := by
  have hbody := (sharedLines_append.1 (sharedLines_cons.1 h).2).1
  rw [Embree.functionLines, Glsl.functionLines, functionLines, functionLines,
    stmtsLines_shared hbody]

theorem functionsLines_shared {functions : List TypedFunction} {separate : Bool}
    (h : SharedLines (functionsLines 0 Glsl.functionLines separate functions)) :
    functionsLines 0 Embree.functionLines separate functions =
      functionsLines 0 Glsl.functionLines separate functions := by
  induction functions generalizing separate with
  | nil => rfl
  | cons f rest ih =>
    rw [functionsLines] at h
    obtain ⟨hf, hrest⟩ := sharedLines_append.1 (sharedLines_append.1 h).2
    rw [functionsLines, functionsLines, functionLines_shared hf, ih hrest]

/-- A fragment shader whose leaves are shared has the lines of the material. -/
theorem lines_shared {functions : List TypedFunction} {options : GlslOptions}
    {options' : EmbreeOptions} (hheader : options.omitHeader = true)
    (hheader' : options'.omitHeader = true) (h : SharedLines (Glsl.lines functions options)) :
    Embree.lines functions options' = Glsl.lines functions options := by
  have hfunctions := functionsLines_shared (sharedLines_append.1 h).2
  rw [Embree.lines, Glsl.lines, Glsl.headerLines, hheader, hheader', hfunctions]
  exact List.append_nil _

/-- The texts of a line are the same up to points. -/
theorem lineText_shared {l : Line} (h : Shared l.pieces) :
    Pointed (glsl.lineText l).toList (embree.lineText l).toList := by
  have htext := (text_shared h).1
  -- Empty lines have no margin, so both texts must be empty or none.
  have hempty : (glsl.text l.leaves).isEmpty = (embree.text l.leaves).isEmpty := by
    rw [Bool.eq_iff_iff, String.isEmpty_iff, String.isEmpty_iff, ← String.toList_eq_nil_iff,
      ← String.toList_eq_nil_iff]
    exact htext.eq_nil_iff
  unfold lineText indented
  rw [hempty]
  split
  · exact .nil
  · rw [String.toList_append, String.toList_append]
    exact (Pointed.refl _).append htext

/-- The texts of lines are the same up to points. -/
theorem code_shared : ∀ {ls : List Line}, SharedLines ls →
    Pointed ("\n".intercalate (ls.map glsl.lineText)).toList
      ("\n".intercalate (ls.map embree.lineText)).toList
  | [], _ => .nil
  | [l], h => by
    simp only [List.map_singleton, String.intercalate_singleton]
    exact lineText_shared (sharedLines_cons.1 h).1
  | l :: next :: rest, h => by
    obtain ⟨hl, hrest⟩ := sharedLines_cons.1 h
    simp only [List.map_cons, String.intercalate_cons_cons, String.toList_append]
    exact ((lineText_shared hl).append (.refl _)).append (code_shared hrest)

/-- Emission of shared lines succeeds, and differs from that of a fragment shader in points only. -/
theorem emit_shared {ls : List Line} {out : Output} (h : SharedLines ls)
    (hout : glsl.emit ls = .ok out) :
    ∃ out', embree.emit ls = .ok out' ∧ out'.warnings = out.warnings ∧
      Pointed out.code.toList out'.code.toList ∧
      ((∀ value, Leaf.number value .number ∈ ls.flatMap Line.leaves →
        Number.isWhole value = false) → out'.code = out.code) := by
  obtain ⟨-, hcode, hwarnings⟩ := emit_eq_ok_iff.1 hout
  have hspelled : ∀ leaf ∈ ls.flatMap Line.leaves, ∃ code, embree.spell leaf = .ok code := by
    intro leaf hleaf
    obtain ⟨l, hl, hleaf⟩ := List.mem_flatMap.1 hleaf
    obtain ⟨_, code, -, hspell, -⟩ := spell_shared (h l hl leaf hleaf)
    exact ⟨code, hspell⟩
  refine ⟨⟨"\n".intercalate (ls.map embree.lineText), out.warnings⟩,
    emit_eq_ok_iff.2 ⟨hspelled, rfl, hwarnings⟩, rfl, ?_, fun hwhole => ?_⟩
  · rw [hcode]
    exact code_shared h
  · have hlines : ls.map embree.lineText = ls.map glsl.lineText := by
      refine List.map_congr_left fun l hl => ?_
      have htext : embree.text l.leaves = glsl.text l.leaves :=
        (text_shared (h l hl)).2 fun value hvalue =>
          hwhole value (List.mem_flatMap.2 ⟨l, hl, hvalue⟩)
      rw [lineText, lineText, htext]
    rw [hcode, ← hlines]

end Dialect

/-! ## Constants -/

namespace Piece

/-- The numbers in pieces, each with its type. -/
def constants (ps : List Piece) : List (Float × Ty) := (leavesAll ps).flatMap Leaf.constants

theorem mem_constants {ps : List Piece} {value : Float} {ty : Ty} :
    (value, ty) ∈ constants ps ↔ Leaf.number value ty ∈ leavesAll ps := by
  simp only [constants, List.mem_flatMap, Leaf.mem_constants, exists_eq_right]

/-- Words, names and types are no numbers. -/
theorem constants_survey : Survey constants fun _ => True :=
  .ofLeaves (fun _ => rfl) (fun _ => rfl) (fun _ => rfl)

/-- A number in the layout of an expression is the value of one of its parts, or spelled there. -/
theorem value_of_mem_constants {d : Dialect} {e : TypedExpr} {value : Float} {ty : Ty}
    (h : (value, ty) ∈ constants [.node e (d.inside e)]) :
    ∃ x ∈ e.all, x.ty = ty ∧
      (x.ascription.value = some (.number value) ∨ ∃ m, x = .literal (some (.number value)) m) := by
  rw [mem_constants, leavesAll, leaves, leavesAll, List.append_nil] at h
  obtain ⟨x, hx, hof⟩ := d.leaves_inside e _ h
  cases hof with
  | known hvalue => exact ⟨x, hx, rfl, .inl (TypedExpr.value_of_propagated? hvalue)⟩
  | literal hliteral => exact ⟨x, hx, rfl, .inr ⟨_, hliteral⟩⟩

/-- In an inferred function a number that is spelled is the value of its literal, too. -/
theorem value_of_mem_exprs {d : Dialect} {t : TypedFunction}
    (h : ∃ f injections registry, Function.infer f injections registry = .ok t) {e : TypedExpr}
    (he : ∀ x ∈ e.all, x ∈ t.exprs) {value : Float} {ty : Ty}
    (hvalue : (value, ty) ∈ constants [.node e (d.inside e)]) :
    ∃ x ∈ t.exprs, x.ty = ty ∧ x.ascription.value = some (.number value) := by
  obtain ⟨x, hx, hty, hvalue | ⟨m, rfl⟩⟩ := value_of_mem_constants hvalue
  · exact ⟨x, he x hx, hty, hvalue⟩
  · obtain ⟨f, injections, registry, hinfer⟩ := h
    exact ⟨_, he _ hx, hty, Function.value_of_literal hinfer (he _ hx)⟩

end Piece

theorem Line.mem_constants {ls : List Line} {value : Float} {ty : Ty} :
    (value, ty) ∈ survey Piece.constants ls ↔ Leaf.number value ty ∈ ls.flatMap leaves := by
  simp only [survey, List.mem_flatMap, Piece.mem_constants, leaves]

/-! ## Fragment shaders without warnings -/

namespace Glsl

variable {functions : List TypedFunction} {options : GlslOptions} {out : Output}

/-- The numbers in a fragment shader, each with its type. -/
def constants (functions : List TypedFunction) (options : GlslOptions) : List (Float × Ty) :=
  Line.survey Piece.constants (lines functions options)

/-- A number in a fragment shader is the value of an expression. -/
theorem value_of_mem_constants
    (h : ∀ t ∈ functions, ∃ f injections registry, Function.infer f injections registry = .ok t)
    {value : Float} {ty : Ty} (hvalue : (value, ty) ∈ constants functions options) :
    ∃ t ∈ functions, ∃ e ∈ t.exprs, e.ty = ty ∧ e.ascription.value = some (.number value) := by
  rw [constants, survey_lines Piece.constants_survey (.inr trivial) fun _ _ _ _ => trivial]
    at hvalue
  obtain ⟨t, ht, hvalue⟩ := List.mem_flatMap.1 hvalue
  obtain ⟨s, hs, hvalue⟩ := List.mem_flatMap.1 hvalue
  obtain ⟨e, he, hvalue⟩ : ∃ e ∈ s.roots,
      (value, ty) ∈ Piece.constants [.node e (Dialect.glsl.inside e)] := by
    cases s with
    | branch | block => cases hvalue
    | declare | expr | ret => exact List.mem_flatMap.1 hvalue
  have hparts : ∀ x ∈ e.all, x ∈ t.exprs := fun x hx =>
    TypedFunction.mem_exprs_of_mem_body hs he hx
  exact ⟨t, ht, Piece.value_of_mem_exprs (h t ht) hparts hvalue⟩

/-- All leaves of a fragment shader are shared when there are no warnings and its numbers of type
number are finite. -/
theorem sharedLines_of_clean (hout : generate functions options = .ok out)
    (hclean : out.warnings = [])
    (hfinite : ∀ value, (value, .number) ∈ constants functions options → value.isFinite = true) :
    Dialect.SharedLines (lines functions options) := by
  rw [generate_eq] at hout
  obtain ⟨hspelled, -, hwarnings⟩ := Dialect.emit_eq_ok_iff.1 hout
  rw [hclean, eq_comm, List.flatMap_eq_nil_iff] at hwarnings
  intro l hl leaf hleaf
  have hmem : leaf ∈ (lines functions options).flatMap Line.leaves :=
    List.mem_flatMap.2 ⟨l, hl, hleaf⟩
  cases leaf with
  | word | given => rfl
  | number value ty =>
    cases ty with
    | number => exact hfinite value (Line.mem_constants.2 hmem)
    | _ => rfl
  | typeWord ty =>
    obtain ⟨word, hword⟩ := hspelled _ hmem
    have hcommon : commonTypeName? ty = some word := Dialect.typeName_eq_ok hword
    rw [Leaf.isShared, hcommon]
    rfl
  | gap warning => cases hwarnings _ hmem

end Glsl

/-- Where a fragment shader without a header has no warnings, and the known numbers of type number
are finite, there is code for materials without warnings.  It has as many lines, and differs at most
in points: where no number of type number in the fragment shader is whole, it is the same text. -/
theorem Embree.generate_of_clean_glsl {functions : List TypedFunction} {options : GlslOptions}
    {options' : EmbreeOptions} {out : Output}
    (h : ∀ t ∈ functions, ∃ f injections registry, Function.infer f injections registry = .ok t)
    (hfinite : ∀ t ∈ functions, ∀ e ∈ t.exprs, e.ty = .number →
      ∀ value, e.ascription.value = some (.number value) → value.isFinite = true)
    (hheader : options.omitHeader = true) (hheader' : options'.omitHeader = true)
    (hout : Glsl.generate functions options = .ok out) (hclean : out.warnings = []) :
    ∃ out', generate functions options' = .ok out' ∧ out'.warnings = [] ∧
      out'.code.toList.count '\n' = out.code.toList.count '\n' ∧
      Pointed out.code.toList out'.code.toList ∧
      ((∀ value, (value, .number) ∈ Glsl.constants functions options →
        Number.isWhole value = false) → out'.code = out.code) := by
  have hshared : Dialect.SharedLines (Glsl.lines functions options) := by
    refine Glsl.sharedLines_of_clean hout hclean fun value hvalue => ?_
    obtain ⟨t, ht, e, he, hty, hknown⟩ := Glsl.value_of_mem_constants h hvalue
    exact hfinite t ht e he hty value hknown
  rw [Glsl.generate_eq] at hout
  obtain ⟨out', hemit, hwarnings, hpointed, hsame⟩ := Dialect.emit_shared hshared hout
  rw [← Dialect.lines_shared hheader hheader' hshared, ← generate_eq] at hemit
  refine ⟨out', hemit, hwarnings.trans hclean, hpointed.count_newline, hpointed, ?_⟩
  exact fun hwhole => hsame fun value hvalue => hwhole value (Line.mem_constants.2 hvalue)

namespace Sample

/-- `function dim(k, n) { var c = new Color(n, k); c.r += k; return c.scale(k * n); }` -/
def dim : Function :=
  Bare.function "dim" ["k", "n"] [
    Bare.declare [("c", some (Bare.construct "Color" [Bare.ident "n", Bare.ident "k"]))],
    Bare.expr (Bare.assign (.compound .add) (Bare.member (Bare.ident "c") "r") (Bare.ident "k")),
    Bare.ret (some (Bare.call (Bare.member (Bare.ident "c") "scale")
      [Bare.binary (.arithmetic .mul) (Bare.ident "k") (Bare.ident "n")]))]

/-- A function without branches whose numbers are `7`, of type int, and `0.5` and `3.5`, of type
number, has the same code as a fragment shader and as a material. -/
theorem dim_common_code : ∃ t out out', dim.infer fixedNumbers registry = .ok t ∧
    Glsl.generate [t] { omitHeader := true } = .ok out ∧ out.warnings = [] ∧
    Embree.generate [t] { omitHeader := true } = .ok out' ∧ out'.warnings = [] ∧
    out'.code = out.code := by
  obtain ⟨t, out, hinfer, hout, hclean, hfinite, hwhole⟩ : ∃ t out,
      dim.infer fixedNumbers registry = .ok t ∧
      Glsl.generate [t] { omitHeader := true } = .ok out ∧ out.warnings = [] ∧
      (t.exprs.all fun e => e.ascription.number?.all Float.isFinite) = true ∧
      ((Glsl.constants [t] { omitHeader := true }).all fun c =>
        c.2 != .number || !Number.isWhole c.1) = true :=
    ⟨_, _, rfl, rfl, rfl, rfl, rfl⟩
  have hfunctions := Function.inferred_singleton hinfer
  have hnumbers : ∀ t' ∈ [t], ∀ e ∈ t'.exprs, e.ty = .number →
      ∀ value, e.ascription.value = some (.number value) → value.isFinite = true := by
    intro t' ht' e he _ value hvalue
    obtain rfl := List.mem_singleton.1 ht'
    have hall := List.all_eq_true.1 hfinite e he
    rw [Ascription.number?, hvalue] at hall
    exact hall
  obtain ⟨out', hout', hclean', -, -, hsame⟩ :=
    Embree.generate_of_clean_glsl hfunctions hnumbers rfl rfl hout hclean
  refine ⟨t, out, out', hinfer, hout, hclean, hout', hclean', hsame fun value hvalue => ?_⟩
  have hall := List.all_eq_true.1 hwhole (value, .number) hvalue
  simpa using hall

end Sample

end Shader
