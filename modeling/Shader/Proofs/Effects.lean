import Shader.Proofs.Folding
import Shader.Proofs.Survey

/-!
# Effects stand in the code

Assignments, calls and constructors are what a program does.  Code for materials has each of them
exactly once, in the order of the program: the target has a form for every expression, and the parts
that are not rendered, because a value takes their place or because a target is written as a path,
have no effects.
-/

namespace Shader

namespace TypedExpr

/-- Whether an expression assigns, calls or constructs. -/
def isEffect : TypedExpr → Bool
  | .assign _ _ _ _ | .call _ _ _ | .construct _ _ _ => true
  | _ => false

/-- Whether an expression evaluates some of its operands only when they are needed. -/
def isLazy : TypedExpr → Bool
  | .logical _ _ _ _ | .conditional _ _ _ _ => true
  | _ => false

theorem isEffect_eq_false_of_isFoldable {e : TypedExpr} (h : e.isFoldable = true) :
    e.isEffect = false := by
  cases e with
  | assign | call | construct => cases h
  | _ => rfl

theorem isLazy_eq_false_of_isFoldable {e : TypedExpr} (h : e.isFoldable = true) :
    e.isLazy = false := by
  cases e with
  | logical | conditional => cases h
  | _ => rfl

theorem all_eq_cons (e : TypedExpr) : e.all = e :: e.all.tail := by
  cases e <;> rfl

end TypedExpr

/-! ## The expressions in a layout -/

namespace Piece

variable {q : TypedExpr → Bool}

/-- The expressions in pieces that satisfy a condition, with their pieces. -/
def visits (q : TypedExpr → Bool) (ps : List Piece) : List (TypedExpr × List Piece) :=
  (nodesAll ps).filter fun n => q n.1

/-- Words, names and types are no expressions. -/
theorem visits_survey : Survey (visits q) fun _ => True where
  append := by
    intro ps qs
    rw [visits, nodesAll_append, List.filter_append]
    rfl
  word _ := rfl
  given _ := rfl
  typeWord _ := rfl

@[simp] theorem visits_nil : visits q [] = [] := rfl

@[simp] theorem visits_append (ps qs : List Piece) :
    visits q (ps ++ qs) = visits q ps ++ visits q qs := visits_survey.append ps qs

@[simp] theorem visits_leaf (leaf : Leaf) (rest : List Piece) :
    visits q (.leaf leaf :: rest) = visits q rest := rfl

@[simp] theorem visits_word (text : String) (rest : List Piece) :
    visits q (.word text :: rest) = visits q rest := rfl

@[simp] theorem visits_given (text : String) (rest : List Piece) :
    visits q (.given text :: rest) = visits q rest := rfl

theorem visits_cons (p : Piece) (rest : List Piece) :
    visits q (p :: rest) = visits q [p] ++ visits q rest := visits_survey.cons p rest

end Piece

namespace Piece

mutual

/-- The leaves of an expression in a piece are leaves of the piece. -/
theorem leaves_subset {e : TypedExpr} {inside : List Piece} : ∀ {p : Piece},
    (e, inside) ∈ p.nodes → leavesAll inside ⊆ p.leaves
  | .node x ps, h => by
    rw [nodes] at h
    rw [leaves]
    rcases List.mem_cons.1 h with heq | h
    · obtain ⟨rfl, rfl⟩ := Prod.mk.inj heq
      exact List.Subset.refl _
    · exact leavesAll_subset h

/-- The leaves of an expression in some pieces are leaves of the pieces. -/
theorem leavesAll_subset {e : TypedExpr} {inside : List Piece} : ∀ {ps : List Piece},
    (e, inside) ∈ nodesAll ps → leavesAll inside ⊆ leavesAll ps
  | p :: rest, h => by
    rw [nodesAll] at h
    rw [leavesAll]
    rcases List.mem_append.1 h with h | h
    · exact List.subset_append_of_subset_left _ (leaves_subset h)
    · exact List.subset_append_of_subset_right _ (leavesAll_subset h)

end

end Piece

/-- An expression with its layout. -/
def Dialect.drawn (d : Dialect) (e : TypedExpr) : TypedExpr × List Piece := (e, d.inside e)

/-- `Exposes q es`: of the expressions `es`, no replaced one has a part that satisfies `q`. -/
def TypedExpr.Exposes (q : TypedExpr → Bool) (es : List TypedExpr) : Prop :=
  ∀ x ∈ es, x.propagated?.isSome = true → ∀ y ∈ x.all, q y = false

theorem TypedExpr.exposes_append {q : TypedExpr → Bool} {es es' : List TypedExpr} :
    Exposes q (es ++ es') ↔ Exposes q es ∧ Exposes q es' := List.forall_mem_append

theorem TypedExpr.Exposes.tail {q : TypedExpr → Bool} {e : TypedExpr} {es : List TypedExpr}
    (h : Exposes q (e :: es)) : Exposes q es := (List.forall_mem_cons.1 h).2

namespace Dialect

open TypedExpr Piece

variable {q : TypedExpr → Bool} {d : Dialect}

theorem visits_node {e : TypedExpr}
    (h : visits q (d.inside e) = (e.all.tail.filter q).map d.drawn) :
    visits q [.node e (d.inside e)] = (e.all.filter q).map d.drawn := by
  have hnode : nodesAll [.node e (d.inside e)] = (e, d.inside e) :: nodesAll (d.inside e) := by
    rw [nodesAll, nodes, nodesAll, List.append_nil]
  rw [visits, hnode, List.filter_cons, all_eq_cons e, List.filter_cons]
  change (if q e then _ :: visits q (d.inside e) else visits q (d.inside e)) = _
  rw [h]
  split
  · rfl
  · rfl

/-- An expression on a line is rendered to the text that its layout has there. -/
theorem expr_of_mem_nodes {ls : List Line} {l : Line} {e : TypedExpr}
    (hspelled : ∀ leaf ∈ ls.flatMap Line.leaves, ∃ code, d.spell leaf = .ok code) (hl : l ∈ ls)
    (he : d.drawn e ∈ nodesAll l.pieces) :
    d.expr e = .ok (d.text (leavesAll (d.inside e)),
      (leavesAll (d.inside e)).flatMap Leaf.warnings) := by
  have hinside : ∀ leaf ∈ leavesAll (d.inside e), ∃ code, d.spell leaf = .ok code := by
    intro leaf hleaf
    have hline : leaf ∈ l.leaves := leavesAll_subset he hleaf
    exact hspelled leaf (List.mem_flatMap.2 ⟨l, hl, hline⟩)
  rw [expr_eq_read]
  exact yields_read_iff.2 ⟨hinside, rfl, rfl⟩

/-- Parentheses make no difference. -/
theorem visits_operand (e : TypedExpr) (inside : List Piece) :
    visits q (d.operandPieces e inside) = visits q [.node e inside] := by
  unfold operandPieces
  split
  · rw [visits_word, visits_cons, visits_word, visits_nil, List.append_nil]
  · rfl

mutual

/-- Where replaced parts have nothing that satisfies a condition, and neither have names and
members, everything that satisfies it is rendered, in order. -/
theorem visits_inside (hq : ∀ e, e.isPlace = true → q e = false) (e : TypedExpr)
    (h : Exposes q e.all) :
    visits q (embree.inside e) = (e.all.tail.filter q).map embree.drawn := by
  rw [inside.eq_def]
  cases hvalue : e.propagated? with
  | some value =>
    -- The layout is one number.  By exposure nothing is lost with the parts that it replaces.
    have hnone : e.all.tail.filter q = [] := by
      rw [List.filter_eq_nil_iff]
      intro x hx
      have hpart : x ∈ e.all := List.mem_of_mem_tail hx
      rw [h e (self_mem_all e) (by rw [hvalue]; rfl) x hpart]
      exact Bool.false_ne_true
    rw [hnone]
    rfl
  | none =>
    simp only
    match e with
    | .literal (some (.number value)) m => rfl
    | .literal (some (.string s)) m => rfl
    | .literal (some (.bool b)) m => rfl
    | .literal none m => rfl
    | .ident name m => rfl
    | .member object property m =>
      have hobject := visits_node (visits_inside hq object h.tail)
      rw [visits_cons, hobject]
      simp [all]
    | .call callee args m =>
      obtain ⟨hc, ha⟩ := exposes_append.1 h.tail
      have hcallee := visits_node (visits_inside hq callee hc)
      have hargs := visits_args hq args ha
      rw [visits_append, visits_cons, hcallee, visits_append, visits_survey.intersperse rfl, hargs]
      simp [all]
    | .construct name args m =>
      have hargs := visits_args hq args h.tail
      rw [visits_append, visits_append, visits_survey.intersperse rfl, hargs]
      simp [all]
    | .binary op left right m =>
      obtain ⟨hl, hr⟩ := exposes_append.1 h.tail
      have hleft := visits_node (visits_inside hq left hl)
      have hright := visits_node (visits_inside hq right hr)
      rw [visits_append, visits_word, visits_operand, visits_operand, hleft, hright]
      simp [all]
    | .logical op left right m =>
      obtain ⟨hl, hr⟩ := exposes_append.1 h.tail
      have hleft := visits_node (visits_inside hq left hl)
      have hright := visits_node (visits_inside hq right hr)
      rw [visits_append, visits_word, visits_operand, visits_operand, hleft, hright]
      simp [all]
    | .assign op target value m =>
      obtain ⟨ht, hv⟩ := exposes_append.1 h.tail
      have htarget := visits_place hq target ht
      have hvalue := visits_node (visits_inside hq value hv)
      rw [visits_append, visits_word, htarget, hvalue]
      simp [all]
    | .conditional test consequent alternate m =>
      obtain ⟨ht, hca⟩ := exposes_append.1 h.tail
      obtain ⟨hc, ha⟩ := exposes_append.1 hca
      have htest := visits_node (visits_inside hq test ht)
      have hconsequent := visits_node (visits_inside hq consequent hc)
      have halternate := visits_node (visits_inside hq alternate ha)
      simp only
      rw [if_pos (show embree.hasConditional = true from rfl), visits_append, visits_word,
        visits_append, visits_word, visits_operand, visits_operand, visits_operand, htest,
        hconsequent, halternate]
      simp [all]
    | .unary op argument m =>
      have hargument := visits_node (visits_inside hq argument h.tail)
      simp only
      rw [if_pos (show embree.hasUnary = true from rfl), visits_word, visits_operand, hargument]
      simp [all]
termination_by (sizeOf e, 0)

/-- The target of an assignment is rendered with all that stands in it. -/
theorem visits_place (hq : ∀ e, e.isPlace = true → q e = false) (e : TypedExpr)
    (h : Exposes q e.all) :
    visits q (embree.placePieces e (embree.inside e)) = (e.all.filter q).map embree.drawn := by
  rw [placePieces.eq_def]
  match e with
  | .ident name m =>
    have hname : q (.ident name m) = false := hq _ rfl
    rw [all, List.filter_singleton, hname]
    rfl
  | .member object property m =>
    have hmember : ¬ q (.member object property m) = true := by
      rw [hq _ rfl]
      exact Bool.false_ne_true
    have hobject := visits_place hq object h.tail
    rw [visits_append, hobject, all, List.filter_cons_of_neg hmember]
    simp
  | .literal _ _ | .call _ _ _ | .construct _ _ _ | .binary _ _ _ _
  | .logical _ _ _ _ | .assign _ _ _ _ | .conditional _ _ _ _ | .unary _ _ _ =>
    exact visits_node (visits_inside hq _ h)
termination_by (sizeOf e, 1)

/-- Arguments are rendered one after the other. -/
theorem visits_args (hq : ∀ e, e.isPlace = true → q e = false) (es : List TypedExpr)
    (h : Exposes q (allArgs es)) :
    visits q (embree.insideArgs es) = ((allArgs es).filter q).map embree.drawn := by
  match es with
  | [] => rfl
  | e :: rest =>
    obtain ⟨he, hrest⟩ := exposes_append.1 h
    have hfirst := visits_node (visits_inside hq e he)
    rw [insideArgs, visits_cons, hfirst, visits_args hq rest hrest, allArgs, List.filter_append,
      List.map_append]
termination_by (sizeOf es, 0)

end

end Dialect

/-! ## Programs -/

namespace Embree

open TypedExpr

variable {q : TypedExpr → Bool} {functions : List TypedFunction} {options : EmbreeOptions}

/-- Everything in a program that satisfies a condition is rendered once and in order, where replaced
expressions, names and members do not satisfy it. -/
theorem visits_lines (hq : ∀ e, e.isPlace = true → q e = false)
    (h : ∀ t ∈ functions, Exposes q t.exprs) :
    Line.survey (Piece.visits q) (lines functions options) =
      ((functions.flatMap TypedFunction.exprs).filter q).map Dialect.embree.drawn := by
  have hroots : ∀ e ∈ functions.flatMap TypedFunction.roots, Exposes q e.all := by
    intro e he x hx
    obtain ⟨t, ht, hroot⟩ := List.mem_flatMap.1 he
    exact h t ht x (TypedFunction.mem_exprs_of_mem_roots hroot hx)
  rw [survey_lines Piece.visits_survey fun _ _ _ _ => trivial, TypedFunction.flatMap_exprs,
    List.filter_flatMap, List.map_flatMap]
  refine List.flatMap_congr fun e he => Dialect.visits_node ?_
  exact Dialect.visits_inside hq e (hroots e he)

/-- A value is known only of literals, names, members and operations on such, so an expression that
is replaced by its value has no effect and no branch in it.  The code of a material is what stands
on the leaves of its layout.  The expressions with effects in that layout are those of the program,
each once and in order, with its own layout, whose leaves have the text that it is rendered to. -/
theorem effects_in_order
    (h : ∀ t ∈ functions, ∃ f injections registry, Function.infer f injections registry = .ok t) :
    (∀ t ∈ functions, ∀ e ∈ t.exprs, e.ascription.value.isSome = true →
      ∀ x ∈ e.all, x.isFoldable = true) ∧
    (∀ t ∈ functions, ∀ e ∈ t.exprs, ∀ value, e.propagated? = some value →
      (∀ d : Dialect, d.expr e = .ofExcept (d.number value e.ty)) ∧
        ∀ x ∈ e.all, x.isEffect = false ∧ x.isLazy = false) ∧
    ∀ options out, generate functions options = .ok out →
      out.code = Dialect.embree.text
        (Piece.leavesAll (Dialect.embree.codePieces (lines functions options))) ∧
      Piece.visits isEffect (Dialect.embree.codePieces (lines functions options)) =
        ((functions.flatMap TypedFunction.exprs).filter isEffect).map
          (fun e => (e, Dialect.embree.inside e)) ∧
      ∀ t ∈ functions, ∀ e ∈ t.exprs, e.isEffect = true →
        Dialect.embree.expr e =
          .ok (Dialect.embree.text (Piece.leavesAll (Dialect.embree.inside e)),
            (Piece.leavesAll (Dialect.embree.inside e)).flatMap Leaf.warnings) := by
  have hfoldable : ∀ t ∈ functions, ∀ e ∈ t.exprs, e.ascription.value.isSome = true →
      ∀ x ∈ e.all, x.isFoldable = true := by
    intro t ht e he hvalue
    obtain ⟨f, injections, registry, hinfer⟩ := h t ht
    exact Function.isFoldable_of_value hinfer he hvalue
  have hreplaced : ∀ t ∈ functions, ∀ e ∈ t.exprs, ∀ value, e.propagated? = some value →
      ∀ x ∈ e.all, x.isFoldable = true := by
    intro t ht e he value hvalue
    apply hfoldable t ht e he
    rw [value_of_propagated? hvalue]
    rfl
  have hexposes : ∀ t ∈ functions, Exposes isEffect t.exprs := by
    intro t ht e he hsome x hx
    obtain ⟨value, hvalue⟩ := Option.isSome_iff_exists.1 hsome
    exact isEffect_eq_false_of_isFoldable (hreplaced t ht e he value hvalue x hx)
  have hplace : ∀ e : TypedExpr, e.isPlace = true → e.isEffect = false :=
    fun e he => isEffect_eq_false_of_isFoldable (isFoldable_of_isPlace he)
  refine ⟨hfoldable, ?_, ?_⟩
  · intro t ht e he value hvalue
    refine ⟨fun d => Dialect.expr_of_propagated? hvalue, fun x hx => ?_⟩
    have hx := hreplaced t ht e he value hvalue x hx
    exact ⟨isEffect_eq_false_of_isFoldable hx, isLazy_eq_false_of_isFoldable hx⟩
  · intro options out hout
    rw [generate_eq] at hout
    obtain ⟨hspelled, hcode, -⟩ := Dialect.emit_eq_ok_iff.1 hout
    have hlines : Line.survey (Piece.visits isEffect) (lines functions options) =
        ((functions.flatMap TypedFunction.exprs).filter isEffect).map Dialect.embree.drawn :=
      visits_lines hplace hexposes
    have hpieces : Piece.visits isEffect (Dialect.embree.codePieces (lines functions options)) =
        Line.survey (Piece.visits isEffect) (lines functions options) :=
      Piece.visits_survey.codePieces _
    refine ⟨?_, hpieces.trans hlines, ?_⟩
    · rw [Dialect.text_codePieces, hcode]
    · intro t ht e he heffect
      have hdrawn : Dialect.embree.drawn e ∈
          Line.survey (Piece.visits isEffect) (lines functions options) := by
        rw [hlines]
        exact List.mem_map_of_mem
          (List.mem_filter.2 ⟨List.mem_flatMap.2 ⟨t, ht, he⟩, heffect⟩)
      obtain ⟨l, hl, hvisit⟩ := List.mem_flatMap.1 hdrawn
      exact Dialect.expr_of_mem_nodes hspelled hl (List.mem_filter.1 hvisit).1

end Embree

theorem Function.inferred_singleton {f : Function} {injections : Injections} {registry : Registry}
    {t : TypedFunction} (h : f.infer injections registry = .ok t) :
    ∀ t' ∈ [t], ∃ f injections registry, Function.infer f injections registry = .ok t' := by
  intro t' ht'
  obtain rfl := List.mem_singleton.1 ht'
  exact ⟨f, injections, registry, h⟩

namespace Sample

/-- A number and an integer whose values are known. -/
def fixedNumbers : Injections :=
  ⟨[("k", ⟨.number, some (.number 0.5)⟩), ("n", ⟨.int, some (.number (Number.ofInt 7))⟩)]⟩

/-- In the code of a function whose parameters are replaced by numbers, the constructor, the
assignment and the call stand one after the other, and nothing else with an effect. -/
theorem lit_effects_in_order : ∃ t out, lit.infer fixedNumbers registry = .ok t ∧
    Embree.generate [t] {} = .ok out ∧ (t.exprs.filter TypedExpr.isEffect).length = 3 ∧
    out.code = Dialect.embree.text
      (Piece.leavesAll (Dialect.embree.codePieces (Embree.lines [t] {}))) ∧
    Piece.visits TypedExpr.isEffect (Dialect.embree.codePieces (Embree.lines [t] {})) =
      (t.exprs.filter TypedExpr.isEffect).map (fun e => (e, Dialect.embree.inside e)) := by
  obtain ⟨t, out, hinfer, hout, hlength⟩ : ∃ t out, lit.infer fixedNumbers registry = .ok t ∧
      Embree.generate [t] {} = .ok out ∧ (t.exprs.filter TypedExpr.isEffect).length = 3 :=
    ⟨_, _, rfl, rfl, rfl⟩
  have hfunctions := Function.inferred_singleton hinfer
  obtain ⟨hcode, heffects, -⟩ := (Embree.effects_in_order hfunctions).2.2 {} out hout
  rw [List.flatMap_singleton] at heffects
  exact ⟨t, out, hinfer, hout, hlength, hcode, heffects⟩

end Sample

end Shader
