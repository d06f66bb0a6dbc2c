import Shader.Proofs.Effects

/-!
# Gaps in generated code

A gap is left in the code where the target has no form for an expression.  What lies below the
expression is not rendered, so only the outermost such parts of an expression count.  Below a value
that takes the place of an expression there is no gap to be left: everything there but names and
members is replaced by its value as well.
-/

namespace Shader

namespace TypedExpr

mutual

/-- The outermost parts of an expression that satisfy a condition, in source order. -/
def topmost (p : TypedExpr → Bool) (e : TypedExpr) : List TypedExpr :=
  if p e then [e]
  else
    match e with
    | .literal _ _ | .ident _ _ => []
    | .member object _ _ => object.topmost p
    | .call callee args _ => callee.topmost p ++ topmostArgs p args
    | .construct _ args _ => topmostArgs p args
    | .binary _ left right _ | .logical _ left right _ => left.topmost p ++ right.topmost p
    | .assign _ target value _ => target.topmost p ++ value.topmost p
    | .conditional test consequent alternate _ =>
      test.topmost p ++ (consequent.topmost p ++ alternate.topmost p)
    | .unary _ argument _ => argument.topmost p

/-- The outermost parts of arguments that satisfy a condition. -/
def topmostArgs (p : TypedExpr → Bool) : List TypedExpr → List TypedExpr
  | [] => []
  | e :: rest => e.topmost p ++ topmostArgs p rest

end

variable {p : TypedExpr → Bool}

theorem topmost_of_pos {e : TypedExpr} (h : p e = true) : e.topmost p = [e] := by
  rw [topmost.eq_def, if_pos h]

mutual

/-- Where what satisfies the condition has no parts, nothing lies below another. -/
theorem topmost_eq_filter (e : TypedExpr) (h : ∀ x ∈ e.all, p x = true → x.all = [x]) :
    e.topmost p = e.all.filter p := by
  by_cases hp : p e = true
  · rw [topmost_of_pos hp, h e (self_mem_all e) hp, List.filter_singleton, hp]
    rfl
  · have htail : ∀ x ∈ e.all.tail, p x = true → x.all = [x] :=
      fun x hx => h x (List.mem_of_mem_tail hx)
    rw [topmost.eq_def, if_neg hp, all_eq_cons, List.filter_cons_of_neg hp]
    match e with
    | .literal value m => rfl
    | .ident name m => rfl
    | .member object property m => exact topmost_eq_filter object htail
    | .call callee args m =>
      obtain ⟨hc, ha⟩ := List.forall_mem_append.1 htail
      simp only [topmost_eq_filter callee hc, topmostArgs_eq_filter args ha, all, List.tail_cons,
        List.filter_append]
    | .construct name args m => exact topmostArgs_eq_filter args htail
    | .binary op left right m =>
      obtain ⟨hl, hr⟩ := List.forall_mem_append.1 htail
      simp only [topmost_eq_filter left hl, topmost_eq_filter right hr, all, List.tail_cons,
        List.filter_append]
    | .logical op left right m =>
      obtain ⟨hl, hr⟩ := List.forall_mem_append.1 htail
      simp only [topmost_eq_filter left hl, topmost_eq_filter right hr, all, List.tail_cons,
        List.filter_append]
    | .assign op target value m =>
      obtain ⟨ht, hv⟩ := List.forall_mem_append.1 htail
      simp only [topmost_eq_filter target ht, topmost_eq_filter value hv, all, List.tail_cons,
        List.filter_append]
    | .conditional test consequent alternate m =>
      obtain ⟨ht, hca⟩ := List.forall_mem_append.1 htail
      obtain ⟨hc, ha⟩ := List.forall_mem_append.1 hca
      simp only [topmost_eq_filter test ht, topmost_eq_filter consequent hc,
        topmost_eq_filter alternate ha, all, List.tail_cons, List.filter_append]
    | .unary op argument m => exact topmost_eq_filter argument htail

theorem topmostArgs_eq_filter (es : List TypedExpr)
    (h : ∀ x ∈ allArgs es, p x = true → x.all = [x]) :
    topmostArgs p es = (allArgs es).filter p := by
  match es with
  | [] => rfl
  | e :: rest =>
    obtain ⟨he, hrest⟩ := List.forall_mem_append.1 h
    rw [topmostArgs, allArgs, List.filter_append, topmost_eq_filter e he,
      topmostArgs_eq_filter rest hrest]

end

/-- Nothing is outermost where nothing satisfies the condition. -/
theorem topmost_eq_nil {e : TypedExpr} (h : ∀ x ∈ e.all, p x = false) : e.topmost p = [] := by
  have hnone : ∀ x ∈ e.all, ¬ p x = true := fun x hx => by
    rw [h x hx]
    exact Bool.false_ne_true
  rw [topmost_eq_filter e fun x hx hp => absurd hp (hnone x hx)]
  exact List.filter_eq_nil_iff.2 hnone

end TypedExpr

/-! ## Gaps in a layout -/

namespace Piece

/-- The warnings for the gaps in pieces. -/
def gaps (ps : List Piece) : List Warning := (leavesAll ps).flatMap Leaf.warnings

/-- Words, names and types are no gaps. -/
theorem gaps_survey : Survey gaps fun _ => True :=
  .ofLeaves (fun _ => rfl) (fun _ => rfl) (fun _ => rfl)

theorem gaps_node (e : TypedExpr) (inside : List Piece) : gaps [.node e inside] = gaps inside := by
  rw [gaps, leavesAll, leaves, leavesAll, List.append_nil]
  rfl

end Piece

namespace Dialect

open TypedExpr Piece

variable {d : Dialect}

/-- Whether a language has no form for an expression that is not replaced by its value. -/
def lacks (d : Dialect) (e : TypedExpr) : Bool :=
  e.propagated?.isNone &&
    match e with
    | .literal none _ => true
    | .conditional _ _ _ _ => !d.hasConditional
    | .unary _ _ _ => !d.hasUnary
    | _ => false

/-- The warning for an expression that a language has no form for. -/
def placeholderFor (e : TypedExpr) : Warning := .placeholder e.kindName

theorem gaps_operand (e : TypedExpr) (inside : List Piece) :
    gaps (d.operandPieces e inside) = gaps inside := by
  unfold operandPieces
  split
  · rw [gaps_survey.word_cons rfl, gaps_survey.cons, gaps_survey.word rfl, gaps_node,
      List.append_nil]
  · exact gaps_node e inside

theorem gaps_word (text : String) (ps : List Piece) : gaps (.word text :: ps) = gaps ps := rfl

mutual

/-- Where replaced parts have forms in the language, the gaps are the outermost parts that have
none. -/
theorem gaps_inside (e : TypedExpr) (h : Exposes d.lacks e.all) :
    gaps (d.inside e) = (e.topmost d.lacks).map placeholderFor := by
  rw [inside.eq_def]
  cases hvalue : e.propagated? with
  | some value =>
    rw [topmost_eq_nil (h e (self_mem_all e) (by rw [hvalue]; rfl))]
    rfl
  | none =>
    rw [topmost.eq_def]
    match e with
    | .literal (some (.number value)) m | .literal (some (.string s)) m
    | .literal (some (.bool b)) m | .ident name m =>
      simp only [lacks, Bool.and_false, Bool.false_eq_true, if_false]
      rfl
    | .literal none m =>
      have hlacks : d.lacks (.literal none m) = true := by
        rw [lacks, hvalue]
        rfl
      rw [if_pos hlacks]
      rfl
    | .member object property m =>
      have hlacks : d.lacks (.member object property m) = false := Bool.and_false _
      have hobject := gaps_inside object h.tail
      simp only [hlacks, Bool.false_eq_true, if_false]
      rw [gaps_survey.cons, gaps_node, hobject]
      exact List.append_nil _
    | .call callee args m =>
      have hlacks : d.lacks (.call callee args m) = false := Bool.and_false _
      obtain ⟨hc, ha⟩ := exposes_append.1 h.tail
      have hcallee := gaps_inside callee hc
      have hargs := gaps_args args ha
      simp only [hlacks, Bool.false_eq_true, if_false]
      rw [gaps_survey.append, gaps_survey.cons, gaps_node, hcallee, gaps_survey.append,
        gaps_survey.intersperse rfl, hargs, gaps_survey.word rfl, gaps_survey.word rfl,
        List.append_nil, List.append_nil, List.map_append]
    | .construct name args m =>
      have hlacks : d.lacks (.construct name args m) = false := Bool.and_false _
      have hargs := gaps_args args h.tail
      simp only [hlacks, Bool.false_eq_true, if_false]
      rw [gaps_survey.append, gaps_survey.append, gaps_survey.intersperse rfl, hargs,
        gaps_survey.word rfl, List.append_nil]
      rfl
    | .binary op left right m =>
      have hlacks : d.lacks (.binary op left right m) = false := Bool.and_false _
      obtain ⟨hl, hr⟩ := exposes_append.1 h.tail
      have hleft := gaps_inside left hl
      have hright := gaps_inside right hr
      simp only [hlacks, Bool.false_eq_true, if_false]
      rw [gaps_survey.append, gaps_word, gaps_operand, gaps_operand, hleft, hright,
        List.map_append]
    | .logical op left right m =>
      have hlacks : d.lacks (.logical op left right m) = false := Bool.and_false _
      obtain ⟨hl, hr⟩ := exposes_append.1 h.tail
      have hleft := gaps_inside left hl
      have hright := gaps_inside right hr
      simp only [hlacks, Bool.false_eq_true, if_false]
      rw [gaps_survey.append, gaps_word, gaps_operand, gaps_operand, hleft, hright,
        List.map_append]
    | .assign op target value m =>
      have hlacks : d.lacks (.assign op target value m) = false := Bool.and_false _
      obtain ⟨ht, hv⟩ := exposes_append.1 h.tail
      have htarget := gaps_place target ht
      have hright := gaps_inside value hv
      simp only [hlacks, Bool.false_eq_true, if_false]
      rw [gaps_survey.append, gaps_word, gaps_node, htarget, hright, List.map_append]
    | .conditional test consequent alternate m =>
      have hlacks : d.lacks (.conditional test consequent alternate m) = !d.hasConditional := by
        rw [lacks, hvalue]
        rfl
      obtain ⟨ht, hca⟩ := exposes_append.1 h.tail
      obtain ⟨hc, ha⟩ := exposes_append.1 hca
      have htest := gaps_inside test ht
      have hconsequent := gaps_inside consequent hc
      have halternate := gaps_inside alternate ha
      cases hform : d.hasConditional with
      | true =>
        simp only [hlacks, hform, Bool.not_true, Bool.false_eq_true, if_false, if_true]
        rw [gaps_survey.append, gaps_word, gaps_survey.append, gaps_word, gaps_operand,
          gaps_operand, gaps_operand, htest, hconsequent, halternate, List.map_append,
          List.map_append]
      | false =>
        simp only [hlacks, hform, Bool.not_false, Bool.false_eq_true, if_false, if_true]
        rfl
    | .unary op argument m =>
      have hlacks : d.lacks (.unary op argument m) = !d.hasUnary := by
        rw [lacks, hvalue]
        rfl
      have hargument := gaps_inside argument h.tail
      cases hform : d.hasUnary with
      | true =>
        simp only [hlacks, hform, Bool.not_true, Bool.false_eq_true, if_false, if_true]
        rw [gaps_word, gaps_operand, hargument]
      | false =>
        simp only [hlacks, hform, Bool.not_false, Bool.false_eq_true, if_false, if_true]
        rfl
termination_by (sizeOf e, 0)

/-- The gaps in the target of an assignment. -/
theorem gaps_place (e : TypedExpr) (h : Exposes d.lacks e.all) :
    gaps (d.placePieces e (d.inside e)) = (e.topmost d.lacks).map placeholderFor := by
  rw [placePieces.eq_def]
  match e with
  | .ident name m =>
    have hlacks : d.lacks (.ident name m) = false := Bool.and_false _
    rw [topmost.eq_def, hlacks]
    rfl
  | .member object property m =>
    have hlacks : d.lacks (.member object property m) = false := Bool.and_false _
    have hobject := gaps_place object h.tail
    rw [topmost.eq_def]
    simp only [hlacks, Bool.false_eq_true, if_false]
    rw [gaps_survey.append, hobject]
    exact List.append_nil _
  | .literal _ _ | .call _ _ _ | .construct _ _ _ | .binary _ _ _ _
  | .logical _ _ _ _ | .assign _ _ _ _ | .conditional _ _ _ _ | .unary _ _ _ =>
    exact (gaps_node _ _).trans (gaps_inside _ h)
termination_by (sizeOf e, 1)

/-- The gaps in arguments. -/
theorem gaps_args (es : List TypedExpr) (h : Exposes d.lacks (allArgs es)) :
    gaps (d.insideArgs es) = (topmostArgs d.lacks es).map placeholderFor := by
  match es with
  | [] => rfl
  | e :: rest =>
    obtain ⟨he, hrest⟩ := exposes_append.1 h
    have hfirst := gaps_inside e he
    rw [insideArgs, gaps_survey.cons, gaps_node, hfirst, gaps_args rest hrest, topmostArgs,
      List.map_append]
termination_by (sizeOf es, 0)

end

end Dialect

/-! ## Functions -/

namespace Dialect

variable {d : Dialect}

/-- A language has forms for everything below a replaced expression. -/
theorem exposes_lacks {f : Function} {injections : Injections} {registry : Registry}
    {t : TypedFunction} (d : Dialect) (h : f.infer injections registry = .ok t) :
    TypedExpr.Exposes d.lacks t.exprs := by
  intro e he hreplaced x hx
  -- Names and members have a form in every language, and all else below is replaced, too.
  rcases Function.isPlace_or_propagated h he hreplaced x hx with hplace | hvalue
  · cases x with
    | ident | member => exact Bool.and_false _
    | _ => cases hplace
  · obtain ⟨value, hvalue⟩ := Option.isSome_iff_exists.1 hvalue
    unfold lacks
    rw [hvalue]
    rfl

/-- The gaps in an expression of a function. -/
theorem gaps_of_root {f : Function} {injections : Injections} {registry : Registry}
    {t : TypedFunction} (d : Dialect) (h : f.infer injections registry = .ok t) {e : TypedExpr}
    (he : e ∈ t.exprs) :
    Piece.gaps [.node e (d.inside e)] = (e.topmost d.lacks).map placeholderFor := by
  rw [Piece.gaps_node]
  refine gaps_inside e fun x hx => ?_
  exact exposes_lacks d h x (TypedStmt.all_subset_exprsAll he x hx)

/-- The warnings of an output are those for the gaps on its lines. -/
theorem warnings_of_emit {ls : List Line} {out : Output} (h : d.emit ls = .ok out) :
    out.warnings = Line.survey Piece.gaps ls := by
  rw [(emit_eq_ok_iff.1 h).2.2, List.flatMap_assoc]
  rfl

end Dialect

end Shader
