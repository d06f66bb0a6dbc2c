import Shader.Proofs.Survey

/-!
# Where the leaves of a layout come from

Every leaf in the layout of an expression is there because of one part of the expression: a name, a
member or a string is written as such, a number stands for a part whose value is known, a type for a
constructor, a gap for a part that the target has no form for, and all else is punctuation and
operators.
-/

namespace Shader

/-- The texts that an expression brings into the code, without its parts. -/
def TypedExpr.ownTexts : TypedExpr → List String
  | .literal (some (.string s)) _ => [stringLiteral s]
  | .ident name _ => [name]
  | .member _ property _ => [property]
  | _ => []

/-- `LeafOf x leaf`: the leaf is in the code because of the expression `x`. -/
inductive LeafOf (x : TypedExpr) : Leaf → Prop where
  | word {text : String} : isQuiet text = true → LeafOf x (.word text)
  | given {text : String} : text ∈ x.ownTexts → LeafOf x (.given text)
  | known {value : Float} : x.propagated? = some value → LeafOf x (.number value x.ty)
  | literal {value : Float} {m : Mark} : x = .literal (some (.number value)) m →
      LeafOf x (.number value x.ty)
  | typeWord : LeafOf x (.typeWord x.ty)
  | gap : LeafOf x (.gap (.placeholder x.kindName))

/-- `LeavesOf es ps`: every leaf of the pieces is in the code because of one of the expressions. -/
def LeavesOf (es : List TypedExpr) (ps : List Piece) : Prop :=
  ∀ leaf ∈ Piece.leavesAll ps, ∃ x ∈ es, LeafOf x leaf

namespace LeavesOf

open Piece

variable {es es' : List TypedExpr} {ps qs : List Piece} {e : TypedExpr}

theorem nil : LeavesOf es [] := by
  intro leaf hleaf
  cases hleaf

theorem append (hp : LeavesOf es ps) (hq : LeavesOf es qs) : LeavesOf es (ps ++ qs) := by
  unfold LeavesOf
  rw [leavesAll_append, List.forall_mem_append]
  exact ⟨hp, hq⟩

theorem mono (h : LeavesOf es ps) (hes : es ⊆ es') : LeavesOf es' ps := by
  intro leaf hleaf
  obtain ⟨x, hx, hof⟩ := h leaf hleaf
  exact ⟨x, hes hx, hof⟩

theorem leaf {l : Leaf} (he : e ∈ es) (hl : LeafOf e l) (hp : LeavesOf es ps) :
    LeavesOf es (.leaf l :: ps) := by
  intro leaf hleaf
  rcases List.mem_cons.1 hleaf with rfl | hleaf
  · exact ⟨e, he, hl⟩
  · exact hp leaf hleaf

theorem word {text : String} (he : e ∈ es) (htext : isQuiet text = true) (hp : LeavesOf es ps) :
    LeavesOf es (.word text :: ps) := leaf he (.word htext) hp

theorem node {inside : List Piece} (h : LeavesOf es inside) (hp : LeavesOf es ps) :
    LeavesOf es (.node e inside :: ps) := by
  have happend := h.append hp
  unfold LeavesOf at happend ⊢
  rwa [leavesAll, leaves, ← leavesAll_append]

theorem operandPieces {d : Dialect} {inside : List Piece} {x : TypedExpr} (he : e ∈ es)
    (h : LeavesOf es inside) : LeavesOf es (d.operandPieces x inside) := by
  unfold Dialect.operandPieces
  split
  · exact word he rfl (node h (word he rfl nil))
  · exact node h nil

theorem intersperse (separator : String) (he : e ∈ es) (hs : isQuiet separator = true) :
    ∀ {ps : List Piece}, LeavesOf es ps → LeavesOf es (ps.intersperse (.word separator))
  | [], _ => nil
  | [p], h => h
  | p :: next :: rest, h => by
    have hboth : LeavesOf es [p] ∧ LeavesOf es (next :: rest) := by
      unfold LeavesOf at h ⊢
      rw [← List.singleton_append, leavesAll_append] at h
      exact List.forall_mem_append.1 h
    rw [List.intersperse_cons_cons]
    exact hboth.1.append (word he hs (intersperse separator he hs hboth.2))

end LeavesOf

namespace Dialect

open TypedExpr LeavesOf

variable {d : Dialect}

/-- Operators are quiet. -/
theorem isQuiet_binary (op : BinaryOp) : isQuiet (" " ++ op.text ++ " ") = true := by
  cases op with
  | arithmetic op => cases op <;> rfl
  | comparison op => cases op <;> rfl

theorem isQuiet_logical (op : LogicalOp) : isQuiet (" " ++ op.text ++ " ") = true := by
  cases op <;> rfl

theorem isQuiet_assign (op : AssignOp) : isQuiet (" " ++ op.text ++ " ") = true := by
  cases op with
  | plain => rfl
  | compound op => cases op <;> rfl

theorem isQuiet_unary (op : UnaryOp) : isQuiet op.text = true := by
  cases op <;> rfl

mutual

/-- The leaves in the layout of an expression come from its parts. -/
theorem leaves_inside (d : Dialect) (e : TypedExpr) : LeavesOf e.all (d.inside e) := by
  have hself : e ∈ e.all := self_mem_all e
  rw [inside.eq_def]
  cases hvalue : e.propagated? with
  | some value => exact leaf hself (.known hvalue) nil
  | none =>
    match e with
    | .literal (some (.number value)) m => exact leaf hself (.literal rfl) nil
    | .literal (some (.string s)) m => exact leaf hself (.given (List.mem_singleton_self _)) nil
    | .literal (some (.bool b)) m => exact word hself (by cases b <;> rfl) nil
    | .literal none m => exact leaf hself .gap nil
    | .ident name m => exact leaf hself (.given (List.mem_singleton_self _)) nil
    | .member object property m =>
      have hparts : object.all ⊆ (TypedExpr.member object property m).all :=
        List.subset_cons_self _ _
      have hobject := (leaves_inside d object).mono hparts
      refine node hobject (word hself rfl (leaf hself (.given ?_) nil))
      exact List.mem_singleton_self _
    | .call callee args m =>
      have hparts : callee.all ++ allArgs args ⊆ (TypedExpr.call callee args m).all :=
        List.subset_cons_self _ _
      obtain ⟨hc, ha⟩ := List.append_subset.1 hparts
      have hcallee := (leaves_inside d callee).mono hc
      have hargs := intersperse ", " hself rfl ((leaves_args d args).mono ha)
      exact (node hcallee (word hself rfl nil)).append (hargs.append (word hself rfl nil))
    | .construct name args m =>
      have hparts : allArgs args ⊆ (TypedExpr.construct name args m).all :=
        List.subset_cons_self _ _
      have hargs := intersperse ", " hself rfl ((leaves_args d args).mono hparts)
      exact (leaf hself .typeWord (word hself rfl nil)).append
        (hargs.append (word hself rfl nil))
    | .binary op left right m =>
      have hparts : left.all ++ right.all ⊆ (TypedExpr.binary op left right m).all :=
        List.subset_cons_self _ _
      obtain ⟨hl, hr⟩ := List.append_subset.1 hparts
      have hleft := (leaves_inside d left).mono hl
      have hright := (leaves_inside d right).mono hr
      exact (LeavesOf.operandPieces hself hleft).append
        (word hself (isQuiet_binary op) (LeavesOf.operandPieces hself hright))
    | .logical op left right m =>
      have hparts : left.all ++ right.all ⊆ (TypedExpr.logical op left right m).all :=
        List.subset_cons_self _ _
      obtain ⟨hl, hr⟩ := List.append_subset.1 hparts
      have hleft := (leaves_inside d left).mono hl
      have hright := (leaves_inside d right).mono hr
      exact (LeavesOf.operandPieces hself hleft).append
        (word hself (isQuiet_logical op) (LeavesOf.operandPieces hself hright))
    | .assign op target value m =>
      have hparts : target.all ++ value.all ⊆ (TypedExpr.assign op target value m).all :=
        List.subset_cons_self _ _
      obtain ⟨ht, hv⟩ := List.append_subset.1 hparts
      have htarget := (leaves_place d target).mono ht
      have hright := (leaves_inside d value).mono hv
      exact htarget.append (word hself (isQuiet_assign op) (node hright nil))
    | .conditional test consequent alternate m =>
      have hparts : test.all ++ (consequent.all ++ alternate.all) ⊆
          (TypedExpr.conditional test consequent alternate m).all := List.subset_cons_self _ _
      obtain ⟨ht, hca⟩ := List.append_subset.1 hparts
      obtain ⟨hc, ha⟩ := List.append_subset.1 hca
      have htest := (leaves_inside d test).mono ht
      have hconsequent := (leaves_inside d consequent).mono hc
      have halternate := (leaves_inside d alternate).mono ha
      simp only
      split
      · refine (LeavesOf.operandPieces hself htest).append (word hself rfl ?_)
        exact (LeavesOf.operandPieces hself hconsequent).append
          (word hself rfl (LeavesOf.operandPieces hself halternate))
      · exact leaf hself .gap nil
    | .unary op argument m =>
      have hparts : argument.all ⊆ (TypedExpr.unary op argument m).all :=
        List.subset_cons_self _ _
      have hargument := (leaves_inside d argument).mono hparts
      simp only
      split
      · exact word hself (isQuiet_unary op) (LeavesOf.operandPieces hself hargument)
      · exact leaf hself .gap nil
termination_by (sizeOf e, 0)

/-- The leaves in the layout of a target come from its parts. -/
theorem leaves_place (d : Dialect) (e : TypedExpr) :
    LeavesOf e.all (d.placePieces e (d.inside e)) := by
  have hself : e ∈ e.all := self_mem_all e
  rw [placePieces.eq_def]
  match e with
  | .ident name m => exact leaf hself (.given (List.mem_singleton_self _)) nil
  | .member object property m =>
    have hparts : object.all ⊆ (TypedExpr.member object property m).all :=
      List.subset_cons_self _ _
    have hobject := (leaves_place d object).mono hparts
    refine hobject.append (word hself rfl (leaf hself (.given ?_) nil))
    exact List.mem_singleton_self _
  | .literal _ _ | .call _ _ _ | .construct _ _ _ | .binary _ _ _ _
  | .logical _ _ _ _ | .assign _ _ _ _ | .conditional _ _ _ _ | .unary _ _ _ =>
    exact node (leaves_inside d _) nil
termination_by (sizeOf e, 1)

/-- The leaves in the layouts of arguments come from the parts of the arguments. -/
theorem leaves_args (d : Dialect) (es : List TypedExpr) :
    LeavesOf (allArgs es) (d.insideArgs es) := by
  match es with
  | [] =>
    rw [insideArgs]
    exact nil
  | e :: rest =>
    have hfirst := (leaves_inside d e).mono (List.subset_append_left e.all (allArgs rest))
    have hrest := (leaves_args d rest).mono (List.subset_append_right e.all (allArgs rest))
    rw [insideArgs, allArgs]
    exact node hfirst hrest
termination_by (sizeOf es, 0)

end

end Dialect

end Shader
