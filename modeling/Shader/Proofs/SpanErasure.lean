import Shader.Proofs.Location
import Shader.Target.Fragment
import Shader.Target.Material

/-!
# Source positions do not matter

A tree without its spans is a bare tree.  Two programs that differ in spans only have the same bare
tree, so that it is enough to compare a program with its bare one: inference commutes with leaving
out the spans, of trees, errors and noted returns alike (`Program.bare_infer`), and code generation
does not see them (`Glsl.generate_bare`, `Embree.generate_bare`).

Inference is a step on a state, and `Infer.Bares` says that one step is the bare form of another: it
is closed under sequence, which leaves one equation for each check.
-/

namespace Shader

/-! ## Bare trees -/

/-- A name without its place. -/
def Ident.bare (i : Ident) : Ident := ⟨i.name, none⟩

namespace Expr

mutual

/-- An expression without spans. -/
def bare : Expr → Expr
  | .literal l _ => .literal l none
  | .ident name _ => .ident name none
  | .member object property _ => .member object.bare property.bare none
  | .index object i _ => .index object.bare i.bare none
  | .call callee args _ => .call callee.bare (bareArgs args) none
  | .construct callee args _ => .construct callee.bare (bareArgs args) none
  | .binary op left right _ => .binary op left.bare right.bare none
  | .logical op left right _ => .logical op left.bare right.bare none
  | .assign op target value _ => .assign op target.bare value.bare none
  | .conditional test consequent alternate _ =>
    .conditional test.bare consequent.bare alternate.bare none
  | .unary op argument _ => .unary op argument.bare none
  | .unsupported kind _ => .unsupported kind none

/-- Arguments without spans. -/
def bareArgs : List Expr → List Expr
  | [] => []
  | e :: rest => e.bare :: bareArgs rest

end

@[simp] theorem span_bare (e : Expr) : e.bare.span = none := by
  cases e <;> rfl

@[simp] theorem kindName_bare (e : Expr) : e.bare.kindName = e.kindName := by
  cases e <;> rfl

@[simp] theorem path?_bare : ∀ e : Expr, e.bare.path? = e.path?
  | .member object property span => by
    rw [bare, path?, path?, path?_bare object]
    rfl
  | .literal _ _ | .ident _ _ | .index _ _ _ | .call _ _ _ | .construct _ _ _ | .binary _ _ _ _
  | .logical _ _ _ _ | .assign _ _ _ _ | .conditional _ _ _ _ | .unary _ _ _
  | .unsupported _ _ => rfl

@[simp] theorem describe_bare (e : Expr) : e.bare.describe = e.describe := by
  rw [describe, describe, path?_bare, kindName_bare]

end Expr

/-- A declarator without spans. -/
def Declarator.bare (d : Declarator) : Declarator := ⟨d.name.bare, d.init.map Expr.bare, none⟩

namespace Stmt

mutual

/-- A statement without spans. -/
def bare : Stmt → Stmt
  | .declare ds _ => .declare (ds.map Declarator.bare) none
  | .expr e _ => .expr e.bare none
  | .ret value _ => .ret (value.map Expr.bare) none
  | .branch test consequent none _ => .branch test.bare consequent.bare none none
  | .branch test consequent (some alternate) _ =>
    .branch test.bare consequent.bare (some alternate.bare) none
  | .block body _ => .block (bareAll body) none
  | .unsupported kind _ => .unsupported kind none

/-- Statements without spans. -/
def bareAll : List Stmt → List Stmt
  | [] => []
  | s :: rest => s.bare :: bareAll rest

end

end Stmt

/-- A function without spans. -/
def Function.bare (f : Function) : Function :=
  ⟨f.name.bare, f.params.map Ident.bare, Stmt.bareAll f.body, none⟩

/-- A program without spans. -/
def Program.bare (p : Program) : Program := ⟨p.functions.map Function.bare, none⟩

/-- An ascription at no place. -/
def Mark.bare (m : Mark) : Mark := ⟨m.ascription, none⟩

namespace TypedExpr

mutual

/-- A typed expression without spans. -/
def bare : TypedExpr → TypedExpr
  | .literal value m => .literal value m.bare
  | .ident name m => .ident name m.bare
  | .member object property m => .member object.bare property m.bare
  | .call callee args m => .call callee.bare (bareArgs args) m.bare
  | .construct name args m => .construct name (bareArgs args) m.bare
  | .binary op left right m => .binary op left.bare right.bare m.bare
  | .logical op left right m => .logical op left.bare right.bare m.bare
  | .assign op target value m => .assign op target.bare value.bare m.bare
  | .conditional test consequent alternate m =>
    .conditional test.bare consequent.bare alternate.bare m.bare
  | .unary op argument m => .unary op argument.bare m.bare

/-- Typed arguments without spans. -/
def bareArgs : List TypedExpr → List TypedExpr
  | [] => []
  | e :: rest => e.bare :: bareArgs rest

end

@[simp] theorem ascription_bare (e : TypedExpr) : e.bare.ascription = e.ascription := by
  cases e <;> rfl

@[simp] theorem ty_bare (e : TypedExpr) : e.bare.ty = e.ty := by
  rw [ty, ty, ascription_bare]

@[simp] theorem span_bare (e : TypedExpr) : e.bare.span = none := by
  cases e <;> rfl

theorem forgetValue_bare (e : TypedExpr) : e.forgetValue.bare = e.bare.forgetValue := by
  cases e <;> rfl

@[simp] theorem length_bareArgs (es : List TypedExpr) : (bareArgs es).length = es.length := by
  induction es with
  | nil => rfl
  | cons e rest ih => rw [bareArgs, List.length_cons, List.length_cons, ih]

end TypedExpr

/-- A typed declarator without spans. -/
def TypedDeclarator.bare (d : TypedDeclarator) : TypedDeclarator :=
  ⟨d.name, d.init.map TypedExpr.bare, d.ascription, none⟩

namespace TypedStmt

mutual

/-- A typed statement without spans. -/
def bare : TypedStmt → TypedStmt
  | .declare ds => .declare (ds.map TypedDeclarator.bare)
  | .expr e => .expr e.bare
  | .ret value => .ret (value.map TypedExpr.bare)
  | .branch test consequent none => .branch test.bare (bareAll consequent) none
  | .branch test consequent (some alternate) =>
    .branch test.bare (bareAll consequent) (some (bareAll alternate))
  | .block body => .block (bareAll body)

/-- Typed statements without spans. -/
def bareAll : List TypedStmt → List TypedStmt
  | [] => []
  | s :: rest => s.bare :: bareAll rest

end

theorem bareAll_eq_map (body : List TypedStmt) : bareAll body = body.map bare := by
  induction body with
  | nil => rfl
  | cons s rest ih => rw [bareAll, List.map_cons, ih]

end TypedStmt

/-- A typed parameter without its place. -/
def TypedParam.bare (p : TypedParam) : TypedParam := ⟨p.name, p.ty, none⟩

/-- A typed function without spans. -/
def TypedFunction.bare (f : TypedFunction) : TypedFunction :=
  ⟨f.name, f.params.map TypedParam.bare, TypedStmt.bareAll f.body, f.result, none⟩

/-- A typed program without spans. -/
def TypedProgram.bare (p : TypedProgram) : TypedProgram := ⟨p.functions.map TypedFunction.bare⟩

/-! ## Bare results -/

variable {α β γ δ : Type}

/-- A result without spans: its error has no place, and `f` is applied to its value. -/
def bareResult (f : α → β) (r : Except TypeError α) : Except TypeError β := (moved none r).map f

theorem bareResult_id (r : Except TypeError α) : bareResult id r = moved none r := by
  cases r <;> rfl

/-- A sequence without spans. -/
theorem bareResult_bind {f : α → β} {g : γ → δ} {r : Except TypeError α} {r' : Except TypeError β}
    {k : α → Except TypeError γ} {k' : β → Except TypeError δ} (hr : bareResult f r = r')
    (hk : ∀ a, bareResult g (k a) = k' (f a)) : bareResult g (r >>= k) = r' >>= k' := by
  subst hr
  cases r with
  | error e => rfl
  | ok a => exact hk a

/-- A list of checks without spans. -/
theorem bareResult_mapM {f : α → β} {g : γ → δ} {check : α → Except TypeError γ}
    {check' : β → Except TypeError δ} {as : List α}
    (h : ∀ a ∈ as, bareResult g (check a) = check' (f a)) :
    bareResult (List.map g) (as.mapM check) = (as.map f).mapM check' := by
  induction as with
  | nil => rfl
  | cons a as ih =>
    rw [List.forall_mem_cons] at h
    rw [List.map_cons, List.mapM_cons, List.mapM_cons]
    exact bareResult_bind h.1 fun b => bareResult_bind (ih h.2) fun bs => rfl

/-- A state whose returns have no places. -/
def InferState.bare (s : InferState) : InferState :=
  { s with returns := s.returns.map fun r => (r.1, none) }

namespace Infer

/-- `m.Bares f m'`: the step `m'` is the step `m` without spans, which gives the value of `m` with
`f` applied. -/
def Bares (f : α → β) (m : Infer α) (m' : Infer β) : Prop :=
  ∀ s, m'.outcome s.bare = (bareResult f (m.outcome s).1, (m.outcome s).2.bare)

theorem bares_pure {f : α → β} {a : α} {b : β} (h : f a = b) : Bares f (pure a) (pure b) := by
  subst h
  exact fun _ => rfl

theorem bares_scopes : Bares id scopes scopes := fun _ => rfl

theorem bares_modifyScopes (g : Scopes → Scopes) : Bares id (modifyScopes g) (modifyScopes g) :=
  fun _ => rfl

theorem bares_addReturn (ty : Ty) (span : Option Span) :
    Bares id (addReturn ty span) (addReturn ty none) := by
  intro s
  have hreturns : (s.returns ++ [(ty, span)]).map (fun r => (r.1, (none : Option Span))) =
      s.returns.map (fun r => (r.1, none)) ++ [(ty, none)] := List.map_append
  have hstate : ({ s with returns := s.returns ++ [(ty, span)] } : InferState).bare =
      { s.bare with returns := s.bare.returns ++ [(ty, none)] } :=
    congrArg (InferState.mk s.scopes) hreturns
  exact Prod.ext rfl hstate.symm

theorem bares_ofExcept {f : α → β} {r : Except TypeError α} {r' : Except TypeError β}
    (h : bareResult f r = r') : Bares f (ofExcept r) (ofExcept r') := by
  subst h
  exact fun _ => rfl

/-- A sequence without spans is the sequence of its steps without spans. -/
theorem Bares.bind {f : α → β} {g : γ → δ} {m : Infer α} {m' : Infer β} {k : α → Infer γ}
    {k' : β → Infer δ} (hm : Bares f m m') (hk : ∀ a, Bares g (k a) (k' (f a))) :
    Bares g (m >>= k) (m' >>= k') := by
  intro s
  rw [outcome_bind, outcome_bind, hm s]
  generalize m.outcome s = out
  obtain ⟨result, s'⟩ := out
  cases result with
  | error e => rfl
  | ok a => exact hk a s'

/-- A check that knows one place, whose result is used in a value that is returned. -/
theorem bares_check {r r' : Except TypeError α} {f : β → γ} {g : α → β} {g' : α → γ}
    (hr : moved none r = r') (hg : ∀ a, f (g a) = g' a) :
    Bares f (ofExcept r >>= fun a => pure (g a)) (ofExcept r' >>= fun a => pure (g' a)) := by
  rw [← bareResult_id] at hr
  exact (bares_ofExcept hr).bind fun a => bares_pure (hg a)

end Infer

/-! ## Checks without spans -/

/-- Arguments are checked without regard to their places. -/
theorem moved_checkEach (callee : String) (params : List Ty) (args : List TypedExpr)
    (span : Option Span) (index : Nat) :
    moved none (checkEach callee index params args span) =
      checkEach callee index params (TypedExpr.bareArgs args) none := by
  induction params generalizing args index with
  | nil => rfl
  | cons param params ih =>
    cases args with
    | nil => rfl
    | cons arg args =>
      rw [TypedExpr.bareArgs, checkEach, checkEach, TypedExpr.ty_bare, TypedExpr.span_bare]
      split
      · exact ih args (index + 1)
      · rfl

theorem moved_checkArguments (callee : String) (signature : Signature) (args : List TypedExpr)
    (span : Option Span) :
    moved none (checkArguments callee signature args span) =
      checkArguments callee signature (TypedExpr.bareArgs args) none := by
  unfold checkArguments
  rw [TypedExpr.length_bareArgs]
  split
  · exact moved_checkEach callee _ args span 0
  · rfl

/-- Returns are unified without regard to their places. -/
theorem moved_unifyReturns (function : String) (returns : List (Ty × Option Span)) (unified : Ty) :
    moved none (unifyReturns function unified returns) =
      unifyReturns function unified (returns.map fun r => (r.1, none)) := by
  induction returns generalizing unified with
  | nil => rfl
  | cons r rest ih =>
    rw [List.map_cons, unifyReturns, unifyReturns]
    split
    · exact ih _
    · rfl

theorem moved_resultTy (function : String) (returns : List (Ty × Option Span)) :
    moved none (resultTy function returns) =
      resultTy function (returns.map fun r => (r.1, none)) := by
  cases returns with
  | nil => rfl
  | cons r rest => exact moved_unifyReturns function rest r.1

namespace Context

open Infer

variable (cx : Context)

theorem moved_checkConstruction (entry : Entry) (args : List TypedExpr) (span : Option Span) :
    moved none (checkConstruction entry args span) =
      checkConstruction entry (TypedExpr.bareArgs args) none := by
  unfold checkConstruction
  split
  · exact moved_checkArguments _ _ args span
  · rfl

theorem moved_member (s : Scopes) (path : Option String) (object : Ty) (property : Ident)
    (span : Option Span) :
    moved none (cx.member s path object property span) =
      cx.member s path object property.bare none := by
  obtain ⟨name, nameSpan⟩ := property
  simp only [member, Ident.bare]
  split
  · rfl
  · split <;> rfl

theorem moved_assignIdent (s : Scopes) (op : AssignOp) (name : String) (targetSpan : Option Span)
    (value : Ty) (span : Option Span) :
    moved none (cx.assignIdent s op name targetSpan value span) =
      cx.assignIdent s op name none value none := by
  unfold assignIdent
  split
  · rw [moved_bind, moved_assignedTy]
    rfl
  · rw [moved_bind, moved_assignedTy]
    rfl
  · cases op <;> rfl
  · split
    · rw [moved_bind, moved_assignedTy]
      rfl
    · rfl

/-! ## Inference without spans -/

/-- An assignment without spans. -/
theorem assign_bares {target : Expr} {place place' : Infer TypedExpr}
    (hplace : Bares TypedExpr.bare place place') (op : AssignOp) (value : TypedExpr)
    (span : Option Span) :
    Bares TypedExpr.bare (cx.assign op target place value span)
      (cx.assign op target.bare place' value.bare none) := by
  cases target with
  | ident name targetSpan =>
    unfold assign
    refine bares_scopes.bind fun s => ?_
    rw [TypedExpr.ty_bare]
    refine Bares.bind (bares_ofExcept ((bareResult_id _).trans (cx.moved_assignIdent s op name
      targetSpan value.ty span))) fun r => ?_
    exact (bares_modifyScopes _).bind fun _ => bares_pure rfl
  | member object property targetSpan =>
    have hdescribe := (Expr.member object property targetSpan).describe_bare
    rw [Expr.bare] at hdescribe ⊢
    unfold assign
    refine hplace.bind fun typed => ?_
    rw [TypedExpr.ty_bare, TypedExpr.ty_bare, TypedExpr.ascription_bare, hdescribe]
    refine Bares.bind (bares_ofExcept ((bareResult_id _).trans (moved_assignedTy op _ _ _)))
      fun result => (bares_modifyScopes _).bind fun _ => bares_pure ?_
    rw [TypedExpr.bare, TypedExpr.forgetValue_bare]
    rfl
  | _ => exact bares_ofExcept rfl

mutual

/-- An expression is inferred without regard to spans. -/
theorem expr_bares : ∀ e : Expr, Bares TypedExpr.bare (cx.expr e) (cx.expr e.bare)
  | .literal l span => by
    rw [Expr.bare, expr, expr]
    exact bares_pure rfl
  | .ident name span => by
    rw [Expr.bare, expr, expr]
    exact bares_scopes.bind fun s => bares_check (moved_ident cx s name) fun _ => rfl
  | .member object property span => by
    have hpath := (Expr.member object property span).path?_bare
    rw [Expr.bare] at hpath ⊢
    rw [expr, expr, hpath]
    refine (expr_bares object).bind fun typed => bares_scopes.bind fun s => ?_
    rw [TypedExpr.ty_bare]
    exact bares_check (cx.moved_member s _ _ property span) fun _ => rfl
  | .index object i span => by
    rw [Expr.bare, expr, expr]
    exact bares_ofExcept rfl
  | .call callee args span => by
    rw [Expr.bare, expr, expr]
    refine (expr_bares callee).bind fun typed => ?_
    rw [TypedExpr.ty_bare, Expr.describe_bare, Expr.span_bare]
    split
    · exact bares_ofExcept rfl
    · refine (exprs_bares args).bind fun as => ?_
      exact bares_check (moved_checkArguments _ _ as span) fun _ => rfl
  | .construct callee args span => by
    cases callee with
    | ident name nameSpan =>
      rw [Expr.bare, Expr.bare, expr, expr]
      refine Bares.bind (bares_ofExcept ((bareResult_id _).trans (moved_constructible cx name)))
        fun entry => (exprs_bares args).bind fun as => ?_
      exact bares_check (moved_checkConstruction entry as span) fun _ => rfl
    | _ =>
      rw [Expr.bare, Expr.bare, expr, expr]
      · exact bares_ofExcept rfl
      · simp
      · simp
  | .binary op left right span => by
    rw [Expr.bare, expr, expr]
    refine (expr_bares left).bind fun l => (expr_bares right).bind fun r => ?_
    rw [TypedExpr.ascription_bare, TypedExpr.ascription_bare]
    exact bares_check (moved_binaryAscription op _ _) fun _ => rfl
  | .logical op left right span => by
    rw [Expr.bare, expr, expr]
    refine (expr_bares left).bind fun l => (expr_bares right).bind fun r => ?_
    rw [TypedExpr.ty_bare, TypedExpr.ty_bare]
    exact bares_check (moved_logicalTy op _ _) fun _ => rfl
  | .assign op target value span => by
    rw [Expr.bare, expr, expr]
    exact (expr_bares value).bind fun v => cx.assign_bares (expr_bares target) op v span
  | .conditional test consequent alternate span => by
    rw [Expr.bare, expr, expr]
    refine (expr_bares test).bind fun t => (expr_bares consequent).bind fun c =>
      (expr_bares alternate).bind fun a => ?_
    rw [TypedExpr.ty_bare, TypedExpr.ty_bare]
    exact bares_check (moved_conditionalTy _ _) fun _ => rfl
  | .unary op argument span => by
    rw [Expr.bare, expr, expr]
    refine (expr_bares argument).bind fun a => ?_
    rw [TypedExpr.ascription_bare]
    exact bares_check (moved_unaryAscription op _) fun _ => rfl
  | .unsupported kind span => by
    rw [Expr.bare, expr, expr]
    exact bares_ofExcept rfl

/-- Arguments are inferred without regard to spans. -/
theorem exprs_bares : ∀ es : List Expr,
    Bares TypedExpr.bareArgs (cx.exprs es) (cx.exprs (Expr.bareArgs es))
  | [] => by
    rw [Expr.bareArgs, exprs]
    exact bares_pure rfl
  | e :: rest => by
    rw [Expr.bareArgs, exprs, exprs]
    exact (expr_bares e).bind fun _ => (exprs_bares rest).bind fun _ => bares_pure rfl

end

/-- A declarator is inferred without regard to spans. -/
theorem declarator_bares (d : Declarator) :
    Bares TypedDeclarator.bare (cx.declarator d) (cx.declarator d.bare) := by
  obtain ⟨name, init, span⟩ := d
  unfold declarator
  cases init with
  | some e =>
    refine (cx.expr_bares e).bind fun typed => ?_
    rw [TypedExpr.ty_bare]
    exact (bares_modifyScopes _).bind fun _ => bares_pure rfl
  | none =>
    cases hget : cx.injections.get? name.name with
    | some a =>
      simp only [Declarator.bare, Ident.bare, hget]
      exact (bares_modifyScopes _).bind fun _ => bares_pure rfl
    | none =>
      simp only [Declarator.bare, Ident.bare, hget]
      exact (bares_modifyScopes _).bind fun _ => bares_pure rfl

/-- Declarators are inferred without regard to spans. -/
theorem declarators_bares (ds : List Declarator) :
    Bares (List.map TypedDeclarator.bare) (cx.declarators ds)
      (cx.declarators (ds.map Declarator.bare)) := by
  induction ds with
  | nil => exact bares_pure rfl
  | cons d rest ih =>
    rw [List.map_cons, declarators, declarators]
    exact (cx.declarator_bares d).bind fun _ => ih.bind fun _ => bares_pure rfl

/-- A declarator settles without regard to spans. -/
theorem settleDeclarator_bare (frame : Frame) (d : TypedDeclarator) :
    bareResult TypedDeclarator.bare (settleDeclarator frame d) = settleDeclarator frame d.bare := by
  obtain ⟨name, init, ascription, span⟩ := d
  unfold settleDeclarator
  cases init with
  | some e => rfl
  | none =>
    simp only [TypedDeclarator.bare, Option.map_none]
    split <;> rfl

/-- A statement settles without regard to spans. -/
theorem settleStmt_bare (frame : Frame) (t : TypedStmt) :
    bareResult TypedStmt.bare (settleStmt frame t) = settleStmt frame t.bare := by
  cases t with
  | declare ds =>
    unfold settleStmt
    exact bareResult_bind (bareResult_mapM fun d _ => settleDeclarator_bare frame d) fun _ => rfl
  | branch test consequent alternate => cases alternate <;> rfl
  | _ => rfl

/-- A block settles without regard to spans. -/
theorem settle_bare (frame : Frame) (body : List TypedStmt) :
    bareResult TypedStmt.bareAll (settle frame body) = settle frame (TypedStmt.bareAll body) := by
  have hbare : TypedStmt.bareAll = List.map TypedStmt.bare := funext TypedStmt.bareAll_eq_map
  rw [hbare]
  exact bareResult_mapM fun t _ => settleStmt_bare frame t

/-- A block is inferred without regard to spans when its statements are. -/
theorem inBlock_bares {m m' : Infer (List TypedStmt)} (h : Bares TypedStmt.bareAll m m') :
    Bares TypedStmt.bareAll (inBlock m) (inBlock m') := by
  intro s
  have hbody : m' { s.bare with scopes := s.bare.scopes.push } = _ :=
    h { s with scopes := s.scopes.push }
  unfold outcome at hbody ⊢
  rw [inBlock, inBlock, hbody]
  generalize m { s with scopes := s.scopes.push } = out
  obtain ⟨result, inside⟩ := out
  cases result with
  | error e => rfl
  | ok ts => exact Prod.ext (settle_bare inside.scopes.pop.1 ts).symm rfl

mutual

/-- A statement is inferred without regard to spans. -/
theorem stmt_bares (st : Stmt) : Bares TypedStmt.bare (cx.stmt st) (cx.stmt st.bare) := by
  match st with
  | .declare ds span =>
    rw [Stmt.bare, stmt, stmt]
    exact (cx.declarators_bares ds).bind fun _ => bares_pure rfl
  | .expr e span =>
    rw [Stmt.bare, stmt, stmt]
    exact (cx.expr_bares e).bind fun _ => bares_pure rfl
  | .ret none span =>
    rw [Stmt.bare, Option.map_none, stmt, stmt]
    exact (bares_addReturn .undefined span).bind fun _ => bares_pure rfl
  | .ret (some e) span =>
    rw [Stmt.bare, Option.map_some, stmt, stmt]
    refine (cx.expr_bares e).bind fun typed => ?_
    rw [TypedExpr.ty_bare]
    exact (bares_addReturn typed.ty span).bind fun _ => bares_pure rfl
  | .branch test consequent none span =>
    rw [Stmt.bare, stmt, stmt]
    exact (cx.expr_bares test).bind fun _ =>
      (inBlock_bares (branchBody_bares consequent)).bind fun _ => bares_pure rfl
  | .branch test consequent (some alternate) span =>
    rw [Stmt.bare, stmt, stmt]
    exact (cx.expr_bares test).bind fun _ =>
      (inBlock_bares (branchBody_bares consequent)).bind fun _ =>
        (inBlock_bares (branchBody_bares alternate)).bind fun _ => bares_pure rfl
  | .block body span =>
    rw [Stmt.bare, stmt, stmt]
    exact (inBlock_bares (stmts_bares body)).bind fun _ => bares_pure rfl
  | .unsupported kind span =>
    rw [Stmt.bare, stmt, stmt]
    exact bares_ofExcept rfl
termination_by (sizeOf st, 0)

/-- The statements of a branch are inferred without regard to spans. -/
theorem branchBody_bares (st : Stmt) :
    Bares TypedStmt.bareAll (cx.branchBody st (cx.stmt st))
      (cx.branchBody st.bare (cx.stmt st.bare)) := by
  have hsingle := stmt_bares st
  have hlist : Bares TypedStmt.bareAll ((fun typed => [typed]) <$> cx.stmt st)
      ((fun typed => [typed]) <$> cx.stmt st.bare) := by
    rw [map_eq_pure_bind, map_eq_pure_bind]
    exact hsingle.bind fun _ => bares_pure rfl
  cases st with
  | block body span =>
    rw [Stmt.bare, branchBody, branchBody]
    exact stmts_bares body
  | branch test consequent alternate span =>
    cases alternate with
    | none => exact hlist
    | some alternate => exact hlist
  | _ => exact hlist
termination_by (sizeOf st, 1)

/-- Statements are inferred without regard to spans. -/
theorem stmts_bares (body : List Stmt) :
    Bares TypedStmt.bareAll (cx.stmts body) (cx.stmts (Stmt.bareAll body)) := by
  match body with
  | [] =>
    rw [Stmt.bareAll, stmts]
    exact bares_pure rfl
  | st :: rest =>
    rw [Stmt.bareAll, stmts, stmts]
    exact (stmt_bares st).bind fun _ => (stmts_bares rest).bind fun _ => bares_pure rfl
termination_by (sizeOf body, 0)

end

end Context

namespace Function

variable (f : Function) (injections : Injections) (registry : Registry)

/-- Parameters take their ascriptions without regard to places. -/
theorem bare_ascribedParams :
    bareResult (List.map fun p => (p.1.bare, p.2)) (f.ascribedParams injections) =
      f.bare.ascribedParams injections := by
  refine bareResult_mapM fun param _ => bareResult_bind (f := id) ?_ fun _ => rfl
  rw [bareResult_id]
  unfold paramAscription
  rw [Ident.bare]
  cases hresolve : injections.resolve? param.name <;> rfl

/-- The scopes of a body do not know the places of the parameters. -/
theorem bodyScopes_bare (params : List (Ident × Ascription)) :
    bodyScopes (params.map fun p => (p.1.bare, p.2)) = bodyScopes params := by
  unfold bodyScopes
  rw [List.foldl_map]
  rfl

/-- A function without spans has the same context. -/
theorem context_bare : f.bare.context injections registry = f.context injections registry := by
  have hnames : f.bare.params.map (·.name) = f.params.map (·.name) := by
    rw [bare, List.map_map]
    rfl
  unfold context
  rw [hnames]

/-- A function is inferred without regard to spans. -/
theorem bare_infer :
    bareResult TypedFunction.bare (f.infer injections registry) =
      f.bare.infer injections registry := by
  refine bareResult_bind (f.bare_ascribedParams injections) fun params => ?_
  have hbody := Context.inBlock_bares ((f.context injections registry).stmts_bares f.body)
    ⟨bodyScopes params, []⟩
  rw [context_bare, bodyScopes_bare]
  unfold Infer.outcome at hbody
  change Context.inBlock ((f.context injections registry).stmts f.bare.body)
    ⟨bodyScopes params, []⟩ = _ at hbody
  dsimp only
  rw [hbody]
  generalize Context.inBlock ((f.context injections registry).stmts f.body)
    ⟨bodyScopes params, []⟩ = out
  obtain ⟨result, state⟩ := out
  refine bareResult_bind rfl fun body => bareResult_bind (f := id) ?_ fun ty => ?_
  · rw [bareResult_id]
    exact moved_resultTy f.name.name state.returns
  · have hparams : (params.map fun p => (p.1.bare, p.2)).map
        (fun p => TypedParam.mk p.1.name p.2.ty p.1.span) =
        (params.map fun p => TypedParam.mk p.1.name p.2.ty p.1.span).map TypedParam.bare := by
      rw [List.map_map, List.map_map]
      rfl
    rw [hparams]
    rfl

end Function

/-- A program is inferred without regard to spans. -/
theorem Program.bare_infer (p : Program) (injections : Injections) (registry : Registry) :
    bareResult TypedProgram.bare (p.infer injections registry) =
      p.bare.infer injections registry :=
  bareResult_bind (bareResult_mapM fun f _ => f.bare_infer injections registry) fun _ => rfl

/-! ## Code of bare trees -/

namespace TypedExpr

@[simp] theorem propagated?_bare (e : TypedExpr) : e.bare.propagated? = e.propagated? := by
  rw [propagated?, propagated?, ty_bare, ascription_bare]

@[simp] theorem isCompound_bare (e : TypedExpr) : e.bare.isCompound = e.isCompound := by
  cases e <;> rfl

@[simp] theorem operand_bare (e : TypedExpr) : operand e.bare = operand e := by
  funext text
  rw [operand, operand, isCompound_bare, isFolded, isFolded, ty_bare, ascription_bare]

end TypedExpr

namespace Dialect

variable (d : Dialect)

mutual

/-- The text of an expression does not depend on spans. -/
theorem expr_bare (e : TypedExpr) : d.expr e.bare = d.expr e := by
  rw [expr.eq_def, expr.eq_def, TypedExpr.propagated?_bare, TypedExpr.ty_bare]
  cases e.propagated? with
  | some value => rfl
  | none =>
    match e with
    | .literal value m => rfl
    | .ident name m => rfl
    | .member object property m =>
      simp only [TypedExpr.bare, expr_bare object]
    | .call callee args m =>
      simp only [TypedExpr.bare, expr_bare callee, args_bare args]
    | .construct name args m =>
      simp only [TypedExpr.bare, Mark.bare, args_bare args]
    | .binary op left right m =>
      simp only [TypedExpr.bare, expr_bare left, expr_bare right, TypedExpr.operand_bare]
    | .logical op left right m =>
      simp only [TypedExpr.bare, expr_bare left, expr_bare right, TypedExpr.operand_bare]
    | .assign op target value m =>
      simp only [TypedExpr.bare, place_bare target, expr_bare value]
    | .conditional test consequent alternate m =>
      simp only [TypedExpr.bare, expr_bare test, expr_bare consequent, expr_bare alternate,
        TypedExpr.operand_bare]
    | .unary op argument m =>
      simp only [TypedExpr.bare, expr_bare argument, TypedExpr.operand_bare]
termination_by (sizeOf e, 0)

/-- The text of a target does not depend on spans. -/
theorem place_bare (e : TypedExpr) :
    (d.place e.bare fun _ => d.expr e.bare) = d.place e fun _ => d.expr e := by
  rw [expr_bare e]
  match e with
  | .member object property m =>
    rw [TypedExpr.bare, place, place, place_bare object]
  | .ident _ _ | .literal _ _ | .call _ _ _ | .construct _ _ _ | .binary _ _ _ _
  | .logical _ _ _ _ | .assign _ _ _ _ | .conditional _ _ _ _ | .unary _ _ _ => rfl
termination_by (sizeOf e, 1)

/-- The texts of arguments do not depend on spans. -/
theorem args_bare (es : List TypedExpr) : d.args (TypedExpr.bareArgs es) = d.args es := by
  match es with
  | [] => rfl
  | e :: rest => rw [TypedExpr.bareArgs, args, args, expr_bare e, args_bare rest]
termination_by (sizeOf es, 0)

end

/-- A declaration is written without regard to spans. -/
theorem declarators_bare (b : LineBuffer) (ds : List TypedDeclarator) :
    d.declarators b (ds.map TypedDeclarator.bare) = d.declarators b ds := by
  have hdeclarator : ∀ decl : TypedDeclarator, d.declarator decl.bare = d.declarator decl := by
    rintro ⟨name, init, ascription, span⟩
    cases init with
    | none => rfl
    | some e => simp only [declarator, TypedDeclarator.bare, Option.map_some, expr_bare]
  induction ds generalizing b with
  | nil => rfl
  | cons decl rest ih => simp only [List.map_cons, declarators, hdeclarator, ih]

theorem exprLine_bare (b : LineBuffer) (e : TypedExpr) : d.exprLine b e.bare = d.exprLine b e := by
  rw [exprLine, exprLine, expr_bare]

theorem retLine_bare (b : LineBuffer) (value : Option TypedExpr) :
    d.retLine b (value.map TypedExpr.bare) = d.retLine b value := by
  cases value with
  | none => rfl
  | some e => rw [Option.map_some, retLine, retLine, expr_bare]

theorem appendParams_bare (separate : Bool) (b : LineBuffer) (params : List TypedParam) :
    appendParams separate b (params.map TypedParam.bare) = appendParams separate b params := by
  induction params generalizing separate b with
  | nil => rfl
  | cons p rest ih => exact ih true _

/-- Functions are written without regard to spans when statements are. -/
theorem functions_bare {stmts : LineBuffer → List TypedStmt → Render LineBuffer}
    (h : ∀ b body, stmts b (TypedStmt.bareAll body) = stmts b body) (separate : Bool)
    (b : LineBuffer) (fs : List TypedFunction) :
    functions (d.function stmts) separate b (fs.map TypedFunction.bare) =
      functions (d.function stmts) separate b fs := by
  have hfunction : ∀ b (f : TypedFunction), d.function stmts b f.bare = d.function stmts b f := by
    intro b f
    have hheader : ∀ word, functionHeader b word f.bare = functionHeader b word f := by
      intro word
      simp only [functionHeader, TypedFunction.bare, List.isEmpty_map, appendParams_bare]
    simp only [function, hheader]
    simp only [TypedFunction.bare, h]
  induction fs generalizing b separate with
  | nil => rfl
  | cons f rest ih => simp only [List.map_cons, functions, hfunction, ih]

end Dialect

/-- Fragment code does not depend on spans. -/
theorem Glsl.generate_bare (fs : List TypedFunction) (options : GlslOptions) :
    generate (fs.map TypedFunction.bare) options = generate fs options := by
  have hstmt : ∀ b (t : TypedStmt), stmt b t.bare = stmt b t := by
    intro b t
    cases t with
    | declare ds => exact Dialect.glsl.declarators_bare b ds
    | expr e => exact Dialect.glsl.exprLine_bare b e
    | ret value => exact Dialect.glsl.retLine_bare b value
    | branch test consequent alternate => cases alternate <;> rfl
    | block body => rfl
  have hstmts : ∀ b body, stmts b (TypedStmt.bareAll body) = stmts b body := by
    intro b body
    induction body generalizing b with
    | nil => rfl
    | cons t rest ih => simp only [TypedStmt.bareAll, stmts, hstmt, ih]
  rw [generate, generate, Dialect.glsl.functions_bare hstmts]

namespace Embree

mutual

/-- A statement of a material is written without regard to spans. -/
theorem stmt_bare (b : LineBuffer) (t : TypedStmt) : stmt b t.bare = stmt b t := by
  match t with
  | .declare ds =>
    rw [TypedStmt.bare, stmt, stmt, Dialect.declarators_bare]
  | .expr e =>
    rw [TypedStmt.bare, stmt, stmt, Dialect.exprLine_bare]
  | .ret value =>
    rw [TypedStmt.bare, stmt, stmt, Dialect.retLine_bare]
  | .branch test consequent none =>
    simp only [TypedStmt.bare, stmt, Dialect.expr_bare, stmts_bare _ consequent]
  | .branch test consequent (some alternate) =>
    simp only [TypedStmt.bare, stmt, Dialect.expr_bare, stmts_bare _ consequent,
      stmts_bare _ alternate]
  | .block body =>
    simp only [TypedStmt.bare, stmt, stmts_bare _ body]

/-- Statements of a material are written without regard to spans. -/
theorem stmts_bare (b : LineBuffer) (body : List TypedStmt) :
    stmts b (TypedStmt.bareAll body) = stmts b body := by
  match body with
  | [] => rfl
  | t :: rest => simp only [TypedStmt.bareAll, stmts, stmt_bare _ t, stmts_bare _ rest]

end

/-- Material code does not depend on spans. -/
theorem generate_bare (fs : List TypedFunction) (options : EmbreeOptions) :
    generate (fs.map TypedFunction.bare) options = generate fs options := by
  rw [generate, generate, Dialect.embree.functions_bare stmts_bare]

end Embree

/-! ## Programs that differ in spans only -/

/-- Two programs that differ in spans only are both inferred, to typed programs that differ in spans
only and have the same code in both target languages, or both refused for the same reason. -/
theorem Program.spans_do_not_matter {p q : Program} (h : p.bare = q.bare) (injections : Injections)
    (registry : Registry) :
    (∃ t u, p.infer injections registry = .ok t ∧ q.infer injections registry = .ok u ∧
      t.bare = u.bare ∧
      (∀ options, Glsl.generate t.functions options = Glsl.generate u.functions options) ∧
      ∀ options, Embree.generate t.functions options = Embree.generate u.functions options) ∨
    ∃ e e', p.infer injections registry = .error e ∧ q.infer injections registry = .error e' ∧
      e.fault = e'.fault := by
  have hp := p.bare_infer injections registry
  rw [h, ← q.bare_infer injections registry] at hp
  cases hpinfer : p.infer injections registry with
  | error e =>
    cases hqinfer : q.infer injections registry with
    | error e' =>
      rw [hpinfer, hqinfer] at hp
      have herror : (⟨e.fault, none⟩ : TypeError) = ⟨e'.fault, none⟩ := Except.error.inj hp
      exact .inr ⟨e, e', rfl, rfl, (TypeError.mk.inj herror).1⟩
    | ok u =>
      rw [hpinfer, hqinfer] at hp
      cases hp
  | ok t =>
    cases hqinfer : q.infer injections registry with
    | error e' =>
      rw [hpinfer, hqinfer] at hp
      cases hp
    | ok u =>
      rw [hpinfer, hqinfer] at hp
      have hbare : t.bare = u.bare := Except.ok.inj hp
      have hfunctions : t.functions.map TypedFunction.bare = u.functions.map TypedFunction.bare :=
        congrArg TypedProgram.functions hbare
      refine .inl ⟨t, u, rfl, rfl, hbare, fun options => ?_, fun options => ?_⟩
      · rw [← Glsl.generate_bare t.functions, hfunctions, Glsl.generate_bare]
      · rw [← Embree.generate_bare t.functions, hfunctions, Embree.generate_bare]

namespace Sample

/-- The sample function, in a program with a span. -/
def placedProgram : Program := ⟨[shade], some ⟨0, 120⟩⟩

/-- The sample function without any span, and some that it does not have. -/
def misplacedProgram : Program := ⟨[{ shade.bare with span := some ⟨7, 7⟩ }], none⟩

/-- A program whose spans are lost or wrong has the same code. -/
theorem misplaced_program_has_same_code :
    placedProgram.bare = misplacedProgram.bare ∧
    placedProgram.infer injections ⟨[]⟩ = .ok ⟨[typedShade]⟩ ∧
    ∃ u, misplacedProgram.infer injections ⟨[]⟩ = .ok u ∧
      ∀ options, Embree.generate [typedShade] options = Embree.generate u.functions options := by
  have hbare : placedProgram.bare = misplacedProgram.bare := rfl
  have hplaced : placedProgram.infer injections ⟨[]⟩ = .ok ⟨[typedShade]⟩ := rfl
  refine ⟨hbare, hplaced, ?_⟩
  rcases Program.spans_do_not_matter hbare injections ⟨[]⟩ with
    ⟨t, u, ht, hu, -, -, hcode⟩ | ⟨e, e', he, -, -⟩
  · rw [hplaced] at ht
    obtain rfl := Except.ok.inj ht
    exact ⟨u, hu, hcode⟩
  · rw [hplaced] at he
    cases he

end Sample

end Shader
