import Shader.Proofs.Derivation
import Shader.Proofs.Event

/-!
# Where errors point

Every error of inference is placed at a node of the function that it is about.  `Function.spans`
lists the places of all nodes, and `Function.error_points_into_function` says that the place of an
error is one of them, so that an error has a place when all nodes have one.

Most checks know one place, which is that of the node they are made for: `moved` puts an error
elsewhere, and such a check made elsewhere gives the moved error.  `Infer.FailsAt` collects the
places at which a step may fail.  Two errors are raised long after their node was visited, from
places that were kept until then: a variable without a type, when its block closes, and two returns
that do not fit, when the function ends.
-/

namespace Shader

/-! ## The places of a function -/

namespace Expr

mutual

/-- The places of an expression and its parts, the names of properties among them. -/
def spans : Expr → List (Option Span)
  | .literal _ span => [span]
  | .ident _ span => [span]
  | .member object property span => span :: property.span :: object.spans
  | .index object i span => span :: (object.spans ++ i.spans)
  | .call callee args span => span :: (callee.spans ++ spansArgs args)
  | .construct callee args span => span :: (callee.spans ++ spansArgs args)
  | .binary _ left right span => span :: (left.spans ++ right.spans)
  | .logical _ left right span => span :: (left.spans ++ right.spans)
  | .assign _ target value span => span :: (target.spans ++ value.spans)
  | .conditional test consequent alternate span =>
    span :: (test.spans ++ (consequent.spans ++ alternate.spans))
  | .unary _ argument span => span :: argument.spans
  | .unsupported _ span => [span]

/-- The places of arguments. -/
def spansArgs : List Expr → List (Option Span)
  | [] => []
  | e :: rest => e.spans ++ spansArgs rest

end

/-- The place of an expression is one of its places. -/
theorem span_mem_spans (e : Expr) : e.span ∈ e.spans := by
  cases e <;> simp [span, spans]

end Expr

/-- The places of a declarator: its own, that of its name, and those of its initializer. -/
def Declarator.spans (d : Declarator) : List (Option Span) :=
  d.span :: d.name.span :: d.init.elim [] Expr.spans

namespace Stmt

mutual

/-- The places of a statement and its parts. -/
def spans : Stmt → List (Option Span)
  | .declare ds span => span :: ds.flatMap Declarator.spans
  | .expr e span => span :: e.spans
  | .ret none span => [span]
  | .ret (some e) span => span :: e.spans
  | .branch test consequent none span => span :: (test.spans ++ consequent.spans)
  | .branch test consequent (some alternate) span =>
    span :: (test.spans ++ (consequent.spans ++ alternate.spans))
  | .block body span => span :: spansAll body
  | .unsupported _ span => [span]

/-- The places of statements. -/
def spansAll : List Stmt → List (Option Span)
  | [] => []
  | s :: rest => s.spans ++ spansAll rest

end

/-- The statements of a branch have their places inside the branch. -/
theorem spansAll_branchBody (st : Stmt) : spansAll st.branchBody ⊆ st.spans := by
  cases st with
  | block body span =>
    rw [branchBody, spans]
    exact List.subset_cons_self _ _
  | _ =>
    rw [branchBody, spansAll, spansAll, List.append_nil]
    · exact List.Subset.refl _
    · simp

end Stmt

/-- The places of a function: its own, those of its name and its parameters, and those of its
body. -/
def Function.spans (f : Function) : List (Option Span) :=
  f.span :: f.name.span :: (f.params.map (·.span) ++ Stmt.spansAll f.body)

/-- A place, or else another one, is one of the two. -/
theorem or_mem {spans : List (Option Span)} {a b : Option Span} (ha : a ∈ spans) (hb : b ∈ spans) :
    a.or b ∈ spans := by
  cases a with
  | none => exact hb
  | some span => exact ha

/-! ## Checks with one place -/

/-- The result of a check, with its error at another place. -/
def moved {α : Type} (span : Option Span) (r : Except TypeError α) : Except TypeError α :=
  r.mapError fun e => { e with span }

variable {α β : Type} {span span' : Option Span}

/-- Errors of a sequence are moved where they arise. -/
theorem moved_bind (r : Except TypeError α) (k : α → Except TypeError β) :
    moved span (r >>= k) = moved span r >>= fun a => moved span (k a) := by
  cases r <;> rfl

/-- A moved error is at the place it was moved to. -/
theorem span_of_moved {r : Except TypeError α} {e : TypeError} (h : moved span r = .error e) :
    e.span = span := by
  cases r with
  | ok a => cases h
  | error e' =>
    cases h
    rfl

theorem moved_checkOperands (op : String) (left right : Ty) :
    moved span' (checkOperands op left right span) = checkOperands op left right span' := by
  unfold checkOperands
  split
  · rfl
  · split <;> rfl

theorem moved_arithmeticTy (op : String) (left right : Ty) :
    moved span' (arithmeticTy op left right span) = arithmeticTy op left right span' := by
  unfold arithmeticTy
  rw [moved_bind, moved_checkOperands]
  congr 1
  funext _
  split
  · split <;> rfl
  · split <;> rfl
  · split <;> rfl
  · split <;> rfl

theorem moved_binaryAscription (op : BinaryOp) (left right : Ascription) :
    moved span' (binaryAscription op left right span) = binaryAscription op left right span' := by
  unfold binaryAscription
  cases op with
  | arithmetic arith =>
    simp only [moved_bind, moved_arithmeticTy]
    rfl
  | comparison comp =>
    simp only [moved_bind, moved_checkOperands]
    rfl

theorem moved_logicalTy (op : LogicalOp) (left right : Ty) :
    moved span' (logicalTy op left right span) = logicalTy op left right span' := by
  unfold logicalTy
  rw [moved_bind, moved_checkOperands]
  congr 1
  funext _
  split
  · split <;> rfl
  · rfl
  · rfl
  · rfl

theorem moved_unaryAscription (op : UnaryOp) (argument : Ascription) :
    moved span' (unaryAscription op argument span) = unaryAscription op argument span' := by
  unfold unaryAscription
  split
  · rfl
  · split
    · rfl
    · split
      · split <;> rfl
      · rfl

theorem moved_conditionalTy (consequent alternate : Ty) :
    moved span' (conditionalTy consequent alternate span) =
      conditionalTy consequent alternate span' := by
  unfold conditionalTy
  split <;> rfl

theorem moved_assignedTy (op : AssignOp) (name : String) (target value : Ty) :
    moved span' (assignedTy op name target value span) = assignedTy op name target value span' := by
  have hfits : ∀ result, moved span'
      (if (target = .int ∧ result = .number) ∨ target.accepts result = false then
        fault (.assignmentMismatch name target result) span
      else .ok result) =
      if (target = .int ∧ result = .number) ∨ target.accepts result = false then
        fault (.assignmentMismatch name target result) span'
      else .ok result := by
    intro result
    split <;> rfl
  unfold assignedTy
  cases op with
  | plain => exact hfits value
  | compound op =>
    simp only [moved_bind, moved_arithmeticTy]
    congr 1
    funext result
    exact hfits result

theorem moved_ident (cx : Context) (s : Scopes) (name : String) :
    moved span' (cx.ident s name span) = cx.ident s name span' := by
  unfold Context.ident
  split
  · rfl
  · rfl
  · rfl
  · split
    · rfl
    · split
      · rfl
      · split <;> rfl

theorem moved_constructible (cx : Context) (name : String) :
    moved span' (cx.constructible name span) = cx.constructible name span' := by
  unfold Context.constructible
  split
  · split <;> rfl
  · rfl

/-! ## Failing steps -/

/-- `FaultsAt spans r`: the check `r` succeeds, or fails at one of the places. -/
def FaultsAt (spans : List (Option Span)) (r : Except TypeError α) : Prop :=
  ∀ e, r = .error e → e.span ∈ spans

variable {spans spans' : List (Option Span)}

/-- A check that does not fail. -/
theorem faultsAt_ok (a : α) : FaultsAt spans (.ok a : Except TypeError α) := by
  rintro e ⟨⟩

/-- A fault at one of the places. -/
theorem faultsAt_fault {f : TypeFault} (h : span ∈ spans) :
    FaultsAt spans (fault f span : Except TypeError α) := by
  rintro e ⟨⟩
  exact h

/-- A check that knows one place fails there. -/
theorem faultsAt_of_moved {r : Except TypeError α} (hr : moved span r = r) (h : span ∈ spans) :
    FaultsAt spans r := by
  intro e he
  rw [← hr] at he
  rw [span_of_moved he]
  exact h

/-- A sequence fails where one of its checks does. -/
theorem FaultsAt.bind {r : Except TypeError α} {k : α → Except TypeError β} (hr : FaultsAt spans r)
    (hk : ∀ a, r = .ok a → FaultsAt spans (k a)) : FaultsAt spans (r >>= k) := by
  intro e he
  cases r with
  | error e' =>
    cases he
    exact hr _ rfl
  | ok a => exact hk a rfl e he

/-- A check of every element of a list fails where that of one of them does. -/
theorem faultsAt_mapM {f : α → Except TypeError β} {as : List α}
    (h : ∀ a ∈ as, FaultsAt spans (f a)) : FaultsAt spans (as.mapM f) := by
  induction as with
  | nil => exact faultsAt_ok []
  | cons a as ih =>
    rw [List.forall_mem_cons] at h
    rw [List.mapM_cons]
    exact h.1.bind fun b _ => (ih h.2).bind fun bs _ => faultsAt_ok (b :: bs)

namespace Infer

/-- `m.FailsAt spans`: the step `m` fails at one of the places, if it fails. -/
def FailsAt (spans : List (Option Span)) (m : Infer α) : Prop :=
  ∀ s, FaultsAt spans (m.outcome s).1

/-- Returning a value does not fail. -/
theorem failsAt_pure (a : α) : (pure a : Infer α).FailsAt spans := fun _ => faultsAt_ok a

/-- Reading the scopes does not fail. -/
theorem failsAt_scopes : scopes.FailsAt spans := fun s => faultsAt_ok s.scopes

/-- Changing the scopes does not fail. -/
theorem failsAt_modifyScopes (f : Scopes → Scopes) : (modifyScopes f).FailsAt spans :=
  fun _ => faultsAt_ok ()

/-- Noting a return does not fail. -/
theorem failsAt_addReturn (ty : Ty) (span : Option Span) : (addReturn ty span).FailsAt spans :=
  fun _ => faultsAt_ok ()

/-- A check fails where its result does. -/
theorem failsAt_ofExcept {r : Except TypeError α} (h : FaultsAt spans r) :
    (ofExcept r).FailsAt spans := fun _ => h

/-- A sequence fails where one of its steps does, of which the second one runs only where the first
one succeeded. -/
theorem FailsAt.bind {m : Infer α} {k : α → Infer β} (hm : m.FailsAt spans)
    (hk : ∀ {s a s'}, m.Yields s a s' → (k a).FailsAt spans) : (m >>= k).FailsAt spans := by
  intro s
  have hfirst := hm s
  rw [outcome_bind]
  generalize hout : m.outcome s = out at hfirst
  obtain ⟨result, s'⟩ := out
  cases result with
  | error e =>
    rintro _ ⟨⟩
    exact hfirst e rfl
  | ok a => exact hk hout s'

/-- A check whose result is used in a value that is returned. -/
theorem failsAt_check {r : Except TypeError α} (h : FaultsAt spans r) (f : α → β) :
    (ofExcept r >>= fun a => pure (f a)).FailsAt spans :=
  (failsAt_ofExcept h).bind fun _ => failsAt_pure _

/-- More places may be named. -/
theorem FailsAt.mono {m : Infer α} (hm : m.FailsAt spans) (h : spans ⊆ spans') :
    m.FailsAt spans' := fun s e he => h (hm s e he)

end Infer

/-! ## Checks with several places -/

/-- The typed form of an expression is at its place. -/
theorem ExprRun.span_eq {cx : Context} {s s' : Scopes} {e : Expr} {t : TypedExpr}
    (h : ExprRun cx s e t s') : t.span = e.span := by
  cases h <;> rfl

/-- The typed forms of arguments are at their places. -/
theorem Thread.span_mem {cx : Context} {s s' : Scopes} {es : List Expr} {ts : List TypedExpr}
    (h : Thread (ExprRun cx) s es ts s') {t : TypedExpr} (ht : t ∈ ts) :
    t.span ∈ Expr.spansArgs es := by
  induction h with
  | nil => cases ht
  | @cons _ _ _ e _ _ _ he _ ih =>
    rw [Expr.spansArgs, List.mem_append]
    rcases List.mem_cons.1 ht with rfl | ht
    · rw [he.span_eq]
      exact .inl e.span_mem_spans
    · exact .inr (ih ht)

/-- An argument that does not fit is reported at its place, or at that of the call. -/
theorem checkEach_faultsAt {callee : String} {params : List Ty} {args : List TypedExpr}
    (hspan : span ∈ spans) (hargs : ∀ arg ∈ args, arg.span ∈ spans) (index : Nat) :
    FaultsAt spans (checkEach callee index params args span) := by
  induction params generalizing args index with
  | nil => exact faultsAt_ok ()
  | cons param params ih =>
    cases args with
    | nil => exact faultsAt_ok ()
    | cons arg args =>
      rw [List.forall_mem_cons] at hargs
      unfold checkEach
      split
      · exact ih hargs.2 (index + 1)
      · exact faultsAt_fault (or_mem hargs.1 hspan)

theorem checkArguments_faultsAt {callee : String} {signature : Signature} {args : List TypedExpr}
    (hspan : span ∈ spans) (hargs : ∀ arg ∈ args, arg.span ∈ spans) :
    FaultsAt spans (checkArguments callee signature args span) := by
  unfold checkArguments
  split
  · exact checkEach_faultsAt hspan hargs 0
  · exact faultsAt_fault hspan

namespace Context

variable {cx : Context}

theorem checkConstruction_faultsAt {entry : Entry} {args : List TypedExpr} (hspan : span ∈ spans)
    (hargs : ∀ arg ∈ args, arg.span ∈ spans) :
    FaultsAt spans (checkConstruction entry args span) := by
  unfold checkConstruction
  split
  · exact checkArguments_faultsAt hspan hargs
  · exact faultsAt_ok ()

/-- A member that is not known is reported at its name, or at the whole. -/
theorem member_faultsAt {s : Scopes} {path : Option String} {object : Ty} {property : Ident}
    (hproperty : property.span ∈ spans) (hspan : span ∈ spans) :
    FaultsAt spans (cx.member s path object property span) := by
  unfold member
  split
  · exact faultsAt_ok _
  · split
    · exact faultsAt_ok _
    · exact faultsAt_fault (or_mem hproperty hspan)

/-- A name that cannot be assigned is reported at its place, and a value that does not fit at that
of the assignment. -/
theorem assignIdent_faultsAt {s : Scopes} {op : AssignOp} {name : String} {targetSpan : Option Span}
    {value : Ty} (htarget : targetSpan ∈ spans) (hspan : span ∈ spans) :
    FaultsAt spans (cx.assignIdent s op name targetSpan value span) := by
  have hassigned : ∀ target, FaultsAt spans (assignedTy op name target value span) :=
    fun target => faultsAt_of_moved (moved_assignedTy op name target value) hspan
  unfold assignIdent
  split
  · exact (hassigned _).bind fun _ _ => faultsAt_ok _
  · exact (hassigned _).bind fun _ _ => faultsAt_ok _
  · split
    · exact faultsAt_ok _
    · exact faultsAt_fault (or_mem htarget hspan)
  · split
    · exact (hassigned _).bind fun _ _ => faultsAt_ok _
    · exact faultsAt_fault (or_mem htarget hspan)

/-! ## Expressions -/

open Infer

/-- An assignment fails in its target, or at its own place. -/
theorem assign_failsAt {target : Expr} {place : Infer TypedExpr} (hplace : place.FailsAt spans)
    (htarget : target.span ∈ spans) (hspan : span ∈ spans) (op : AssignOp) (value : TypedExpr) :
    (cx.assign op target place value span).FailsAt spans := by
  cases target with
  | ident name targetSpan =>
    unfold assign
    exact failsAt_scopes.bind fun _ =>
      (failsAt_ofExcept (assignIdent_faultsAt htarget hspan)).bind fun _ =>
        (failsAt_modifyScopes _).bind fun _ => failsAt_pure _
  | member object property targetSpan =>
    unfold assign
    refine hplace.bind fun _ => FailsAt.bind ?_ fun _ =>
      (failsAt_modifyScopes _).bind fun _ => failsAt_pure _
    exact failsAt_ofExcept (faultsAt_of_moved (moved_assignedTy op _ _ _) hspan)
  | _ => exact failsAt_ofExcept (faultsAt_fault (or_mem htarget hspan))

mutual

/-- An expression fails at one of its places. -/
theorem expr_failsAt (cx : Context) : ∀ (e : Expr), (cx.expr e).FailsAt e.spans
  | .literal l span => by
    rw [expr]
    exact failsAt_pure _
  | .ident name span => by
    rw [expr]
    exact failsAt_scopes.bind fun _ =>
      failsAt_check (faultsAt_of_moved (moved_ident cx _ name) (by simp [Expr.spans])) _
  | .member object property span => by
    rw [expr]
    refine ((expr_failsAt cx object).mono (by simp [Expr.spans])).bind fun _ =>
      failsAt_scopes.bind fun _ => failsAt_check ?_ _
    exact member_faultsAt (by simp [Expr.spans]) (by simp [Expr.spans])
  | .index object i span => by
    rw [expr]
    exact failsAt_ofExcept (faultsAt_fault (by simp [Expr.spans]))
  | .call callee args span => by
    have hcallee : callee.spans ⊆ (Expr.call callee args span).spans := by simp [Expr.spans]
    have hargs : Expr.spansArgs args ⊆ (Expr.call callee args span).spans := by simp [Expr.spans]
    have hspan : span ∈ (Expr.call callee args span).spans := by simp [Expr.spans]
    rw [expr]
    refine ((expr_failsAt cx callee).mono hcallee).bind fun _ => ?_
    split
    · exact failsAt_ofExcept (faultsAt_fault (or_mem (hcallee callee.span_mem_spans) hspan))
    · refine ((exprs_failsAt cx args).mono hargs).bind fun hyields => failsAt_check ?_ _
      obtain ⟨_, _, hrun⟩ := exprs_derive cx args hyields
      exact checkArguments_faultsAt hspan fun _ harg => hargs (hrun.span_mem harg)
  | .construct callee args span => by
    have hcallee : callee.spans ⊆ (Expr.construct callee args span).spans := by simp [Expr.spans]
    have hargs : Expr.spansArgs args ⊆ (Expr.construct callee args span).spans := by
      simp [Expr.spans]
    have hspan : span ∈ (Expr.construct callee args span).spans := by simp [Expr.spans]
    cases callee with
    | ident name nameSpan =>
      have hname := hcallee (Expr.ident name nameSpan).span_mem_spans
      rw [expr]
      refine FailsAt.bind (failsAt_ofExcept ?_) fun _ =>
        ((exprs_failsAt cx args).mono hargs).bind fun hyields => failsAt_check ?_ _
      · exact faultsAt_of_moved (moved_constructible cx name) (or_mem hname hspan)
      · obtain ⟨_, _, hrun⟩ := exprs_derive cx args hyields
        exact checkConstruction_faultsAt hspan fun _ harg => hargs (hrun.span_mem harg)
    | _ =>
      rw [expr]
      · exact failsAt_ofExcept (faultsAt_fault hspan)
      · simp
  | .binary op left right span => by
    rw [expr]
    refine ((expr_failsAt cx left).mono (by simp [Expr.spans])).bind fun _ =>
      ((expr_failsAt cx right).mono (by simp [Expr.spans])).bind fun _ =>
        failsAt_check ?_ _
    exact faultsAt_of_moved (moved_binaryAscription op _ _) (by simp [Expr.spans])
  | .logical op left right span => by
    rw [expr]
    refine ((expr_failsAt cx left).mono (by simp [Expr.spans])).bind fun _ =>
      ((expr_failsAt cx right).mono (by simp [Expr.spans])).bind fun _ =>
        failsAt_check ?_ _
    exact faultsAt_of_moved (moved_logicalTy op _ _) (by simp [Expr.spans])
  | .assign op target value span => by
    have htarget : target.spans ⊆ (Expr.assign op target value span).spans := by simp [Expr.spans]
    rw [expr]
    refine ((expr_failsAt cx value).mono (by simp [Expr.spans])).bind fun _ => ?_
    exact assign_failsAt ((expr_failsAt cx target).mono htarget) (htarget target.span_mem_spans)
      (by simp [Expr.spans]) op _
  | .conditional test consequent alternate span => by
    rw [expr]
    refine ((expr_failsAt cx test).mono (by simp [Expr.spans])).bind fun _ =>
      ((expr_failsAt cx consequent).mono (by grind [Expr.spans])).bind fun _ =>
        ((expr_failsAt cx alternate).mono (by grind [Expr.spans])).bind fun _ =>
          failsAt_check ?_ _
    exact faultsAt_of_moved (moved_conditionalTy _ _) (by simp [Expr.spans])
  | .unary op argument span => by
    rw [expr]
    refine ((expr_failsAt cx argument).mono (by simp [Expr.spans])).bind fun _ =>
      failsAt_check ?_ _
    exact faultsAt_of_moved (moved_unaryAscription op _) (by simp [Expr.spans])
  | .unsupported kind span => by
    rw [expr]
    exact failsAt_ofExcept (faultsAt_fault (by simp [Expr.spans]))

/-- Arguments fail at one of their places. -/
theorem exprs_failsAt (cx : Context) : ∀ (es : List Expr), (cx.exprs es).FailsAt (Expr.spansArgs es)
  | [] => by
    rw [exprs]
    exact failsAt_pure _
  | e :: rest => by
    rw [exprs]
    exact ((expr_failsAt cx e).mono (by simp [Expr.spansArgs])).bind fun _ =>
      ((exprs_failsAt cx rest).mono (by simp [Expr.spansArgs])).bind fun _ => failsAt_pure _

end

/-! ## Statements -/

/-- A declarator fails in its initializer. -/
theorem declarator_failsAt (cx : Context) (d : Declarator) : (cx.declarator d).FailsAt d.spans := by
  obtain ⟨name, init, span⟩ := d
  unfold declarator
  cases init with
  | some e =>
    have he : e.spans ⊆ Declarator.spans ⟨name, some e, span⟩ := by simp [Declarator.spans]
    exact ((expr_failsAt cx e).mono he).bind fun _ => (failsAt_modifyScopes _).bind fun _ =>
      failsAt_pure _
  | none =>
    cases hget : cx.injections.get? name.name with
    | some a =>
      simp only [hget]
      exact (failsAt_modifyScopes _).bind fun _ => failsAt_pure _
    | none =>
      simp only [hget]
      exact (failsAt_modifyScopes _).bind fun _ => failsAt_pure _

/-- Declarators fail in their initializers. -/
theorem declarators_failsAt (cx : Context) (ds : List Declarator) :
    (cx.declarators ds).FailsAt (ds.flatMap Declarator.spans) := by
  induction ds with
  | nil => exact failsAt_pure _
  | cons d rest ih =>
    rw [declarators, List.flatMap_cons]
    exact ((declarator_failsAt cx d).mono (List.subset_append_left _ _)).bind fun _ =>
      (ih.mono (List.subset_append_right _ _)).bind fun _ => failsAt_pure _

/-- A declarator that does not settle is reported at its place. -/
theorem settleDeclarator_faultsAt {frame : Frame} {d : TypedDeclarator} (h : d.span ∈ spans) :
    FaultsAt spans (settleDeclarator frame d) := by
  unfold settleDeclarator
  split
  · exact faultsAt_ok _
  · split
    · exact faultsAt_ok _
    · exact faultsAt_fault h

/-- A statement whose declarators do not settle is reported at the place of one of them. -/
theorem settleStmt_faultsAt {frame : Frame} {t : TypedStmt}
    (h : ∀ d ∈ t.declarators, d.span ∈ spans) : FaultsAt spans (settleStmt frame t) := by
  cases t with
  | declare ds =>
    unfold settleStmt
    exact (faultsAt_mapM fun d hd => settleDeclarator_faultsAt (h d hd)).bind fun _ _ =>
      faultsAt_ok _
  | _ => exact faultsAt_ok _

/-- A block fails where its statements do, or at a declarator that does not settle. -/
theorem inBlock_failsAt {m : Infer (List TypedStmt)} (hm : m.FailsAt spans)
    (hd : ∀ {s ts s'}, m.Yields s ts s' → ∀ t ∈ ts, ∀ d ∈ t.declarators, d.span ∈ spans) :
    (inBlock m).FailsAt spans := by
  intro s
  have hbody := hm { s with scopes := s.scopes.push }
  generalize hout : m.outcome { s with scopes := s.scopes.push } = out at hbody
  obtain ⟨result, inside⟩ := out
  have hblock : ((inBlock m).outcome s).1 = result.bind (settle inside.scopes.pop.1) := by
    unfold outcome at hout ⊢
    rw [inBlock, hout]
  rw [hblock]
  cases result with
  | error e =>
    rintro _ ⟨⟩
    exact hbody e rfl
  | ok ts => exact faultsAt_mapM fun t ht => settleStmt_faultsAt (hd hout t ht)

end Context

/-- A typed declarator keeps the place of the declarator, or of its name. -/
theorem DeclaratorRun.span_mem {cx : Context} {s s' : Scopes} {d : Declarator} {t : TypedDeclarator}
    (h : DeclaratorRun cx s d t s') : t.span ∈ d.spans := by
  cases h <;> exact or_mem (by simp [Declarator.spans]) (by simp [Declarator.spans])

/-- The declarators of typed statements are at places of the statements. -/
theorem Thread.declarator_span_mem {cx : Context} {s s' : InferState} {body : List Stmt}
    {ts : List TypedStmt} (h : Thread (StmtRun cx) s body ts s') {t : TypedStmt} (ht : t ∈ ts)
    {d : TypedDeclarator} (hd : d ∈ t.declarators) : d.span ∈ Stmt.spansAll body := by
  have hdeclarators : ∀ {s s' : Scopes} {ds : List Declarator} {ts : List TypedDeclarator},
      Thread (DeclaratorRun cx) s ds ts s' →
        ∀ {t}, t ∈ ts → t.span ∈ ds.flatMap Declarator.spans := by
    intro s s' ds ts h
    induction h with
    | nil => exact fun ht => nomatch ht
    | cons hrun _ ih =>
      intro t ht
      rw [List.flatMap_cons, List.mem_append]
      rcases List.mem_cons.1 ht with rfl | ht
      · exact .inl hrun.span_mem
      · exact .inr (ih ht)
  induction h with
  | nil => cases ht
  | cons hrun _ ih =>
    rw [Stmt.spansAll, List.mem_append]
    rcases List.mem_cons.1 ht with rfl | ht
    · -- Only a declaration has declarators of its own.
      cases hrun with
      | declare hds => exact .inl (List.mem_cons_of_mem _ (hdeclarators hds hd))
      | _ => cases hd
    · exact .inr (ih ht)

namespace Context

open Infer

mutual

/-- A statement fails at one of its places. -/
theorem stmt_failsAt (cx : Context) (st : Stmt) : (cx.stmt st).FailsAt st.spans := by
  match st with
  | .declare ds span =>
    rw [stmt]
    exact ((declarators_failsAt cx ds).mono (by simp [Stmt.spans])).bind fun _ => failsAt_pure _
  | .expr e span =>
    rw [stmt]
    exact ((expr_failsAt cx e).mono (by simp [Stmt.spans])).bind fun _ => failsAt_pure _
  | .ret none span =>
    rw [stmt]
    exact (failsAt_addReturn _ _).bind fun _ => failsAt_pure _
  | .ret (some e) span =>
    rw [stmt]
    exact ((expr_failsAt cx e).mono (by simp [Stmt.spans])).bind fun _ =>
      (failsAt_addReturn _ _).bind fun _ => failsAt_pure _
  | .branch test consequent none span =>
    rw [stmt]
    exact ((expr_failsAt cx test).mono (by simp [Stmt.spans])).bind fun _ =>
      ((branchBlock_failsAt cx consequent).mono (by simp [Stmt.spans])).bind fun _ =>
        failsAt_pure _
  | .branch test consequent (some alternate) span =>
    rw [stmt]
    exact ((expr_failsAt cx test).mono (by simp [Stmt.spans])).bind fun _ =>
      ((branchBlock_failsAt cx consequent).mono (by grind [Stmt.spans])).bind fun _ =>
        ((branchBlock_failsAt cx alternate).mono (by grind [Stmt.spans])).bind fun _ =>
          failsAt_pure _
  | .block body span =>
    have hblock := inBlock_failsAt (stmts_failsAt cx body) fun hyields _ ht _ hd =>
      (stmts_derive cx body hyields).declarator_span_mem ht hd
    rw [stmt]
    exact (hblock.mono (by simp [Stmt.spans])).bind fun _ => failsAt_pure _
  | .unsupported kind span =>
    rw [stmt]
    exact failsAt_ofExcept (faultsAt_fault (by simp [Stmt.spans]))
termination_by (sizeOf st, 0)

/-- A branch fails at one of its places, in braces or not. -/
theorem branchBlock_failsAt (cx : Context) (st : Stmt) :
    (inBlock (cx.branchBody st (cx.stmt st))).FailsAt st.spans := by
  refine inBlock_failsAt ?_ fun hyields _ ht _ hd =>
    st.spansAll_branchBody ((branchBody_derives cx st hyields).declarator_span_mem ht hd)
  have hsingle := stmt_failsAt cx st
  cases st with
  | block body span =>
    rw [branchBody]
    exact (stmts_failsAt cx body).mono (by simp [Stmt.spans])
  | _ =>
    rw [branchBody, map_eq_pure_bind]
    · exact hsingle.bind fun _ => failsAt_pure _
    · simp
termination_by (sizeOf st, 1)

/-- Statements fail at one of their places. -/
theorem stmts_failsAt (cx : Context) (body : List Stmt) :
    (cx.stmts body).FailsAt (Stmt.spansAll body) := by
  match body with
  | [] =>
    rw [stmts]
    exact failsAt_pure _
  | st :: rest =>
    rw [stmts]
    exact ((stmt_failsAt cx st).mono (by simp [Stmt.spansAll])).bind fun _ =>
      ((stmts_failsAt cx rest).mono (by simp [Stmt.spansAll])).bind fun _ => failsAt_pure _
termination_by (sizeOf body, 0)

end

end Context

/-! ## Returns -/

/-- `s.NotesAt spans s'`: the returns of `s'` that `s` does not have are at the places. -/
def InferState.NotesAt (spans : List (Option Span)) (s s' : InferState) : Prop :=
  ∀ r ∈ s'.returns, r ∈ s.returns ∨ r.2 ∈ spans

namespace InferState.NotesAt

variable {s s₁ s₂ : InferState}

theorem refl : s.NotesAt spans s := fun _ hr => .inl hr

theorem trans (h₁ : s.NotesAt spans s₁) (h₂ : s₁.NotesAt spans s₂) : s.NotesAt spans s₂ := by
  intro r hr
  rcases h₂ r hr with hr | hspan
  · exact h₁ r hr
  · exact .inr hspan

theorem mono (h : s.NotesAt spans s₁) (hsub : spans ⊆ spans') : s.NotesAt spans' s₁ := by
  intro r hr
  rcases h r hr with hr | hspan
  · exact .inl hr
  · exact .inr (hsub hspan)

end InferState.NotesAt

/-- Statements note returns at their places, one after the other. -/
theorem Thread.notesAt {s s' : InferState} {body : List Stmt} {ts : List TypedStmt}
    (h : Thread (fun s st _ s' => s.NotesAt st.spans s') s body ts s') :
    s.NotesAt (Stmt.spansAll body) s' := by
  induction h with
  | nil => exact .refl
  | cons hst _ ih =>
    rw [Stmt.spansAll]
    exact (hst.mono (List.subset_append_left _ _)).trans (ih.mono (List.subset_append_right _ _))

/-- The statements of a block note returns at their places. -/
theorem BlockRun.notesAt {s s' : InferState} {body : List Stmt} {typed : List TypedStmt}
    (h : BlockRun (fun s st _ s' => s.NotesAt st.spans s') s body typed s') :
    s.NotesAt (Stmt.spansAll body) s' := by
  obtain ⟨unsettled, inside, hthread, -, rfl⟩ := h
  exact hthread.notesAt

/-- A statement notes returns at its places. -/
theorem StmtRun.notesAt {cx : Context} {s s' : InferState} {st : Stmt} {t : TypedStmt}
    (h : StmtRun cx s st t s') : s.NotesAt st.spans s' := by
  have hnew : ∀ {s : InferState} {scopes : Scopes} {ty : Ty} {span : Option Span}
      {spans : List (Option Span)}, span ∈ spans →
      s.NotesAt spans ⟨scopes, s.returns ++ [(ty, span)]⟩ := by
    intro s scopes ty span spans hspan r hr
    rcases List.mem_append.1 hr with hr | hr
    · exact .inl hr
    · rw [List.mem_singleton.1 hr]
      exact .inr hspan
  induction h using StmtRun.induct with
  | declare _ => exact .refl
  | expr _ => exact .refl
  | retNone => exact hnew (by simp [Stmt.spans])
  | retSome _ => exact hnew (by simp [Stmt.spans])
  | @branch s i s₁ test consequent span t us cs _ _ _ ih =>
    have hbody := (ih.mono fun ⟨_, h⟩ => h).notesAt.mono consequent.spansAll_branchBody
    exact hbody.mono (by simp [Stmt.spans])
  | @branchElse s i j s₁ test consequent alternate span t us cs vs as _ _ _ _ _ ihc iha =>
    have hconsequent := (ihc.mono fun ⟨_, h⟩ => h).notesAt.mono consequent.spansAll_branchBody
    have halternate := (iha.mono fun ⟨_, h⟩ => h).notesAt.mono alternate.spansAll_branchBody
    exact (hconsequent.mono (by grind [Stmt.spans])).trans
      (halternate.mono (by grind [Stmt.spans]))
  | block _ _ ih => exact (ih.mono fun ⟨_, h⟩ => h).notesAt.mono (by simp [Stmt.spans])

/-- Returns that have no type in common are reported at one of them. -/
theorem unifyReturns_faultsAt {function : String} {returns : List (Ty × Option Span)}
    (h : ∀ r ∈ returns, r.2 ∈ spans) (unified : Ty) :
    FaultsAt spans (unifyReturns function unified returns) := by
  induction returns generalizing unified with
  | nil => exact faultsAt_ok _
  | cons r rest ih =>
    rw [List.forall_mem_cons] at h
    unfold unifyReturns
    split
    · exact ih h.2 _
    · exact faultsAt_fault h.1

theorem resultTy_faultsAt {function : String} {returns : List (Ty × Option Span)}
    (h : ∀ r ∈ returns, r.2 ∈ spans) : FaultsAt spans (resultTy function returns) := by
  cases returns with
  | nil => exact faultsAt_ok _
  | cons r rest =>
    rw [List.forall_mem_cons] at h
    exact unifyReturns_faultsAt h.2 r.1

/-! ## Functions -/

namespace Function

variable {f : Function} {injections : Injections} {registry : Registry} {e : TypeError}

/-- A parameter without a type is reported at its place, or at that of the function. -/
theorem ascribedParams_faultsAt (f : Function) (injections : Injections) :
    FaultsAt f.spans (f.ascribedParams injections) := by
  refine faultsAt_mapM fun param hparam => FaultsAt.bind ?_ fun _ _ => faultsAt_ok _
  have hspan : param.span ∈ f.spans := by
    have hmem : param.span ∈ f.params.map (·.span) := List.mem_map_of_mem hparam
    simp [spans, hmem]
  unfold paramAscription
  split
  · exact faultsAt_ok _
  · exact faultsAt_fault (or_mem hspan (by simp [spans]))

/-- The place of an error is that of a node of the function: of the function itself, a parameter, a
statement, a declarator, a name, an expression or a property.  When all of them have a place, so has
the error. -/
theorem error_points_into_function (h : f.infer injections registry = .error e) :
    e.span ∈ f.spans ∧ ((∀ span ∈ f.spans, span.isSome = true) → e.span.isSome = true) := by
  have hbodySpans : Stmt.spansAll f.body ⊆ f.spans := by
    unfold spans
    grind
  have hinfer : FaultsAt f.spans (f.infer injections registry) := by
    refine (ascribedParams_faultsAt f injections).bind fun params _ => ?_
    have hbody := Context.inBlock_failsAt
      (Context.stmts_failsAt (f.context injections registry) f.body) fun hyields _ ht _ hd =>
        (Context.stmts_derive _ f.body hyields).declarator_span_mem ht hd
    refine FaultsAt.bind (hbody.mono hbodySpans ⟨bodyScopes params, []⟩) fun body hok => ?_
    refine FaultsAt.bind (resultTy_faultsAt fun r hr => hbodySpans ?_) fun _ _ => faultsAt_ok _
    -- The returns were noted by the statements of the body, and there were none before them.
    have hrun := Context.inBlock_derives
      (Context.stmts_derive (f.context injections registry) f.body)
      (Prod.ext hok rfl : (Context.inBlock ((f.context injections registry).stmts f.body)).Yields
        ⟨bodyScopes params, []⟩ body _)
    rcases (hrun.mono StmtRun.notesAt).notesAt r hr with hnone | hspan
    · cases hnone
    · exact hspan
  have hmem := hinfer e h
  exact ⟨hmem, fun hall => hall _ hmem⟩

end Function

namespace Sample

/-- `function pick(k) { if (k) return k; return; }` -/
def pick : Function where
  name := ⟨"pick", some ⟨9, 13⟩⟩
  params := [⟨"k", some ⟨14, 15⟩⟩]
  body := [
    .branch (.ident "k" (some ⟨23, 24⟩))
      (.ret (some (.ident "k" (some ⟨33, 34⟩))) (some ⟨26, 35⟩)) none (some ⟨19, 35⟩),
    .ret none (some ⟨36, 43⟩)]
  span := some ⟨0, 45⟩

/-- Two returns that do not fit are reported at the second one, when the whole body was visited. -/
theorem pick_points_at_return :
    pick.infer ⟨[("k", .ofTy .boolean)]⟩ ⟨[]⟩ =
      .error ⟨.returnMismatch "pick" .boolean .undefined, some ⟨36, 43⟩⟩ ∧
    (∀ span ∈ pick.spans, span.isSome = true) ∧ some ⟨36, 43⟩ ∈ pick.spans ∧
    (some ⟨36, 43⟩ : Option Span).isSome = true := by
  have hinfer : pick.infer ⟨[("k", .ofTy .boolean)]⟩ ⟨[]⟩ =
      .error ⟨.returnMismatch "pick" .boolean .undefined, some ⟨36, 43⟩⟩ := rfl
  have hplaced : ∀ span ∈ pick.spans, span.isSome = true := by
    simp [pick, Function.spans, Stmt.spansAll, Stmt.spans, Expr.spans]
  obtain ⟨hmem, hsome⟩ := Function.error_points_into_function hinfer
  exact ⟨hinfer, hplaced, hmem, hsome hplaced⟩

end Sample

end Shader
