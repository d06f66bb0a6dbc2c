import Shader.Proofs.Derivation
import Shader.Proofs.Lexical

/-!
# Inference follows the trace

Each event of a trace is one step on the scopes of inference.  `Step` says what the step may be,
given the lexical scopes at that point, and `Trace` strings the steps together.
`Function.infer_trace` shows that a successful inference follows the trace of its result.  What is
true of every point of a run can then be shown by induction on the trace, from what a single step
keeps.
-/

namespace Shader

/-! ## Steps -/

/-- What a declared name is bound to at first: the type of its initializer, its injected type, or
nothing yet. -/
def Context.declaredBinding (cx : Context) (d : TypedDeclarator) : Binding :=
  match d.init with
  | some e => .typed e.ty
  | none =>
    match cx.injections.get? d.name with
    | some a => .typed a.ty
    | none => .pending

/-- `Step cx Γ s ev s'`: with the lexical scopes `Γ`, the event `ev` takes the scopes of inference
from `s` to `s'`.  The ascriptions in the event are those that inference gives in `s`. -/
inductive Step (cx : Context) (Γ : Lexical) : Scopes → Event → Scopes → Prop where
  | enter {s : Scopes} : Step cx Γ s .enter s.push
  -- The declarators of a scope that closes have settled with its frame.
  | leave {s : Scopes} :
      Γ.scopes ≠ [] →
      (∀ v ∈ Γ.scopes.headD [], v.declarator.init = none →
        (s.pop.1.get? v.declarator.name).bind Binding.ty? = some v.declarator.ascription.ty) →
      Step cx Γ s .leave s.pop.2
  | declare {s : Scopes} {d : TypedDeclarator} :
      Γ.scopes ≠ [] →
      (∀ e, d.init = some e → d.ascription = .ofTy e.ty) →
      Step cx Γ s (.declare d) (s.insert d.name (cx.declaredBinding d))
  | readIdent {s : Scopes} {name : String} {m : Mark} :
      cx.ident s name m.span = .ok m.ascription →
      Step cx Γ s (.read (.ident name m)) s
  | readMember {s : Scopes} {object : TypedExpr} {property : String} {propertySpan : Option Span}
      {m : Mark} :
      cx.member s (TypedExpr.member object property m).path? object.ty ⟨property, propertySpan⟩
        m.span = .ok m.ascription →
      Step cx Γ s (.read (.member object property m)) s
  | assignIdent {s s' : Scopes} {op : AssignOp} {name : String} {value : TypedExpr}
      {target result : Ty} {targetSpan span : Option Span} :
      cx.assignIdent s op name targetSpan value.ty span = .ok (target, result, s') →
      Step cx Γ s (.assign op (.ident name ⟨.ofTy target, targetSpan⟩) value) s'
  -- A member that is assigned is read first, and what is known of its value is dropped.
  | assignMember {s : Scopes} {op : AssignOp} {object value : TypedExpr} {property : String}
      {a : Ascription} {result : Ty} {propertySpan targetSpan span : Option Span} :
      cx.member s (TypedExpr.member object property ⟨a, targetSpan⟩).path? object.ty
        ⟨property, propertySpan⟩ targetSpan = .ok a →
      assignedTy op (TypedExpr.member object property ⟨a, targetSpan⟩).describe a.ty value.ty span
        = .ok result →
      Step cx Γ s (.assign op (.member object property ⟨.ofTy a.ty, targetSpan⟩) value)
        (Context.assignMember s (TypedExpr.member object property ⟨a, targetSpan⟩).describe a)

/-- `Trace cx Γ s evs s'`: the events take the scopes of inference from `s` to `s'`, one step after
the other. -/
inductive Trace (cx : Context) : Lexical → Scopes → List Event → Scopes → Prop where
  | nil {Γ : Lexical} {s : Scopes} : Trace cx Γ s [] s
  | cons {Γ : Lexical} {s s₁ s₂ : Scopes} {ev : Event} {evs : List Event} :
      Step cx Γ s ev s₁ → Trace cx (Γ.after ev) s₁ evs s₂ → Trace cx Γ s (ev :: evs) s₂

namespace Trace

variable {cx : Context} {Γ : Lexical} {s s₁ s₂ : Scopes} {xs ys : List Event}

/-- Two traces that meet are one. -/
theorem append (hx : Trace cx Γ s xs s₁) (hy : Trace cx (Γ.run xs) s₁ ys s₂) :
    Trace cx Γ s (xs ++ ys) s₂ := by
  induction hx with
  | nil => exact hy
  | cons hstep _ ih => exact .cons hstep (ih hy)

/-- A trace can be cut anywhere. -/
theorem split (h : Trace cx Γ s (xs ++ ys) s₂) :
    ∃ s₁, Trace cx Γ s xs s₁ ∧ Trace cx (Γ.run xs) s₁ ys s₂ := by
  induction xs generalizing Γ s with
  | nil => exact ⟨s, .nil, h⟩
  | cons ev xs ih =>
    cases h with
    | cons hstep hrest =>
      obtain ⟨s₁, hx, hy⟩ := ih hrest
      exact ⟨s₁, .cons hstep hx, hy⟩

/-- A single step is a trace. -/
theorem single {ev : Event} (h : Step cx Γ s ev s₁) : Trace cx Γ s [ev] s₁ := .cons h .nil

/-- What every step keeps is kept by a trace. -/
theorem keeps {I : Lexical → Scopes → Prop}
    (hstep : ∀ {Γ s ev s'}, Step cx Γ s ev s' → I Γ s → I (Γ.after ev) s')
    (h : Trace cx Γ s xs s₁) (hI : I Γ s) : I (Γ.run xs) s₁ := by
  induction h with
  | nil => exact hI
  | cons hs _ ih => exact ih (hstep hs hI)

end Trace

/-! ## From derivations to traces -/

/-- The typed form of an expression has the same path. -/
theorem ExprRun.path?_eq {cx : Context} {s s' : Scopes} {e : Expr} {t : TypedExpr}
    (h : ExprRun cx s e t s') : t.path? = e.path? := by
  induction h using ExprRun.induct with
  | member _ _ ih => rw [TypedExpr.path?, Expr.path?, ih]
  | _ => rfl

/-- Arguments are inferred one after the other. -/
theorem Thread.traceArgs {cx : Context} {s s' : Scopes} {es : List Expr} {ts : List TypedExpr}
    (h : Thread (fun s _ t s' => ∀ Γ, Trace cx Γ s t.events s') s es ts s') (Γ : Lexical) :
    Trace cx Γ s (TypedExpr.eventsArgs ts) s' := by
  induction h with
  | nil => exact .nil
  | @cons _ _ _ _ t _ _ ht _ ih =>
    rw [TypedExpr.eventsArgs]
    refine (ht Γ).append ?_
    rw [Lexical.run_exprEvents]
    exact ih

/-- The inference of an expression follows its events. -/
theorem ExprRun.trace {cx : Context} {s s' : Scopes} {e : Expr} {t : TypedExpr}
    (h : ExprRun cx s e t s') (Γ : Lexical) : Trace cx Γ s t.events s' := by
  induction h using ExprRun.induct generalizing Γ with
  | literal => exact .nil
  | ident ha => exact .single (.readIdent ha)
  | @member s s₁ object property span o a ho ha ih =>
    have hpath : (Expr.member object property span).path?
        = (TypedExpr.member o property.name ⟨a, span⟩).path? := (ExprRun.member ho ha).path?_eq.symm
    rw [hpath] at ha
    refine (ih Γ).append (.single ?_)
    exact .readMember ha
  | call _ _ _ _ ihc ihargs =>
    refine (ihc Γ).append ?_
    rw [Lexical.run_exprEvents]
    exact (ihargs.mono fun ⟨_, h⟩ => h).traceArgs Γ
  | construct _ _ _ ihargs => exact (ihargs.mono fun ⟨_, h⟩ => h).traceArgs Γ
  | binary _ _ _ ihl ihr =>
    refine (ihl Γ).append ?_
    rw [Lexical.run_exprEvents]
    exact ihr Γ
  | logical _ _ _ ihl ihr =>
    refine (ihl Γ).append ?_
    rw [Lexical.run_exprEvents]
    exact ihr Γ
  | assignIdent _ ha ihv => exact (ihv Γ).append (.single (.assignIdent ha))
  | @assignMember s s₁ s₂ op object property targetSpan span value v t result hv ht ha ihv iht =>
    -- The target is read like any member; of its events only the last one becomes an assignment.
    have hdescribe := ht.path?_eq
    cases ht with
    | @member _ _ _ _ _ o a ho ha' =>
      obtain ⟨s₃, haccess, hread⟩ := (iht Γ).split
      rw [Lexical.run_exprEvents] at hread
      cases hread with
      | cons hstep hnil =>
        cases hnil
        cases hstep with
        | readMember hmember =>
          refine (ihv Γ).append ?_
          rw [Lexical.run_exprEvents]
          refine haccess.append (.single ?_)
          rw [Expr.describe, ← hdescribe] at ha ⊢
          exact .assignMember hmember ha
  | conditional _ _ _ _ iht ihc iha =>
    refine (iht Γ).append ?_
    rw [Lexical.run_exprEvents]
    refine (ihc Γ).append ?_
    rw [Lexical.run_exprEvents]
    exact iha Γ
  | unary _ _ ih => exact ih Γ

/-- The inference of a declarator follows the events of the settled one. -/
theorem DeclaratorRun.trace {cx : Context} {s s' : Scopes} {d : Declarator} {t t' : TypedDeclarator}
    {frame : Frame} (h : DeclaratorRun cx s d t s')
    (ht : Context.settleDeclarator frame t = .ok t') {Γ : Lexical} (hΓ : Γ.scopes ≠ []) :
    Trace cx Γ s t'.events s' := by
  obtain ⟨heq, hsome, -⟩ := Context.settleDeclarator_eq_ok ht
  -- What a name is bound to at first does not depend on how it settles.
  have hdeclare : ∀ {b : Binding}, t'.init = none → b = cx.declaredBinding t' →
      Trace cx Γ s t'.events (s.insert t'.name b) := by
    intro b hinit hb
    rw [hb, TypedDeclarator.events, hinit]
    exact .single (.declare hΓ (by simp [hinit]))
  rw [heq] at hdeclare ⊢
  cases h with
  | init he =>
    refine (he.trace Γ).append (.single (.declare ?_ ?_))
    · rwa [Lexical.run_exprEvents]
    intro e he
    cases he
    exact hsome _ rfl
  | injected ha =>
    refine hdeclare rfl ?_
    simp [Context.declaredBinding, ha]
  | pending ha =>
    refine hdeclare rfl ?_
    simp [Context.declaredBinding, ha]

/-- The inference of declarators follows the events of the settled ones. -/
theorem Thread.traceDeclarators {cx : Context} {s s' : Scopes} {ds : List Declarator}
    {ts ts' : List TypedDeclarator} {frame : Frame} (h : Thread (DeclaratorRun cx) s ds ts s')
    (hts : List.Forall₂ (fun t t' => Context.settleDeclarator frame t = .ok t') ts ts')
    {Γ : Lexical} (hΓ : Γ.scopes ≠ []) :
    Trace cx Γ s (ts'.flatMap TypedDeclarator.events) s' := by
  induction h generalizing ts' Γ with
  | nil =>
    cases hts
    exact .nil
  | cons hd _ ih =>
    cases hts with
    | @cons _ d _ _ ht hrest =>
      refine (hd.trace ht hΓ).append (ih hrest ?_)
      simpa using (Lexical.grows_declarators Γ [d]).ne_nil hΓ

/-- The declarators of a settled block have the types of their names in its frame. -/
theorem Context.settle_declarators {frame : Frame} {body body' : List TypedStmt}
    (h : Context.settle frame body = .ok body') {d : TypedDeclarator}
    (hd : d ∈ body'.flatMap TypedStmt.declarators) (hinit : d.init = none) :
    (frame.get? d.name).bind Binding.ty? = some d.ascription.ty := by
  obtain ⟨t', ht', hd⟩ := List.mem_flatMap.1 hd
  obtain ⟨t, -, ht⟩ := exists_of_mem_mapM h ht'
  rcases Context.settleStmt_eq_ok ht with ⟨ds, ds', rfl, rfl, hds⟩ | ⟨rfl, hne⟩
  · obtain ⟨d₀, -, hd₀⟩ := exists_of_mem_mapM hds hd
    obtain ⟨heq, -, hnone⟩ := Context.settleDeclarator_eq_ok hd₀
    rw [heq] at hinit ⊢
    exact (hnone hinit).2
  · cases t' with
    | declare ds => exact absurd rfl (hne ds)
    | _ => cases hd

/-- `FollowsEvents cx s t s'`: wherever `t` stands, and however its declarators settle, its events
take the scopes of `s` to those of `s'`. -/
def FollowsEvents (cx : Context) (s : InferState) (t : TypedStmt) (s' : InferState) : Prop :=
  ∀ {frame : Frame} {t' : TypedStmt}, Context.settleStmt frame t = .ok t' →
    ∀ {Γ : Lexical}, Γ.scopes ≠ [] → Trace cx Γ s.scopes t'.events s'.scopes

/-- The inference of statements follows the events of the settled ones. -/
theorem Thread.traceStmts {cx : Context} {s s' : InferState} {body : List Stmt}
    {ts ts' : List TypedStmt} {frame : Frame}
    (h : Thread (fun s _ t s' => FollowsEvents cx s t s') s body ts s')
    (hts : List.Forall₂ (fun t t' => Context.settleStmt frame t = .ok t') ts ts')
    {Γ : Lexical} (hΓ : Γ.scopes ≠ []) :
    Trace cx Γ s.scopes (TypedStmt.eventsAll ts') s'.scopes := by
  induction h generalizing ts' Γ with
  | nil =>
    cases hts
    exact .nil
  | cons hst _ ih =>
    cases hts with
    | cons ht hrest => exact (hst ht hΓ).append (ih hrest ((Lexical.grows_events Γ _).ne_nil hΓ))

/-- The inference of a block follows the events of the settled one. -/
theorem BlockRun.trace {cx : Context} {s s' : InferState} {body : List Stmt}
    {typed : List TypedStmt}
    (h : BlockRun (fun s _ t s' => FollowsEvents cx s t s') s body typed s') (Γ : Lexical) :
    Trace cx Γ s.scopes (.enter :: (TypedStmt.eventsAll typed ++ [.leave])) s'.scopes := by
  obtain ⟨unsettled, inside, hthread, hsettle, rfl⟩ := h
  have hopen : (Γ.after .enter).scopes ≠ [] := List.cons_ne_nil _ _
  have hgrows := Lexical.grows_eventsAll (Γ.after .enter) typed
  have hbody := hthread.traceStmts (mapM_eq_ok_iff.1 hsettle) hopen
  refine .cons .enter (hbody.append (.single (.leave (hgrows.ne_nil hopen) ?_)))
  intro v hv hinit
  rcases hgrows.head_mem v hv with hv | hv
  · cases hv
  · exact Context.settle_declarators hsettle hv hinit

/-- The inference of a statement follows the events of the settled one. -/
theorem StmtRun.trace {cx : Context} {s s' : InferState} {st : Stmt} {t : TypedStmt}
    (h : StmtRun cx s st t s') : FollowsEvents cx s t s' := by
  induction h using StmtRun.induct with
  | declare hds =>
    intro frame t' ht Γ hΓ
    rcases Context.settleStmt_eq_ok ht with ⟨ds, ds', heq, rfl, hsettle⟩ | ⟨-, hne⟩
    · cases heq
      exact hds.traceDeclarators (mapM_eq_ok_iff.1 hsettle) hΓ
    · exact absurd rfl (hne _)
  | expr he =>
    intro frame t' ht Γ hΓ
    obtain rfl := Except.ok.inj ht
    exact he.trace Γ
  | retNone =>
    intro frame t' ht Γ hΓ
    obtain rfl := Except.ok.inj ht
    exact .nil
  | retSome he =>
    intro frame t' ht Γ hΓ
    obtain rfl := Except.ok.inj ht
    exact he.trace Γ
  | branch htest _ _ ihc =>
    intro frame t' ht Γ hΓ
    obtain rfl := Except.ok.inj ht
    exact (htest.trace Γ).append ((ihc.mono fun ⟨_, h⟩ => h).trace _)
  | branchElse htest _ _ _ _ ihc iha =>
    intro frame t' ht Γ hΓ
    obtain rfl := Except.ok.inj ht
    refine (htest.trace Γ).append ?_
    exact ((ihc.mono fun ⟨_, h⟩ => h).trace _).append ((iha.mono fun ⟨_, h⟩ => h).trace _)
  | block _ _ ih =>
    intro frame t' ht Γ hΓ
    obtain rfl := Except.ok.inj ht
    exact (ih.mono fun ⟨_, h⟩ => h).trace Γ

/-- The inference of a function follows its trace, from the scope of its parameters. -/
theorem Function.infer_trace {f : Function} {injections : Injections} {registry : Registry}
    {t : TypedFunction} (h : f.infer injections registry = .ok t) :
    ∃ params s', f.ascribedParams injections = .ok params ∧
      t.params = params.map (fun p => ⟨p.1.name, p.2.ty, p.1.span⟩) ∧
      Trace (f.context injections registry) (Lexical.initial t.params) (bodyScopes params) t.events
        s' := by
  obtain ⟨hparams, hbody, _⟩ := Function.infer_derives h
  exact ⟨_, _, hparams, rfl, (hbody.mono StmtRun.trace).trace _⟩

end Shader
