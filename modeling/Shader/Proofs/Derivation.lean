import Mathlib.Data.List.Forall2
import Shader.Proofs.Lookup

/-!
# Derivations of inference

Inference is a program that threads its state through a tree.  This module says once what a
successful run can do, as relations between the scopes before, a tree, the typed tree, and the
scopes after: one rule for each form of expression and statement, with the side condition that was
checked.

The relations speak of success only.  `Context.expr_derives` and `Context.stmts_derive` show that
every successful run is derivable, and `Function.infer_derives` puts the pieces together for a whole
function.  A fact about all successful runs is then proved by induction on the derivation, with one
case for each rule and no further look at the program.
-/

namespace Shader

/-! ## Successful steps -/

namespace Infer

variable {α β : Type}

/-- What a step of inference does from a state. -/
def outcome (m : Infer α) (s : InferState) : Except TypeError α × InferState := m s

/-- From the state `s` the step `m` succeeds with `a` and ends in the state `t`. -/
def Yields (m : Infer α) (s : InferState) (a : α) (t : InferState) : Prop :=
  m.outcome s = (.ok a, t)

/-- A sequence of two steps runs the second one where the first one succeeded. -/
theorem outcome_bind (m : Infer α) (k : α → Infer β) (s : InferState) :
    (m >>= k).outcome s =
      match m.outcome s with
      | (.ok a, s') => (k a).outcome s'
      | (.error e, s') => (.error e, s') := by
  unfold outcome
  simp only [bind, ExceptT.bind, ExceptT.mk, StateT.bind, ExceptT.bindCont]
  rcases m s with ⟨e | a, s'⟩ <;> rfl

/-- A sequence succeeds exactly when both of its steps do. -/
theorem yields_bind_iff {m : Infer α} {k : α → Infer β} {s t : InferState} {b : β} :
    (m >>= k).Yields s b t ↔ ∃ a s', m.Yields s a s' ∧ (k a).Yields s' b t := by
  unfold Yields
  rw [outcome_bind]
  rcases m.outcome s with ⟨e | a, s'⟩
  · simp
  · constructor
    · intro h
      exact ⟨a, s', rfl, h⟩
    · rintro ⟨a', t', h, hk⟩
      cases h
      exact hk

/-- Returning a value succeeds and changes nothing. -/
theorem yields_pure_iff {a b : α} {s t : InferState} :
    (pure a : Infer α).Yields s b t ↔ a = b ∧ s = t := by
  change ((.ok a, s) : Except TypeError α × InferState) = (.ok b, t) ↔ _
  simp

/-- Mapping the value of a step. -/
theorem yields_map_iff {f : α → β} {m : Infer α} {s t : InferState} {b : β} :
    (f <$> m).Yields s b t ↔ ∃ a, m.Yields s a t ∧ f a = b := by
  rw [map_eq_pure_bind, yields_bind_iff]
  simp [yields_pure_iff]

/-- A check succeeds exactly when its result does. -/
theorem yields_ofExcept_iff {r : Except TypeError α} {b : α} {s t : InferState} :
    (ofExcept r).Yields s b t ↔ r = .ok b ∧ s = t := by
  change ((r, s) : Except TypeError α × InferState) = (.ok b, t) ↔ _
  simp

/-- Reading the scopes changes nothing. -/
theorem yields_scopes_iff {b : Scopes} {s t : InferState} :
    scopes.Yields s b t ↔ s.scopes = b ∧ s = t := by
  change ((.ok s.scopes, s) : Except TypeError Scopes × InferState) = (.ok b, t) ↔ _
  simp

/-- Changing the scopes leaves the returns alone. -/
theorem yields_modifyScopes_iff {f : Scopes → Scopes} {u : Unit} {s t : InferState} :
    (modifyScopes f).Yields s u t ↔ t = { s with scopes := f s.scopes } := by
  change ((.ok (), { s with scopes := f s.scopes }) : Except TypeError Unit × InferState)
    = (.ok u, t) ↔ _
  simp [eq_comm]

/-- Noting a return leaves the scopes alone. -/
theorem yields_addReturn_iff {ty : Ty} {span : Option Span} {u : Unit} {s t : InferState} :
    (addReturn ty span).Yields s u t ↔ t = { s with returns := s.returns ++ [(ty, span)] } := by
  change ((.ok (), { s with returns := s.returns ++ [(ty, span)] }) :
    Except TypeError Unit × InferState) = (.ok u, t) ↔ _
  simp [eq_comm]

end Infer

/-- A check of every element of a list succeeds when each of them does. -/
theorem mapM_eq_ok_iff {ε α β : Type} {f : α → Except ε β} {as : List α} {bs : List β} :
    as.mapM f = .ok bs ↔ List.Forall₂ (fun a b => f a = .ok b) as bs := by
  induction as generalizing bs with
  | nil => simp [pure, Except.pure, eq_comm]
  | cons a as ih =>
    rw [List.mapM_cons, List.forall₂_cons_left_iff]
    cases ha : f a with
    | error e => simp [bind, Except.bind]
    | ok b =>
      cases has : as.mapM f with
      | error e => simp [bind, Except.bind, ← ih, has]
      | ok rest => simp [bind, Except.bind, pure, Except.pure, ← ih, has, eq_comm]

/-- Every result of such a check comes from an element. -/
theorem exists_of_mem_mapM {ε α β : Type} {f : α → Except ε β} {as : List α} {bs : List β}
    (h : as.mapM f = .ok bs) {b : β} (hb : b ∈ bs) : ∃ a ∈ as, f a = .ok b := by
  have hforall := mapM_eq_ok_iff.1 h
  clear h
  induction hforall with
  | nil => cases hb
  | cons ha _ ih =>
    rcases List.mem_cons.1 hb with rfl | hb
    · exact ⟨_, List.mem_cons_self, ha⟩
    · obtain ⟨a, hmem, ha⟩ := ih hb
      exact ⟨a, List.mem_cons_of_mem _ hmem, ha⟩

/-! ## Settling -/

namespace Context

/-- Settling changes the ascription of a declarator only, and only where there is no initializer:
there it becomes the type of the name in the frame. -/
theorem settleDeclarator_eq_ok {frame : Frame} {d d' : TypedDeclarator}
    (h : settleDeclarator frame d = .ok d') :
    d' = { d with ascription := d'.ascription } ∧
      (∀ e, d.init = some e → d'.ascription = d.ascription) ∧
      (d.init = none → d'.ascription.value = none ∧
        (frame.get? d.name).bind Binding.ty? = some d'.ascription.ty) := by
  obtain ⟨name, init, ascription, span⟩ := d
  cases init with
  | some e =>
    obtain rfl := Except.ok.inj h
    simp
  | none =>
    cases hty : (frame.get? name).bind Binding.ty? with
    | none => simp [settleDeclarator, hty, fault] at h
    | some ty =>
      simp only [settleDeclarator, hty, Except.ok.injEq] at h
      subst h
      simp [Ascription.ofTy]

/-- Settling a statement settles the declarators of a declaration and changes nothing else. -/
theorem settleStmt_eq_ok {frame : Frame} {t t' : TypedStmt} (h : settleStmt frame t = .ok t') :
    (∃ ds ds', t = .declare ds ∧ t' = .declare ds' ∧
      ds.mapM (settleDeclarator frame) = .ok ds') ∨
    (t' = t ∧ ∀ ds, t ≠ .declare ds) := by
  cases t with
  | declare ds =>
    obtain ⟨ds', hds, h⟩ := bind_eq_ok_iff.1 h
    cases h
    exact .inl ⟨ds, ds', rfl, rfl, hds⟩
  | _ =>
    obtain rfl := Except.ok.inj h
    exact .inr ⟨rfl, by simp⟩

end Context

/-! ## The rules -/

/-- A relation threaded through two lists of equal length, from left to right. -/
inductive Thread {S α β : Type} (R : S → α → β → S → Prop) : S → List α → List β → S → Prop where
  | nil {s : S} : Thread R s [] [] s
  | cons {s s₁ s₂ : S} {a : α} {b : β} {as : List α} {bs : List β} :
      R s a b s₁ → Thread R s₁ as bs s₂ → Thread R s (a :: as) (b :: bs) s₂

/-- A threaded relation may be weakened element by element. -/
theorem Thread.mono {S α β : Type} {R R' : S → α → β → S → Prop}
    (h : ∀ {s a b s'}, R s a b s' → R' s a b s') {s s' : S} {as : List α} {bs : List β}
    (ht : Thread R s as bs s') : Thread R' s as bs s' := by
  induction ht with
  | nil => exact .nil
  | cons hr _ ih => exact .cons (h hr) ih

/-- `ExprRun cx s e t s'`: in the scopes `s` the expression `e` has the typed form `t`, and `s'` are
the scopes after it. -/
inductive ExprRun (cx : Context) : Scopes → Expr → TypedExpr → Scopes → Prop where
  | literal {s : Scopes} {l : Literal} {span : Option Span} :
      ExprRun cx s (.literal l span) (.literal l.value ⟨Context.literal l, span⟩) s
  | ident {s : Scopes} {name : String} {span : Option Span} {a : Ascription} :
      cx.ident s name span = .ok a →
      ExprRun cx s (.ident name span) (.ident name ⟨a, span⟩) s
  | member {s s₁ : Scopes} {object : Expr} {property : Ident} {span : Option Span} {o : TypedExpr}
      {a : Ascription} :
      ExprRun cx s object o s₁ →
      cx.member s₁ (Expr.member object property span).path? o.ty property span = .ok a →
      ExprRun cx s (.member object property span) (.member o property.name ⟨a, span⟩) s₁
  | call {s s₁ s₂ : Scopes} {callee : Expr} {args : List Expr} {span : Option Span} {c : TypedExpr}
      {as : List TypedExpr} {signature : Signature} :
      ExprRun cx s callee c s₁ → c.ty.signature? = some signature →
      Thread (ExprRun cx) s₁ args as s₂ →
      checkArguments callee.describe signature as span = .ok () →
      ExprRun cx s (.call callee args span) (.call c as ⟨.ofTy signature.result, span⟩) s₂
  | construct {s s₁ : Scopes} {name : String} {nameSpan span : Option Span} {args : List Expr}
      {as : List TypedExpr} {entry : Entry} :
      cx.constructible name (nameSpan.or span) = .ok entry →
      Thread (ExprRun cx) s args as s₁ →
      Context.checkConstruction entry as span = .ok () →
      ExprRun cx s (.construct (.ident name nameSpan) args span)
        (.construct entry.name as ⟨.ofTy (.object entry.kind), span⟩) s₁
  | binary {s s₁ s₂ : Scopes} {op : BinaryOp} {left right : Expr} {span : Option Span}
      {l r : TypedExpr} {a : Ascription} :
      ExprRun cx s left l s₁ → ExprRun cx s₁ right r s₂ →
      binaryAscription op l.ascription r.ascription span = .ok a →
      ExprRun cx s (.binary op left right span) (.binary op l r ⟨a, span⟩) s₂
  | logical {s s₁ s₂ : Scopes} {op : LogicalOp} {left right : Expr} {span : Option Span}
      {l r : TypedExpr} {ty : Ty} :
      ExprRun cx s left l s₁ → ExprRun cx s₁ right r s₂ →
      logicalTy op l.ty r.ty span = .ok ty →
      ExprRun cx s (.logical op left right span) (.logical op l r ⟨.ofTy ty, span⟩) s₂
  -- The value comes first: what it assigns is known when the target is looked at.
  | assignIdent {s s₁ s₂ : Scopes} {op : AssignOp} {name : String} {targetSpan span : Option Span}
      {value : Expr} {v : TypedExpr} {target result : Ty} :
      ExprRun cx s value v s₁ →
      cx.assignIdent s₁ op name targetSpan v.ty span = .ok (target, result, s₂) →
      ExprRun cx s (.assign op (.ident name targetSpan) value span)
        (.assign op (.ident name ⟨.ofTy target, targetSpan⟩) v ⟨.ofTy result, span⟩) s₂
  | assignMember {s s₁ s₂ : Scopes} {op : AssignOp} {object : Expr} {property : Ident}
      {targetSpan span : Option Span} {value : Expr} {v t : TypedExpr} {result : Ty} :
      ExprRun cx s value v s₁ →
      ExprRun cx s₁ (.member object property targetSpan) t s₂ →
      assignedTy op (Expr.member object property targetSpan).describe t.ty v.ty span
        = .ok result →
      ExprRun cx s (.assign op (.member object property targetSpan) value span)
        (.assign op t.forgetValue v ⟨.ofTy result, span⟩)
        (Context.assignMember s₂ (Expr.member object property targetSpan).describe t.ascription)
  | conditional {s s₁ s₂ s₃ : Scopes} {test consequent alternate : Expr} {span : Option Span}
      {t c a : TypedExpr} {ty : Ty} :
      ExprRun cx s test t s₁ → ExprRun cx s₁ consequent c s₂ → ExprRun cx s₂ alternate a s₃ →
      conditionalTy c.ty a.ty span = .ok ty →
      ExprRun cx s (.conditional test consequent alternate span)
        (.conditional t c a ⟨.ofTy ty, span⟩) s₃
  | unary {s s₁ : Scopes} {op : UnaryOp} {argument : Expr} {span : Option Span} {t : TypedExpr}
      {a : Ascription} :
      ExprRun cx s argument t s₁ → unaryAscription op t.ascription span = .ok a →
      ExprRun cx s (.unary op argument span) (.unary op t ⟨a, span⟩) s₁

/-- `DeclaratorRun cx s d t s'`: a declarator with an initializer has its type; without one it has
the injected type of its name, or none yet. -/
inductive DeclaratorRun (cx : Context) : Scopes → Declarator → TypedDeclarator → Scopes → Prop where
  | init {s s₁ : Scopes} {name : Ident} {e : Expr} {span : Option Span} {t : TypedExpr} :
      ExprRun cx s e t s₁ →
      DeclaratorRun cx s ⟨name, some e, span⟩
        ⟨name.name, some t, .ofTy t.ty, span.or name.span⟩ (s₁.insert name.name (.typed t.ty))
  | injected {s : Scopes} {name : Ident} {span : Option Span} {a : Ascription} :
      cx.injections.get? name.name = some a →
      DeclaratorRun cx s ⟨name, none, span⟩ ⟨name.name, none, .ofTy a.ty, span.or name.span⟩
        (s.insert name.name (.typed a.ty))
  | pending {s : Scopes} {name : Ident} {span : Option Span} :
      cx.injections.get? name.name = none →
      DeclaratorRun cx s ⟨name, none, span⟩ ⟨name.name, none, .ofTy .undefined, span.or name.span⟩
        (s.insert name.name .pending)

/-- The statements of a branch: those of its block, or the branch itself. -/
def Stmt.branchBody : Stmt → List Stmt
  | .block body _ => body
  | s => [s]

/-- `StmtRun cx s st t s'`: in the state `s` the statement `st` has the typed form `t`, whose
uninitialized declarators are still to settle, and `s'` is the state after it.  The statements of a
block run in a scope of their own and settle with its frame. -/
inductive StmtRun (cx : Context) : InferState → Stmt → TypedStmt → InferState → Prop where
  | declare {s : InferState} {s₁ : Scopes} {ds : List Declarator} {span : Option Span}
      {ts : List TypedDeclarator} :
      Thread (DeclaratorRun cx) s.scopes ds ts s₁ →
      StmtRun cx s (.declare ds span) (.declare ts) { s with scopes := s₁ }
  | expr {s : InferState} {s₁ : Scopes} {e : Expr} {span : Option Span} {t : TypedExpr} :
      ExprRun cx s.scopes e t s₁ →
      StmtRun cx s (.expr e span) (.expr t) { s with scopes := s₁ }
  | retNone {s : InferState} {span : Option Span} :
      StmtRun cx s (.ret none span) (.ret none)
        { s with returns := s.returns ++ [(.undefined, span)] }
  | retSome {s : InferState} {s₁ : Scopes} {e : Expr} {span : Option Span} {t : TypedExpr} :
      ExprRun cx s.scopes e t s₁ →
      StmtRun cx s (.ret (some e) span) (.ret (some t)) ⟨s₁, s.returns ++ [(t.ty, span)]⟩
  | branch {s i : InferState} {s₁ : Scopes} {test : Expr} {consequent : Stmt} {span : Option Span}
      {t : TypedExpr} {us cs : List TypedStmt} :
      ExprRun cx s.scopes test t s₁ →
      Thread (StmtRun cx) { s with scopes := s₁.push } consequent.branchBody us i →
      Context.settle i.scopes.pop.1 us = .ok cs →
      StmtRun cx s (.branch test consequent none span) (.branch t cs none)
        { i with scopes := i.scopes.pop.2 }
  | branchElse {s i j : InferState} {s₁ : Scopes} {test : Expr} {consequent alternate : Stmt}
      {span : Option Span} {t : TypedExpr} {us cs vs as : List TypedStmt} :
      ExprRun cx s.scopes test t s₁ →
      Thread (StmtRun cx) { s with scopes := s₁.push } consequent.branchBody us i →
      Context.settle i.scopes.pop.1 us = .ok cs →
      Thread (StmtRun cx) { i with scopes := i.scopes.pop.2.push } alternate.branchBody vs j →
      Context.settle j.scopes.pop.1 vs = .ok as →
      StmtRun cx s (.branch test consequent (some alternate) span) (.branch t cs (some as))
        { j with scopes := j.scopes.pop.2 }
  | block {s i : InferState} {body : List Stmt} {span : Option Span} {us ts : List TypedStmt} :
      Thread (StmtRun cx) { s with scopes := s.scopes.push } body us i →
      Context.settle i.scopes.pop.1 us = .ok ts →
      StmtRun cx s (.block body span) (.block ts) { i with scopes := i.scopes.pop.2 }

/-- `BlockRun R s body typed s'`: the statements of a block run one after the other by `R` in a
scope of their own, and their declarations settle with the frame of that scope. -/
def BlockRun (R : InferState → Stmt → TypedStmt → InferState → Prop) (s : InferState)
    (body : List Stmt) (typed : List TypedStmt) (s' : InferState) : Prop :=
  ∃ unsettled inside, Thread R { s with scopes := s.scopes.push } body unsettled inside ∧
    Context.settle inside.scopes.pop.1 unsettled = .ok typed ∧
    s' = { inside with scopes := inside.scopes.pop.2 }

/-- A block may be weakened statement by statement. -/
theorem BlockRun.mono {R R' : InferState → Stmt → TypedStmt → InferState → Prop}
    (h : ∀ {s st t s'}, R s st t s' → R' s st t s') {s s' : InferState} {body : List Stmt}
    {typed : List TypedStmt} (hb : BlockRun R s body typed s') : BlockRun R' s body typed s' := by
  obtain ⟨unsettled, inside, hthread, hsettle, hs⟩ := hb
  exact ⟨unsettled, inside, hthread.mono h, hsettle, hs⟩

/-! ## Induction

The recursion goes through lists, so the hypotheses of an induction come threaded through them: each
element of a list is derivable, and the statement holds of it. -/

/-- Induction on the derivation of an expression. -/
theorem ExprRun.induct {cx : Context}
    {motive : ∀ s e t s', ExprRun cx s e t s' → Prop}
    (literal : ∀ {s l span}, motive s (.literal l span) _ s .literal)
    (ident : ∀ {s name span a} (h : cx.ident s name span = .ok a),
      motive s (.ident name span) _ s (.ident h))
    (member : ∀ {s s₁ object property span o a} (ho : ExprRun cx s object o s₁)
      (h : cx.member s₁ (Expr.member object property span).path? o.ty property span = .ok a),
      motive s object o s₁ ho →
      motive s (.member object property span) _ s₁ (.member ho h))
    (call : ∀ {s s₁ s₂ callee args span c as signature} (hc : ExprRun cx s callee c s₁)
      (hs : c.ty.signature? = some signature) (has : Thread (ExprRun cx) s₁ args as s₂)
      (h : checkArguments callee.describe signature as span = .ok ()),
      motive s callee c s₁ hc →
      Thread (fun s e t s' => ∃ h, motive s e t s' h) s₁ args as s₂ →
      motive s (.call callee args span) _ s₂ (.call hc hs has h))
    (construct : ∀ {s s₁ name nameSpan span args as entry}
      (he : cx.constructible name (nameSpan.or span) = .ok entry)
      (has : Thread (ExprRun cx) s args as s₁)
      (h : Context.checkConstruction entry as span = .ok ()),
      Thread (fun s e t s' => ∃ h, motive s e t s' h) s args as s₁ →
      motive s (.construct (.ident name nameSpan) args span) _ s₁ (.construct he has h))
    (binary : ∀ {s s₁ s₂ op left right span l r a} (hl : ExprRun cx s left l s₁)
      (hr : ExprRun cx s₁ right r s₂)
      (h : binaryAscription op l.ascription r.ascription span = .ok a),
      motive s left l s₁ hl → motive s₁ right r s₂ hr →
      motive s (.binary op left right span) _ s₂ (.binary hl hr h))
    (logical : ∀ {s s₁ s₂ op left right span l r ty} (hl : ExprRun cx s left l s₁)
      (hr : ExprRun cx s₁ right r s₂) (h : logicalTy op l.ty r.ty span = .ok ty),
      motive s left l s₁ hl → motive s₁ right r s₂ hr →
      motive s (.logical op left right span) _ s₂ (.logical hl hr h))
    (assignIdent : ∀ {s s₁ s₂ op name targetSpan span value v target result}
      (hv : ExprRun cx s value v s₁)
      (h : cx.assignIdent s₁ op name targetSpan v.ty span = .ok (target, result, s₂)),
      motive s value v s₁ hv →
      motive s (.assign op (.ident name targetSpan) value span) _ s₂ (.assignIdent hv h))
    (assignMember : ∀ {s s₁ s₂ op object property targetSpan span value v t result}
      (hv : ExprRun cx s value v s₁)
      (ht : ExprRun cx s₁ (.member object property targetSpan) t s₂)
      (h : assignedTy op (Expr.member object property targetSpan).describe t.ty v.ty span
        = .ok result),
      motive s value v s₁ hv → motive s₁ (.member object property targetSpan) t s₂ ht →
      motive s (.assign op (.member object property targetSpan) value span) _ _
        (.assignMember hv ht h))
    (conditional : ∀ {s s₁ s₂ s₃ test consequent alternate span t c a ty}
      (ht : ExprRun cx s test t s₁) (hc : ExprRun cx s₁ consequent c s₂)
      (ha : ExprRun cx s₂ alternate a s₃) (h : conditionalTy c.ty a.ty span = .ok ty),
      motive s test t s₁ ht → motive s₁ consequent c s₂ hc → motive s₂ alternate a s₃ ha →
      motive s (.conditional test consequent alternate span) _ s₃ (.conditional ht hc ha h))
    (unary : ∀ {s s₁ op argument span t a} (ht : ExprRun cx s argument t s₁)
      (h : unaryAscription op t.ascription span = .ok a),
      motive s argument t s₁ ht →
      motive s (.unary op argument span) _ s₁ (.unary ht h))
    {s : Scopes} {e : Expr} {t : TypedExpr} {s' : Scopes} (h : ExprRun cx s e t s') :
    motive s e t s' h := by
  refine @ExprRun.rec cx motive
    (fun s as bs s' _ => Thread (fun s e t s' => ∃ h, motive s e t s' h) s as bs s')
    literal ident member call construct binary logical assignIdent assignMember conditional unary
    .nil ?cons s e t s' h
  intro _ _ _ _ _ _ _ h _ ih iht
  exact .cons ⟨h, ih⟩ iht

/-- Induction on the derivation of a statement. -/
theorem StmtRun.induct {cx : Context}
    {motive : ∀ s st t s', StmtRun cx s st t s' → Prop}
    (declare : ∀ {s : InferState} {s₁ ds span ts} (h : Thread (DeclaratorRun cx) s.scopes ds ts s₁),
      motive s (.declare ds span) _ _ (.declare h))
    (expr : ∀ {s : InferState} {s₁ e span t} (h : ExprRun cx s.scopes e t s₁),
      motive s (.expr e span) _ _ (.expr h))
    (retNone : ∀ {s span}, motive s (.ret none span) _ _ .retNone)
    (retSome : ∀ {s : InferState} {s₁ e span t} (h : ExprRun cx s.scopes e t s₁),
      motive s (.ret (some e) span) _ _ (.retSome h))
    (branch : ∀ {s i : InferState} {s₁ : Scopes} {test : Expr} {consequent : Stmt} {span t us cs}
      (ht : ExprRun cx s.scopes test t s₁)
      (hus : Thread (StmtRun cx) { s with scopes := s₁.push } consequent.branchBody us i)
      (hcs : Context.settle i.scopes.pop.1 us = .ok cs),
      BlockRun (fun s st t s' => ∃ h, motive s st t s' h)
        { s with scopes := s₁ } consequent.branchBody cs { i with scopes := i.scopes.pop.2 } →
      motive s (.branch test consequent none span) _ _ (.branch ht hus hcs))
    (branchElse : ∀ {s i j : InferState} {s₁ : Scopes} {test : Expr} {consequent alternate : Stmt}
      {span t us cs vs as}
      (ht : ExprRun cx s.scopes test t s₁)
      (hus : Thread (StmtRun cx) { s with scopes := s₁.push } consequent.branchBody us i)
      (hcs : Context.settle i.scopes.pop.1 us = .ok cs)
      (hvs : Thread (StmtRun cx) { i with scopes := i.scopes.pop.2.push } alternate.branchBody vs j)
      (has : Context.settle j.scopes.pop.1 vs = .ok as),
      BlockRun (fun s st t s' => ∃ h, motive s st t s' h)
        { s with scopes := s₁ } consequent.branchBody cs { i with scopes := i.scopes.pop.2 } →
      BlockRun (fun s st t s' => ∃ h, motive s st t s' h)
        { i with scopes := i.scopes.pop.2 } alternate.branchBody as
        { j with scopes := j.scopes.pop.2 } →
      motive s (.branch test consequent (some alternate) span) _ _
        (.branchElse ht hus hcs hvs has))
    (block : ∀ {s i : InferState} {body span us ts}
      (hus : Thread (StmtRun cx) { s with scopes := s.scopes.push } body us i)
      (hts : Context.settle i.scopes.pop.1 us = .ok ts),
      BlockRun (fun s st t s' => ∃ h, motive s st t s' h) s body ts
        { i with scopes := i.scopes.pop.2 } →
      motive s (.block body span) _ _ (.block hus hts))
    {s : InferState} {st : Stmt} {t : TypedStmt} {s' : InferState} (h : StmtRun cx s st t s') :
    motive s st t s' h := by
  refine @StmtRun.rec cx motive
    (fun s as bs s' _ => Thread (fun s st t s' => ∃ h, motive s st t s' h) s as bs s')
    declare expr retNone retSome ?branch ?branchElse ?block .nil ?cons s st t s' h
  case branch =>
    intro _ _ _ _ _ _ _ us _ ht hus hcs ih
    exact branch ht hus hcs ⟨us, _, ih, hcs, rfl⟩
  case branchElse =>
    intro _ _ _ _ _ _ _ _ _ us _ vs _ ht hus hcs hvs has ihc iha
    exact branchElse ht hus hcs hvs has ⟨us, _, ihc, hcs, rfl⟩ ⟨vs, _, iha, has, rfl⟩
  case block =>
    intro _ _ _ _ us _ hus hts ih
    exact block hus hts ⟨us, _, ih, hts, rfl⟩
  case cons =>
    intro _ _ _ _ _ _ _ h _ ih iht
    exact .cons ⟨h, ih⟩ iht

/-! ## Every successful run is derivable -/

namespace Context

open Infer

/-- An assignment whose value is inferred already. -/
theorem assign_derives (cx : Context) {op : AssignOp} {target value : Expr} {span : Option Span}
    {place : Infer TypedExpr} {v t : TypedExpr} {s : Scopes} {s₁ s' : InferState}
    (hv : ExprRun cx s value v s₁.scopes)
    (hplace : ∀ {p s₂}, place.Yields s₁ p s₂ →
      ∃ σ, s₂ = { s₁ with scopes := σ } ∧ ExprRun cx s₁.scopes target p σ)
    (h : (cx.assign op target place v span).Yields s₁ t s') :
    ∃ σ, s' = { s₁ with scopes := σ } ∧ ExprRun cx s (.assign op target value span) t σ := by
  cases target with
  | ident name targetSpan =>
    simp only [Context.assign, yields_bind_iff, yields_scopes_iff, yields_ofExcept_iff,
      yields_modifyScopes_iff, yields_pure_iff] at h
    obtain ⟨_, _, ⟨rfl, rfl⟩, ⟨target, result, after⟩, _, ⟨hassign, rfl⟩, _, _, rfl, rfl, rfl⟩ := h
    exact ⟨after, rfl, .assignIdent hv hassign⟩
  | member object property targetSpan =>
    simp only [Context.assign, yields_bind_iff, yields_ofExcept_iff, yields_modifyScopes_iff,
      yields_pure_iff] at h
    obtain ⟨typed, _, htyped, result, _, ⟨hassign, rfl⟩, _, _, rfl, rfl, rfl⟩ := h
    obtain ⟨σ, rfl, hrun⟩ := hplace htyped
    exact ⟨_, rfl, .assignMember hv hrun hassign⟩
  | _ => simp [Context.assign, yields_ofExcept_iff] at h

mutual

/-- A successful inference of an expression is derivable, and notes no return. -/
theorem expr_derives (cx : Context) : ∀ (e : Expr) {s s' : InferState} {t : TypedExpr},
    (cx.expr e).Yields s t s' →
    ∃ σ, s' = { s with scopes := σ } ∧ ExprRun cx s.scopes e t σ
  | .literal l span, s, s', t, h => by
    rw [expr, yields_pure_iff] at h
    obtain ⟨rfl, rfl⟩ := h
    exact ⟨s.scopes, rfl, .literal⟩
  | .ident name span, s, s', t, h => by
    simp only [expr, yields_bind_iff, yields_scopes_iff, yields_ofExcept_iff,
      yields_pure_iff] at h
    obtain ⟨_, _, ⟨rfl, rfl⟩, a, _, ⟨ha, rfl⟩, rfl, rfl⟩ := h
    exact ⟨s.scopes, rfl, .ident ha⟩
  | .member object property span, s, s', t, h => by
    simp only [expr, yields_bind_iff, yields_scopes_iff, yields_ofExcept_iff,
      yields_pure_iff] at h
    obtain ⟨o, _, ho, _, _, ⟨rfl, rfl⟩, a, _, ⟨ha, rfl⟩, rfl, rfl⟩ := h
    obtain ⟨σ, rfl, dobj⟩ := expr_derives cx object ho
    exact ⟨σ, rfl, .member dobj ha⟩
  | .index _ _ span, s, s', t, h => by
    simp [expr, yields_ofExcept_iff] at h
  | .call callee args span, s, s', t, h => by
    rw [expr, yields_bind_iff] at h
    obtain ⟨c, _, hc, h⟩ := h
    obtain ⟨σ, rfl, dc⟩ := expr_derives cx callee hc
    split at h
    · simp [yields_ofExcept_iff] at h
    · rename_i signature hsig
      simp only [yields_bind_iff, yields_ofExcept_iff, yields_pure_iff] at h
      obtain ⟨as, _, hargs, _, _, ⟨hcheck, rfl⟩, rfl, rfl⟩ := h
      obtain ⟨σ', rfl, dargs⟩ := exprs_derive cx args hargs
      exact ⟨σ', rfl, .call dc hsig dargs hcheck⟩
  | .construct callee args span, s, s', t, h => by
    cases callee with
    | ident name nameSpan =>
      simp only [expr, yields_bind_iff, yields_ofExcept_iff, yields_pure_iff] at h
      obtain ⟨entry, _, ⟨he, rfl⟩, as, _, hargs, _, _, ⟨hcheck, rfl⟩, rfl, rfl⟩ := h
      obtain ⟨σ, rfl, dargs⟩ := exprs_derive cx args hargs
      exact ⟨σ, rfl, .construct he dargs hcheck⟩
    | _ => simp [expr, yields_ofExcept_iff] at h
  | .binary op left right span, s, s', t, h => by
    simp only [expr, yields_bind_iff, yields_ofExcept_iff, yields_pure_iff] at h
    obtain ⟨l, _, hl, r, _, hr, a, _, ⟨ha, rfl⟩, rfl, rfl⟩ := h
    obtain ⟨σ, rfl, dl⟩ := expr_derives cx left hl
    obtain ⟨σ', rfl, dr⟩ := expr_derives cx right hr
    exact ⟨σ', rfl, .binary dl dr ha⟩
  | .logical op left right span, s, s', t, h => by
    simp only [expr, yields_bind_iff, yields_ofExcept_iff, yields_pure_iff] at h
    obtain ⟨l, _, hl, r, _, hr, ty, _, ⟨hty, rfl⟩, rfl, rfl⟩ := h
    obtain ⟨σ, rfl, dl⟩ := expr_derives cx left hl
    obtain ⟨σ', rfl, dr⟩ := expr_derives cx right hr
    exact ⟨σ', rfl, .logical dl dr hty⟩
  | .assign op target value span, s, s', t, h => by
    rw [expr, yields_bind_iff] at h
    obtain ⟨v, _, hv, h⟩ := h
    obtain ⟨σ, rfl, dv⟩ := expr_derives cx value hv
    obtain ⟨σ', rfl, dassign⟩ := assign_derives cx dv (expr_derives cx target) h
    exact ⟨σ', rfl, dassign⟩
  | .conditional test consequent alternate span, s, s', t, h => by
    simp only [expr, yields_bind_iff, yields_ofExcept_iff, yields_pure_iff] at h
    obtain ⟨t, _, ht, c, _, hc, a, _, ha, ty, _, ⟨hty, rfl⟩, rfl, rfl⟩ := h
    obtain ⟨σ, rfl, dt⟩ := expr_derives cx test ht
    obtain ⟨σ', rfl, dc⟩ := expr_derives cx consequent hc
    obtain ⟨σ'', rfl, da⟩ := expr_derives cx alternate ha
    exact ⟨σ'', rfl, .conditional dt dc da hty⟩
  | .unary op argument span, s, s', t, h => by
    simp only [expr, yields_bind_iff, yields_ofExcept_iff, yields_pure_iff] at h
    obtain ⟨t, _, ht, a, _, ⟨ha, rfl⟩, rfl, rfl⟩ := h
    obtain ⟨σ, rfl, dt⟩ := expr_derives cx argument ht
    exact ⟨σ, rfl, .unary dt ha⟩
  | .unsupported _ span, s, s', t, h => by
    simp [expr, yields_ofExcept_iff] at h

/-- A successful inference of arguments is derivable, one after the other. -/
theorem exprs_derive (cx : Context) : ∀ (es : List Expr) {s s' : InferState} {ts : List TypedExpr},
    (cx.exprs es).Yields s ts s' →
    ∃ σ, s' = { s with scopes := σ } ∧ Thread (ExprRun cx) s.scopes es ts σ
  | [], s, s', ts, h => by
    rw [exprs, yields_pure_iff] at h
    obtain ⟨rfl, rfl⟩ := h
    exact ⟨s.scopes, rfl, .nil⟩
  | e :: rest, s, s', ts, h => by
    simp only [exprs, yields_bind_iff, yields_pure_iff] at h
    obtain ⟨t, _, ht, ts, _, hts, rfl, rfl⟩ := h
    obtain ⟨σ, rfl, dt⟩ := expr_derives cx e ht
    obtain ⟨σ', rfl, dts⟩ := exprs_derive cx rest hts
    exact ⟨σ', rfl, .cons dt dts⟩

end

/-- A successful inference of a declarator is derivable. -/
theorem declarator_derives (cx : Context) {d : Declarator} {s s' : InferState} {t : TypedDeclarator}
    (h : (cx.declarator d).Yields s t s') :
    ∃ σ, s' = { s with scopes := σ } ∧ DeclaratorRun cx s.scopes d t σ := by
  obtain ⟨name, init, span⟩ := d
  cases init with
  | some e =>
    simp only [declarator, yields_bind_iff, yields_modifyScopes_iff, yields_pure_iff] at h
    obtain ⟨t, _, ht, _, _, rfl, rfl, rfl⟩ := h
    obtain ⟨σ, rfl, dt⟩ := expr_derives cx e ht
    exact ⟨_, rfl, .init dt⟩
  | none =>
    cases hget : cx.injections.get? name.name with
    | some a =>
      simp only [declarator, hget, yields_bind_iff, yields_modifyScopes_iff, yields_pure_iff] at h
      obtain ⟨_, _, rfl, rfl, rfl⟩ := h
      exact ⟨_, rfl, .injected hget⟩
    | none =>
      simp only [declarator, hget, yields_bind_iff, yields_modifyScopes_iff, yields_pure_iff] at h
      obtain ⟨_, _, rfl, rfl, rfl⟩ := h
      exact ⟨_, rfl, .pending hget⟩

/-- A successful inference of declarators is derivable, one after the other. -/
theorem declarators_derive (cx : Context) {ds : List Declarator} {s s' : InferState}
    {ts : List TypedDeclarator} (h : (cx.declarators ds).Yields s ts s') :
    ∃ σ, s' = { s with scopes := σ } ∧ Thread (DeclaratorRun cx) s.scopes ds ts σ := by
  induction ds generalizing s ts with
  | nil =>
    rw [declarators, yields_pure_iff] at h
    obtain ⟨rfl, rfl⟩ := h
    exact ⟨s.scopes, rfl, .nil⟩
  | cons d rest ih =>
    simp only [declarators, yields_bind_iff, yields_pure_iff] at h
    obtain ⟨t, _, ht, ts, _, hts, rfl, rfl⟩ := h
    obtain ⟨σ, rfl, dt⟩ := declarator_derives cx ht
    obtain ⟨σ', rfl, dts⟩ := ih hts
    exact ⟨σ', rfl, .cons dt dts⟩

/-- A block succeeds when its statements do, in a scope of their own, and its declarations
settle. -/
theorem yields_inBlock_iff {m : Infer (List TypedStmt)} {s s' : InferState}
    {typed : List TypedStmt} :
    (inBlock m).Yields s typed s' ↔
      ∃ unsettled inside, m.Yields { s with scopes := s.scopes.push } unsettled inside ∧
        settle inside.scopes.pop.1 unsettled = .ok typed ∧
        s' = { inside with scopes := inside.scopes.pop.2 } := by
  unfold Yields outcome inBlock
  rcases hm : m { s with scopes := s.scopes.push } with ⟨e | unsettled, inside⟩
  · simp [Except.bind]
  · constructor
    · intro h
      simp only [Except.bind, Prod.mk.injEq] at h
      exact ⟨unsettled, inside, rfl, h.1, h.2.symm⟩
    · rintro ⟨unsettled', inside', h, hsettle, rfl⟩
      cases h
      simp [Except.bind, hsettle]

/-- A block whose statements are derivable is derivable. -/
theorem inBlock_derives {R : InferState → Stmt → TypedStmt → InferState → Prop}
    {m : Infer (List TypedStmt)} {body : List Stmt} {s s' : InferState} {typed : List TypedStmt}
    (hm : ∀ {s s' ts}, m.Yields s ts s' → Thread R s body ts s')
    (h : (inBlock m).Yields s typed s') : BlockRun R s body typed s' := by
  obtain ⟨unsettled, inside, hrun, hsettle, hs⟩ := yields_inBlock_iff.1 h
  exact ⟨unsettled, inside, hm hrun, hsettle, hs⟩

/-- A branch is the statements of its block, or its single statement. -/
theorem yields_branchBody {cx : Context} {st : Stmt} {single : Infer TypedStmt} {s s' : InferState}
    {ts : List TypedStmt} (h : (cx.branchBody st single).Yields s ts s') :
    (∃ body span, st = .block body span ∧ (cx.stmts body).Yields s ts s') ∨
      (st.branchBody = [st] ∧ ∃ t, single.Yields s t s' ∧ ts = [t]) := by
  cases st with
  | block body span =>
    rw [branchBody] at h
    exact .inl ⟨body, span, rfl, h⟩
  | _ =>
    simp only [branchBody, yields_map_iff] at h
    obtain ⟨t, ht, rfl⟩ := h
    exact .inr ⟨rfl, t, ht, rfl⟩

mutual

/-- A successful inference of a statement is derivable. -/
theorem stmt_derives (cx : Context) (st : Stmt) {s s' : InferState} {t : TypedStmt}
    (h : (cx.stmt st).Yields s t s') : StmtRun cx s st t s' := by
  match st with
  | .declare ds span =>
    simp only [stmt, yields_bind_iff, yields_pure_iff] at h
    obtain ⟨ts, _, hts, rfl, rfl⟩ := h
    obtain ⟨σ, rfl, dts⟩ := declarators_derive cx hts
    exact .declare dts
  | .expr e span =>
    simp only [stmt, yields_bind_iff, yields_pure_iff] at h
    obtain ⟨t, _, ht, rfl, rfl⟩ := h
    obtain ⟨σ, rfl, dt⟩ := expr_derives cx e ht
    exact .expr dt
  | .ret none span =>
    simp only [stmt, yields_bind_iff, yields_addReturn_iff, yields_pure_iff] at h
    obtain ⟨_, _, rfl, rfl, rfl⟩ := h
    exact .retNone
  | .ret (some e) span =>
    simp only [stmt, yields_bind_iff, yields_addReturn_iff, yields_pure_iff] at h
    obtain ⟨t, _, ht, _, _, rfl, rfl, rfl⟩ := h
    obtain ⟨σ, rfl, dt⟩ := expr_derives cx e ht
    exact .retSome dt
  | .branch test consequent alternate span =>
    simp only [stmt, yields_bind_iff] at h
    obtain ⟨t, _, ht, cs, s₂, hc, h⟩ := h
    obtain ⟨σ, rfl, dt⟩ := expr_derives cx test ht
    obtain ⟨us, i, dus, hcs, rfl⟩ := inBlock_derives (branchBody_derives cx consequent) hc
    cases alternate with
    | none =>
      simp only [yields_pure_iff] at h
      obtain ⟨rfl, rfl⟩ := h
      exact .branch dt dus hcs
    | some alternate =>
      simp only [yields_bind_iff, yields_pure_iff] at h
      obtain ⟨as, _, ha, rfl, rfl⟩ := h
      obtain ⟨vs, j, dvs, has, rfl⟩ := inBlock_derives (branchBody_derives cx alternate) ha
      exact .branchElse dt dus hcs dvs has
  | .block body span =>
    simp only [stmt, yields_bind_iff, yields_pure_iff] at h
    obtain ⟨ts, _, hts, rfl, rfl⟩ := h
    obtain ⟨us, i, dus, hsettle, rfl⟩ := inBlock_derives (stmts_derive cx body) hts
    exact .block dus hsettle
  | .unsupported _ _ =>
    simp [stmt, yields_ofExcept_iff] at h
termination_by (sizeOf st, 0)

/-- A successful inference of a branch is derivable, in braces or not. -/
theorem branchBody_derives (cx : Context) (st : Stmt) {s s' : InferState} {ts : List TypedStmt}
    (h : (cx.branchBody st (cx.stmt st)).Yields s ts s') :
    Thread (StmtRun cx) s st.branchBody ts s' := by
  rcases yields_branchBody h with ⟨body, span, rfl, h⟩ | ⟨hst, t, ht, rfl⟩
  · exact stmts_derive cx body h
  · rw [hst]
    exact .cons (stmt_derives cx st ht) .nil
termination_by (sizeOf st, 1)

/-- A successful inference of statements is derivable, one after the other. -/
theorem stmts_derive (cx : Context) (body : List Stmt) {s s' : InferState} {ts : List TypedStmt}
    (h : (cx.stmts body).Yields s ts s') : Thread (StmtRun cx) s body ts s' := by
  match body with
  | [] =>
    rw [stmts, yields_pure_iff] at h
    obtain ⟨rfl, rfl⟩ := h
    exact .nil
  | st :: rest =>
    simp only [stmts, yields_bind_iff, yields_pure_iff] at h
    obtain ⟨t, _, ht, ts, _, hts, rfl, rfl⟩ := h
    exact .cons (stmt_derives cx st ht) (stmts_derive cx rest hts)
termination_by (sizeOf body, 0)

end

end Context

/-! ## Functions -/

/-- `FunctionRun f injections registry t`: the parameters of `f` are ascribed, its body runs as a
block inside their scope, and the types of its returns have the type of the result in common. -/
inductive FunctionRun (f : Function) (injections : Injections) (registry : Registry) :
    TypedFunction → Prop where
  | mk {params : List (Ident × Ascription)} {body : List TypedStmt} {state : InferState}
      {result : Ty} :
      f.ascribedParams injections = .ok params →
      BlockRun (StmtRun (f.context injections registry)) ⟨Function.bodyScopes params, []⟩ f.body
        body state →
      resultTy f.name.name state.returns = .ok result →
      FunctionRun f injections registry
        ⟨f.name.name, params.map fun p => ⟨p.1.name, p.2.ty, p.1.span⟩, body, result, f.span⟩

/-- A successful inference of a function is derivable. -/
theorem Function.infer_derives {f : Function} {injections : Injections} {registry : Registry}
    {t : TypedFunction} (h : f.infer injections registry = .ok t) :
    FunctionRun f injections registry t := by
  obtain ⟨params, hparams, h⟩ := bind_eq_ok_iff.1 h
  obtain ⟨body, hbody, h⟩ := bind_eq_ok_iff.1 h
  obtain ⟨result, hresult, h⟩ := bind_eq_ok_iff.1 h
  cases h
  -- The outcome of the body is a pair, of which the program takes both parts.
  have hyields : (Context.inBlock ((f.context injections registry).stmts f.body)).Yields
      ⟨Function.bodyScopes params, []⟩ body _ := Prod.ext hbody rfl
  exact .mk hparams (Context.inBlock_derives (Context.stmts_derive _ f.body) hyields) hresult

/-- The ascribed parameters are those of the function, each with its injected ascription. -/
theorem Function.ascribedParams_eq_ok {f : Function} {injections : Injections}
    {params : List (Ident × Ascription)} (h : f.ascribedParams injections = .ok params) :
    params.map Prod.fst = f.params ∧
      ∀ p ∈ params, injections.resolve? p.1.name = some p.2 := by
  have hforall := mapM_eq_ok_iff.1 h
  clear h
  generalize f.params = idents at hforall
  induction hforall with
  | nil => simp
  | @cons ident p idents params hp _ ih =>
    obtain ⟨ihmap, ihmem⟩ := ih
    obtain ⟨hident, hresolve⟩ : p.1 = ident ∧ injections.resolve? ident.name = some p.2 := by
      obtain ⟨a, ha, hp⟩ := bind_eq_ok_iff.1 hp
      cases hp
      unfold Function.paramAscription at ha
      split at ha
      · cases ha
        exact ⟨rfl, by assumption⟩
      · exact absurd ha fault_ne_ok
    refine ⟨by rw [List.map_cons, hident, ihmap], ?_⟩
    intro q hq
    rcases List.mem_cons.1 hq with rfl | hq
    · rw [hident]
      exact hresolve
    · exact ihmem q hq

/-! ## A sample function -/

namespace Sample

/-- The injections of the sample function: a constant member and a color. -/
def injections : Injections :=
  ⟨[("env.on", ⟨.boolean, some (.bool true)⟩), ("tint", .ofTy (.object .color))]⟩

/-- `env.on` -/
def on : Expr := .member (.ident "env" none) ⟨"on", none⟩ (some ⟨4, 10⟩)

/-- `function shade(env) { var c; if (env.on) { var c = true; env.on = c; } else c = tint;
return env.on ? c : tint; }` -/
def shade : Function where
  name := ⟨"shade", none⟩
  params := [⟨"env", none⟩]
  body := [
    .declare [⟨⟨"c", none⟩, none, none⟩] none,
    .branch on
      (.block [
        .declare [⟨⟨"c", none⟩, some (.literal ⟨some (.bool true), some "true"⟩ none), none⟩] none,
        .expr (.assign .plain on (.ident "c" none) none) none] none)
      (some (.expr (.assign .plain (.ident "c" none) (.ident "tint" none) none) none)) none,
    .ret (some (.conditional on (.ident "c" none) (.ident "tint" none) none)) none]
  span := none

/-- A mark without span and value. -/
def mark (ty : Ty) : Mark := ⟨.ofTy ty, none⟩

/-- `env.on`, with or without its value. -/
def typedOn (value : Option Constant) : TypedExpr :=
  .member (.ident "env" (mark (.object .record))) "on" ⟨⟨.boolean, value⟩, some ⟨4, 10⟩⟩

/-- What inference makes of the sample function. -/
def typedShade : TypedFunction where
  name := "shade"
  params := [⟨"env", .object .record, none⟩]
  body := [
    .declare [⟨"c", none, .ofTy (.object .color), none⟩],
    .branch (typedOn (some (.bool true)))
      [.declare [⟨"c", some (.literal (some (.bool true)) ⟨⟨.boolean, some (.bool true)⟩, none⟩),
        .ofTy .boolean, none⟩],
        .expr (.assign .plain (typedOn none) (.ident "c" (mark .boolean)) (mark .boolean))]
      (some [.expr (.assign .plain (.ident "c" (mark (.object .color)))
        (.ident "tint" (mark (.object .color))) (mark (.object .color)))]),
    .ret (some (.conditional (typedOn none) (.ident "c" (mark (.object .color)))
      (.ident "tint" (mark (.object .color))) (mark (.object .color))))]
  result := .object .color
  span := none

/-- The sample function is inferred. -/
theorem infer_shade : shade.infer injections ⟨[]⟩ = .ok typedShade := rfl

end Sample

end Shader
