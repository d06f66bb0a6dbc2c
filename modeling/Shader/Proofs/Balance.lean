import Shader.Proofs.Agreement

/-!
# Balanced scopes

Inference opens and closes scopes while it goes through a function, and it may stop anywhere.  This
module says what any part of a function does to the scopes that inference is in when it comes to the
part, whether the part can be inferred or not.

A part has as many frames afterwards as before.  Only a declaration binds names, and only in the
innermost frame; `Part.own` counts the frames that a part may bind names in.  In the frames around
these bindings are refined and nothing else: a pending name gets a type, a constant loses its value.
The outermost frame keeps what it has and gains assigned injections.

`Scopes.Sound` is what holds of the scopes throughout, and `Scopes.Keeps` what a part does to them;
`Part.keeps` follows the recursion of inference, and `Function.scopes_are_balanced` is the result
for every state that inference can reach.
-/

namespace Shader

/-! ## Refinement in sequence -/

/-- Refining twice is refining. -/
theorem Binding.Refines.trans {b₁ b₂ b₃ : Binding} (h₁ : b₁.Refines b₂) (h₂ : b₂.Refines b₃) :
    b₁.Refines b₃ := by
  cases h₁ with
  | same => exact h₂
  | settled =>
    cases h₂
    exact .settled
  | demoted =>
    cases h₂
    exact .demoted

/-- A type that is settled is not refined any further. -/
theorem Binding.Refines.eq_of_typed {ty : Ty} {b : Binding} (h : (Binding.typed ty).Refines b) :
    b = .typed ty := by
  cases h
  rfl

/-- A frame that is refined twice is refined. -/
theorem Frame.Refines.trans {f₁ f₂ f₃ : Frame} (h₁ : Frame.Refines f₁ f₂)
    (h₂ : Frame.Refines f₂ f₃) : Frame.Refines f₁ f₃ := by
  intro name
  have hfirst := h₁ name
  have hsecond := h₂ name
  revert hfirst hsecond
  generalize f₁.get? name = b₁, f₂.get? name = b₂, f₃.get? name = b₃
  intro hfirst hsecond
  cases hfirst with
  | none => exact hsecond
  | some hb₁ =>
    cases hsecond with
    | some hb₂ => exact .some (hb₁.trans hb₂)

/-- Refining the frames of a list twice is refining them. -/
theorem Frame.forall₂_refines_trans {fs₁ fs₂ fs₃ : List Frame}
    (h₁ : List.Forall₂ Frame.Refines fs₁ fs₂) (h₂ : List.Forall₂ Frame.Refines fs₂ fs₃) :
    List.Forall₂ Frame.Refines fs₁ fs₃ := by
  induction h₁ generalizing fs₃ with
  | nil => exact h₂
  | cons hf _ ih =>
    cases h₂ with
    | cons hg hrest => exact .cons (hf.trans hg) (ih hrest)

/-- A name that is found in frames is found in refined ones, and its binding is refined. -/
theorem Frame.findFrame?_refines {fs gs : List Frame} (h : List.Forall₂ Frame.Refines fs gs)
    (name : String) :
    Option.Rel Binding.Refines (Scopes.findFrame? name fs) (Scopes.findFrame? name gs) := by
  induction h with
  | nil => exact .none
  | @cons frame frame' rest rest' hframe _ ih =>
    have hname := hframe name
    revert hname
    unfold Scopes.findFrame?
    generalize frame.get? name = b, frame'.get? name = b'
    intro hname
    cases hname with
    | none => exact ih
    | some hb => exact .some hb

namespace Scopes

variable {cx : Context} {s s₁ s₂ : Scopes} {own : Nat}

/-- Refining scopes twice is refining them. -/
theorem Refines.trans (h₁ : s.Refines cx s₁) (h₂ : s₁.Refines cx s₂) : s.Refines cx s₂ where
  inner := Frame.forall₂_refines_trans h₁.inner h₂.inner
  kept hname := h₂.kept (h₁.kept hname)
  fresh hb := by
    rcases h₂.fresh hb with hb | hinjected
    · exact h₁.fresh hb
    · exact .inr hinjected

/-- Refining keeps injections in the outermost frame. -/
theorem Refines.holdsInjections (h : s.Refines cx s₁) (hs : s.HoldsInjections cx) :
    s₁.HoldsInjections cx := by
  intro name b hb
  rcases h.fresh hb with hb | hinjected
  · exact hs name b hb
  · exact hinjected

/-! ## What a part of a function does to the scopes -/

/-- What holds of the scopes throughout a function: the outermost scope is not the only one, and its
frame has assigned injections only. -/
structure Sound (cx : Context) (s : Scopes) : Prop where
  nested : s.inner ≠ []
  injections : s.HoldsInjections cx

/-- The scopes around the innermost `own` ones. -/
def around (s : Scopes) (own : Nat) : Scopes := { s with inner := s.inner.drop own }

/-- `s.Keeps cx own s'`: from `s` to `s'` no scope was opened or closed for good, and those around
the innermost `own` ones were refined. -/
structure Keeps (cx : Context) (own : Nat) (s s' : Scopes) : Prop where
  depth : s'.depth = s.depth
  around : (s.around own).Refines cx (s'.around own)

/-- The number of inner frames is kept with the depth. -/
theorem Keeps.length_inner (h : s.Keeps cx own s₁) : s₁.inner.length = s.inner.length := by
  have hdepth := h.depth
  unfold Scopes.depth at hdepth
  omega

/-- Scopes that are left alone are kept. -/
theorem Keeps.refl (s : Scopes) : s.Keeps cx own s := ⟨rfl, .refl _⟩

/-- What is kept twice is kept. -/
theorem Keeps.trans (h₁ : s.Keeps cx own s₁) (h₂ : s₁.Keeps cx own s₂) : s.Keeps cx own s₂ :=
  ⟨h₂.depth.trans h₁.depth, h₁.around.trans h₂.around⟩

/-- Refined scopes are kept. -/
theorem Refines.keeps (h : s.Refines cx s₁) : s.Keeps cx own s₁ where
  depth := by
    unfold depth
    rw [h.inner.length_eq]
  around := ⟨List.forall₂_drop own h.inner, h.kept, h.fresh⟩

/-- Where nothing of the scopes is the part's own, all of them are refined. -/
theorem Keeps.refines (h : s.Keeps cx 0 s₁) : s.Refines cx s₁ := h.around

/-- A part with frames of its own may have more of them. -/
theorem Keeps.weaken (h : s.Keeps cx 0 s₁) : s.Keeps cx own s₁ := h.refines.keeps

/-- What keeps the scopes keeps them sound. -/
theorem Keeps.sound (h : s.Keeps cx own s₁) (hs : s.Sound cx) : s₁.Sound cx where
  nested hempty := by
    apply hs.nested
    rw [← List.length_eq_zero_iff, ← h.length_inner, hempty, List.length_nil]
  injections := h.around.holdsInjections hs.injections

/-- A name is bound in the innermost frame and nowhere else. -/
theorem keeps_insert (hs : s.inner ≠ []) (name : String) (b : Binding) :
    s.Keeps cx 1 (s.insert name b) := by
  obtain ⟨frame, frames, hinner⟩ := List.exists_cons_of_ne_nil hs
  rw [insert_of_inner_eq_cons hinner]
  have haround : ({ s with inner := frame.insert name b :: frames } : Scopes).around 1 =
      s.around 1 := by
    unfold Scopes.around
    rw [hinner, List.drop_one, List.drop_one, List.tail_cons, List.tail_cons]
  refine ⟨?_, ?_⟩
  · unfold depth
    rw [hinner, List.length_cons, List.length_cons]
  · rw [haround]
    exact .refl _

/-- An opened scope lies inside the others. -/
theorem Sound.push (hs : s.Sound cx) : s.push.Sound cx := ⟨List.cons_ne_nil _ _, hs.injections⟩

/-- A scope that is opened and kept can be closed again, and those around it were refined. -/
theorem Keeps.pop_of_push (h : s.push.Keeps cx 1 s₁) :
    s₁.pop?.isSome = true ∧ s.Keeps cx 0 s₁.pop.2 := by
  have hlength : s₁.inner.length = s.inner.length + 1 := h.length_inner
  obtain ⟨frame, frames, hinner⟩ := List.exists_cons_of_length_eq_add_one hlength
  have haround : s₁.around 1 = { s₁ with inner := frames } := by
    unfold Scopes.around
    rw [hinner, List.drop_one, List.tail_cons]
  have hrefines : s.Refines cx { s₁ with inner := frames } := haround ▸ h.around
  constructor
  · rw [pop?, hinner]
    rfl
  · rw [pop_of_inner_eq_cons hinner]
    exact hrefines.keeps

end Scopes

/-! ## Steps of inference -/

namespace Infer

variable {α β : Type} {cx : Context} {own : Nat} {s : InferState}

/-- `m.KeepsFrom cx own s`: from sound scopes the step `m` keeps them, whether it succeeds or
not. -/
def KeepsFrom (cx : Context) (own : Nat) (m : Infer α) (s : InferState) : Prop :=
  s.scopes.Sound cx → s.scopes.Keeps cx own (m.outcome s).2.scopes

/-- Returning a value changes nothing. -/
theorem keepsFrom_pure (a : α) : (pure a : Infer α).KeepsFrom cx own s := fun _ => .refl _

/-- A check changes nothing. -/
theorem keepsFrom_ofExcept (r : Except TypeError α) : (ofExcept r).KeepsFrom cx own s :=
  fun _ => .refl _

/-- Reading the scopes changes nothing. -/
theorem keepsFrom_scopes : scopes.KeepsFrom cx own s := fun _ => .refl _

/-- Noting a return leaves the scopes alone. -/
theorem keepsFrom_addReturn (ty : Ty) (span : Option Span) :
    (addReturn ty span).KeepsFrom cx own s := fun _ => .refl _

/-- A step in a sequence runs only where those before it succeeded. -/
theorem KeepsFrom.bind {m : Infer α} {k : α → Infer β} (hm : m.KeepsFrom cx own s)
    (hk : ∀ a s', m.Yields s a s' → (k a).KeepsFrom cx own s') :
    (m >>= k).KeepsFrom cx own s := by
  intro hs
  have hfirst := hm hs
  rw [outcome_bind]
  generalize hout : m.outcome s = out at hfirst
  obtain ⟨result, s'⟩ := out
  cases result with
  | error e => exact hfirst
  | ok a => exact hfirst.trans (hk a s' hout (hfirst.sound hs))

/-- A check whose result is returned in some form changes nothing. -/
theorem keepsFrom_check (r : Except TypeError α) (f : α → β) :
    (ofExcept r >>= fun a => pure (f a)).KeepsFrom cx own s :=
  (keepsFrom_ofExcept r).bind fun a _ _ => keepsFrom_pure (f a)

/-- Mapping the value of a step. -/
theorem KeepsFrom.map {m : Infer α} (hm : m.KeepsFrom cx own s) (f : α → β) :
    (f <$> m).KeepsFrom cx own s := by
  rw [map_eq_pure_bind]
  exact hm.bind fun a _ _ => keepsFrom_pure (f a)

/-- A step without frames of its own may have some. -/
theorem KeepsFrom.weaken {m : Infer α} (hm : m.KeepsFrom cx 0 s) : m.KeepsFrom cx own s :=
  fun hs => (hm hs).weaken

end Infer

namespace Context

open Infer

variable {cx : Context} {s : InferState}

/-- An assignment refines the scopes when its target, read as an expression, does. -/
theorem assign_keeps {target : Expr} (hplace : ∀ s, (cx.expr target).KeepsFrom cx 0 s)
    (op : AssignOp) (value : TypedExpr) (span : Option Span) :
    (cx.assign op target (cx.expr target) value span).KeepsFrom cx 0 s := by
  cases target with
  | ident name targetSpan =>
    unfold assign
    refine keepsFrom_scopes.bind fun σ s₁ hσ => (keepsFrom_ofExcept _).bind fun r s₂ hr => ?_
    obtain ⟨rfl, rfl⟩ := yields_scopes_iff.1 hσ
    obtain ⟨hassign, rfl⟩ := yields_ofExcept_iff.1 hr
    obtain ⟨target, result, after⟩ := r
    refine KeepsFrom.bind (fun hs => ?_) fun _ _ _ => keepsFrom_pure _
    exact (hs.injections.assignIdent hassign).1.keeps
  | member object property targetSpan =>
    unfold assign
    refine (hplace s).bind fun typed s₁ hyields => (keepsFrom_ofExcept _).bind fun _ s₂ hr => ?_
    obtain ⟨-, rfl⟩ := yields_ofExcept_iff.1 hr
    refine KeepsFrom.bind (fun _ => ?_) fun _ _ _ => keepsFrom_pure _
    -- A value of the target can only be an injected one, as the derivation of the target shows.
    obtain ⟨σ, rfl, hrun⟩ := expr_derives cx _ hyields
    cases hrun with
    | member _ hmember => exact (refines_assignMember hmember _).keeps
  | _ => exact keepsFrom_ofExcept _

mutual

/-- An expression refines the scopes. -/
theorem expr_keeps (cx : Context) : ∀ (e : Expr) (s : InferState), (cx.expr e).KeepsFrom cx 0 s
  | .literal _ _, s => keepsFrom_pure _
  | .ident name span, s => by
    rw [expr]
    exact keepsFrom_scopes.bind fun _ _ _ => keepsFrom_check _ _
  | .member object property span, s => by
    rw [expr]
    exact (expr_keeps cx object s).bind fun _ _ _ => keepsFrom_scopes.bind fun _ _ _ =>
      keepsFrom_check _ _
  | .index _ _ _, s => by
    rw [expr]
    exact keepsFrom_ofExcept _
  | .call callee args span, s => by
    rw [expr]
    refine (expr_keeps cx callee s).bind fun typed s₁ _ => ?_
    split
    · exact keepsFrom_ofExcept _
    · exact (exprs_keeps cx args s₁).bind fun _ _ _ => keepsFrom_check _ _
  | .construct callee args span, s => by
    cases callee with
    | ident name nameSpan =>
      rw [expr]
      exact (keepsFrom_ofExcept _).bind fun _ s₁ _ => (exprs_keeps cx args s₁).bind fun _ _ _ =>
        keepsFrom_check _ _
    | _ =>
      rw [expr]
      · exact keepsFrom_ofExcept _
      · simp
  | .binary op left right span, s => by
    rw [expr]
    exact (expr_keeps cx left s).bind fun _ s₁ _ => (expr_keeps cx right s₁).bind fun _ _ _ =>
      keepsFrom_check _ _
  | .logical op left right span, s => by
    rw [expr]
    exact (expr_keeps cx left s).bind fun _ s₁ _ => (expr_keeps cx right s₁).bind fun _ _ _ =>
      keepsFrom_check _ _
  | .assign op target value span, s => by
    rw [expr]
    exact (expr_keeps cx value s).bind fun typed _ _ =>
      assign_keeps (expr_keeps cx target) op typed span
  | .conditional test consequent alternate span, s => by
    rw [expr]
    exact (expr_keeps cx test s).bind fun _ s₁ _ => (expr_keeps cx consequent s₁).bind fun _ s₂ _ =>
      (expr_keeps cx alternate s₂).bind fun _ _ _ => keepsFrom_check _ _
  | .unary op argument span, s => by
    rw [expr]
    exact (expr_keeps cx argument s).bind fun _ _ _ => keepsFrom_check _ _
  | .unsupported _ _, s => by
    rw [expr]
    exact keepsFrom_ofExcept _

/-- Arguments refine the scopes. -/
theorem exprs_keeps (cx : Context) : ∀ (es : List Expr) (s : InferState),
    (cx.exprs es).KeepsFrom cx 0 s
  | [], s => by
    rw [exprs]
    exact keepsFrom_pure _
  | e :: rest, s => by
    rw [exprs]
    exact (expr_keeps cx e s).bind fun _ s₁ _ => (exprs_keeps cx rest s₁).bind fun _ _ _ =>
      keepsFrom_pure _

end

/-- A declared name is bound in the innermost frame. -/
theorem declare_keeps (name : String) (b : Binding) :
    (modifyScopes fun scopes => scopes.insert name b).KeepsFrom cx 1 s :=
  fun hs => Scopes.keeps_insert hs.nested name b

/-- A declarator binds its name in the innermost frame. -/
theorem declarator_keeps (cx : Context) (d : Declarator) (s : InferState) :
    (cx.declarator d).KeepsFrom cx 1 s := by
  obtain ⟨name, init, span⟩ := d
  unfold declarator
  cases init with
  | some e =>
    exact (expr_keeps cx e s).weaken.bind fun _ _ _ => (declare_keeps _ _).bind fun _ _ _ =>
      keepsFrom_pure _
  | none =>
    cases hget : cx.injections.get? name.name with
    | some a =>
      simp only [hget]
      exact (declare_keeps _ _).bind fun _ _ _ => keepsFrom_pure _
    | none =>
      simp only [hget]
      exact (declare_keeps _ _).bind fun _ _ _ => keepsFrom_pure _

/-- Declarators bind their names in the innermost frame. -/
theorem declarators_keeps (cx : Context) (ds : List Declarator) (s : InferState) :
    (cx.declarators ds).KeepsFrom cx 1 s := by
  induction ds generalizing s with
  | nil => exact keepsFrom_pure _
  | cons d rest ih =>
    rw [declarators]
    exact (declarator_keeps cx d s).bind fun _ s₁ _ => (ih s₁).bind fun _ _ _ => keepsFrom_pure _

/-- A block closes the scope that it has opened, and refines those around it. -/
theorem inBlock_keeps {m : Infer (List TypedStmt)} (hm : ∀ s, m.KeepsFrom cx 1 s)
    (s : InferState) : (inBlock m).KeepsFrom cx 0 s := by
  intro hs
  exact (hm { s with scopes := s.scopes.push } hs.push).pop_of_push.2

end Context

/-- How many frames a statement may bind names in: a declaration binds in the innermost one. -/
def Stmt.own : Stmt → Nat
  | .declare _ _ => 1
  | _ => 0

namespace Context

open Infer

mutual

/-- A statement keeps the scopes. -/
theorem stmt_keeps (cx : Context) (st : Stmt) (s : InferState) :
    (cx.stmt st).KeepsFrom cx st.own s := by
  match st with
  | .declare ds span =>
    rw [stmt]
    exact (declarators_keeps cx ds s).bind fun _ _ _ => keepsFrom_pure _
  | .expr e span =>
    rw [stmt]
    exact (expr_keeps cx e s).bind fun _ _ _ => keepsFrom_pure _
  | .ret none span =>
    rw [stmt]
    exact (keepsFrom_addReturn _ _).bind fun _ _ _ => keepsFrom_pure _
  | .ret (some e) span =>
    rw [stmt]
    exact (expr_keeps cx e s).bind fun _ _ _ => (keepsFrom_addReturn _ _).bind fun _ _ _ =>
      keepsFrom_pure _
  | .branch test consequent none span =>
    rw [stmt]
    exact (expr_keeps cx test s).bind fun _ s₁ _ =>
      (inBlock_keeps (branchBody_keeps cx consequent) s₁).bind fun _ _ _ => keepsFrom_pure _
  | .branch test consequent (some alternate) span =>
    rw [stmt]
    exact (expr_keeps cx test s).bind fun _ s₁ _ =>
      (inBlock_keeps (branchBody_keeps cx consequent) s₁).bind fun _ s₂ _ =>
        (inBlock_keeps (branchBody_keeps cx alternate) s₂).bind fun _ _ _ => keepsFrom_pure _
  | .block body span =>
    rw [stmt]
    exact (inBlock_keeps (stmts_keeps cx body) s).bind fun _ _ _ => keepsFrom_pure _
  | .unsupported _ _ =>
    rw [stmt]
    exact keepsFrom_ofExcept _
termination_by (sizeOf st, 0)

/-- The statements of a branch keep the scopes around their own. -/
theorem branchBody_keeps (cx : Context) (st : Stmt) (s : InferState) :
    (cx.branchBody st (cx.stmt st)).KeepsFrom cx 1 s := by
  have hsingle := stmt_keeps cx st s
  cases st with
  | block body span =>
    rw [branchBody]
    exact stmts_keeps cx body s
  | declare ds span =>
    rw [branchBody]
    · exact hsingle.map _
    · simp
  | _ =>
    rw [branchBody]
    · exact hsingle.weaken.map _
    · simp
termination_by (sizeOf st, 1)

/-- Statements keep the scopes around their own. -/
theorem stmts_keeps (cx : Context) (body : List Stmt) (s : InferState) :
    (cx.stmts body).KeepsFrom cx 1 s := by
  match body with
  | [] =>
    rw [stmts]
    exact keepsFrom_pure _
  | st :: rest =>
    have hst : (cx.stmt st).KeepsFrom cx 1 s := by
      have hown := stmt_keeps cx st s
      cases st with
      | declare ds span => exact hown
      | _ => exact hown.weaken
    rw [stmts]
    exact hst.bind fun _ s₁ _ => (stmts_keeps cx rest s₁).bind fun _ _ _ => keepsFrom_pure _
termination_by (sizeOf body, 0)

end

end Context

/-! ## All parts, from all states -/

/-- A part of a function that inference goes through. -/
inductive Part where
  | expr (e : Expr)
  | declarator (d : Declarator)
  | stmt (st : Stmt)
  /-- A list of statements in the scope that is open. -/
  | stmts (body : List Stmt)
  /-- A list of statements in a scope of their own. -/
  | block (body : List Stmt)

namespace Part

/-- The state that inference is in after a part, whether the part could be inferred or not. -/
def after (cx : Context) (s : InferState) : Part → InferState
  | .expr e => ((cx.expr e).outcome s).2
  | .declarator d => ((cx.declarator d).outcome s).2
  | .stmt st => ((cx.stmt st).outcome s).2
  | .stmts body => ((cx.stmts body).outcome s).2
  | .block body => ((Context.inBlock (cx.stmts body)).outcome s).2

/-- How many frames a part may bind names in.  Expressions, branches and blocks bind in none of
those that are there before them. -/
def own : Part → Nat
  | .expr _ => 0
  | .declarator _ => 1
  | .stmt st => st.own
  | .stmts _ => 1
  | .block _ => 0

/-- Every part keeps the scopes around its own. -/
theorem keeps {cx : Context} {s : InferState} (hs : s.scopes.Sound cx) (p : Part) :
    s.scopes.Keeps cx p.own (p.after cx s).scopes := by
  cases p with
  | expr e => exact Context.expr_keeps cx e s hs
  | declarator d => exact Context.declarator_keeps cx d s hs
  | stmt st => exact Context.stmt_keeps cx st s hs
  | stmts body => exact Context.stmts_keeps cx body s hs
  | block body => exact Context.inBlock_keeps (Context.stmts_keeps cx body) s hs

end Part

namespace Scopes

/-- `s.OnlyRefined s'`: the frames of `s'` bind the names that those of `s` bind, with refined
bindings, and the outermost frame has gained typed names at most. -/
structure OnlyRefined (s s' : Scopes) : Prop where
  inner : List.Forall₂ Frame.Refines s.inner s'.inner
  kept : ∀ {name : String} {b : Binding}, s.outermost.get? name = some b →
    s'.outermost.get? name = some b
  gained : ∀ {name : String} {b : Binding}, s'.outermost.get? name = some b →
    s.outermost.get? name = some b ∨ ∃ ty, b = .typed ty

variable {cx : Context} {s s' : Scopes}

/-- An injection in the outermost frame has one type, so that assigning it again changes nothing. -/
theorem Refines.outermost_eq (h : s.Refines cx s') (hs : s.HoldsInjections cx) {name : String}
    {b : Binding} (hb : s.outermost.get? name = some b) : s'.outermost.get? name = some b := by
  have hsome : (s'.outermost.get? name).isSome = true := h.kept (by rw [hb]; rfl)
  obtain ⟨b', hb'⟩ := Option.isSome_iff_exists.1 hsome
  have heq : b' = b := by
    rcases h.fresh hb' with hold | ⟨a, ha, rfl⟩
    · rw [hb] at hold
      exact (Option.some.inj hold).symm
    · obtain ⟨a', ha', rfl⟩ := hs name b hb
      rw [ha] at ha'
      rw [Option.some.inj ha']
  rw [hb', heq]

/-- Refined scopes are no more than refined. -/
theorem Refines.onlyRefined (h : s.Refines cx s') (hs : s.HoldsInjections cx) :
    s.OnlyRefined s' where
  inner := h.inner
  kept := h.outermost_eq hs
  gained hb := by
    rcases h.fresh hb with hold | ⟨a, -, rfl⟩
    · exact .inl hold
    · exact .inr ⟨a.ty, rfl⟩

/-- What is visible in refined scopes: the names that were visible before, with refined bindings,
and injections that were assigned. -/
theorem Refines.lookup? (h : s.Refines cx s') (hs : s.HoldsInjections cx) (name : String) :
    (∀ b, s.lookup? name = some b → ∃ b', s'.lookup? name = some b' ∧ b.Refines b') ∧
      (s.lookup? name = none → ∀ b', s'.lookup? name = some b' →
        ∃ a, cx.injections.resolve? name = some a ∧ b' = .typed a.ty) := by
  have hfind := Frame.findFrame?_refines h.inner name
  generalize hbefore : findFrame? name s.inner = before, hafter : findFrame? name s'.inner = after
    at hfind
  cases hfind with
  | some hb =>
    rw [lookup?_of_findFrame?_eq_some hbefore, lookup?_of_findFrame?_eq_some hafter]
    refine ⟨?_, by simp⟩
    intro b hname
    obtain rfl := Option.some.inj hname
    exact ⟨_, rfl, hb⟩
  | none =>
    rw [lookup?_of_findFrame?_eq_none hbefore, lookup?_of_findFrame?_eq_none hafter]
    refine ⟨fun b hb => ⟨b, h.outermost_eq hs hb, .same⟩, ?_⟩
    intro hnone b' hb'
    rcases h.fresh hb' with hold | hinjected
    · rw [hnone] at hold
      cases hold
    · exact hinjected

end Scopes

namespace Function

/-- `f.Reaches injections registry s`: inference of `f` can be in the state `s`.  It starts with the
parameters in a scope, opens scopes, and goes through parts, any of which may fail. -/
inductive Reaches (f : Function) (injections : Injections) (registry : Registry) :
    InferState → Prop where
  | start {params : List (Ident × Ascription)} :
      f.ascribedParams injections = .ok params →
      Reaches f injections registry ⟨bodyScopes params, []⟩
  | enter {s : InferState} :
      Reaches f injections registry s →
      Reaches f injections registry { s with scopes := s.scopes.push }
  | after {s : InferState} (p : Part) :
      Reaches f injections registry s →
      Reaches f injections registry (p.after (f.context injections registry) s)

variable {f : Function} {injections : Injections} {registry : Registry} {s s' : InferState}

/-- The scopes are sound wherever inference gets. -/
theorem Reaches.sound (h : f.Reaches injections registry s) :
    s.scopes.Sound (f.context injections registry) := by
  induction h with
  | start hparams =>
    obtain ⟨frame, hscopes, -⟩ := bodyScopes_eq (ascribedParams_eq_ok hparams).2
    rw [hscopes]
    exact ⟨List.cons_ne_nil _ _, fun _ _ hb => nomatch hb⟩
  | enter _ ih => exact ih.push
  | after p _ ih => exact (p.keeps ih).sound ih

/-- Wherever inference is and whatever part comes next, successful or not: the part leaves as many
scopes open as it found, and the innermost of them can be closed.  Around the frame in which a
declaration binds its names, and for expressions, branches and blocks in all frames, names stay the
same and bindings are refined; the outermost frame only gains typed names.  So nothing that a block
declares is visible after it, and what is typed keeps its type. -/
theorem scopes_are_balanced (hs : f.Reaches injections registry s) (p : Part)
    (hp : p.after (f.context injections registry) s = s') :
    s'.scopes.depth = s.scopes.depth ∧ s'.scopes.pop?.isSome = true ∧
      (s.scopes.around p.own).OnlyRefined (s'.scopes.around p.own) ∧
      (p.own = 0 → ∀ name,
        (∀ b, s.scopes.lookup? name = some b →
          ∃ b', s'.scopes.lookup? name = some b' ∧ b.Refines b') ∧
        (∀ ty, s.scopes.lookup? name = some (.typed ty) →
          s'.scopes.lookup? name = some (.typed ty)) ∧
        (s.scopes.lookup? name = none → ∀ b', s'.scopes.lookup? name = some b' →
          ∃ a, injections.resolve? name = some a ∧ b' = .typed a.ty)) := by
  subst hp
  have hsound := hs.sound
  have hkeeps := p.keeps hsound
  refine ⟨hkeeps.depth, ?_, hkeeps.around.onlyRefined hsound.injections, ?_⟩
  · obtain ⟨frame, frames, hinner⟩ := List.exists_cons_of_ne_nil (hkeeps.sound hsound).nested
    rw [Scopes.pop?, hinner]
    rfl
  · intro hown name
    rw [hown] at hkeeps
    obtain ⟨hsome, hnone⟩ := hkeeps.refines.lookup? hsound.injections name
    refine ⟨hsome, ?_, hnone⟩
    intro ty hty
    obtain ⟨b', hb', hrefines⟩ := hsome _ hty
    rw [hb', hrefines.eq_of_typed]

end Function

namespace Sample

/-- The state in the body of the sample function after `var c;`. -/
def declaredC : InferState :=
  (Part.declarator ⟨⟨"c", none⟩, none, none⟩).after (shade.context injections ⟨[]⟩)
    ⟨(Function.bodyScopes [(⟨"env", none⟩, .ofTy (.object .record))]).push, []⟩

/-- `if (env.on) { var c = true; env.on = c; nope; }`, which fails in the scope of its branch. -/
def failingBranch : Stmt :=
  .branch on (.block [
    .declare [⟨⟨"c", none⟩, some (.literal ⟨some (.bool true), none⟩ none), none⟩] none,
    .expr (.assign .plain on (.ident "c" none) none) none,
    .expr (.ident "nope" none) none] none) none none

/-- A branch that fails half way through closes its scope: the variable outside is still pending,
and its own one is gone. -/
theorem failing_branch_is_balanced :
    shade.Reaches injections ⟨[]⟩ declaredC ∧
    (((shade.context injections ⟨[]⟩).stmt failingBranch).outcome declaredC).1 =
      .error ⟨.unresolvedIdentifier "nope", none⟩ ∧
    declaredC.scopes.lookup? "c" = some .pending ∧ declaredC.scopes.depth = 3 ∧
    ((Part.stmt failingBranch).after (shade.context injections ⟨[]⟩) declaredC).scopes.depth = 3 ∧
    ∃ b, ((Part.stmt failingBranch).after (shade.context injections ⟨[]⟩) declaredC).scopes.lookup?
      "c" = some b ∧ Binding.pending.Refines b := by
  have hreaches : shade.Reaches injections ⟨[]⟩ declaredC := .after _ (.enter (.start rfl))
  obtain ⟨hdepth, -, -, hnames⟩ :=
    Function.scopes_are_balanced hreaches (.stmt failingBranch) rfl
  exact ⟨hreaches, rfl, rfl, rfl, hdepth, (hnames rfl "c").1 _ rfl⟩

end Sample

end Shader
