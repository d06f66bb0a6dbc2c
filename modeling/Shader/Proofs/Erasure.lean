import Shader.Proofs.Derivation

/-!
# Erasure

Inference annotates a function and changes nothing else.  To say so, the annotations of a typed tree
are erased, which gives a tree of the source language again, and the source tree is brought into the
normal form that a typed tree can still express:

* a branch is always a block;
* a literal has no source text, and the callee of `new` is a bare name;
* of the spans those of expressions, declarators, parameters and the function are kept.

`Function.erase_infer` says that the erased result of inference is the normal form of the function,
and that no form outside the shader subset occurs anywhere in a function that can be inferred.
-/

namespace Shader

/-! ## Normal forms -/

namespace Expr

/-- The callee of `new`, of which only the name is kept. -/
def asConstructor : Expr → Expr
  | .ident name _ => .ident name none
  | e => e

mutual

/-- The normal form of an expression. -/
def normalize : Expr → Expr
  | .literal l span => .literal ⟨l.value, none⟩ span
  | .ident name span => .ident name span
  | .member object property span => .member object.normalize ⟨property.name, none⟩ span
  | .index object i span => .index object.normalize i.normalize span
  | .call callee args span => .call callee.normalize (normalizeArgs args) span
  | .construct callee args span => .construct callee.asConstructor (normalizeArgs args) span
  | .binary op left right span => .binary op left.normalize right.normalize span
  | .logical op left right span => .logical op left.normalize right.normalize span
  | .assign op target value span => .assign op target.normalize value.normalize span
  | .conditional test consequent alternate span =>
    .conditional test.normalize consequent.normalize alternate.normalize span
  | .unary op argument span => .unary op argument.normalize span
  | .unsupported kind span => .unsupported kind span

/-- The normal forms of arguments. -/
def normalizeArgs : List Expr → List Expr
  | [] => []
  | e :: rest => e.normalize :: normalizeArgs rest

end

mutual

/-- Whether only forms of the shader subset occur in an expression: no computed member, no `new` of
anything but a name, and nothing that the tree keeps by the name of its kind. -/
def isSupported : Expr → Bool
  | .literal _ _ | .ident _ _ => true
  | .member object _ _ => object.isSupported
  | .index _ _ _ => false
  | .call callee args _ => callee.isSupported && areSupported args
  | .construct (.ident _ _) args _ => areSupported args
  | .construct _ _ _ => false
  | .binary _ left right _ => left.isSupported && right.isSupported
  | .logical _ left right _ => left.isSupported && right.isSupported
  | .assign _ target value _ => target.isSupported && value.isSupported
  | .conditional test consequent alternate _ =>
    test.isSupported && consequent.isSupported && alternate.isSupported
  | .unary _ argument _ => argument.isSupported
  | .unsupported _ _ => false

/-- Whether only forms of the shader subset occur in arguments. -/
def areSupported : List Expr → Bool
  | [] => true
  | e :: rest => e.isSupported && areSupported rest

end

end Expr

/-- The normal form of a declarator. -/
def Declarator.normalize (d : Declarator) : Declarator :=
  ⟨⟨d.name.name, none⟩, d.init.map Expr.normalize, d.span.or d.name.span⟩

/-- Whether only forms of the shader subset occur in a declarator. -/
def Declarator.isSupported (d : Declarator) : Bool := d.init.all Expr.isSupported

namespace Stmt

/-- A statement as a branch, which is always a block. -/
def asBranch (s : Stmt) : Stmt := .block s.branchBody none

mutual

/-- The normal form of a statement. -/
def normalize : Stmt → Stmt
  | .declare ds _ => .declare (ds.map Declarator.normalize) none
  | .expr e _ => .expr e.normalize none
  | .ret value _ => .ret (value.map Expr.normalize) none
  | .branch test consequent none _ => .branch test.normalize consequent.normalize.asBranch none none
  | .branch test consequent (some alternate) _ =>
    .branch test.normalize consequent.normalize.asBranch (some alternate.normalize.asBranch) none
  | .block body _ => .block (normalizeAll body) none
  | .unsupported kind _ => .unsupported kind none

/-- The normal forms of statements. -/
def normalizeAll : List Stmt → List Stmt
  | [] => []
  | s :: rest => s.normalize :: normalizeAll rest

end

mutual

/-- Whether only forms of the shader subset occur in a statement. -/
def isSupported : Stmt → Bool
  | .declare ds _ => ds.all Declarator.isSupported
  | .expr e _ => e.isSupported
  | .ret value _ => value.all Expr.isSupported
  | .branch test consequent none _ => test.isSupported && consequent.isSupported
  | .branch test consequent (some alternate) _ =>
    test.isSupported && consequent.isSupported && alternate.isSupported
  | .block body _ => areSupported body
  | .unsupported _ _ => false

/-- Whether only forms of the shader subset occur in statements. -/
def areSupported : List Stmt → Bool
  | [] => true
  | s :: rest => s.isSupported && areSupported rest

end

/-- Taking the statements of a branch and bringing them into normal form commute. -/
theorem branchBody_normalize (s : Stmt) : s.normalize.branchBody = normalizeAll s.branchBody := by
  cases s with
  | branch test consequent alternate span => cases alternate <;> rfl
  | _ => rfl

/-- A branch is in the subset when its statements are. -/
theorem areSupported_branchBody (s : Stmt) : areSupported s.branchBody = s.isSupported := by
  cases s with
  | block body span => rw [branchBody, isSupported]
  | _ => simp [branchBody, areSupported]

end Stmt

/-- The normal form of a function. -/
def Function.normalize (f : Function) : Function :=
  { f with name := ⟨f.name.name, none⟩, body := Stmt.normalizeAll f.body }

/-- Whether only forms of the shader subset occur in a function. -/
def Function.isSupported (f : Function) : Bool := Stmt.areSupported f.body

/-! ## Erasing annotations -/

namespace TypedExpr

mutual

/-- The expression that a typed expression annotates. -/
def erase : TypedExpr → Expr
  | .literal value m => .literal ⟨value, none⟩ m.span
  | .ident name m => .ident name m.span
  | .member object property m => .member object.erase ⟨property, none⟩ m.span
  | .call callee args m => .call callee.erase (eraseArgs args) m.span
  | .construct name args m => .construct (.ident name none) (eraseArgs args) m.span
  | .binary op left right m => .binary op left.erase right.erase m.span
  | .logical op left right m => .logical op left.erase right.erase m.span
  | .assign op target value m => .assign op target.erase value.erase m.span
  | .conditional test consequent alternate m =>
    .conditional test.erase consequent.erase alternate.erase m.span
  | .unary op argument m => .unary op argument.erase m.span

/-- The expressions that typed arguments annotate. -/
def eraseArgs : List TypedExpr → List Expr
  | [] => []
  | e :: rest => e.erase :: eraseArgs rest

end

/-- Forgetting a value changes annotations only. -/
@[simp] theorem erase_forgetValue (e : TypedExpr) : e.forgetValue.erase = e.erase := by
  cases e <;> rfl

end TypedExpr

/-- The declarator that a typed declarator annotates. -/
def TypedDeclarator.erase (d : TypedDeclarator) : Declarator :=
  ⟨⟨d.name, none⟩, d.init.map TypedExpr.erase, d.span⟩

namespace TypedStmt

mutual

/-- The statement that a typed statement annotates. -/
def erase : TypedStmt → Stmt
  | .declare ds => .declare (ds.map TypedDeclarator.erase) none
  | .expr e => .expr e.erase none
  | .ret value => .ret (value.map TypedExpr.erase) none
  | .branch test consequent none => .branch test.erase (.block (eraseAll consequent) none) none none
  | .branch test consequent (some alternate) =>
    .branch test.erase (.block (eraseAll consequent) none)
      (some (.block (eraseAll alternate) none)) none
  | .block body => .block (eraseAll body) none

/-- The statements that typed statements annotate. -/
def eraseAll : List TypedStmt → List Stmt
  | [] => []
  | s :: rest => s.erase :: eraseAll rest

end

end TypedStmt

/-- The function that a typed function annotates. -/
def TypedFunction.erase (f : TypedFunction) : Function where
  name := ⟨f.name, none⟩
  params := f.params.map fun p => ⟨p.name, p.span⟩
  body := TypedStmt.eraseAll f.body
  span := f.span

/-! ## Inference only annotates -/

/-- Inferring arguments one by one annotates the list of them. -/
theorem Thread.eraseArgs {S : Type} {s s' : S} {es : List Expr} {ts : List TypedExpr}
    (h : Thread (fun _ e t _ => t.erase = e.normalize ∧ e.isSupported = true) s es ts s') :
    TypedExpr.eraseArgs ts = Expr.normalizeArgs es ∧ Expr.areSupported es = true := by
  induction h with
  | nil => exact ⟨rfl, rfl⟩
  | cons he _ ih =>
    obtain ⟨herase, hsupported⟩ := he
    obtain ⟨iherase, ihsupported⟩ := ih
    constructor
    · rw [TypedExpr.eraseArgs, Expr.normalizeArgs, herase, iherase]
    · rw [Expr.areSupported, hsupported, ihsupported, Bool.and_true]

/-- The typed form of an expression annotates its normal form. -/
theorem ExprRun.erase {cx : Context} {s s' : Scopes} {e : Expr} {t : TypedExpr}
    (h : ExprRun cx s e t s') : t.erase = e.normalize ∧ e.isSupported = true := by
  induction h using ExprRun.induct with
  | literal => exact ⟨rfl, rfl⟩
  | ident _ => exact ⟨rfl, rfl⟩
  | member _ _ ih =>
    simp [TypedExpr.erase, Expr.normalize, Expr.isSupported, ih.1, ih.2]
  | call _ _ _ _ ihc ihargs =>
    obtain ⟨hargs, hsupported⟩ := (ihargs.mono fun ⟨_, h⟩ => h).eraseArgs
    simp [TypedExpr.erase, Expr.normalize, Expr.isSupported, ihc.1, ihc.2, hargs, hsupported]
  | construct he _ _ ihargs =>
    obtain ⟨hargs, hsupported⟩ := (ihargs.mono fun ⟨_, h⟩ => h).eraseArgs
    have hname := Registry.byName?_name (Context.constructible_eq_ok he).1
    simp [TypedExpr.erase, Expr.normalize, Expr.asConstructor, Expr.isSupported, hargs, hsupported,
      hname]
  | binary _ _ _ ihl ihr =>
    simp [TypedExpr.erase, Expr.normalize, Expr.isSupported, ihl.1, ihl.2, ihr.1, ihr.2]
  | logical _ _ _ ihl ihr =>
    simp [TypedExpr.erase, Expr.normalize, Expr.isSupported, ihl.1, ihl.2, ihr.1, ihr.2]
  | assignIdent _ _ ihv =>
    simp [TypedExpr.erase, Expr.normalize, Expr.isSupported, ihv.1, ihv.2]
  | assignMember _ _ _ ihv iht =>
    -- The target is inferred like any member, and only its annotation is changed afterwards.
    rw [Expr.isSupported, iht.2, ihv.2]
    simp [TypedExpr.erase, ihv.1, iht.1, Expr.normalize]
  | conditional _ _ _ _ iht ihc iha =>
    simp [TypedExpr.erase, Expr.normalize, Expr.isSupported, iht.1, iht.2, ihc.1, ihc.2, iha.1,
      iha.2]
  | unary _ _ ih => simp [TypedExpr.erase, Expr.normalize, Expr.isSupported, ih.1, ih.2]

/-- The typed form of a declarator annotates its normal form. -/
theorem DeclaratorRun.erase {cx : Context} {s s' : Scopes} {d : Declarator} {t : TypedDeclarator}
    (h : DeclaratorRun cx s d t s') : t.erase = d.normalize ∧ d.isSupported = true := by
  cases h with
  | init ht =>
    obtain ⟨herase, hsupported⟩ := ht.erase
    simp [TypedDeclarator.erase, Declarator.normalize, Declarator.isSupported, herase, hsupported]
  | injected _ => exact ⟨rfl, rfl⟩
  | pending _ => exact ⟨rfl, rfl⟩

/-- The typed forms of declarators annotate their normal forms, in order. -/
theorem Thread.eraseDeclarators {cx : Context} {s s' : Scopes} {ds : List Declarator}
    {ts : List TypedDeclarator} (h : Thread (DeclaratorRun cx) s ds ts s') :
    ts.map TypedDeclarator.erase = ds.map Declarator.normalize ∧
      ds.all Declarator.isSupported = true := by
  induction h with
  | nil => exact ⟨rfl, rfl⟩
  | cons hd _ ih =>
    obtain ⟨herase, hsupported⟩ := hd.erase
    simp [herase, hsupported, ih.1, ih.2]

/-- Settling a statement changes annotations only. -/
theorem Context.settleStmt_erase {frame : Frame} {t t' : TypedStmt}
    (h : Context.settleStmt frame t = .ok t') : t'.erase = t.erase := by
  rcases Context.settleStmt_eq_ok h with ⟨ds, ds', rfl, rfl, hds⟩ | ⟨rfl, -⟩
  · have hforall := mapM_eq_ok_iff.1 hds
    have hmap : ds'.map TypedDeclarator.erase = ds.map TypedDeclarator.erase := by
      clear h hds
      induction hforall with
      | nil => rfl
      | cons hd _ ih =>
        obtain ⟨hd, -⟩ := Context.settleDeclarator_eq_ok hd
        rw [List.map_cons, List.map_cons, ih, hd]
        rfl
    rw [TypedStmt.erase, TypedStmt.erase, hmap]
  · rfl

/-- Settling a block changes annotations only. -/
theorem Context.settle_eraseAll {frame : Frame} {body body' : List TypedStmt}
    (h : Context.settle frame body = .ok body') :
    TypedStmt.eraseAll body' = TypedStmt.eraseAll body := by
  have hforall := mapM_eq_ok_iff.1 h
  clear h
  induction hforall with
  | nil => rfl
  | cons hs _ ih => rw [TypedStmt.eraseAll, TypedStmt.eraseAll, settleStmt_erase hs, ih]

/-- The typed forms of statements annotate their normal forms, in order. -/
theorem Thread.eraseAll {S : Type} {s s' : S} {body : List Stmt} {ts : List TypedStmt}
    (h : Thread (fun _ st t _ => t.erase = st.normalize ∧ st.isSupported = true) s body ts s') :
    TypedStmt.eraseAll ts = Stmt.normalizeAll body ∧ Stmt.areSupported body = true := by
  induction h with
  | nil => exact ⟨rfl, rfl⟩
  | cons hs _ ih =>
    obtain ⟨herase, hsupported⟩ := hs
    obtain ⟨iherase, ihsupported⟩ := ih
    constructor
    · rw [TypedStmt.eraseAll, Stmt.normalizeAll, herase, iherase]
    · rw [Stmt.areSupported, hsupported, ihsupported, Bool.and_true]

/-- The typed form of a block annotates the normal forms of its statements. -/
theorem BlockRun.erase {s s' : InferState} {body : List Stmt} {typed : List TypedStmt}
    (h : BlockRun (fun _ st t _ => t.erase = st.normalize ∧ st.isSupported = true)
      s body typed s') :
    TypedStmt.eraseAll typed = Stmt.normalizeAll body ∧ Stmt.areSupported body = true := by
  obtain ⟨unsettled, inside, hthread, hsettle, rfl⟩ := h
  rw [Context.settle_eraseAll hsettle]
  exact hthread.eraseAll

/-- The typed form of a statement annotates its normal form. -/
theorem StmtRun.erase {cx : Context} {s s' : InferState} {st : Stmt} {t : TypedStmt}
    (h : StmtRun cx s st t s') : t.erase = st.normalize ∧ st.isSupported = true := by
  induction h using StmtRun.induct with
  | declare hds =>
    obtain ⟨herase, hsupported⟩ := hds.eraseDeclarators
    exact ⟨by rw [TypedStmt.erase, Stmt.normalize, herase], hsupported⟩
  | expr he =>
    obtain ⟨herase, hsupported⟩ := he.erase
    exact ⟨by rw [TypedStmt.erase, Stmt.normalize, herase], hsupported⟩
  | retNone => exact ⟨rfl, rfl⟩
  | retSome he =>
    obtain ⟨herase, hsupported⟩ := he.erase
    simp [TypedStmt.erase, Stmt.normalize, Stmt.isSupported, herase, hsupported]
  | branch ht _ _ ihc =>
    obtain ⟨herase, hsupported⟩ := ht.erase
    obtain ⟨hcerase, hcsupported⟩ := (ihc.mono fun ⟨_, h⟩ => h).erase
    rw [Stmt.areSupported_branchBody] at hcsupported
    rw [← Stmt.branchBody_normalize] at hcerase
    simp [TypedStmt.erase, Stmt.normalize, Stmt.asBranch, Stmt.isSupported, herase, hsupported,
      hcerase, hcsupported]
  | branchElse ht _ _ _ _ ihc iha =>
    obtain ⟨herase, hsupported⟩ := ht.erase
    obtain ⟨hcerase, hcsupported⟩ := (ihc.mono fun ⟨_, h⟩ => h).erase
    obtain ⟨haerase, hasupported⟩ := (iha.mono fun ⟨_, h⟩ => h).erase
    rw [Stmt.areSupported_branchBody] at hcsupported hasupported
    rw [← Stmt.branchBody_normalize] at hcerase haerase
    simp [TypedStmt.erase, Stmt.normalize, Stmt.asBranch, Stmt.isSupported, herase, hsupported,
      hcerase, hcsupported, haerase, hasupported]
  | block _ _ ih =>
    obtain ⟨herase, hsupported⟩ := (ih.mono fun ⟨_, h⟩ => h).erase
    exact ⟨by rw [TypedStmt.erase, Stmt.normalize, herase], hsupported⟩

/-- The typed body of a function annotates its normal form. -/
theorem Function.eraseAll_body {f : Function} {injections : Injections} {registry : Registry}
    {t : TypedFunction} (h : f.infer injections registry = .ok t) :
    TypedStmt.eraseAll t.body = Stmt.normalizeAll f.body ∧ Stmt.areSupported f.body = true := by
  obtain ⟨-, hbody, -⟩ := Function.infer_derives h
  exact (hbody.mono StmtRun.erase).erase

/-- The typed parameters of a function annotate its parameters. -/
theorem Function.erase_params {f : Function} {injections : Injections} {registry : Registry}
    {t : TypedFunction} (h : f.infer injections registry = .ok t) :
    t.params.map (fun p => Ident.mk p.name p.span) = f.params := by
  obtain ⟨hparams, -, -⟩ := Function.infer_derives h
  obtain ⟨hmap, -⟩ := Function.ascribedParams_eq_ok hparams
  rw [← hmap, List.map_map]
  exact List.map_congr_left fun p _ => rfl

/-- Inference only annotates: the erased result is the normal form of the function.  A function with
a form outside the shader subset anywhere in it is never inferred. -/
theorem Function.erase_infer {f : Function} {injections : Injections} {registry : Registry}
    {t : TypedFunction} (h : f.infer injections registry = .ok t) :
    t.erase = f.normalize ∧ f.isSupported = true := by
  obtain ⟨herase, hsupported⟩ := Function.eraseAll_body h
  have hparams := Function.erase_params h
  refine ⟨?_, hsupported⟩
  cases Function.infer_derives h with
  | mk _ _ _ => rw [TypedFunction.erase, Function.normalize, hparams, herase]

/-- The sample function with its bare branch put into a block. -/
theorem Sample.erase_typedShade :
    Sample.shade.infer Sample.injections ⟨[]⟩ = .ok Sample.typedShade ∧
    Sample.typedShade.erase = Sample.shade.normalize ∧ Sample.shade.isSupported = true :=
  ⟨Sample.infer_shade, Function.erase_infer Sample.infer_shade⟩

end Shader
