import Shader.Proofs.Shape

/-!
# Where known values come from

A value that is known of an expression was written as a literal, was injected, or was computed from
the values of the operands.  So what holds of the ascriptions of all literals and all injections,
and of a result whenever it holds of the operands, holds of every ascription in the typed tree of a
function: `Function.ascriptions_hold`.

The literals are met in the derivation of the expression that they stand in.  Names and members get
their values from the scopes, and there a constant is only ever taken away: each of them is an
injected ascription that has been there from the start (`Function.resolve?_of_value`).
-/

namespace Shader

/-! ## Literals of a program -/

namespace Expr

mutual

/-- The literals of an expression, in source order. -/
def literals : Expr → List Literal
  | .literal l _ => [l]
  | .ident _ _ => []
  | .member object _ _ => object.literals
  | .index object key _ => object.literals ++ key.literals
  | .call callee args _ => callee.literals ++ literalsArgs args
  | .construct callee args _ => callee.literals ++ literalsArgs args
  | .binary _ left right _ => left.literals ++ right.literals
  | .logical _ left right _ => left.literals ++ right.literals
  | .assign _ target value _ => target.literals ++ value.literals
  | .conditional test consequent alternate _ =>
    test.literals ++ (consequent.literals ++ alternate.literals)
  | .unary _ argument _ => argument.literals
  | .unsupported _ _ => []

/-- The literals of arguments. -/
def literalsArgs : List Expr → List Literal
  | [] => []
  | e :: rest => e.literals ++ literalsArgs rest

end

end Expr

namespace Stmt

mutual

/-- The literals of a statement, in source order. -/
def literals : Stmt → List Literal
  | .declare ds _ => ds.flatMap fun d => (d.init.map Expr.literals).getD []
  | .expr e _ => e.literals
  | .ret none _ => []
  | .ret (some e) _ => e.literals
  | .branch test consequent none _ => test.literals ++ consequent.literals
  | .branch test consequent (some alternate) _ =>
    test.literals ++ (consequent.literals ++ alternate.literals)
  | .block body _ => literalsAll body
  | .unsupported _ _ => []

/-- The literals of statements. -/
def literalsAll : List Stmt → List Literal
  | [] => []
  | s :: rest => s.literals ++ literalsAll rest

end

theorem literalsAll_branchBody (s : Stmt) : literalsAll s.branchBody = s.literals := by
  cases s <;> simp [branchBody, literalsAll, literals]

end Stmt

/-- The literals of a function, in source order. -/
def Function.literals (f : Function) : List Literal := Stmt.literalsAll f.body

/-- The literals of a program, in source order. -/
def Program.literals (p : Program) : List Literal := p.functions.flatMap Function.literals

/-! ## Every part of a typed tree is derived -/

/-- `Derived cx literals x`: the typed expression `x` has a derivation of its own, from an
expression with no literals but the given ones, or is the target of an assignment. -/
inductive Derived (cx : Context) (literals : List Literal) (x : TypedExpr) : Prop where
  | run {s s' : Scopes} {e : Expr} : ExprRun cx s e x s' → e.literals ⊆ literals →
      Derived cx literals x
  | target : x.isPlace = true → x.ascription.value = none → Derived cx literals x

/-- `Sourced cx literals xs ds`: the typed expressions `xs` are derived from the given literals, and
of the declarators `ds` no value is known. -/
structure Sourced (cx : Context) (literals : List Literal) (xs : List TypedExpr)
    (ds : List TypedDeclarator) : Prop where
  derived : ∀ x ∈ xs, Derived cx literals x
  typed : ∀ d ∈ ds, d.ascription.value = none

namespace Sourced

variable {cx : Context} {literals literals' : List Literal} {x : TypedExpr}
  {xs xs' : List TypedExpr} {ds ds' : List TypedDeclarator}

theorem nil : Sourced cx literals [] [] := by
  constructor
  · intro x hx
    cases hx
  · intro d hd
    cases hd

theorem mono (h : Sourced cx literals xs ds) (hliterals : literals ⊆ literals') :
    Sourced cx literals' xs ds := by
  refine ⟨?_, h.typed⟩
  intro x hx
  cases h.derived x hx with
  | run hrun hsubset => exact .run hrun (List.Subset.trans hsubset hliterals)
  | target hplace hvalue => exact .target hplace hvalue

theorem append (h : Sourced cx literals xs ds) (h' : Sourced cx literals' xs' ds') :
    Sourced cx (literals ++ literals') (xs ++ xs') (ds ++ ds') := by
  have hleft := h.mono (List.subset_append_left literals literals')
  have hright := h'.mono (List.subset_append_right literals literals')
  constructor
  · intro x hx
    rcases List.mem_append.1 hx with hx | hx
    · exact hleft.derived x hx
    · exact hright.derived x hx
  · intro d hd
    rcases List.mem_append.1 hd with hd | hd
    · exact hleft.typed d hd
    · exact hright.typed d hd

theorem cons (hx : Derived cx literals x) (h : Sourced cx literals xs ds) :
    Sourced cx literals (x :: xs) ds := by
  refine ⟨?_, h.typed⟩
  intro y hy
  rcases List.mem_cons.1 hy with rfl | hy
  · exact hx
  · exact h.derived y hy

end Sourced

theorem Thread.sourcedArgs {S : Type} {cx : Context} {s s' : S} {es : List Expr}
    {ts : List TypedExpr}
    (h : Thread (fun _ e t _ => Sourced cx e.literals t.all []) s es ts s') :
    Sourced cx (Expr.literalsArgs es) (TypedExpr.allArgs ts) [] := by
  induction h with
  | nil => exact .nil
  | cons ht _ ih => exact ht.append ih

/-- The parts of the typed form of an expression are derived from its literals. -/
theorem ExprRun.sourced {cx : Context} {s s' : Scopes} {e : Expr} {t : TypedExpr}
    (h : ExprRun cx s e t s') : Sourced cx e.literals t.all [] := by
  induction h using ExprRun.induct with
  | @literal s _ _ => exact .cons (.run (.literal (s := s)) (List.Subset.refl _)) .nil
  | ident ha => exact .cons (.run (.ident ha) (List.Subset.refl _)) .nil
  | member ho ha ih => exact .cons (.run (.member ho ha) (List.Subset.refl _)) ih
  | call hc hsignature has hargs ihc ihargs =>
    have harguments := (ihargs.mono fun ⟨_, h⟩ => h).sourcedArgs
    refine .cons (.run (.call hc hsignature has hargs) (List.Subset.refl _)) ?_
    exact ihc.append harguments
  | construct hentry has hargs ihargs =>
    have harguments := (ihargs.mono fun ⟨_, h⟩ => h).sourcedArgs
    refine .cons (.run (.construct hentry has hargs) (List.Subset.refl _)) ?_
    exact harguments
  | binary hl hr ha ihl ihr =>
    exact .cons (.run (.binary hl hr ha) (List.Subset.refl _)) (ihl.append ihr)
  | logical hl hr hty ihl ihr =>
    exact .cons (.run (.logical hl hr hty) (List.Subset.refl _)) (ihl.append ihr)
  | assignIdent hv ha ihv =>
    exact .cons (.run (.assignIdent hv ha) (List.Subset.refl _)) (.cons (.target rfl rfl) ihv)
  | @assignMember _ _ _ _ object property targetSpan _ _ _ t _ hv ht hty ihv iht =>
    -- Forgetting the value of the target changes none of its parts.
    have htarget : Sourced cx (Expr.member object property targetSpan).literals
        t.forgetValue.all [] := by
      cases ht with
      | member ho ha =>
        refine .cons (.target rfl rfl) ⟨?_, iht.typed⟩
        intro x hx
        exact iht.derived x (List.mem_cons_of_mem _ hx)
    exact .cons (.run (.assignMember hv ht hty) (List.Subset.refl _)) (htarget.append ihv)
  | conditional ht hc ha hty iht ihc iha =>
    refine .cons (.run (.conditional ht hc ha hty) (List.Subset.refl _)) ?_
    exact iht.append (ihc.append iha)
  | unary ht ha ih => exact .cons (.run (.unary ht ha) (List.Subset.refl _)) ih

theorem DeclaratorRun.sourced {cx : Context} {s s' : Scopes} {d : Declarator} {t : TypedDeclarator}
    (h : DeclaratorRun cx s d t s') :
    Sourced cx ((d.init.map Expr.literals).getD []) ((t.init.map TypedExpr.all).getD []) [t] := by
  cases h with
  | init he => exact ⟨he.sourced.derived, by simp [Ascription.ofTy]⟩
  | injected _ => exact ⟨Sourced.nil.derived, by simp [Ascription.ofTy]⟩
  | pending _ => exact ⟨Sourced.nil.derived, by simp [Ascription.ofTy]⟩

theorem Thread.sourcedDeclarators {cx : Context} {s s' : Scopes} {ds : List Declarator}
    {ts : List TypedDeclarator} (h : Thread (DeclaratorRun cx) s ds ts s') :
    Sourced cx (ds.flatMap fun d => (d.init.map Expr.literals).getD [])
      (ts.flatMap fun d => (d.init.map TypedExpr.all).getD []) ts := by
  induction h with
  | nil => exact .nil
  | cons hd _ ih => exact hd.sourced.append ih

/-- Settling finds types for declarators, and no values. -/
theorem Context.settle_declarationsAll {frame : Frame} {body body' : List TypedStmt}
    (h : Context.settle frame body = .ok body')
    (hbody : ∀ d ∈ TypedStmt.declarationsAll body, d.ascription.value = none) :
    ∀ d ∈ TypedStmt.declarationsAll body', d.ascription.value = none := by
  have hforall := mapM_eq_ok_iff.1 h
  clear h
  induction hforall with
  | nil => exact hbody
  | @cons t t' rest rest' ht _ ih =>
    intro d hd
    rw [TypedStmt.declarationsAll] at hbody hd
    rcases List.mem_append.1 hd with hd | hd
    · rcases Context.settleStmt_eq_ok ht with ⟨ds, ds', rfl, rfl, hds⟩ | ⟨rfl, -⟩
      · obtain ⟨d₀, hd₀, hsettle⟩ := exists_of_mem_mapM hds hd
        obtain ⟨-, hkept, hsettled⟩ := Context.settleDeclarator_eq_ok hsettle
        cases hinit : d₀.init with
        | none => exact (hsettled hinit).1
        | some e =>
          rw [hkept e hinit]
          exact hbody d₀ (List.mem_append_left _ hd₀)
      · exact hbody d (List.mem_append_left _ hd)
    · exact ih (fun d hd => hbody d (List.mem_append_right _ hd)) d hd

theorem Thread.sourced {S : Type} {cx : Context} {s s' : S} {body : List Stmt}
    {ts : List TypedStmt}
    (h : Thread (fun _ st t _ => Sourced cx st.literals t.exprs t.declarations) s body ts s') :
    Sourced cx (Stmt.literalsAll body) (TypedStmt.exprsAll ts) (TypedStmt.declarationsAll ts) := by
  induction h with
  | nil => exact .nil
  | cons hst _ ih => exact hst.append ih

theorem BlockRun.sourced {cx : Context} {s s' : InferState} {body : List Stmt}
    {typed : List TypedStmt}
    (h : BlockRun (fun _ st t _ => Sourced cx st.literals t.exprs t.declarations) s body typed s') :
    Sourced cx (Stmt.literalsAll body) (TypedStmt.exprsAll typed)
      (TypedStmt.declarationsAll typed) := by
  obtain ⟨unsettled, inside, hthread, hsettle, rfl⟩ := h
  have hsourced := hthread.sourced
  refine ⟨?_, Context.settle_declarationsAll hsettle hsourced.typed⟩
  rw [(Context.settle_exprsAll hsettle).1]
  exact hsourced.derived

/-- The typed form of a statement is derived from its literals. -/
theorem StmtRun.sourced {cx : Context} {s s' : InferState} {st : Stmt} {t : TypedStmt}
    (h : StmtRun cx s st t s') : Sourced cx st.literals t.exprs t.declarations := by
  induction h using StmtRun.induct with
  | declare hds => exact hds.sourcedDeclarators
  | expr he => exact he.sourced
  | retNone => exact .nil
  | retSome he => exact he.sourced
  | branch ht _ _ ihc =>
    have hc := (ihc.mono fun ⟨_, h⟩ => h).sourced
    rw [Stmt.literalsAll_branchBody] at hc
    exact ht.sourced.append hc
  | branchElse ht _ _ _ _ ihc iha =>
    have hc := (ihc.mono fun ⟨_, h⟩ => h).sourced
    have ha := (iha.mono fun ⟨_, h⟩ => h).sourced
    rw [Stmt.literalsAll_branchBody] at hc ha
    exact ht.sourced.append (hc.append ha)
  | block _ _ ih => exact (ih.mono fun ⟨_, h⟩ => h).sourced

/-- The typed form of a function is derived from its literals. -/
theorem Function.infer_sourced {f : Function} {injections : Injections} {registry : Registry}
    {t : TypedFunction} (h : f.infer injections registry = .ok t) :
    Sourced (f.context injections registry) f.literals t.exprs t.declarations := by
  cases Function.infer_derives h with
  | mk _ hbody _ => exact (hbody.mono fun h => h.sourced).sourced

/-! ## Constants in the scopes -/

/-- `frame.Hold P`: the constants of a frame satisfy `P` with their names. -/
def Frame.Hold (P : String → Ascription → Prop) (frame : Frame) : Prop :=
  ∀ name ty v, frame.get? name = some (.constant ty v) → P name ⟨ty, some v⟩

/-- `s.Hold P`: the constants in the inner frames satisfy `P` with their names. -/
def Scopes.Hold (P : String → Ascription → Prop) (s : Scopes) : Prop :=
  ∀ frame ∈ s.inner, Frame.Hold P frame

section Hold

variable {P : String → Ascription → Prop}

/-- A constant of a refined frame was there before. -/
theorem Frame.Hold.refine {frame frame' : Frame} (h : frame.Hold P)
    (hrefines : Frame.Refines frame frame') : frame'.Hold P := by
  intro name ty v hget
  have hrel := hrefines name
  rw [hget] at hrel
  cases hold : frame.get? name with
  | none =>
    rw [hold] at hrel
    cases hrel
  | some b =>
    rw [hold] at hrel
    cases hrel with
    | some hb =>
      cases hb with
      | same => exact h name ty v hold

theorem Scopes.Hold.refine {cx : Context} {s s' : Scopes} (h : s.Hold P) (hs : s.Refines cx s') :
    s'.Hold P := by
  have hinner := hs.inner
  unfold Scopes.Hold at h ⊢
  generalize s.inner = frames, s'.inner = frames' at h hinner
  induction hinner with
  | nil => exact h
  | cons hframe _ ih =>
    intro frame hmem
    rcases List.mem_cons.1 hmem with rfl | hmem
    · exact (h _ List.mem_cons_self).refine hframe
    · exact ih (fun f hf => h f (List.mem_cons_of_mem _ hf)) frame hmem

/-- A declared name is not bound to a constant. -/
theorem Frame.Hold.declare {frame : Frame} (h : frame.Hold P) (cx : Context) (d : TypedDeclarator) :
    Frame.Hold P (frame.insert d.name (cx.declaredBinding d)) := by
  intro name ty v hget
  by_cases hname : name = d.name
  · rw [hname, Table.get?_insert_self] at hget
    unfold Context.declaredBinding at hget
    split at hget
    · cases hget
    · split at hget <;> cases hget
  · rw [Table.get?_insert_of_ne _ hname] at hget
    exact h name ty v hget

/-- Every step keeps what the constants satisfy. -/
theorem Step.hold {cx : Context} {Γ : Lexical} {s s' : Scopes} {ev : Event}
    (h : Step cx Γ s ev s') (hs : Follows cx Γ s) (hhold : s.Hold P) : s'.Hold P := by
  have haccess := h.refines hs
  cases h with
  | enter =>
    intro frame hmem
    rcases List.mem_cons.1 hmem with rfl | hmem
    · intro name ty v hget
      cases hget
    · exact hhold frame hmem
  | leave hΓ _ =>
    obtain ⟨scope, scopes, frame, frames, -, hinner, -, -⟩ := hs.innermost hΓ
    rw [Scopes.pop_of_inner_eq_cons hinner]
    intro frame' hmem
    exact hhold frame' (by rw [hinner]; exact List.mem_cons_of_mem _ hmem)
  | @declare d hΓ _ =>
    obtain ⟨scope, scopes, frame, frames, -, hinner, -, -⟩ := hs.innermost hΓ
    rw [Scopes.insert_of_inner_eq_cons hinner]
    unfold Scopes.Hold at hhold
    rw [hinner] at hhold
    intro frame' hmem
    rcases List.mem_cons.1 hmem with rfl | hmem
    · exact (hhold frame List.mem_cons_self).declare cx d
    · exact hhold frame' (List.mem_cons_of_mem _ hmem)
  | readIdent => exact hhold
  | readMember => exact hhold
  | assignIdent => exact hhold.refine (haccess rfl)
  | assignMember => exact hhold.refine (haccess rfl)

theorem Scopes.Hold.of_lookup? {cx : Context} {Γ : Lexical} {s : Scopes} (h : s.Hold P)
    (hs : Follows cx Γ s) {name : String} {ty : Ty} {v : Constant}
    (hlookup : s.lookup? name = some (.constant ty v)) : P name ⟨ty, some v⟩ := by
  rcases Scopes.lookup?_eq_some_iff.1 hlookup with hfind | ⟨-, houtermost⟩
  · unfold Scopes.Hold at h
    generalize s.inner = frames at h hfind
    induction frames with
    | nil => cases hfind
    | cons frame frames ih =>
      unfold Scopes.findFrame? at hfind
      cases hget : frame.get? name with
      | none =>
        rw [hget] at hfind
        exact ih (fun f hf => h f (List.mem_cons_of_mem _ hf)) hfind
      | some b =>
        rw [hget] at hfind
        cases hfind
        exact h frame List.mem_cons_self name ty v hget
  · obtain ⟨a, -, hb⟩ := hs.outermost houtermost
    cases hb

end Hold

/-! ## Values of names and members -/

/-- The value of a name or member that a step reads or assigns is the one injected under its
path. -/
theorem Step.resolve?_of_value {cx : Context} {Γ : Lexical} {s s' : Scopes} {ev : Event}
    (h : Step cx Γ s ev s') (hs : Follows cx Γ s)
    (hhold : s.Hold fun name a => cx.injections.resolve? name = some a) {e : TypedExpr}
    (he : ev.place? = some e) {v : Constant} (hv : e.ascription.value = some v) :
    ∃ path, e.path? = some path ∧ cx.injections.resolve? path = some e.ascription := by
  cases h with
  | enter => cases he
  | leave => cases he
  | declare => cases he
  | @readIdent name m ha =>
    cases he
    refine ⟨name, rfl, ?_⟩
    rcases Context.ident_eq_ok ha with ⟨-, hvalue⟩ | ⟨w, hlookup, hvalue⟩ | ⟨-, hresolve⟩ |
      ⟨-, -, hvalue, -⟩
    · cases hvalue.symm.trans hv
    · have hconstant := hhold.of_lookup? hs hlookup
      rw [← hvalue] at hconstant
      exact hconstant
    · exact hresolve
    · cases hvalue.symm.trans hv
  | readMember ha =>
    cases he
    rcases Context.member_eq_ok ha with ⟨path, hpath, hinjected⟩ | ⟨-, hvalue, -⟩
    · rcases (Context.injectedPath?_eq_some hinjected).2 with ⟨-, hvalue⟩ | ⟨-, hresolve⟩
      · cases hvalue.symm.trans hv
      · exact ⟨path, hpath, hresolve⟩
    · cases hvalue.symm.trans hv
  | assignIdent =>
    cases he
    cases hv
  | assignMember =>
    cases he
    cases hv

/-- A name or member of a typed function is met by a step of its trace. -/
theorem TypedFunction.exists_event {t : TypedFunction} {e : TypedExpr} (he : e ∈ t.exprs)
    (hplace : e.isPlace = true) :
    ∃ pre ev post, t.events = pre ++ ev :: post ∧ ev.place? = some e := by
  have hmem : e ∈ t.events.filterMap Event.place? :=
    t.places_perm.mem_iff.2 (List.mem_filter.2 ⟨he, hplace⟩)
  obtain ⟨ev, hev, hevplace⟩ := List.mem_filterMap.1 hmem
  obtain ⟨pre, post, hevents⟩ := List.append_of_mem hev
  exact ⟨pre, ev, post, hevents, hevplace⟩

/-- A name or member of a typed function is met by a step from scopes whose constants are those that
are injected. -/
theorem Function.exists_step {f : Function} {injections : Injections} {registry : Registry}
    {t : TypedFunction} (h : f.infer injections registry = .ok t) {e : TypedExpr}
    (he : e ∈ t.exprs) (hplace : e.isPlace = true) :
    ∃ Γ s ev s', Step (f.context injections registry) Γ s ev s' ∧
      Follows (f.context injections registry) Γ s ∧
      (s.Hold fun name a => injections.resolve? name = some a) ∧ ev.place? = some e := by
  obtain ⟨pre, ev, post, hevents, hevplace⟩ := TypedFunction.exists_event he hplace
  obtain ⟨s₀, s', hs₀, -, hstart, htrace⟩ := Function.infer_starts h
  have hhold₀ : s₀.Hold fun name a => injections.resolve? name = some a := by
    intro frame hframe name ty v hget
    obtain ⟨a, ha, hb⟩ := hstart frame hframe name _ hget
    unfold Binding.ofAscription at hb
    cases hvalue : a.value with
    | none =>
      rw [hvalue] at hb
      cases hb
    | some w =>
      rw [hvalue] at hb
      cases hb
      rw [ha, ← hvalue]
  rw [hevents] at htrace
  obtain ⟨s, hpre, hrest⟩ := htrace.split
  obtain ⟨hs, hhold⟩ : Follows (f.context injections registry) (t.lexicalAfter pre) s ∧
      s.Hold fun name a => injections.resolve? name = some a :=
    hpre.keeps (I := fun Γ s => Follows (f.context injections registry) Γ s ∧
        s.Hold fun name a => injections.resolve? name = some a)
      (fun hstep hI => ⟨hstep.follows hI.1, hstep.hold hI.1 hI.2⟩) ⟨hs₀, hhold₀⟩
  cases hrest with
  | cons hstep _ => exact ⟨_, s, ev, _, hstep, hs, hhold, hevplace⟩

/-- The value of a name or member is the one injected under its path. -/
theorem Function.resolve?_of_value {f : Function} {injections : Injections} {registry : Registry}
    {t : TypedFunction} (h : f.infer injections registry = .ok t) {e : TypedExpr}
    (he : e ∈ t.exprs) (hplace : e.isPlace = true) {v : Constant}
    (hv : e.ascription.value = some v) :
    ∃ path, e.path? = some path ∧ injections.resolve? path = some e.ascription := by
  obtain ⟨Γ, s, ev, s', hstep, hs, hhold, hevplace⟩ := Function.exists_step h he hplace
  exact hstep.resolve?_of_value hs hhold hevplace hv

/-! ## What holds of every ascription -/

/-- A property of ascriptions that operators pass on from the operands to the result, and that holds
wherever no value is known. -/
structure Ascription.Inherited (P : Ascription → Prop) : Prop where
  unknown : ∀ {a : Ascription}, a.value = none → P a
  binary : ∀ {op : BinaryOp} {left right a : Ascription} {span : Option Span},
    binaryAscription op left right span = .ok a → P left → P right → P a
  unary : ∀ {op : UnaryOp} {argument a : Ascription} {span : Option Span},
    unaryAscription op argument span = .ok a → P argument → P a

section Inherited

variable {P : Ascription → Prop}

/-- What holds of the injections holds of every name and member. -/
theorem Function.places_hold (hP : Ascription.Inherited P) {f : Function} {injections : Injections}
    {registry : Registry} {t : TypedFunction} (h : f.infer injections registry = .ok t)
    (hinjected : ∀ name a, injections.resolve? name = some a → P a) {e : TypedExpr}
    (he : e ∈ t.exprs) (hplace : e.isPlace = true) : P e.ascription := by
  cases hv : e.ascription.value with
  | none => exact hP.unknown hv
  | some v =>
    obtain ⟨path, -, hresolve⟩ := Function.resolve?_of_value h he hplace hv
    exact hinjected path _ hresolve

/-- What holds of the literals of an expression and of its names and members holds of the whole. -/
theorem ExprRun.ascription_holds (hP : Ascription.Inherited P) {cx : Context} {s s' : Scopes}
    {e : Expr} {t : TypedExpr} (h : ExprRun cx s e t s')
    (hliterals : ∀ l ∈ e.literals, P (Context.literal l))
    (hplaces : ∀ x ∈ t.all, x.isPlace = true → P x.ascription) : P t.ascription := by
  induction h using ExprRun.induct with
  | literal => exact hliterals _ (List.mem_singleton_self _)
  | ident _ => exact hplaces _ (TypedExpr.self_mem_all _) rfl
  | member _ _ _ => exact hplaces _ (TypedExpr.self_mem_all _) rfl
  | call => exact hP.unknown rfl
  | construct => exact hP.unknown rfl
  | binary _ _ ha ihl ihr =>
    rw [Expr.literals] at hliterals
    rw [TypedExpr.all] at hplaces
    refine hP.binary ha (ihl ?_ ?_) (ihr ?_ ?_)
    · exact fun l hl => hliterals l (List.mem_append_left _ hl)
    · exact fun x hx => hplaces x (List.mem_cons_of_mem _ (List.mem_append_left _ hx))
    · exact fun l hl => hliterals l (List.mem_append_right _ hl)
    · exact fun x hx => hplaces x (List.mem_cons_of_mem _ (List.mem_append_right _ hx))
  | logical => exact hP.unknown rfl
  | assignIdent => exact hP.unknown rfl
  | assignMember => exact hP.unknown rfl
  | conditional => exact hP.unknown rfl
  | unary _ ha ih =>
    rw [TypedExpr.all] at hplaces
    exact hP.unary ha (ih hliterals fun x hx => hplaces x (List.mem_cons_of_mem _ hx))

/-- What holds of the literals, of the injections and of every result whose operands satisfy it
holds of all expressions. -/
theorem Function.ascriptions_hold (hP : Ascription.Inherited P) {f : Function}
    {injections : Injections} {registry : Registry} {t : TypedFunction}
    (h : f.infer injections registry = .ok t)
    (hinjected : ∀ name a, injections.resolve? name = some a → P a)
    (hliterals : ∀ l ∈ f.literals, P (Context.literal l)) {e : TypedExpr} (he : e ∈ t.exprs) :
    P e.ascription := by
  cases (Function.infer_sourced h).derived e he with
  | run hrun hsubset =>
    refine hrun.ascription_holds hP (fun l hl => hliterals l (hsubset hl)) ?_
    intro x hx hplace
    have hmem : x ∈ t.exprs := TypedStmt.all_subset_exprsAll he x hx
    exact Function.places_hold hP h hinjected hmem hplace
  | target _ hvalue => exact hP.unknown hvalue

end Inherited

end Shader
