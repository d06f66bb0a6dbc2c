import Shader.Proofs.Agreement
import Shader.Proofs.Judgement
import Shader.Syntax.Bare

/-!
# Inferred trees are well typed

The typed tree of a function stands on its own: at every node the type follows from the types of the
parts by a rule of the language, whatever the scopes were when inference came by.  `Judged` lists
the rules, one or a few for each form of expression.  A declarator has the type of its initializer,
and the result of the function unifies the types of its returns in source order.

Names and members take their types from outside the tree, and for them the rules say from where;
that a variable has the type of its declarator is a theorem of its own.  Their rules are read off
the steps of the trace, those of all other nodes off the derivation.
-/

namespace Shader

/-! ## The rules -/

/-- `Judged registry injections bound e`: the type of the expression `e` is justified by the types
of its parts.  `bound` are the names of the parameters and variables of the function. -/
inductive Judged (registry : Registry) (injections : Injections) (bound : List String) :
    TypedExpr → Prop where
  | number {x : Float} {m : Mark} : m.ascription.ty.isNumeric = true →
      Judged registry injections bound (.literal (some (.number x)) m)
  | string {text : String} {m : Mark} : m.ascription.ty = .string →
      Judged registry injections bound (.literal (some (.string text)) m)
  | bool {b : Bool} {m : Mark} : m.ascription.ty = .boolean →
      Judged registry injections bound (.literal (some (.bool b)) m)
  | null {m : Mark} : m.ascription.ty = .undefined →
      Judged registry injections bound (.literal none m)
  | bound {name : String} {m : Mark} : name ∈ bound →
      Judged registry injections bound (.ident name m)
  | injected {name : String} {m : Mark} {a : Ascription} :
      injections.resolve? name = some a → m.ascription.ty = a.ty →
      Judged registry injections bound (.ident name m)
  | global {name : String} {m : Mark} : registry.global? name = some m.ascription.ty →
      Judged registry injections bound (.ident name m)
  | undefined {m : Mark} : m.ascription.ty = .undefined →
      Judged registry injections bound (.ident "undefined" m)
  | member {object : TypedExpr} {property : String} {m : Mark} {kind : Kind} :
      object.ty = .object kind → registry.memberTy? kind property = some m.ascription.ty →
      Judged registry injections bound (.member object property m)
  | path {object : TypedExpr} {property path : String} {m : Mark} {a : Ascription} :
      (TypedExpr.member object property m).path? = some path → injections.resolve? path = some a →
      m.ascription.ty = a.ty → Judged registry injections bound (.member object property m)
  -- A variable whose name has dots in it may be taken for a path.
  | dotted {object : TypedExpr} {property path : String} {m : Mark} :
      (TypedExpr.member object property m).path? = some path → path ∈ bound →
      Judged registry injections bound (.member object property m)
  | call {callee : TypedExpr} {args : List TypedExpr} {m : Mark} {signature : Signature} :
      callee.ty = signature.toTy → signature.Takes (args.map TypedExpr.ty) →
      m.ascription.ty = signature.result → Judged registry injections bound (.call callee args m)
  | construct {name : String} {args : List TypedExpr} {m : Mark} {entry : Entry} :
      registry.byName? name = some entry → entry.construction ≠ .none →
      (∀ signature, entry.construction = .typed signature →
        signature.Takes (args.map TypedExpr.ty)) →
      m.ascription.ty = .object entry.kind →
      Judged registry injections bound (.construct name args m)
  | arithmetic {op : ArithmeticOp} {left right : TypedExpr} {m : Mark} :
      left.ty.Combines right.ty m.ascription.ty →
      Judged registry injections bound (.binary (.arithmetic op) left right m)
  | comparison {op : ComparisonOp} {left right : TypedExpr} {m : Mark} :
      left.ty.isOperand = true → right.ty.isOperand = true → m.ascription.ty = .boolean →
      Judged registry injections bound (.binary (.comparison op) left right m)
  | logical {op : LogicalOp} {left right : TypedExpr} {m : Mark} :
      left.ty.Connects right.ty m.ascription.ty →
      Judged registry injections bound (.logical op left right m)
  | assign {op : AssignOp} {target value : TypedExpr} {m : Mark} :
      target.isPlace = true → target.ascription.value = none →
      Ty.Yields op target.ty value.ty m.ascription.ty → target.ty.Admits m.ascription.ty →
      ¬ (target.ty = .int ∧ m.ascription.ty = .number) →
      Judged registry injections bound (.assign op target value m)
  | conditional {test consequent alternate : TypedExpr} {m : Mark} :
      consequent.ty.Unifies alternate.ty m.ascription.ty →
      Judged registry injections bound (.conditional test consequent alternate m)
  | unary {op : UnaryOp} {argument : TypedExpr} {m : Mark} :
      Ty.Negates op argument.ty m.ascription.ty →
      Judged registry injections bound (.unary op argument m)

namespace TypedStmt

mutual

/-- The types that a statement returns, in source order. -/
def returns : TypedStmt → List Ty
  | .ret none => [.undefined]
  | .ret (some e) => [e.ty]
  | .branch _ consequent none => returnsAll consequent
  | .branch _ consequent (some alternate) => returnsAll consequent ++ returnsAll alternate
  | .block body => returnsAll body
  | _ => []

/-- The types that statements return. -/
def returnsAll : List TypedStmt → List Ty
  | [] => []
  | t :: rest => t.returns ++ returnsAll rest

end

end TypedStmt

namespace TypedFunction

/-- The types that a function returns, in source order. -/
def returns (f : TypedFunction) : List Ty := TypedStmt.returnsAll f.body

/-- The names of the parameters and variables of a function. -/
def boundNames (f : TypedFunction) : List String :=
  f.params.map (·.name) ++ f.declarations.map (·.name)

end TypedFunction

/-! ## Names and members -/

namespace Follows

variable {cx : Context} {Γ : Lexical} {s : Scopes} {bound : List String}

/-- What the scopes bind is a name of the function, or an injection with its type. -/
theorem origin (h : Follows cx Γ s) {name : String} {b : Binding} (hb : s.lookup? name = some b) :
    Γ.resolve name ≠ .free ∨ ∃ a, cx.injections.resolve? name = some a ∧ b = .typed a.ty := by
  by_cases hfree : Γ.resolve name = .free
  · rw [h.lookup?_of_free hfree] at hb
    exact .inr (h.outermost hb)
  · exact .inl hfree

/-- A name with the type it has in the scopes is justified. -/
theorem judged_ident (h : Follows cx Γ s) (hbound : ∀ name, Γ.resolve name ≠ .free → name ∈ bound)
    {name : String} {m : Mark} (hty : (s.lookup? name).bind Binding.ty? = some m.ascription.ty) :
    Judged cx.registry cx.injections bound (.ident name m) := by
  obtain ⟨b, hb, hty⟩ := Option.bind_eq_some_iff.1 hty
  rcases h.origin hb with hfree | ⟨a, ha, rfl⟩
  · exact .bound (hbound name hfree)
  · exact .injected ha (Option.some.inj hty).symm

/-- A member with the type that inference gives it is justified. -/
theorem judged_member (h : Follows cx Γ s) (hbound : ∀ name, Γ.resolve name ≠ .free → name ∈ bound)
    {object : TypedExpr} {property : String} {m m' : Mark} {propertySpan span : Option Span}
    {a : Ascription}
    (ha : cx.member s (TypedExpr.member object property m').path? object.ty ⟨property, propertySpan⟩
      span = .ok a)
    (hty : m.ascription.ty = a.ty) :
    Judged cx.registry cx.injections bound (.member object property m) := by
  rcases Context.member_eq_ok ha with ⟨p, hp, hpath⟩ | ⟨-, -, kind, hkind, hmember⟩
  · rcases (Context.injectedPath?_eq_some hpath).2 with ⟨hlookup, -⟩ | ⟨-, hresolve⟩
    · obtain ⟨b, hb, hb'⟩ := Option.bind_eq_some_iff.1 hlookup
      rcases h.origin hb with hfree | ⟨a', ha', rfl⟩
      · exact .dotted hp (hbound p hfree)
      · exact .path hp ha' (hty.trans (Option.some.inj hb').symm)
    · exact .path hp hresolve hty
  · exact .member hkind (hmember.trans (congrArg some hty.symm))

end Follows

/-- The name or member that a step reads or assigns is justified. -/
theorem Step.judged {cx : Context} {Γ : Lexical} {s s' : Scopes} {ev : Event} {bound : List String}
    (h : Step cx Γ s ev s') (hs : Follows cx Γ s)
    (hbound : ∀ name, Γ.resolve name ≠ .free → name ∈ bound) {e : TypedExpr}
    (he : ev.place? = some e) : Judged cx.registry cx.injections bound e := by
  have haccess := h.refines hs
  cases h with
  | enter => cases he
  | leave => cases he
  | declare => cases he
  | readIdent ha =>
    cases he
    rcases Context.ident_eq_ok ha with ⟨hlookup, -⟩ | ⟨v, hlookup, -⟩ | ⟨-, hresolve⟩ |
      ⟨-, -, -, hglobal | ⟨rfl, hty⟩⟩
    · exact hs.judged_ident hbound (by rw [hlookup]; rfl)
    · exact hs.judged_ident hbound (by rw [hlookup]; rfl)
    · exact .injected hresolve rfl
    · exact .global hglobal
    · exact .undefined hty
  | readMember ha =>
    cases he
    exact hs.judged_member hbound ha rfl
  | assignIdent ha =>
    cases he
    refine (hs.refine (haccess rfl)).judged_ident hbound ?_
    rw [(hs.assignIdent ha).2]
    rfl
  | assignMember ha _ =>
    cases he
    exact hs.judged_member hbound ha rfl

/-! ## All other nodes -/

/-- `JudgedParts cx bound es`: of the given expressions those that are no places are justified. -/
def JudgedParts (cx : Context) (bound : List String) (es : List TypedExpr) : Prop :=
  ∀ e ∈ es, e.isPlace = false → Judged cx.registry cx.injections bound e

namespace JudgedParts

variable {cx : Context} {bound : List String} {e : TypedExpr} {es fs : List TypedExpr}

/-- Nothing is to be justified. -/
theorem nil : JudgedParts cx bound [] := by
  intro e he
  cases he

/-- Two lists are justified when both are. -/
theorem append (h : JudgedParts cx bound es) (h' : JudgedParts cx bound fs) :
    JudgedParts cx bound (es ++ fs) := by
  intro e he
  rcases List.mem_append.1 he with he | he
  · exact h e he
  · exact h' e he

/-- A node that is justified may stand before justified parts. -/
theorem cons (he : Judged cx.registry cx.injections bound e) (h : JudgedParts cx bound es) :
    JudgedParts cx bound (e :: es) := by
  intro f hf hplace
  rcases List.mem_cons.1 hf with rfl | hf
  · exact he
  · exact h f hf hplace

/-- A place may stand before justified parts. -/
theorem consPlace (he : e.isPlace = true) (h : JudgedParts cx bound es) :
    JudgedParts cx bound (e :: es) := by
  intro f hf hplace
  rcases List.mem_cons.1 hf with rfl | hf
  · simp [he] at hplace
  · exact h f hf hplace

end JudgedParts

/-- The type of a literal is justified by its value. -/
theorem Context.judged_literal (registry : Registry) (injections : Injections) (bound : List String)
    (l : Literal) (span : Option Span) :
    Judged registry injections bound (.literal l.value ⟨Context.literal l, span⟩) := by
  cases hvalue : l.value with
  | none => exact .null (by simp [Context.literal, hvalue, Ascription.ofTy])
  | some c =>
    cases c with
    | number x =>
      refine .number ?_
      rw [Context.literal, hvalue]
      cases l.isIntegral <;> rfl
    | string text => exact .string (by simp [Context.literal, hvalue])
    | bool b => exact .bool (by simp [Context.literal, hvalue])

/-- Only the type of a method has a signature. -/
theorem Ty.signature?_eq_some {ty : Ty} {signature : Signature}
    (h : ty.signature? = some signature) : ty = signature.toTy := by
  cases ty with
  | function params required result =>
    obtain rfl := Option.some.inj h
    rfl
  | _ => cases h

/-- Arguments of a constructor satisfy its signature, where it has one. -/
theorem Context.checkConstruction_eq_ok {entry : Entry} {args : List TypedExpr} {span : Option Span}
    (h : Context.checkConstruction entry args span = .ok ()) {signature : Signature}
    (hsignature : entry.construction = .typed signature) :
    signature.Takes (args.map TypedExpr.ty) := by
  rw [Context.checkConstruction, hsignature] at h
  exact checkArguments_eq_ok_iff.1 h

/-- A binary expression with the type that inference gives it is justified. -/
theorem judged_binary {registry : Registry} {injections : Injections} {bound : List String}
    {op : BinaryOp} {left right : TypedExpr} {m : Mark} {span : Option Span}
    (h : binaryAscription op left.ascription right.ascription span = .ok m.ascription) :
    Judged registry injections bound (.binary op left right m) := by
  rcases binaryAscription_eq_ok h with ⟨hop, hty⟩ | ⟨hop, hleft, hright, hty⟩
  · cases op with
    | arithmetic op => exact .arithmetic hty
    | comparison op => cases hop
  · cases op with
    | arithmetic op => cases hop
    | comparison op => exact .comparison hleft hright hty

/-- An assignment to a place without value is justified when its check succeeds. -/
theorem judged_assign {registry : Registry} {injections : Injections} {bound : List String}
    {op : AssignOp} {target value : TypedExpr} {m : Mark} {name : String} {span : Option Span}
    (hplace : target.isPlace = true) (hvalue : target.ascription.value = none)
    (h : assignedTy op name target.ty value.ty span = .ok m.ascription.ty) :
    Judged registry injections bound (.assign op target value m) := by
  obtain ⟨hyields, hadmits, hnarrow⟩ := assignedTy_eq_ok_iff.1 h
  exact .assign hplace hvalue hyields hadmits hnarrow

/-- The nodes of arguments are justified when those of each are. -/
theorem Thread.judgedArgs {S : Type} {cx : Context} {bound : List String} {s s' : S}
    {es : List Expr} {ts : List TypedExpr}
    (h : Thread (fun _ _ t _ => JudgedParts cx bound t.all) s es ts s') :
    JudgedParts cx bound (TypedExpr.allArgs ts) := by
  induction h with
  | nil => exact .nil
  | cons ht _ ih => exact ht.append ih

/-- The nodes of an inferred expression are justified. -/
theorem ExprRun.judged {cx : Context} {s s' : Scopes} {e : Expr} {t : TypedExpr}
    (h : ExprRun cx s e t s') (bound : List String) : JudgedParts cx bound t.all := by
  induction h using ExprRun.induct with
  | literal => exact .cons (Context.judged_literal _ _ _ _ _) .nil
  | ident _ => exact .consPlace rfl .nil
  | member _ _ ih => exact .consPlace rfl ih
  | call _ hsignature _ hargs ihc ihargs =>
    have harguments := (ihargs.mono fun ⟨_, h⟩ => h).judgedArgs
    refine .cons ?_ (ihc.append harguments)
    exact .call (Ty.signature?_eq_some hsignature) (checkArguments_eq_ok_iff.1 hargs) rfl
  | construct hentry _ hargs ihargs =>
    obtain ⟨hname, hconstruction⟩ := Context.constructible_eq_ok hentry
    refine .cons ?_ (ihargs.mono fun ⟨_, h⟩ => h).judgedArgs
    refine .construct ?_ hconstruction (fun _ => Context.checkConstruction_eq_ok hargs) rfl
    rw [Registry.byName?_name hname]
    exact hname
  | binary _ _ ha ihl ihr => exact .cons (judged_binary ha) (ihl.append ihr)
  | logical _ _ hty ihl ihr =>
    exact .cons (.logical (logicalTy_eq_ok_iff.1 hty)) (ihl.append ihr)
  | assignIdent _ ha ihv =>
    refine .cons ?_ (.consPlace rfl ihv)
    rcases Context.assignIdent_eq_ok ha with ⟨-, hty, -⟩ | ⟨v, -, hty, -⟩ |
      ⟨-, rfl, rfl, rfl, -⟩ | ⟨-, hty, -⟩
    · exact judged_assign rfl rfl hty
    · exact judged_assign rfl rfl hty
    · -- A pending name takes the type of the value.
      refine .assign rfl rfl .plain .same ?_
      rintro ⟨hint, hnumber⟩
      cases hint.symm.trans hnumber
    · exact judged_assign rfl rfl hty
  | assignMember _ ht hty ihv iht =>
    -- Forgetting the value of the target changes neither its type nor its parts.
    cases ht with
    | member _ _ =>
      refine .cons (judged_assign rfl rfl hty) (JudgedParts.append ?_ ihv)
      exact .consPlace rfl fun e he => iht e (List.mem_cons_of_mem _ he)
  | conditional _ _ _ hty iht ihc iha =>
    exact .cons (.conditional (conditionalTy_eq_ok_iff.1 hty)) (iht.append (ihc.append iha))
  | unary _ ha ih => exact .cons (.unary (unaryAscription_eq_ok ha)) ih

/-! ## Statements -/

/-- Settling a statement changes neither its expressions nor its returns. -/
theorem Context.settleStmt_exprs {frame : Frame} {t t' : TypedStmt}
    (h : Context.settleStmt frame t = .ok t') : t'.exprs = t.exprs ∧ t'.returns = t.returns := by
  rcases Context.settleStmt_eq_ok h with ⟨ds, ds', rfl, rfl, hds⟩ | ⟨rfl, -⟩
  · have hforall := mapM_eq_ok_iff.1 hds
    have hinits : ds'.flatMap (fun d => (d.init.map TypedExpr.all).getD [])
        = ds.flatMap (fun d => (d.init.map TypedExpr.all).getD []) := by
      clear h hds
      induction hforall with
      | nil => rfl
      | cons hd _ ih =>
        obtain ⟨hd, -⟩ := Context.settleDeclarator_eq_ok hd
        rw [List.flatMap_cons, List.flatMap_cons, ih, hd]
    exact ⟨by rw [TypedStmt.exprs, TypedStmt.exprs, hinits], rfl⟩
  · exact ⟨rfl, rfl⟩

/-- Settling a block changes neither its expressions nor its returns. -/
theorem Context.settle_exprsAll {frame : Frame} {body body' : List TypedStmt}
    (h : Context.settle frame body = .ok body') :
    TypedStmt.exprsAll body' = TypedStmt.exprsAll body ∧
      TypedStmt.returnsAll body' = TypedStmt.returnsAll body := by
  have hforall := mapM_eq_ok_iff.1 h
  clear h
  induction hforall with
  | nil => exact ⟨rfl, rfl⟩
  | cons hs _ ih =>
    obtain ⟨hexprs, hreturns⟩ := Context.settleStmt_exprs hs
    constructor
    · rw [TypedStmt.exprsAll, TypedStmt.exprsAll, hexprs, ih.1]
    · rw [TypedStmt.returnsAll, TypedStmt.returnsAll, hreturns, ih.2]

/-- `Sound cx bound s t s'`: the nodes of `t` are justified, and from `s` to `s'` its returns are
noted. -/
structure Sound (cx : Context) (bound : List String) (s : InferState) (t : TypedStmt)
    (s' : InferState) : Prop where
  judged : JudgedParts cx bound t.exprs
  returns : s'.returns.map Prod.fst = s.returns.map Prod.fst ++ t.returns

/-- The nodes of initializers are justified. -/
theorem Thread.judgedDeclarators {cx : Context} {s s' : Scopes} {ds : List Declarator}
    {ts : List TypedDeclarator} (h : Thread (DeclaratorRun cx) s ds ts s') (bound : List String) :
    JudgedParts cx bound (ts.flatMap fun d => (d.init.map TypedExpr.all).getD []) := by
  induction h with
  | nil => exact .nil
  | cons hd _ ih =>
    rw [List.flatMap_cons]
    refine JudgedParts.append ?_ ih
    cases hd with
    | init he => exact he.judged bound
    | injected _ => exact .nil
    | pending _ => exact .nil

/-- Sound statements one after the other justify all their nodes and note all their returns. -/
theorem Thread.sound {cx : Context} {bound : List String} {s s' : InferState} {body : List Stmt}
    {ts : List TypedStmt} (h : Thread (fun s _ t s' => Sound cx bound s t s') s body ts s') :
    JudgedParts cx bound (TypedStmt.exprsAll ts) ∧
      s'.returns.map Prod.fst = s.returns.map Prod.fst ++ TypedStmt.returnsAll ts := by
  induction h with
  | nil => exact ⟨.nil, (List.append_nil _).symm⟩
  | cons hst _ ih =>
    refine ⟨hst.judged.append ih.1, ?_⟩
    rw [ih.2, hst.returns, List.append_assoc]
    rfl

/-- A block of sound statements is sound. -/
theorem BlockRun.sound {cx : Context} {bound : List String} {s s' : InferState} {body : List Stmt}
    {typed : List TypedStmt}
    (h : BlockRun (fun s _ t s' => Sound cx bound s t s') s body typed s') :
    JudgedParts cx bound (TypedStmt.exprsAll typed) ∧
      s'.returns.map Prod.fst = s.returns.map Prod.fst ++ TypedStmt.returnsAll typed := by
  obtain ⟨unsettled, inside, hthread, hsettle, rfl⟩ := h
  obtain ⟨hexprs, hreturns⟩ := Context.settle_exprsAll hsettle
  obtain ⟨hjudged, hnoted⟩ := hthread.sound
  rw [hexprs, hreturns]
  exact ⟨hjudged, hnoted⟩

/-- An inferred statement is sound. -/
theorem StmtRun.sound {cx : Context} {s s' : InferState} {st : Stmt} {t : TypedStmt}
    (h : StmtRun cx s st t s') (bound : List String) : Sound cx bound s t s' := by
  induction h using StmtRun.induct with
  | declare hds => exact ⟨hds.judgedDeclarators bound, (List.append_nil _).symm⟩
  | expr he => exact ⟨he.judged bound, (List.append_nil _).symm⟩
  | retNone => exact ⟨.nil, List.map_append⟩
  | retSome he => exact ⟨he.judged bound, List.map_append⟩
  | branch ht _ _ ihc =>
    obtain ⟨hcjudged, hcreturns⟩ := (ihc.mono fun ⟨_, h⟩ => h).sound
    exact ⟨(ht.judged bound).append hcjudged, hcreturns⟩
  | branchElse ht _ _ _ _ ihc iha =>
    obtain ⟨hcjudged, hcreturns⟩ := (ihc.mono fun ⟨_, h⟩ => h).sound
    obtain ⟨hajudged, hareturns⟩ := (iha.mono fun ⟨_, h⟩ => h).sound
    refine ⟨(ht.judged bound).append (hcjudged.append hajudged), ?_⟩
    rw [hareturns, hcreturns, List.append_assoc]
    rfl
  | block _ _ ih =>
    obtain ⟨hjudged, hreturns⟩ := (ih.mono fun ⟨_, h⟩ => h).sound
    exact ⟨hjudged, hreturns⟩

/-! ## Functions -/

/-- At any point of its trace, the names that are not free are those of the function. -/
theorem TypedFunction.mem_boundNames {t : TypedFunction} {pre post : List Event}
    (hevents : t.events = pre ++ post) {name : String}
    (h : (t.lexicalAfter pre).resolve name ≠ .free) : name ∈ t.boundNames := by
  rcases TypedFunction.declared_of_resolve_ne_free hevents h with ⟨d, hd, rfl⟩ | ⟨p, hp, rfl⟩
  · exact List.mem_append_right _ (List.mem_map_of_mem (t.mem_declarations_iff.1 hd))
  · exact List.mem_append_left _ (List.mem_map_of_mem hp)

/-- The typed tree of a function is well typed: the type of every node is justified by those of its
parts, a declarator has the type of its initializer, and the result unifies the returns. -/
theorem Function.infer_wellTyped {f : Function} {injections : Injections} {registry : Registry}
    {t : TypedFunction} (h : f.infer injections registry = .ok t) :
    (∀ e ∈ t.exprs, Judged registry injections t.boundNames e) ∧
    (∀ d ∈ t.declarations, ∀ e, d.init = some e → d.ascription = .ofTy e.ty) ∧
    Ty.Results t.returns t.result := by
  obtain ⟨hjudged, hresult⟩ : JudgedParts (f.context injections registry) t.boundNames t.exprs ∧
      Ty.Results t.returns t.result := by
    generalize t.boundNames = bound
    cases Function.infer_derives h with
    | mk _ hbody hresult =>
      obtain ⟨hjudged, hreturns⟩ := (hbody.mono fun h => h.sound bound).sound
      refine ⟨hjudged, ?_⟩
      have hresult := resultTy_eq_ok_iff.1 hresult
      rwa [hreturns] at hresult
  refine ⟨?_, ?_, hresult⟩
  · intro e he
    cases hplace : e.isPlace with
    | false => exact hjudged e he hplace
    | true =>
      -- A place is met by a step of the trace.
      have hmem : e ∈ t.events.filterMap Event.place? :=
        t.places_perm.mem_iff.2 (List.mem_filter.2 ⟨he, hplace⟩)
      obtain ⟨ev, hev, hevplace⟩ := List.mem_filterMap.1 hmem
      obtain ⟨pre, post, hevents⟩ := List.append_of_mem hev
      obtain ⟨s, s', hs, htrace⟩ := Function.infer_follows h hevents
      cases htrace with
      | cons hstep _ =>
        exact hstep.judged hs (fun name => TypedFunction.mem_boundNames hevents) hevplace
  · intro d hd e he
    obtain ⟨pre, post, hevents⟩ := List.append_of_mem (t.mem_declarations_iff.2 hd)
    obtain ⟨s, s', -, htrace⟩ := Function.infer_follows h hevents
    cases htrace with
    | cons hstep _ =>
      cases hstep with
      | declare _ hinit => exact hinit e he

namespace Sample

/-- A registry with one kind of objects, which has a field, a method and a constructor. -/
def registry : Registry :=
  ⟨[⟨"Color", .color, .typed (.withRequired (.exactly [.number, .number] (.object .color)) 1),
    ⟨[("r", .field .number), ("scale", .method (.exactly [.number] (.object .color)))]⟩⟩]⟩

/-- A number and an integer. -/
def numbers : Injections := ⟨[("k", .ofTy .number), ("n", .ofTy .int)]⟩

/-- `function lit(k, n) { var c = new Color(n, k); c.r += n;
return k > n ? c.scale(k * n) : c; }` -/
def lit : Function :=
  Bare.function "lit" ["k", "n"] [
    Bare.declare [("c", some (Bare.construct "Color" [Bare.ident "n", Bare.ident "k"]))],
    Bare.expr (Bare.assign (.compound .add) (Bare.member (Bare.ident "c") "r") (Bare.ident "n")),
    Bare.ret (some (Bare.conditional
      (Bare.binary (.comparison .gt) (Bare.ident "k") (Bare.ident "n"))
      (Bare.call (Bare.member (Bare.ident "c") "scale")
        [Bare.binary (.arithmetic .mul) (Bare.ident "k") (Bare.ident "n")])
      (Bare.ident "c")))]

/-- A function with a constructor, a method, a compound assignment and operators on a number and an
integer is well typed. -/
theorem lit_wellTyped : ∃ t, lit.infer numbers registry = .ok t ∧
    (∀ e ∈ t.exprs, Judged registry numbers t.boundNames e) ∧
    (∀ d ∈ t.declarations, ∀ e, d.init = some e → d.ascription = .ofTy e.ty) ∧
    Ty.Results t.returns t.result := by
  obtain ⟨t, h⟩ : ∃ t, lit.infer numbers registry = .ok t := ⟨_, rfl⟩
  exact ⟨t, h, Function.infer_wellTyped h⟩

end Sample

end Shader
