import Shader.Proofs.Derivation
import Shader.Syntax.Bare

/-!
# Relevant injections

Inference asks the injections about a name, about a path, and whether anything is injected below one
of them.  A path starts with a name of the function, so that every key it asks about is an
identifier of the function or a path below one.  `Injections.AgreeAt` says that two tables of
injections are the same for such keys, and `Function.infer_eq_of_agree` that inference then gives
the same result with both: the same typed tree, or the same error at the same place.

The two runs go through the same states, so they are compared as functions of the state.
-/

namespace Shader

/-! ## Identifiers -/

namespace Expr

mutual

/-- The identifiers of an expression.  The property of a member is none. -/
def idents : Expr → List String
  | .literal _ _ => []
  | .ident name _ => [name]
  | .member object _ _ => object.idents
  | .index object i _ => object.idents ++ i.idents
  | .call callee args _ => callee.idents ++ identsArgs args
  | .construct callee args _ => callee.idents ++ identsArgs args
  | .binary _ left right _ => left.idents ++ right.idents
  | .logical _ left right _ => left.idents ++ right.idents
  | .assign _ target value _ => target.idents ++ value.idents
  | .conditional test consequent alternate _ =>
    test.idents ++ (consequent.idents ++ alternate.idents)
  | .unary _ argument _ => argument.idents
  | .unsupported _ _ => []

/-- The identifiers of arguments. -/
def identsArgs : List Expr → List String
  | [] => []
  | e :: rest => e.idents ++ identsArgs rest

end

end Expr

/-- The identifiers of a declarator: the name that it declares, and those of its initializer. -/
def Declarator.idents (d : Declarator) : List String := d.name.name :: d.init.elim [] Expr.idents

namespace Stmt

mutual

/-- The identifiers of a statement. -/
def idents : Stmt → List String
  | .declare ds _ => ds.flatMap Declarator.idents
  | .expr e _ => e.idents
  | .ret none _ => []
  | .ret (some e) _ => e.idents
  | .branch test consequent none _ => test.idents ++ consequent.idents
  | .branch test consequent (some alternate) _ =>
    test.idents ++ (consequent.idents ++ alternate.idents)
  | .block body _ => identsAll body
  | .unsupported _ _ => []

/-- The identifiers of statements. -/
def identsAll : List Stmt → List String
  | [] => []
  | s :: rest => s.idents ++ identsAll rest

end

end Stmt

/-- The identifiers of a function: its parameters, the names it declares, and those of its
expressions. -/
def Function.idents (f : Function) : List String :=
  f.params.map (·.name) ++ Stmt.identsAll f.body

/-! ## Injections that agree -/

/-- A table holds a value under each of its names. -/
theorem Table.mem_names_iff {α : Type} {t : Table α} {name : String} :
    name ∈ t.names ↔ (t.get? name).isSome = true := by
  unfold Table.names Table.get?
  induction t.entries with
  | nil => simp [Table.find?]
  | cons pair rest ih =>
    obtain ⟨key, value⟩ := pair
    by_cases hkey : key = name
    · simp [Table.find?, hkey]
    · have hne : name ≠ key := fun h => hkey h.symm
      simpa [Table.find?, hkey, hne] using ih

namespace Injections

/-- Something is injected below a root when some key below it has an entry. -/
theorem hasMembers_iff {m : Injections} {root : String} :
    m.hasMembers root = true ↔ ∃ key, isBelow root key = true ∧ (m.get? key).isSome = true := by
  unfold hasMembers
  rw [List.any_eq_true]
  constructor
  · rintro ⟨key, hkey, hbelow⟩
    exact ⟨key, hbelow, Table.mem_names_iff.1 hkey⟩
  · rintro ⟨key, hbelow, hkey⟩
    exact ⟨key, Table.mem_names_iff.2 hkey, hbelow⟩

/-- A key is below a root when it continues it with a dot. -/
theorem isBelow_iff {root key : String} :
    isBelow root key = true ↔ ∃ rest, key.toList = root.toList ++ '.' :: rest := by
  unfold isBelow
  rw [List.isPrefixOf_iff_prefix]
  constructor
  · rintro ⟨rest, hrest⟩
    exact ⟨rest, by rw [← hrest, List.append_assoc, List.singleton_append]⟩
  · rintro ⟨rest, hrest⟩
    exact ⟨rest, by rw [hrest, List.append_assoc, List.singleton_append]⟩

theorem isBelow_trans {a b c : String} (hab : isBelow a b = true) (hbc : isBelow b c = true) :
    isBelow a c = true := by
  obtain ⟨xs, hb⟩ := isBelow_iff.1 hab
  obtain ⟨ys, hc⟩ := isBelow_iff.1 hbc
  refine isBelow_iff.2 ⟨xs ++ '.' :: ys, ?_⟩
  rw [hc, hb, List.append_assoc, List.cons_append]

theorem isBelow_member (path property : String) :
    isBelow path (path ++ "." ++ property) = true := by
  refine isBelow_iff.2 ⟨property.toList, ?_⟩
  rw [String.toList_append, String.toList_append, List.append_assoc]
  rfl

/-- `AgreeAt m₁ m₂ name`: the two tables have the same entries under a name and below it. -/
def AgreeAt (m₁ m₂ : Injections) (name : String) : Prop :=
  ∀ key, key = name ∨ isBelow name key = true → m₁.get? key = m₂.get? key

/-- What agrees at a name agrees at the paths below it. -/
theorem AgreeAt.below {m₁ m₂ : Injections} {name path : String} (h : AgreeAt m₁ m₂ name)
    (hpath : isBelow name path = true) : AgreeAt m₁ m₂ path := by
  rintro key (rfl | hkey)
  · exact h key (.inr hpath)
  · exact h key (.inr (isBelow_trans hpath hkey))

/-- An entry under a key that is neither a name nor below it makes no difference there. -/
theorem agreeAt_insert {m : Injections} {name key : String} (hne : key ≠ name)
    (hbelow : isBelow name key = false) (a : Ascription) : AgreeAt (m.insert key a) m name := by
  intro other hother
  have hkey : other ≠ key := by
    rintro rfl
    rcases hother with rfl | hother
    · exact hne rfl
    · rw [hbelow] at hother
      cases hother
  exact Table.get?_insert_of_ne m hkey a

/-- Tables that agree at a name have the same keys below it. -/
theorem AgreeAt.hasMembers_eq {m₁ m₂ : Injections} {name : String} (h : AgreeAt m₁ m₂ name) :
    m₁.hasMembers name = m₂.hasMembers name := by
  rw [Bool.eq_iff_iff, hasMembers_iff, hasMembers_iff]
  apply exists_congr
  intro key
  apply and_congr_right
  intro hbelow
  rw [h key (.inr hbelow)]

/-- Tables that agree at a name resolve it alike. -/
theorem AgreeAt.resolve?_eq {m₁ m₂ : Injections} {name : String} (h : AgreeAt m₁ m₂ name) :
    m₁.resolve? name = m₂.resolve? name := by
  unfold resolve?
  rw [h name (.inl rfl), h.hasMembers_eq]

end Injections

/-- A path starts with an identifier of its chain. -/
theorem Expr.path?_below : ∀ {e : Expr} {path : String}, e.path? = some path →
    ∃ root ∈ e.idents, path = root ∨ Injections.isBelow root path = true
  | .ident name _, path, h => by
    obtain rfl := Option.some.inj h
    exact ⟨name, List.mem_singleton_self _, .inl rfl⟩
  | .member object property _, path, h => by
    obtain ⟨before, hbefore, rfl⟩ := Option.map_eq_some_iff.1 h
    obtain ⟨root, hroot, hpath⟩ := path?_below hbefore
    have hbelow := Injections.isBelow_member before property.name
    refine ⟨root, hroot, .inr ?_⟩
    rcases hpath with rfl | hpath
    · exact hbelow
    · exact Injections.isBelow_trans hpath hbelow

/-! ## Steps of inference -/

namespace Context

section Agree

variable {registry : Registry} {params : List String} {m₁ m₂ : Injections}

/-- A name is looked up alike. -/
theorem ident_eq {name : String} (h : m₁.AgreeAt m₂ name) (s : Scopes) (span : Option Span) :
    ident ⟨registry, m₁, params⟩ s name span = ident ⟨registry, m₂, params⟩ s name span := by
  unfold ident
  rw [h.resolve?_eq]

/-- A path is looked up alike. -/
theorem injectedPath?_eq {path : String} (h : m₁.AgreeAt m₂ path) (s : Scopes) :
    injectedPath? ⟨registry, m₁, params⟩ s path = injectedPath? ⟨registry, m₂, params⟩ s path := by
  have hinjectable : isInjectable ⟨registry, m₁, params⟩ s path =
      isInjectable ⟨registry, m₂, params⟩ s path := rfl
  unfold injectedPath?
  rw [hinjectable, h.resolve?_eq]

/-- A member is looked up alike when its path is. -/
theorem member_eq {path : Option String} (h : ∀ p, path = some p → m₁.AgreeAt m₂ p) (s : Scopes)
    (object : Ty) (property : Ident) (span : Option Span) :
    member ⟨registry, m₁, params⟩ s path object property span =
      member ⟨registry, m₂, params⟩ s path object property span := by
  unfold member
  cases path with
  | none => rfl
  | some p =>
    rw [Option.bind_some, Option.bind_some, injectedPath?_eq (h p rfl)]

/-- A name is assigned alike. -/
theorem assignIdent_eq {name : String} (h : m₁.AgreeAt m₂ name) (s : Scopes) (op : AssignOp)
    (targetSpan : Option Span) (value : Ty) (span : Option Span) :
    assignIdent ⟨registry, m₁, params⟩ s op name targetSpan value span =
      assignIdent ⟨registry, m₂, params⟩ s op name targetSpan value span := by
  unfold assignIdent
  rw [h.resolve?_eq]

/-- An assignment does the same when its target is inferred alike. -/
theorem assign_eq {target : Expr} (h : ∀ name ∈ target.idents, m₁.AgreeAt m₂ name)
    (op : AssignOp) {place₁ place₂ : Infer TypedExpr} (hplace : place₁ = place₂)
    (value : TypedExpr) (span : Option Span) :
    assign ⟨registry, m₁, params⟩ op target place₁ value span =
      assign ⟨registry, m₂, params⟩ op target place₂ value span := by
  subst hplace
  cases target with
  | ident name targetSpan =>
    have hname : m₁.AgreeAt m₂ name := h name (List.mem_singleton_self _)
    unfold assign
    simp only [assignIdent_eq hname]
  | _ => rfl

mutual

/-- An expression is inferred alike from any state. -/
theorem expr_eq : ∀ {e : Expr}, (∀ name ∈ e.idents, m₁.AgreeAt m₂ name) →
    expr ⟨registry, m₁, params⟩ e = expr ⟨registry, m₂, params⟩ e
  | .literal _ _, _ => rfl
  | .ident name span, h => by
    have hname : m₁.AgreeAt m₂ name := h name (List.mem_singleton_self _)
    rw [expr, expr]
    simp only [ident_eq hname]
  | .member object property span, h => by
    -- The key that is looked up is the path, which no identifier spells: it is below the first.
    have hpath : ∀ p, (Expr.member object property span).path? = some p → m₁.AgreeAt m₂ p := by
      intro p hp
      obtain ⟨root, hroot, rfl | hbelow⟩ := Expr.path?_below hp
      · exact h p hroot
      · exact (h root hroot).below hbelow
    have hobject : ∀ name ∈ object.idents, m₁.AgreeAt m₂ name := h
    rw [expr, expr, expr_eq hobject]
    simp only [member_eq hpath]
  | .index _ _ _, _ => by rw [expr, expr]
  | .call callee args span, h => by
    rw [Expr.idents, List.forall_mem_append] at h
    rw [expr, expr, expr_eq h.1, exprs_eq h.2]
  | .construct (.ident name nameSpan) args span, h => by
    rw [Expr.idents, List.forall_mem_append] at h
    have hentry : constructible ⟨registry, m₁, params⟩ = constructible ⟨registry, m₂, params⟩ := rfl
    rw [expr, expr, exprs_eq h.2, hentry]
  -- What is constructed must be named: any other callee is refused before anything is inferred.
  | .construct (.literal _ _) _ _, _ | .construct (.member _ _ _) _ _, _
  | .construct (.index _ _ _) _ _, _ | .construct (.call _ _ _) _ _, _
  | .construct (.construct _ _ _) _ _, _ | .construct (.binary _ _ _ _) _ _, _
  | .construct (.logical _ _ _ _) _ _, _ | .construct (.assign _ _ _ _) _ _, _
  | .construct (.conditional _ _ _ _) _ _, _ | .construct (.unary _ _ _) _ _, _
  | .construct (.unsupported _ _) _ _, _ => by
    rw [expr, expr]
    all_goals simp
  | .binary op left right span, h => by
    rw [Expr.idents, List.forall_mem_append] at h
    rw [expr, expr, expr_eq h.1, expr_eq h.2]
  | .logical op left right span, h => by
    rw [Expr.idents, List.forall_mem_append] at h
    rw [expr, expr, expr_eq h.1, expr_eq h.2]
  | .assign op target value span, h => by
    rw [Expr.idents, List.forall_mem_append] at h
    rw [expr, expr, expr_eq h.2]
    simp only [assign_eq h.1 op (expr_eq h.1)]
  | .conditional test consequent alternate span, h => by
    rw [Expr.idents, List.forall_mem_append, List.forall_mem_append] at h
    rw [expr, expr, expr_eq h.1, expr_eq h.2.1, expr_eq h.2.2]
  | .unary op argument span, h => by
    rw [Expr.idents] at h
    rw [expr, expr, expr_eq h]
  | .unsupported _ _, _ => by rw [expr, expr]

/-- Arguments are inferred alike. -/
theorem exprs_eq : ∀ {es : List Expr}, (∀ name ∈ Expr.identsArgs es, m₁.AgreeAt m₂ name) →
    exprs ⟨registry, m₁, params⟩ es = exprs ⟨registry, m₂, params⟩ es
  | [], _ => by rw [exprs, exprs]
  | e :: rest, h => by
    rw [Expr.identsArgs, List.forall_mem_append] at h
    rw [exprs, exprs, expr_eq h.1, exprs_eq h.2]

end

/-- A declarator is inferred alike. -/
theorem declarator_eq {d : Declarator} (h : ∀ name ∈ d.idents, m₁.AgreeAt m₂ name) :
    declarator ⟨registry, m₁, params⟩ d = declarator ⟨registry, m₂, params⟩ d := by
  obtain ⟨name, init, span⟩ := d
  rw [Declarator.idents, List.forall_mem_cons] at h
  unfold declarator
  cases init with
  | some e =>
    have he : ∀ name ∈ e.idents, m₁.AgreeAt m₂ name := h.2
    simp only [expr_eq he]
  | none => simp only [h.1 name.name (.inl rfl)]

/-- Declarators are inferred alike. -/
theorem declarators_eq {ds : List Declarator}
    (h : ∀ name ∈ ds.flatMap Declarator.idents, m₁.AgreeAt m₂ name) :
    declarators ⟨registry, m₁, params⟩ ds = declarators ⟨registry, m₂, params⟩ ds := by
  induction ds with
  | nil => rfl
  | cons d rest ih =>
    rw [List.flatMap_cons, List.forall_mem_append] at h
    rw [declarators, declarators, declarator_eq h.1, ih h.2]

mutual

/-- A statement is inferred alike. -/
theorem stmt_eq (st : Stmt) (h : ∀ name ∈ st.idents, m₁.AgreeAt m₂ name) :
    stmt ⟨registry, m₁, params⟩ st = stmt ⟨registry, m₂, params⟩ st := by
  match st with
  | .declare ds span =>
    rw [Stmt.idents] at h
    rw [stmt, stmt, declarators_eq h]
  | .expr e span =>
    rw [Stmt.idents] at h
    rw [stmt, stmt, expr_eq h]
  | .ret none span => rw [stmt, stmt]
  | .ret (some e) span =>
    rw [Stmt.idents] at h
    rw [stmt, stmt, expr_eq h]
  | .branch test consequent none span =>
    rw [Stmt.idents, List.forall_mem_append] at h
    rw [stmt, stmt, expr_eq h.1, branchBody_eq consequent h.2]
  | .branch test consequent (some alternate) span =>
    rw [Stmt.idents, List.forall_mem_append, List.forall_mem_append] at h
    rw [stmt, stmt, expr_eq h.1, branchBody_eq consequent h.2.1]
    simp only [branchBody_eq alternate h.2.2]
  | .block body span =>
    rw [Stmt.idents] at h
    rw [stmt, stmt, stmts_eq body h]
  | .unsupported _ _ => rw [stmt, stmt]
termination_by (sizeOf st, 0)

/-- A branch is inferred alike, in braces or not. -/
theorem branchBody_eq (st : Stmt) (h : ∀ name ∈ st.idents, m₁.AgreeAt m₂ name) :
    branchBody ⟨registry, m₁, params⟩ st (stmt ⟨registry, m₁, params⟩ st) =
      branchBody ⟨registry, m₂, params⟩ st (stmt ⟨registry, m₂, params⟩ st) := by
  rw [stmt_eq st h]
  cases st with
  | block body span =>
    rw [Stmt.idents] at h
    rw [branchBody, branchBody, stmts_eq body h]
  | _ =>
    rw [branchBody, branchBody]
    all_goals simp
termination_by (sizeOf st, 1)

/-- Statements are inferred alike. -/
theorem stmts_eq (body : List Stmt) (h : ∀ name ∈ Stmt.identsAll body, m₁.AgreeAt m₂ name) :
    stmts ⟨registry, m₁, params⟩ body = stmts ⟨registry, m₂, params⟩ body := by
  match body with
  | [] => rw [stmts, stmts]
  | st :: rest =>
    rw [Stmt.identsAll, List.forall_mem_append] at h
    rw [stmts, stmts, stmt_eq st h.1, stmts_eq rest h.2]
termination_by (sizeOf body, 0)

end

end Agree

end Context

/-! ## Functions -/

namespace Function

variable {f : Function} {m₁ m₂ : Injections}

/-- The parameters are ascribed alike. -/
theorem ascribedParams_eq (h : ∀ param ∈ f.params, m₁.AgreeAt m₂ param.name) :
    f.ascribedParams m₁ = f.ascribedParams m₂ := by
  unfold ascribedParams
  generalize f.params = params at h ⊢
  induction params with
  | nil => rfl
  | cons param params ih =>
    rw [List.forall_mem_cons] at h
    have hparam : f.paramAscription m₁ param = f.paramAscription m₂ param := by
      unfold paramAscription
      rw [h.1.resolve?_eq]
    rw [List.mapM_cons, List.mapM_cons, hparam, ih h.2]

/-- Two tables of injections that hold the same under the identifiers of a function, and under the
paths below them, give it the same typed tree or the same error. -/
theorem infer_eq_of_agree (registry : Registry)
    (h : ∀ name ∈ f.idents, ∀ key, key = name ∨ Injections.isBelow name key = true →
      m₁.get? key = m₂.get? key) :
    f.infer m₁ registry = f.infer m₂ registry := by
  have hagree : ∀ name ∈ f.idents, m₁.AgreeAt m₂ name := h
  rw [idents, List.forall_mem_append, List.forall_mem_map] at hagree
  have hbody : (f.context m₁ registry).stmts f.body = (f.context m₂ registry).stmts f.body :=
    Context.stmts_eq f.body hagree.2
  unfold infer
  rw [ascribedParams_eq hagree.1]
  simp only [hbody]

end Function

namespace Sample

/-- Two members of free names. -/
def suns : Injections :=
  ⟨[("env.scale", ⟨.number, some (.number 0.5)⟩), ("sun.gain", .ofTy .number)]⟩

/-- The same, and a member of a longer name. -/
def moreSuns : Injections := suns.insert "environment.scale" (.ofTy .boolean)

/-- `function glow(env) { var k; k = env.scale; return k * sun.gain; }` -/
def glow : Function :=
  Bare.function "glow" ["env"] [
    Bare.declare [("k", none)],
    Bare.expr (Bare.assign .plain (Bare.ident "k") (Bare.member (Bare.ident "env") "scale")),
    Bare.ret (some (Bare.binary (.arithmetic .mul) (Bare.ident "k")
      (Bare.member (Bare.ident "sun") "gain")))]

/-- A member of `environment` means nothing to a function that has `env` only. -/
theorem glow_ignores_environment :
    (∀ name ∈ glow.idents, ∀ key, key = name ∨ Injections.isBelow name key = true →
      moreSuns.get? key = suns.get? key) ∧
    glow.infer moreSuns ⟨[]⟩ = glow.infer suns ⟨[]⟩ ∧ ∃ t, glow.infer suns ⟨[]⟩ = .ok t := by
  have hagree : ∀ name ∈ ["env", "k", "k", "env", "k", "sun"], moreSuns.AgreeAt suns name := by
    intro name hname
    have hkey : "environment.scale" ≠ name ∧
        Injections.isBelow name "environment.scale" = false := by
      revert name
      decide
    exact Injections.agreeAt_insert hkey.1 hkey.2 _
  exact ⟨hagree, Function.infer_eq_of_agree ⟨[]⟩ hagree, _, rfl⟩

end Sample

end Shader
