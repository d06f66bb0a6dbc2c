import Shader.Proofs.Event

/-!
# Lexical scopes

Along a trace the lexical scopes are known without any types: which variable a name stands for at
some point depends on the scopes that are open there and on the declarators completed before.
`Lexical.resolve` says which one it is: the variable of that name in the innermost scope that has
one, then a parameter.  Variables are numbered in the order of their declarations, so that two
variables of one name are told apart.
-/

namespace Shader

/-! ## Scopes and what names stand for -/

/-- A declared variable: its declarator, and how many were declared before it. -/
structure Variable where
  index : Nat
  declarator : TypedDeclarator

/-- What a name stands for. -/
inductive Site where
  | variable (v : Variable)
  | parameter
  /-- No variable and no parameter: an injection or a global. -/
  | free

/-- The lexical scopes at a point of a trace. -/
structure Lexical where
  params : List TypedParam
  /-- The variables declared so far in the open scopes, innermost scope and latest variable
  first. -/
  scopes : List (List Variable)
  /-- The number of variables declared so far. -/
  count : Nat

namespace Lexical

/-- The lexical scopes before the body of a function. -/
def initial (params : List TypedParam) : Lexical := ⟨params, [], 0⟩

/-- The lexical scopes after an event. -/
def after (Γ : Lexical) : Event → Lexical
  | .enter => { Γ with scopes := [] :: Γ.scopes }
  | .leave => { Γ with scopes := Γ.scopes.tail }
  | .declare d =>
    { Γ with
      scopes := (⟨Γ.count, d⟩ :: Γ.scopes.headD []) :: Γ.scopes.tail
      count := Γ.count + 1 }
  | .read _ => Γ
  | .assign _ _ _ => Γ

/-- The lexical scopes after a stretch of a trace. -/
def run (Γ : Lexical) (events : List Event) : Lexical := events.foldl after Γ

/-- The variable of a name in one scope. -/
def find? (name : String) (scope : List Variable) : Option Variable :=
  scope.find? fun v => v.declarator.name == name

/-- What a name stands for, given the variables of the open scopes. -/
def resolveIn (params : List TypedParam) (name : String) : List (List Variable) → Site
  | [] => if params.any (fun p => p.name == name) then .parameter else .free
  | scope :: rest =>
    match find? name scope with
    | some v => .variable v
    | none => resolveIn params name rest

/-- What a name stands for: the variable of that name in the innermost open scope that has one, or
else a parameter. -/
def resolve (Γ : Lexical) (name : String) : Site := resolveIn Γ.params name Γ.scopes

end Lexical

/-- The lexical scopes after the first events of a function. -/
def TypedFunction.lexicalAfter (f : TypedFunction) (events : List Event) : Lexical :=
  (Lexical.initial f.params).run events

/-! ## Scopes along a trace -/

namespace Lexical

/-- Running one stretch after another. -/
@[simp] theorem run_append (Γ : Lexical) (xs ys : List Event) :
    Γ.run (xs ++ ys) = (Γ.run xs).run ys := by
  simp [run]

/-- Running an event and then the others. -/
@[simp] theorem run_cons (Γ : Lexical) (ev : Event) (evs : List Event) :
    Γ.run (ev :: evs) = (Γ.after ev).run evs := rfl

/-- Without events nothing changes. -/
@[simp] theorem run_nil (Γ : Lexical) : Γ.run [] = Γ := rfl

/-- Reading and assigning leave the lexical scopes alone. -/
theorem run_accesses (Γ : Lexical) {evs : List Event} (h : ∀ ev ∈ evs, ev.isAccess = true) :
    Γ.run evs = Γ := by
  induction evs with
  | nil => rfl
  | cons ev evs ih =>
    have hev : Γ.after ev = Γ := by
      have hac := h ev (List.mem_cons_self ..)
      cases ev with
      | read e => rfl
      | assign op target value => rfl
      | _ => cases hac
    rw [run_cons, hev]
    exact ih fun ev hev => h ev (List.mem_cons_of_mem _ hev)

/-- No variable is declared inside an expression. -/
@[simp] theorem run_exprEvents (Γ : Lexical) (e : TypedExpr) : Γ.run e.events = Γ :=
  run_accesses Γ fun _ => e.isAccess_of_mem_events

/-- The parameters stay the same. -/
@[simp] theorem params_run (Γ : Lexical) (evs : List Event) : (Γ.run evs).params = Γ.params := by
  induction evs generalizing Γ with
  | nil => rfl
  | cons ev evs ih =>
    rw [run_cons, ih]
    cases ev <;> rfl

/-- The variables in the open scopes have been declared along the way. -/
theorem mem_scopes_run {Γ : Lexical} {evs : List Event} {v : Variable}
    (h : v ∈ (Γ.run evs).scopes.flatten) :
    v ∈ Γ.scopes.flatten ∨ Event.declare v.declarator ∈ evs := by
  induction evs generalizing Γ with
  | nil => exact .inl h
  | cons ev evs ih =>
    rcases ih h with h | h
    · cases ev with
      | enter => exact .inl h
      | leave =>
        obtain ⟨scope, hscope, hv⟩ := List.mem_flatten.1 h
        exact .inl (List.mem_flatten.2 ⟨scope, List.mem_of_mem_tail hscope, hv⟩)
      | declare d =>
        rw [after, List.flatten_cons, List.cons_append, List.mem_cons] at h
        rcases h with rfl | h
        · exact .inr (List.mem_cons_self ..)
        · left
          cases hΓ : Γ.scopes with
          | nil => simp [hΓ] at h
          | cons scope scopes => simpa [hΓ] using h
      | read e => exact .inl h
      | assign op target value => exact .inl h
    · exact .inr (List.mem_cons_of_mem _ h)

/-- A name that is not free is that of a variable in the open scopes or of a parameter. -/
theorem mem_of_resolve_ne_free {Γ : Lexical} {name : String} (h : Γ.resolve name ≠ .free) :
    (∃ v ∈ Γ.scopes.flatten, v.declarator.name = name) ∨ ∃ p ∈ Γ.params, p.name = name := by
  unfold resolve at h
  induction hΓ : Γ.scopes generalizing Γ with
  | nil =>
    rw [hΓ, resolveIn] at h
    split at h
    · rename_i hany
      obtain ⟨p, hp, hname⟩ := List.any_eq_true.1 hany
      exact .inr ⟨p, hp, by simpa using hname⟩
    · exact absurd rfl h
  | cons scope scopes ih =>
    rw [hΓ, resolveIn] at h
    cases hv : find? name scope with
    | some v =>
      refine .inl ⟨v, ?_, by simpa using List.find?_some hv⟩
      exact List.mem_append_left _ (List.mem_of_find?_eq_some hv)
    | none =>
      rw [hv] at h
      rcases ih (Γ := ⟨Γ.params, scopes, 0⟩) h rfl with ⟨v, hv, hname⟩ | hparam
      · exact .inl ⟨v, List.mem_append_right _ hv, hname⟩
      · exact .inr hparam

/-- `Grows Γ Γ' ds`: from `Γ` to `Γ'` only the innermost scope has changed, and all it has gained
are the declarators `ds`. -/
structure Grows (Γ Γ' : Lexical) (ds : List TypedDeclarator) : Prop where
  ne_nil : Γ.scopes ≠ [] → Γ'.scopes ≠ []
  tail_eq : Γ'.scopes.tail = Γ.scopes.tail
  head_mem : ∀ v ∈ Γ'.scopes.headD [], v ∈ Γ.scopes.headD [] ∨ v.declarator ∈ ds

/-- One stretch after another. -/
theorem Grows.trans {Γ₁ Γ₂ Γ₃ : Lexical} {ds es : List TypedDeclarator} (h : Grows Γ₁ Γ₂ ds)
    (h' : Grows Γ₂ Γ₃ es) : Grows Γ₁ Γ₃ (ds ++ es) where
  ne_nil hΓ := h'.ne_nil (h.ne_nil hΓ)
  tail_eq := h'.tail_eq.trans h.tail_eq
  head_mem v hv := by
    rcases h'.head_mem v hv with hv | hv
    · rcases h.head_mem v hv with hv | hv
      · exact .inl hv
      · exact .inr (List.mem_append_left _ hv)
    · exact .inr (List.mem_append_right _ hv)

/-- Scopes that are the same have gained nothing. -/
theorem Grows.of_eq {Γ Γ' : Lexical} (h : Γ'.scopes = Γ.scopes) : Grows Γ Γ' [] where
  ne_nil hΓ := h ▸ hΓ
  tail_eq := by rw [h]
  head_mem v hv := .inl (h ▸ hv)

/-- A scope that was opened is gone when it is closed. -/
theorem scopes_run_block {Γ : Lexical} {evs : List Event} {ds : List TypedDeclarator}
    (h : Grows (Γ.after .enter) ((Γ.after .enter).run evs) ds) :
    (Γ.run (.enter :: (evs ++ [.leave]))).scopes = Γ.scopes := by
  rw [run_cons, run_append]
  exact h.tail_eq

/-- Declarators are declared in the innermost scope. -/
theorem grows_declarators (Γ : Lexical) (ds : List TypedDeclarator) :
    Grows Γ (Γ.run (ds.flatMap TypedDeclarator.events)) ds := by
  induction ds generalizing Γ with
  | nil => exact .of_eq rfl
  | cons d ds ih =>
    have hinit : Γ.run (d.init.elim [] TypedExpr.events) = Γ := by
      cases d.init with
      | none => rfl
      | some e => exact run_exprEvents Γ e
    have hd : Grows Γ (Γ.run d.events) [d] := by
      rw [TypedDeclarator.events, run_append, hinit]
      refine ⟨fun _ => List.cons_ne_nil _ _, rfl, ?_⟩
      intro v hv
      rcases List.mem_cons.1 hv with rfl | hv
      · exact .inr (List.mem_singleton_self d)
      · exact .inl hv
    rw [List.flatMap_cons, run_append]
    exact hd.trans (ih _)

mutual

/-- The variables that a statement leaves behind are those it declares itself. -/
theorem grows_events (Γ : Lexical) : ∀ t : TypedStmt, Grows Γ (Γ.run t.events) t.declarators
  | .declare ds => by
    rw [TypedStmt.events]
    exact grows_declarators Γ ds
  | .expr e => by
    rw [TypedStmt.events, run_exprEvents]
    exact .of_eq rfl
  | .ret none => .of_eq rfl
  | .ret (some e) => by
    rw [TypedStmt.events, run_exprEvents]
    exact .of_eq rfl
  | .branch test consequent none => by
    rw [TypedStmt.events, run_append, run_exprEvents]
    exact .of_eq (scopes_run_block (grows_eventsAll _ consequent))
  | .branch test consequent (some alternate) => by
    rw [TypedStmt.events, run_append, run_exprEvents, run_append]
    refine .of_eq ?_
    rw [scopes_run_block (grows_eventsAll _ alternate),
      scopes_run_block (grows_eventsAll _ consequent)]
  | .block body => by
    rw [TypedStmt.events]
    exact .of_eq (scopes_run_block (grows_eventsAll _ body))

/-- The variables that statements leave behind are those they declare themselves. -/
theorem grows_eventsAll (Γ : Lexical) : ∀ body : List TypedStmt,
    Grows Γ (Γ.run (TypedStmt.eventsAll body)) (body.flatMap TypedStmt.declarators)
  | [] => .of_eq rfl
  | t :: rest => by
    rw [TypedStmt.eventsAll, run_append, List.flatMap_cons]
    exact (grows_events Γ t).trans (grows_eventsAll _ rest)

end

end Lexical

/-- A name that is not free at some point of a trace is declared in it or the name of a
parameter. -/
theorem TypedFunction.declared_of_resolve_ne_free {t : TypedFunction} {pre post : List Event}
    (hevents : t.events = pre ++ post) {name : String}
    (h : (t.lexicalAfter pre).resolve name ≠ .free) :
    (∃ d, Event.declare d ∈ t.events ∧ d.name = name) ∨ ∃ p ∈ t.params, p.name = name := by
  rcases Lexical.mem_of_resolve_ne_free h with ⟨v, hv, hname⟩ | ⟨p, hp, hname⟩
  · left
    rcases Lexical.mem_scopes_run hv with hv | hv
    · cases hv
    · refine ⟨v.declarator, ?_, hname⟩
      rw [hevents]
      exact List.mem_append_left _ hv
  · right
    have hparams : (t.lexicalAfter pre).params = t.params := Lexical.params_run _ _
    exact ⟨p, hparams ▸ hp, hname⟩

end Shader
