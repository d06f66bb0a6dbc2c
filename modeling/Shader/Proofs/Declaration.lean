import Shader.Proofs.Agreement
import Shader.Proofs.Erasure

/-!
# Declarations fit their uses

A variable has one type: every place that reads or assigns it is given the type of its declarator.
This is not plain from the way inference works.  A variable without initializer gets its type from
the first assignment, which may stand in a block deep inside its scope, and its declarator learns of
it only when the scope closes.

So the argument goes backwards.  When a scope closes, the types in its frame are those of its
declarators: an initializer gave the type, or the declarator settles with the frame.  A binding that
has a type never changes it, so wherever the frame had a type before, it was the same one
(`Step.agrees`).  A name that is declared again in the same scope would replace the binding, and is
excluded.
-/

namespace Shader

/-! ## Functions that declare their names once -/

namespace Stmt

/-- The names that a statement declares in the list it stands in. -/
def declared : Stmt → List String
  | .declare ds _ => ds.map (·.name.name)
  | _ => []

mutual

/-- Whether no list of statements inside a statement declares a name twice.  A branch without braces
is a list of its own. -/
def declaresOnce : Stmt → Bool
  | .branch _ consequent none _ => decide consequent.declared.Nodup && consequent.declaresOnce
  | .branch _ consequent (some alternate) _ =>
    (decide consequent.declared.Nodup && consequent.declaresOnce) &&
      (decide alternate.declared.Nodup && alternate.declaresOnce)
  | .block body _ => decide (body.flatMap declared).Nodup && declareOnce body
  | _ => true

/-- Whether no list of statements inside some statements declares a name twice. -/
def declareOnce : List Stmt → Bool
  | [] => true
  | s :: rest => s.declaresOnce && declareOnce rest

end

/-- The normal form of a statement declares the same names. -/
theorem declared_normalize (s : Stmt) : s.normalize.declared = s.declared := by
  cases s with
  | declare ds span => simp [normalize, declared, Declarator.normalize]
  | branch test consequent alternate span => cases alternate <;> rfl
  | _ => rfl

/-- A branch is a list of its own, in braces or not. -/
theorem declaresOnce_asBranch (s : Stmt) :
    (decide s.asBranch.declared.Nodup && s.asBranch.declaresOnce)
      = (decide s.declared.Nodup && s.declaresOnce) := by
  rw [Bool.eq_iff_iff, Bool.and_eq_true, Bool.and_eq_true, decide_eq_true_eq, decide_eq_true_eq]
  cases s with
  | block body span => simp [asBranch, branchBody, declaresOnce, declared]
  | _ => simp [asBranch, branchBody, declaresOnce, declareOnce, declared]

mutual

/-- A statement and its normal form have the same lists of statements. -/
theorem declaresOnce_normalize : ∀ s : Stmt, s.normalize.declaresOnce = s.declaresOnce
  | .declare _ _ => rfl
  | .expr _ _ => rfl
  | .ret _ _ => rfl
  | .branch test consequent none span => by
    rw [normalize, declaresOnce, declaresOnce, declaresOnce_asBranch, declared_normalize,
      declaresOnce_normalize consequent]
  | .branch test consequent (some alternate) span => by
    rw [normalize, declaresOnce, declaresOnce, declaresOnce_asBranch, declaresOnce_asBranch,
      declared_normalize, declared_normalize, declaresOnce_normalize consequent,
      declaresOnce_normalize alternate]
  | .block body span => by
    obtain ⟨hdeclared, honce⟩ := declareOnce_normalizeAll body
    rw [normalize, declaresOnce, declaresOnce, hdeclared, honce]
  | .unsupported _ _ => rfl

/-- Statements and their normal forms have the same lists of statements. -/
theorem declareOnce_normalizeAll : ∀ body : List Stmt,
    (normalizeAll body).flatMap declared = body.flatMap declared ∧
      declareOnce (normalizeAll body) = declareOnce body
  | [] => ⟨rfl, rfl⟩
  | s :: rest => by
    obtain ⟨hdeclared, honce⟩ := declareOnce_normalizeAll rest
    constructor
    · rw [normalizeAll, List.flatMap_cons, List.flatMap_cons, declared_normalize, hdeclared]
    · rw [normalizeAll, declareOnce, declareOnce, declaresOnce_normalize s, honce]

end

end Stmt

/-- Whether no list of statements of a function declares a name twice. -/
def Function.declaresOnce (f : Function) : Bool :=
  decide (f.body.flatMap Stmt.declared).Nodup && Stmt.declareOnce f.body

/-! ## Names that are declared once are fresh -/

namespace Lexical

/-- `Fresh Γ evs`: no event declares a name that its scope has already. -/
def Fresh : Lexical → List Event → Prop
  | _, [] => True
  | Γ, ev :: evs =>
    (∀ d, ev = .declare d → ∀ v ∈ Γ.scopes.headD [], v.declarator.name ≠ d.name) ∧
      Fresh (Γ.after ev) evs

/-- `Apart Γ ds`: the innermost scope has none of the names that `ds` declare. -/
def Apart (Γ : Lexical) (ds : List TypedDeclarator) : Prop :=
  ∀ d ∈ ds, ∀ v ∈ Γ.scopes.headD [], v.declarator.name ≠ d.name

/-- Two stretches are fresh when each is where it stands. -/
theorem fresh_append {Γ : Lexical} {xs ys : List Event} :
    Γ.Fresh (xs ++ ys) ↔ Γ.Fresh xs ∧ (Γ.run xs).Fresh ys := by
  induction xs generalizing Γ with
  | nil => simp [Fresh]
  | cons ev xs ih => simp [Fresh, ih, and_assoc]

/-- Reading and assigning declare nothing. -/
theorem fresh_accesses (Γ : Lexical) {evs : List Event} (h : ∀ ev ∈ evs, ev.isAccess = true) :
    Γ.Fresh evs := by
  induction evs generalizing Γ with
  | nil => trivial
  | cons ev evs ih =>
    refine ⟨?_, ih _ fun ev hev => h ev (List.mem_cons_of_mem _ hev)⟩
    rintro d rfl
    cases h _ (List.mem_cons_self ..)

/-- An expression declares nothing. -/
theorem fresh_exprEvents (Γ : Lexical) (e : TypedExpr) : Γ.Fresh e.events :=
  fresh_accesses Γ fun _ => e.isAccess_of_mem_events

/-- A block is fresh when its statements are in a scope of their own. -/
theorem fresh_block {Γ : Lexical} {evs : List Event} (h : (Γ.after .enter).Fresh evs) :
    Γ.Fresh (.enter :: (evs ++ [.leave])) := by
  refine ⟨by simp, fresh_append.2 ⟨h, ?_⟩⟩
  exact ⟨by simp, trivial⟩

/-- What is declared later is apart from what was declared before. -/
theorem Grows.apart {Γ Γ' : Lexical} {ds es : List TypedDeclarator} (h : Grows Γ Γ' ds)
    (hnodup : ((ds ++ es).map (·.name)).Nodup) (hapart : Γ.Apart (ds ++ es)) : Γ'.Apart es := by
  intro e he v hv
  rcases h.head_mem v hv with hv | hv
  · exact hapart e (List.mem_append_right _ he) v hv
  · rw [List.map_append, List.nodup_append] at hnodup
    exact hnodup.2.2 _ (List.mem_map_of_mem hv) _ (List.mem_map_of_mem he)

/-- Declarators of different names are fresh. -/
theorem fresh_declarators {Γ : Lexical} {ds : List TypedDeclarator}
    (hnodup : (ds.map (·.name)).Nodup) (hapart : Γ.Apart ds) :
    Γ.Fresh (ds.flatMap TypedDeclarator.events) := by
  induction ds generalizing Γ with
  | nil => trivial
  | cons d ds ih =>
    have hgrows : Grows Γ (Γ.run d.events) [d] := by
      simpa using grows_declarators Γ [d]
    have hinit : Γ.run (d.init.elim [] TypedExpr.events) = Γ ∧
        Γ.Fresh (d.init.elim [] TypedExpr.events) := by
      cases d.init with
      | none => exact ⟨rfl, trivial⟩
      | some e => exact ⟨run_exprEvents Γ e, fresh_exprEvents Γ e⟩
    rw [List.flatMap_cons]
    refine fresh_append.2 ⟨fresh_append.2 ⟨hinit.2, ?_⟩, ?_⟩
    · rw [hinit.1]
      refine ⟨?_, trivial⟩
      rintro d' hd'
      cases hd'
      exact hapart d (List.mem_cons_self ..)
    · exact ih (List.nodup_cons.1 hnodup).2 (hgrows.apart hnodup hapart)

end Lexical

namespace TypedStmt

/-- The names that a typed statement declares are those of its declarators. -/
theorem declared_erase (t : TypedStmt) : t.erase.declared = t.declarators.map (·.name) := by
  cases t with
  | declare ds => simp [erase, Stmt.declared, declarators, TypedDeclarator.erase]
  | branch test consequent alternate => cases alternate <;> rfl
  | _ => rfl

/-- The names that typed statements declare are those of their declarators. -/
theorem declared_eraseAll (body : List TypedStmt) :
    (eraseAll body).flatMap Stmt.declared = (body.flatMap declarators).map (·.name) := by
  induction body with
  | nil => rfl
  | cons t rest ih =>
    rw [eraseAll, List.flatMap_cons, List.flatMap_cons, List.map_append, declared_erase, ih]

mutual

/-- A statement that declares its names once is fresh where they are not declared. -/
theorem fresh_events {Γ : Lexical} : ∀ t : TypedStmt, t.erase.declaresOnce = true →
    (t.declarators.map (·.name)).Nodup → Γ.Apart t.declarators → Γ.Fresh t.events
  | .declare ds, _, hnodup, hapart => by
    rw [events]
    exact Lexical.fresh_declarators hnodup hapart
  | .expr e, _, _, _ => by
    rw [events]
    exact Lexical.fresh_exprEvents Γ e
  | .ret none, _, _, _ => trivial
  | .ret (some e), _, _, _ => by
    rw [events]
    exact Lexical.fresh_exprEvents Γ e
  | .branch test consequent none, honce, _, _ => by
    rw [erase, Stmt.declaresOnce, Bool.and_eq_true] at honce
    rw [events, Lexical.fresh_append]
    exact ⟨Lexical.fresh_exprEvents Γ test,
      Lexical.fresh_block (fresh_eventsAll consequent honce.2)⟩
  | .branch test consequent (some alternate), honce, _, _ => by
    rw [erase, Stmt.declaresOnce, Bool.and_eq_true, Bool.and_eq_true, Bool.and_eq_true] at honce
    rw [events, Lexical.fresh_append, Lexical.fresh_append]
    exact ⟨Lexical.fresh_exprEvents Γ test,
      Lexical.fresh_block (fresh_eventsAll consequent honce.1.2),
      Lexical.fresh_block (fresh_eventsAll alternate honce.2.2)⟩
  | .block body, honce, _, _ => by
    rw [erase] at honce
    rw [events]
    exact Lexical.fresh_block (fresh_eventsAll body honce)

/-- A list of statements that declares its names once is fresh in a scope of its own. -/
theorem fresh_eventsAll {Γ : Lexical} (body : List TypedStmt)
    (honce : (Stmt.block (eraseAll body) none).declaresOnce = true) :
    (Γ.after .enter).Fresh (eventsAll body) := by
  rw [Stmt.declaresOnce, Bool.and_eq_true, decide_eq_true_eq, declared_eraseAll] at honce
  refine fresh_eventsFrom body honce.2 honce.1 ?_
  intro d _ v hv
  cases hv

/-- The rest of a list of statements is fresh where its names are not declared. -/
theorem fresh_eventsFrom {Γ : Lexical} : ∀ body : List TypedStmt,
    Stmt.declareOnce (eraseAll body) = true → ((body.flatMap declarators).map (·.name)).Nodup →
    Γ.Apart (body.flatMap declarators) → Γ.Fresh (eventsAll body)
  | [], _, _, _ => trivial
  | t :: rest, honce, hnodup, hapart => by
    rw [eraseAll, Stmt.declareOnce, Bool.and_eq_true] at honce
    rw [List.flatMap_cons] at hnodup hapart
    have hrest := (Lexical.grows_events Γ t).apart hnodup hapart
    rw [List.map_append, List.nodup_append] at hnodup
    rw [eventsAll, Lexical.fresh_append]
    refine ⟨fresh_events t honce.1 hnodup.1 ?_, fresh_eventsFrom rest honce.2 hnodup.2.1 hrest⟩
    exact fun d hd => hapart d (List.mem_append_left _ hd)

end

end TypedStmt

/-- The trace of a function that declares its names once is fresh. -/
theorem Function.fresh_events {f : Function} {injections : Injections} {registry : Registry}
    {t : TypedFunction} (h : f.infer injections registry = .ok t) (honce : f.declaresOnce = true) :
    (Lexical.initial t.params).Fresh t.events := by
  refine Lexical.fresh_block (TypedStmt.fresh_eventsAll t.body ?_)
  obtain ⟨hdeclared, honce'⟩ := Stmt.declareOnce_normalizeAll f.body
  rw [(Function.eraseAll_body h).1, Stmt.declaresOnce, hdeclared, honce']
  exact honce

/-! ## Types go back from the end of a scope -/

/-- Where a frame has a type for a variable, it is that of its declarator. -/
def ScopeAgrees (scope : List Variable) (frame : Frame) : Prop :=
  ∀ name v ty, Lexical.find? name scope = some v →
    (frame.get? name).bind Binding.ty? = some ty → ty = v.declarator.ascription.ty

/-- Where the frames have types for the variables of the open scopes, they are those of their
declarators.  The last frame is that of the parameters. -/
def FramesAgree : List (List Variable) → List Frame → Prop
  | scope :: scopes, frame :: frames => ScopeAgrees scope frame ∧ FramesAgree scopes frames
  | _, _ => True

/-- A frame had the types that it has when it is refined. -/
theorem ScopeAgrees.of_refines {scope : List Variable} {frame frame' : Frame}
    (h : ScopeAgrees scope frame') (hframe : Frame.Refines frame frame') :
    ScopeAgrees scope frame := by
  intro name v ty hv hty
  refine h name v ty hv ?_
  obtain ⟨b, hget, hb⟩ := Option.bind_eq_some_iff.1 hty
  have hrefines := hframe name
  rw [hget] at hrefines
  revert hrefines
  generalize frame'.get? name = b'
  rintro ⟨hb'⟩
  exact hb'.ty?_eq hb

/-- Frames had the types that they have when they are refined. -/
theorem FramesAgree.of_refines {scopes : List (List Variable)} {frames frames' : List Frame}
    (h : FramesAgree scopes frames') (hframes : List.Forall₂ Frame.Refines frames frames') :
    FramesAgree scopes frames := by
  induction hframes generalizing scopes with
  | nil => cases scopes <;> trivial
  | cons hframe _ ih =>
    cases scopes with
    | nil => trivial
    | cons scope scopes => exact ⟨h.1.of_refines hframe, ih h.2⟩

/-- When a scope closes, its frame has the types of its declarators. -/
theorem ScopeFits.agrees {scope : List Variable} {frame : Frame} (h : ScopeFits scope frame)
    (hsettled : ∀ v ∈ scope, v.declarator.init = none →
      (frame.get? v.declarator.name).bind Binding.ty? = some v.declarator.ascription.ty) :
    ScopeAgrees scope frame := by
  intro name v ty hv hty
  have hmem := List.mem_of_find?_eq_some hv
  have hname : v.declarator.name = name := by simpa using List.find?_some hv
  by_cases hinit : v.declarator.init = none
  · have hsettles := hsettled v hmem hinit
    rw [hname, hty] at hsettles
    exact Option.some.inj hsettles
  · -- The initializer gave the type, and it has not changed since.
    obtain ⟨b, hget, hb⟩ := Option.bind_eq_some_iff.1 hty
    have hholds := h name
    rw [hv, hget] at hholds
    cases hholds with
    | some hholds =>
      cases b with
      | pending => cases hb
      | typed ty' =>
        obtain rfl := Option.some.inj hb
        exact hholds hinit
      | constant ty' v' => exact hholds.elim

/-- A name declared for the first time in its scope leaves the other types as they were. -/
theorem ScopeAgrees.of_declare {scope : List Variable} {frame : Frame} {v : Variable} {b : Binding}
    (h : ScopeAgrees (v :: scope) (frame.insert v.declarator.name b))
    (hfresh : ∀ u ∈ scope, u.declarator.name ≠ v.declarator.name) : ScopeAgrees scope frame := by
  intro name u ty hu hty
  have hname : u.declarator.name = name := by simpa using List.find?_some hu
  have hne : name ≠ v.declarator.name := hname ▸ hfresh u (List.mem_of_find?_eq_some hu)
  refine h name u ty ?_ ?_
  · rw [Lexical.find?, List.find?_cons_of_neg (by simpa using Ne.symm hne)]
    exact hu
  · rwa [Table.get?_insert_of_ne _ hne]

/-- If the types after a step are those of the declarators, so are the types before it. -/
theorem Step.agrees {cx : Context} {Γ : Lexical} {s s' : Scopes} {ev : Event}
    (h : Step cx Γ s ev s') (hs : Follows cx Γ s)
    (hfresh : ∀ d, ev = .declare d → ∀ v ∈ Γ.scopes.headD [], v.declarator.name ≠ d.name)
    (hagree : FramesAgree (Γ.after ev).scopes s'.inner) : FramesAgree Γ.scopes s.inner := by
  have haccess := h.refines hs
  cases h with
  | enter => exact hagree.2
  | leave hΓ hsettled =>
    obtain ⟨scope, scopes, frame, frames, hscopes, hinner, hscope, -⟩ := hs.innermost hΓ
    rw [Scopes.pop_of_inner_eq_cons hinner, hscopes] at hsettled
    rw [Scopes.pop_of_inner_eq_cons hinner, Lexical.after, hscopes] at hagree
    rw [hscopes, hinner]
    exact ⟨hscope.agrees hsettled, hagree⟩
  | declare hΓ _ =>
    obtain ⟨scope, scopes, frame, frames, hscopes, hinner, -, -⟩ := hs.innermost hΓ
    have hfresh := hfresh _ rfl
    rw [hscopes] at hfresh
    rw [Scopes.insert_of_inner_eq_cons hinner, Lexical.after, hscopes] at hagree
    rw [hscopes, hinner]
    exact ⟨hagree.1.of_declare hfresh, hagree.2⟩
  | readIdent => exact hagree
  | readMember => exact hagree
  | assignIdent => exact hagree.of_refines (haccess rfl).inner
  | assignMember => exact hagree.of_refines (haccess rfl).inner

/-- Agreement goes back from the end of a trace to its start. -/
theorem Trace.agrees {cx : Context} {Γ : Lexical} {s s' : Scopes} {evs : List Event}
    (h : Trace cx Γ s evs s') (hs : Follows cx Γ s) (hfresh : Γ.Fresh evs)
    (hend : FramesAgree (Γ.run evs).scopes s'.inner) : FramesAgree Γ.scopes s.inner := by
  induction h with
  | nil => exact hend
  | cons hstep _ ih => exact hstep.agrees hs hfresh.1 (ih (hstep.follows hs) hfresh.2 hend)

/-! ## Uses -/

/-- The type that the frames have for a variable is that of its declarator. -/
theorem FramesFit.ty_eq {params : List TypedParam} {scopes : List (List Variable)}
    {frames : List Frame} (h : FramesFit params scopes frames) (hagree : FramesAgree scopes frames)
    {name : String} {v : Variable} {ty : Ty}
    (hv : Lexical.resolveIn params name scopes = .variable v)
    (hty : (Scopes.findFrame? name frames).bind Binding.ty? = some ty) :
    ty = v.declarator.ascription.ty := by
  induction h with
  | params _ =>
    unfold Lexical.resolveIn at hv
    split at hv <;> cases hv
  | @scope scope frame scopes frames hscope _ ih =>
    have hagrees := hagree.1 name
    have hholds := hscope name
    unfold Lexical.resolveIn at hv
    unfold Scopes.findFrame? at hty
    revert hagrees hholds hv hty
    generalize Lexical.find? name scope = u, frame.get? name = b
    intro hagrees hholds hv hty
    cases hholds with
    | none => exact ih hagree.2 hv hty
    | some _ =>
      cases hv
      exact hagrees _ _ rfl hty

/-- After a name was read or assigned, the scopes have the type of the place for it, if they have
the name at all. -/
theorem Step.lookup?_place {cx : Context} {Γ : Lexical} {s s' : Scopes} {ev : Event}
    (h : Step cx Γ s ev s') (hs : Follows cx Γ s) {name : String} {m : Mark}
    (hplace : ev.place? = some (.ident name m)) :
    s'.lookup? name = none ∨ (s'.lookup? name).bind Binding.ty? = some m.ascription.ty := by
  cases h with
  | enter => cases hplace
  | leave => cases hplace
  | declare => cases hplace
  | readIdent ha =>
    cases hplace
    rcases Context.ident_eq_ok ha with ⟨hlookup, -⟩ | ⟨v, hlookup, -⟩ | ⟨hlookup, -⟩ | ⟨hlookup, -⟩
    · exact .inr (by rw [hlookup]; rfl)
    · exact .inr (by rw [hlookup]; rfl)
    · exact .inl hlookup
    · exact .inl hlookup
  | readMember => cases hplace
  | assignIdent ha =>
    cases hplace
    exact .inr (by rw [(hs.assignIdent ha).2]; rfl)
  | assignMember => cases hplace

/-- In agreement with the lexical scopes at this point and at the end, the type that the scopes have
for a name is that of what the name stands for. -/
theorem Follows.ty_eq {cx : Context} {Γ : Lexical} {s : Scopes} (h : Follows cx Γ s)
    (hagree : FramesAgree Γ.scopes s.inner) {name : String} {ty : Ty}
    (hty : s.lookup? name = none ∨ (s.lookup? name).bind Binding.ty? = some ty) :
    (∀ v, Γ.resolve name = .variable v → ty = v.declarator.ascription.ty) ∧
      (Γ.resolve name = .parameter → ∀ p ∈ Γ.params, p.name = name → ty = p.ty) := by
  have hbound : ∀ b, Scopes.findFrame? name s.inner = some b → b.ty? = some ty := by
    intro b hfind
    rw [Scopes.lookup?_of_findFrame?_eq_some hfind] at hty
    exact hty.resolve_left (Option.some_ne_none b)
  constructor
  · intro v hv
    obtain ⟨b, hfind, -⟩ := h.exists_of_resolve hv nofun
    refine h.frames.ty_eq hagree hv ?_
    rw [hfind]
    exact hbound b hfind
  · intro hv p hp hname
    obtain ⟨b, hfind, hfits⟩ := h.exists_of_resolve hv nofun
    exact Option.some.inj ((hbound b hfind).symm.trans (hfits p hp hname))

/-- Every use of a variable has the type of its declarator, and every use of a parameter has the
type of the parameter.  The uses are all names of the typed tree, read or assigned: the trace meets
each of them once. -/
theorem Function.uses_fit_declarations {f : Function} {injections : Injections}
    {registry : Registry} {t : TypedFunction} (h : f.infer injections registry = .ok t)
    (honce : f.declaresOnce = true) :
    (t.events.filterMap Event.place?).Perm (t.exprs.filter TypedExpr.isPlace) ∧
    ∀ (pre : List Event) (ev : Event) (post : List Event) (name : String) (m : Mark),
      t.events = pre ++ ev :: post → ev.place? = some (.ident name m) →
      (∀ v, (t.lexicalAfter pre).resolve name = .variable v →
        m.ascription.ty = v.declarator.ascription.ty) ∧
      ((t.lexicalAfter pre).resolve name = .parameter →
        ∀ p ∈ t.params, p.name = name → m.ascription.ty = p.ty) := by
  refine ⟨t.places_perm, ?_⟩
  intro pre ev post name m hevents hplace
  obtain ⟨s, s', hs, htrace⟩ := Function.infer_follows h hevents
  cases htrace with
  | @cons _ _ s₁ _ _ _ hstep hrest =>
    have hs₁ := hstep.follows hs
    have hagree : FramesAgree ((t.lexicalAfter pre).after ev).scopes s₁.inner := by
      have hfresh := Function.fresh_events h honce
      rw [hevents] at hfresh
      refine hrest.agrees hs₁ (Lexical.fresh_append.1 hfresh).2.2 ?_
      -- No scope is open any more at the end of the function.
      have hend : (t.lexicalAfter t.events).scopes = [] :=
        Lexical.scopes_run_block (Lexical.grows_eventsAll _ t.body)
      rw [hevents, TypedFunction.lexicalAfter, Lexical.run_append, Lexical.run_cons] at hend
      rw [TypedFunction.lexicalAfter, hend]
      trivial
    have hafter : (t.lexicalAfter pre).after ev = t.lexicalAfter pre := by
      cases ev with
      | read e => rfl
      | assign op target value => rfl
      | _ => cases hplace
    rw [hafter] at hs₁ hagree
    have hparams : (t.lexicalAfter pre).params = t.params := Lexical.params_run _ _
    rw [← hparams]
    exact hs₁.ty_eq hagree (hstep.lookup?_place hs hplace)

/-- In the sample function the last `c` is the outer one, which has no initializer and was settled
in a branch. -/
theorem Sample.use_of_c :
    Sample.shade.infer Sample.injections ⟨[]⟩ = .ok Sample.typedShade ∧
    Sample.shade.declaresOnce = true ∧
    ∃ pre post m v, Sample.typedShade.events = pre ++ .read (.ident "c" m) :: post ∧
      (Sample.typedShade.lexicalAfter pre).resolve "c" = .variable v ∧
      v.declarator.init.isNone = true ∧ m.ascription.ty = v.declarator.ascription.ty := by
  have hevents : Sample.typedShade.events = Sample.typedShade.events.take 16 ++
      .read (.ident "c" (Sample.mark (.object .color))) :: Sample.typedShade.events.drop 17 := rfl
  have huses := (Function.uses_fit_declarations Sample.infer_shade rfl).2 _ _ _ _ _ hevents rfl
  exact ⟨Sample.infer_shade, rfl, _, _, _, _, hevents, rfl, rfl, huses.1 _ rfl⟩

end Shader
