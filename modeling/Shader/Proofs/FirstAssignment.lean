import Shader.Proofs.Balance
import Shader.Syntax.Bare

/-!
# What settles an uninitialized variable

A variable without initializer is pending until it is assigned, and its declarator is ascribed a
type when its scope closes.  This module follows one variable from its declaration to the end of its
scope.  `Slot` says where the frames keep it: in the frame of its scope, under its name, as long as
the scope does not declare the name again.

Along a trace a slot is refined by assignments to its variable and by nothing else (`Step.slot`).
So a pending slot is settled by the first assignment to its variable (`Trace.first_assignment`), and
that type is what the frame has in the end.  The frame has one binding for each name.  Where a scope
declares a name twice, the declarators share the slot of the last one, and the earlier ones are
ascribed its type (`Function.uninitialized_variables`).
-/

namespace Shader

/-! ## Assignments and declarations along a trace -/

namespace Lexical

/-- The variable that a declarator declares next. -/
def declared (Γ : Lexical) (d : TypedDeclarator) : Variable := ⟨Γ.count, d⟩

/-- The event assigns the variable. -/
def Assigns (Γ : Lexical) (v : Variable) (ev : Event) : Prop :=
  ∃ op m value, ev = .assign op (.ident v.declarator.name m) value ∧
    Γ.resolve v.declarator.name = .variable v

/-- The declarator declares the name of the variable again, in the same scope. -/
def Redeclares (Γ : Lexical) (v : Variable) (d : TypedDeclarator) : Prop :=
  d.name = v.declarator.name ∧ v ∈ Γ.scopes.headD []

/-- The name of the variable is not declared again in its scope. -/
def IsLast (Γ : Lexical) (v : Variable) (events : List Event) : Prop :=
  ∀ mid d rest, events = mid ++ .declare d :: rest → ¬ (Γ.run mid).Redeclares v d

/-- `FirstAssignment v Γ events op value`: the first of the events that assigns `v` assigns `value`
to it with `op`. -/
inductive FirstAssignment (v : Variable) :
    Lexical → List Event → AssignOp → TypedExpr → Prop where
  | here {Γ : Lexical} {op : AssignOp} {m : Mark} {value : TypedExpr} {events : List Event} :
      Γ.resolve v.declarator.name = .variable v →
      FirstAssignment v Γ (.assign op (.ident v.declarator.name m) value :: events) op value
  | later {Γ : Lexical} {ev : Event} {events : List Event} {op : AssignOp} {value : TypedExpr} :
      ¬ Γ.Assigns v ev → FirstAssignment v (Γ.after ev) events op value →
      FirstAssignment v Γ (ev :: events) op value

variable {Γ : Lexical} {v : Variable} {ev : Event} {events : List Event}

/-- Without events nothing is declared. -/
@[simp] theorem isLast_nil : Γ.IsLast v [] := by
  intro mid d rest h
  simp at h

/-- A name is not declared again when it is not declared again next, nor after that. -/
@[simp] theorem isLast_cons_iff : Γ.IsLast v (ev :: events) ↔
    (∀ d, ev = .declare d → ¬ Γ.Redeclares v d) ∧ (Γ.after ev).IsLast v events := by
  constructor
  · intro h
    refine ⟨?_, ?_⟩
    · rintro d rfl
      exact h [] d events rfl
    · rintro mid d rest rfl
      exact h (ev :: mid) d rest rfl
  · rintro ⟨hnext, hlater⟩ mid d rest heq
    cases mid with
    | nil =>
      cases heq
      exact hnext d rfl
    | cons ev' mid =>
      cases heq
      exact hlater mid d rest rfl

end Lexical

/-! ## Slots -/

namespace ScopeFits

variable {scope : List Variable} {frame : Frame} {name : String}

/-- What is not declared in a scope is not bound in its frame. -/
theorem get?_eq_none (h : ScopeFits scope frame) (hfind : Lexical.find? name scope = none) :
    frame.get? name = none := by
  have hrel := h name
  rw [hfind] at hrel
  revert hrel
  generalize frame.get? name = b
  rintro ⟨⟩
  rfl

/-- What is not bound in a frame is not declared in its scope. -/
theorem find?_eq_none (h : ScopeFits scope frame) (hget : frame.get? name = none) :
    Lexical.find? name scope = none := by
  have hrel := h name
  rw [hget] at hrel
  revert hrel
  generalize Lexical.find? name scope = v
  rintro ⟨⟩
  rfl

end ScopeFits

/-- `Slot v u b scopes frames`: the variable `v` is in an open scope in which `u` is the last
variable of its name, and the frame of that scope binds the name to `b`. -/
inductive Slot (v u : Variable) (b : Binding) : List (List Variable) → List Frame → Prop where
  | here {scope : List Variable} {scopes : List (List Variable)} {frame : Frame}
      {frames : List Frame} :
      v ∈ scope → Lexical.find? u.declarator.name scope = some u →
      frame.get? u.declarator.name = some b → Slot v u b (scope :: scopes) (frame :: frames)
  | there {scope : List Variable} {scopes : List (List Variable)} {frame : Frame}
      {frames : List Frame} :
      u ∉ scope → Slot v u b scopes frames → Slot v u b (scope :: scopes) (frame :: frames)

namespace Slot

variable {v u : Variable} {b : Binding} {params : List TypedParam} {scopes : List (List Variable)}
  {frames frames' : List Frame}

/-- A name that stands for the variable of a slot is bound there. -/
theorem findFrame?_eq (h : Slot v u b scopes frames) (hfit : FramesFit params scopes frames)
    (hu : Lexical.resolveIn params u.declarator.name scopes = .variable u) :
    Scopes.findFrame? u.declarator.name frames = some b := by
  induction h with
  | here _ _ hb => rw [Scopes.findFrame?, hb]
  | @there scope scopes frame frames hnot _ ih =>
    cases hfit with
    | scope hscope hrest =>
      have hnone : Lexical.find? u.declarator.name scope = none := by
        cases hfind : Lexical.find? u.declarator.name scope with
        | none => rfl
        | some w =>
          rw [Lexical.resolveIn, hfind] at hu
          obtain rfl := Site.variable.inj hu
          exact absurd (List.mem_of_find?_eq_some hfind) hnot
      rw [Lexical.resolveIn, hnone] at hu
      rw [Scopes.findFrame?, hscope.get?_eq_none hnone]
      exact ih hrest hu

/-- Refining the frames refines a slot. -/
theorem refine (h : Slot v u b scopes frames)
    (hframes : List.Forall₂ Frame.Refines frames frames') :
    ∃ b', b.Refines b' ∧ Slot v u b' scopes frames' := by
  induction h generalizing frames' with
  | @here scope scopes frame frames hv hu hb =>
    cases hframes with
    | @cons _ frame' _ _ hframe _ =>
      have hrefines := hframe u.declarator.name
      rw [hb] at hrefines
      cases hb' : frame'.get? u.declarator.name with
      | none =>
        rw [hb'] at hrefines
        cases hrefines
      | some b' =>
        rw [hb'] at hrefines
        cases hrefines with
        | some hrefines => exact ⟨b', hrefines, .here hv hu hb'⟩
  | there hnot _ ih =>
    cases hframes with
    | cons _ hrest =>
      obtain ⟨b', hb', hslot⟩ := ih hrest
      exact ⟨b', hb', .there hnot hslot⟩

/-- Binding a name anew changes no slot but that of the variable which the name stands for. -/
theorem setFrame? (h : Slot v u b scopes frames) (hfit : FramesFit params scopes frames)
    {name : String} {b' : Binding}
    (hname : name = u.declarator.name →
      Lexical.resolveIn params u.declarator.name scopes ≠ .variable u)
    (hset : Scopes.setFrame? name b' frames = some frames') : Slot v u b scopes frames' := by
  induction h generalizing frames' with
  | @here scope scopes frame frames hv hu hb =>
    rw [Scopes.setFrame?] at hset
    split at hset
    · obtain rfl := Option.some.inj hset
      have hne : u.declarator.name ≠ name := by
        intro heq
        refine hname heq.symm ?_
        rw [Lexical.resolveIn, hu]
      exact .here hv hu (by rw [Table.get?_insert_of_ne _ hne, hb])
    · obtain ⟨rest, -, rfl⟩ := Option.map_eq_some_iff.1 hset
      exact .here hv hu hb
  | @there scope scopes frame frames hnot hslot ih =>
    cases hfit with
    | scope hscope hrest =>
      rw [Scopes.setFrame?] at hset
      split at hset
      · obtain rfl := Option.some.inj hset
        exact .there hnot hslot
      · rename_i hcontains
        obtain ⟨rest, hsetRest, rfl⟩ := Option.map_eq_some_iff.1 hset
        refine .there hnot (ih hrest ?_ hsetRest)
        -- This frame does not have the name, so it stands for what it stands for outside.
        intro heq hu
        have hget : frame.get? u.declarator.name = none := by
          rw [← heq]
          simpa [Table.contains] using hcontains
        refine hname heq ?_
        rw [Lexical.resolveIn, hscope.find?_eq_none hget]
        exact hu

/-- The same for a name that is bound anew wherever it stands. -/
theorem set {s : Scopes} (h : Slot v u b scopes s.inner) (hfit : FramesFit params scopes s.inner)
    {name : String} {b' : Binding}
    (hname : name = u.declarator.name →
      Lexical.resolveIn params u.declarator.name scopes ≠ .variable u) :
    Slot v u b scopes (s.set name b').inner := by
  rw [Scopes.set]
  cases hset : Scopes.setFrame? name b' s.inner with
  | some frames => exact h.setFrame? hfit hname hset
  | none =>
    -- The inner frames do not have the name, so they stay as they are.
    dsimp only
    split <;> exact h

end Slot

/-- Assigning a member leaves the inner frames alone. -/
@[simp] theorem Context.inner_assignMember (s : Scopes) (name : String) (a : Ascription) :
    (Context.assignMember s name a).inner = s.inner := by
  unfold Context.assignMember
  split <;> rfl

/-- The number of declared variables does not go down. -/
theorem Lexical.count_le (Γ : Lexical) (ev : Event) : Γ.count ≤ (Γ.after ev).count := by
  cases ev <;> simp [Lexical.after]

/-- `v.Settles b`: if the declarator of `v` has no initializer, it is ascribed the type of `b`. -/
def Variable.Settles (v : Variable) (b : Binding) : Prop :=
  v.declarator.init = none → b.ty? = some v.declarator.ascription.ty

section Steps

variable {cx : Context} {Γ : Lexical} {s s' : Scopes} {ev : Event} {events : List Event}
  {v u : Variable} {b : Binding}

/-- An access that does not assign the variable of a slot leaves the slot as it is. -/
theorem Step.slot_of_not_assigns (h : Step cx Γ s ev s') (hs : Follows cx Γ s)
    (hslot : Slot v u b Γ.scopes s.inner) (hev : ev.isAccess = true) (hassigns : ¬ Γ.Assigns u ev) :
    Slot v u b Γ.scopes s'.inner := by
  cases h with
  | enter => cases hev
  | leave => cases hev
  | declare => cases hev
  | readIdent => exact hslot
  | readMember => exact hslot
  | @assignIdent _ op name value target result targetSpan span ha =>
    have hname : name = u.declarator.name →
        Lexical.resolveIn Γ.params u.declarator.name Γ.scopes ≠ .variable u := by
      rintro rfl hu
      exact hassigns ⟨op, _, value, rfl, hu⟩
    rcases Context.assignIdent_eq_ok ha with ⟨-, -, rfl⟩ | ⟨-, -, -, rfl⟩ | ⟨-, -, -, -, rfl⟩ |
      ⟨-, -, -, rfl⟩
    · exact hslot
    · exact hslot.set hs.frames hname
    · exact hslot.set hs.frames hname
    · exact hslot
  | assignMember =>
    rw [Context.inner_assignMember]
    exact hslot

/-- What a step does to a slot whose name is not declared again.  Where the scope of the slot
closes, its binding has the types of the declarators.  Otherwise the slot is still there: it may be
refined by an assignment to its variable, and is the same after any other step. -/
theorem Step.slot (h : Step cx Γ s ev s') (hs : Follows cx Γ s)
    (hname : v.declarator.name = u.declarator.name) (hslot : Slot v u b Γ.scopes s.inner)
    (hu : u.index < Γ.count) (hlast : ∀ d, ev = .declare d → ¬ Γ.Redeclares u d) :
    (ev = .leave ∧ v.Settles b ∧ u.Settles b) ∨
      ∃ b', b.Refines b' ∧ (¬ Γ.Assigns u ev → b' = b) ∧
        Slot v u b' (Γ.after ev).scopes s'.inner := by
  have haccess : ev.isAccess = true → ∃ b', b.Refines b' ∧ (¬ Γ.Assigns u ev → b' = b) ∧
      Slot v u b' Γ.scopes s'.inner := by
    intro hev
    by_cases hassigns : Γ.Assigns u ev
    · obtain ⟨b', hb', hslot'⟩ := hslot.refine (h.refines hs hev).inner
      exact ⟨b', hb', absurd hassigns, hslot'⟩
    · exact ⟨b, .same, fun _ => rfl, h.slot_of_not_assigns hs hslot hev hassigns⟩
  cases h with
  | enter => exact .inr ⟨b, .same, fun _ => rfl, .there List.not_mem_nil hslot⟩
  | leave hΓ hsettled =>
    obtain ⟨scope, scopes, frame, frames, hscopes, hinner, -, -⟩ := hs.innermost hΓ
    rw [hscopes, hinner] at hslot
    rw [hscopes, Scopes.pop_of_inner_eq_cons hinner] at hsettled
    rw [Lexical.after, hscopes, Scopes.pop_of_inner_eq_cons hinner]
    cases hslot with
    | there _ hrest => exact .inr ⟨b, .same, fun _ => rfl, hrest⟩
    | here hv hfind hb =>
      refine .inl ⟨rfl, ?_, ?_⟩
      · intro hinit
        have hty := hsettled v hv hinit
        rwa [hname, hb] at hty
      · intro hinit
        have hty := hsettled u (List.mem_of_find?_eq_some hfind) hinit
        rwa [hb] at hty
  | @declare d hΓ _ =>
    obtain ⟨scope, scopes, frame, frames, hscopes, hinner, -, -⟩ := hs.innermost hΓ
    rw [hscopes, hinner] at hslot
    rw [Lexical.after, hscopes, Scopes.insert_of_inner_eq_cons hinner]
    refine .inr ⟨b, .same, fun _ => rfl, ?_⟩
    cases hslot with
    | here hv hfind hb =>
      have hmem : u ∈ Γ.scopes.headD [] := by
        rw [hscopes]
        exact List.mem_of_find?_eq_some hfind
      have hne : d.name ≠ u.declarator.name := fun heq => hlast d rfl ⟨heq, hmem⟩
      refine .here (List.mem_cons_of_mem _ hv) ?_ ?_
      · rw [Lexical.find?, List.find?_cons_of_neg (by simpa using hne)]
        exact hfind
      · rw [Table.get?_insert_of_ne _ (Ne.symm hne), hb]
    | there hnot hrest =>
      refine .there ?_ hrest
      -- A variable that is declared now has a number of its own.
      rintro (⟨⟩ | ⟨_, hmem⟩)
      · exact absurd hu (Nat.lt_irrefl _)
      · exact hnot hmem
  | readIdent => exact .inr (haccess rfl)
  | readMember => exact .inr (haccess rfl)
  | assignIdent => exact .inr (haccess rfl)
  | assignMember => exact .inr (haccess rfl)

/-- Wherever a slot is, it is settled by the time its scope closes: both declarators are ascribed
the type of its binding then. -/
theorem Trace.settles (h : Trace cx Γ s events s') (hs : Follows cx Γ s)
    (hname : v.declarator.name = u.declarator.name) (hslot : Slot v u b Γ.scopes s.inner)
    (hu : u.index < Γ.count) (hlast : Γ.IsLast u events) (hend : (Γ.run events).scopes = []) :
    ∃ b', b.Refines b' ∧ v.Settles b' ∧ u.Settles b' := by
  induction h generalizing b with
  | @nil Γ s =>
    rw [Lexical.run_nil] at hend
    rw [hend] at hslot
    cases hslot
  | @cons Γ s s₁ s₂ ev events hstep _ ih =>
    obtain ⟨hnext, hlater⟩ := Lexical.isLast_cons_iff.1 hlast
    rcases hstep.slot hs hname hslot hu hnext with ⟨-, hv, hu⟩ | ⟨b₁, hb₁, -, hslot₁⟩
    · exact ⟨b, .same, hv, hu⟩
    · have hu₁ := Nat.lt_of_lt_of_le hu (Lexical.count_le Γ ev)
      obtain ⟨b', hb', hsettles⟩ := ih (hstep.follows hs) hslot₁ hu₁ hlater hend
      exact ⟨b', hb₁.trans hb', hsettles⟩

/-- A slot that has a type keeps it until its scope closes. -/
theorem Trace.ascription_of_typed {ty : Ty} (h : Trace cx Γ s events s') (hs : Follows cx Γ s)
    (hname : v.declarator.name = u.declarator.name)
    (hslot : Slot v u (.typed ty) Γ.scopes s.inner) (hu : u.index < Γ.count)
    (hlast : Γ.IsLast u events) (hend : (Γ.run events).scopes = [])
    (hinit : v.declarator.init = none) : v.declarator.ascription.ty = ty := by
  obtain ⟨b, hb, hv, -⟩ := h.settles hs hname hslot hu hlast hend
  obtain rfl := hb.eq_of_typed
  exact (Option.some.inj (hv hinit)).symm

/-- Assigning a pending variable is a plain assignment, and gives its slot the type of the value. -/
theorem Step.slot_of_assigns (h : Step cx Γ s ev s') (hs : Follows cx Γ s)
    (hslot : Slot u u .pending Γ.scopes s.inner) (hassigns : Γ.Assigns u ev) :
    ∃ m value, ev = .assign .plain (.ident u.declarator.name m) value ∧
      Slot u u (.typed value.ty) Γ.scopes s'.inner := by
  obtain ⟨op, m, value, rfl, hresolve⟩ := hassigns
  obtain ⟨b', hb', hslot'⟩ := hslot.refine (h.refines hs rfl).inner
  have hlookup : s.lookup? u.declarator.name = some .pending :=
    Scopes.lookup?_of_findFrame?_eq_some (hslot.findFrame?_eq hs.frames hresolve)
  have hs' : Follows cx Γ s' := h.follows hs
  have hlookup' : s'.lookup? u.declarator.name = some b' :=
    Scopes.lookup?_of_findFrame?_eq_some (hslot'.findFrame?_eq hs'.frames hresolve)
  cases h with
  | assignIdent ha =>
    rw [(hs.assignIdent ha).2] at hlookup'
    obtain rfl := Option.some.inj hlookup'
    -- Of the cases of an assignment only the one for pending names fits.
    rcases Context.assignIdent_eq_ok ha with ⟨htyped, -⟩ | ⟨c, hconstant, -⟩ |
      ⟨-, rfl, rfl, -⟩ | ⟨hfree, -⟩
    · rw [hlookup] at htyped
      cases htyped
    · rw [hlookup] at hconstant
      cases hconstant
    · exact ⟨_, value, rfl, hslot'⟩
    · rw [hlookup] at hfree
      cases hfree

/-- A pending slot is settled by the first assignment to its variable. -/
theorem Trace.first_assignment (h : Trace cx Γ s events s') (hs : Follows cx Γ s)
    (hslot : Slot u u .pending Γ.scopes s.inner) (hu : u.index < Γ.count)
    (hlast : Γ.IsLast u events) (hend : (Γ.run events).scopes = [])
    (hinit : u.declarator.init = none) :
    ∃ value, Lexical.FirstAssignment u Γ events .plain value ∧
      u.declarator.ascription.ty = value.ty := by
  induction h with
  | @nil Γ s =>
    rw [Lexical.run_nil] at hend
    rw [hend] at hslot
    cases hslot
  | @cons Γ s s₁ s₂ ev events hstep hrest ih =>
    have hs₁ := hstep.follows hs
    have hu₁ := Nat.lt_of_lt_of_le hu (Lexical.count_le Γ ev)
    obtain ⟨hnext, hlater⟩ := Lexical.isLast_cons_iff.1 hlast
    by_cases hassigns : Γ.Assigns u ev
    · obtain ⟨m, value, rfl, hslot₁⟩ := hstep.slot_of_assigns hs hslot hassigns
      obtain ⟨-, -, -, -, hresolve⟩ := hassigns
      exact ⟨value, .here hresolve,
        hrest.ascription_of_typed hs₁ rfl hslot₁ hu₁ hlater hend hinit⟩
    · rcases hstep.slot hs rfl hslot hu hnext with ⟨-, hsettles, -⟩ | ⟨b, -, hb, hslot₁⟩
      · -- A scope with a pending variable cannot close.
        cases hsettles hinit
      · obtain rfl := hb hassigns
        obtain ⟨value, hfirst, hty⟩ := ih hs₁ hslot₁ hu₁ hlater hend
        exact ⟨value, .later hassigns hfirst, hty⟩

/-- A name that is declared has a slot. -/
theorem Step.slot_of_declare {d : TypedDeclarator} (h : Step cx Γ s (.declare d) s')
    (hs : Follows cx Γ s) (hv : v = Γ.declared d ∨ v ∈ Γ.scopes.headD []) :
    Slot v (Γ.declared d) (cx.declaredBinding d) (Γ.after (.declare d)).scopes s'.inner := by
  cases h with
  | declare hΓ _ =>
    obtain ⟨scope, scopes, frame, frames, hscopes, hinner, -, -⟩ := hs.innermost hΓ
    rw [Lexical.after, hscopes, Scopes.insert_of_inner_eq_cons hinner]
    rw [hscopes] at hv
    refine .here (List.mem_cons.2 hv) ?_ (Table.get?_insert_self _ _ _)
    exact List.find?_cons_of_pos (by simp [Lexical.declared])

end Steps

/-! ## Declarators without initializers -/

/-- No scope is open at the end of a function. -/
theorem TypedFunction.scopes_at_end (t : TypedFunction) : (t.lexicalAfter t.events).scopes = [] :=
  Lexical.scopes_run_block (Lexical.grows_eventsAll _ t.body)

namespace Function

variable {f : Function} {injections : Injections} {registry : Registry} {t : TypedFunction}

/-- What happens after a declarator: its name has a slot, the rest of the function follows, and no
scope is open at the end. -/
theorem infer_declares (h : f.infer injections registry = .ok t) {pre post : List Event}
    {d : TypedDeclarator} (hevents : t.events = pre ++ .declare d :: post) :
    (∀ e, d.init = some e → d.ascription = .ofTy e.ty) ∧
    ((t.lexicalAfter pre).declared d).index < (t.lexicalAfter (pre ++ [.declare d])).count ∧
    ∃ s s', Follows (f.context injections registry) (t.lexicalAfter (pre ++ [.declare d])) s ∧
      Trace (f.context injections registry) (t.lexicalAfter (pre ++ [.declare d])) s post s' ∧
      ((t.lexicalAfter (pre ++ [.declare d])).run post).scopes = [] ∧
      ∀ v, v = (t.lexicalAfter pre).declared d ∨ v ∈ (t.lexicalAfter pre).scopes.headD [] →
        Slot v ((t.lexicalAfter pre).declared d)
          ((f.context injections registry).declaredBinding d)
          (t.lexicalAfter (pre ++ [.declare d])).scopes s.inner := by
  have hafter : t.lexicalAfter (pre ++ [.declare d]) = (t.lexicalAfter pre).after (.declare d) :=
    Lexical.run_append _ _ _
  have hend := t.scopes_at_end
  rw [hevents, List.append_cons, TypedFunction.lexicalAfter, Lexical.run_append] at hend
  obtain ⟨s, s', hs, htrace⟩ := infer_follows h hevents
  cases htrace with
  | cons hstep hrest =>
    rw [← hafter] at hrest
    refine ⟨?_, ?_, _, s', hafter ▸ hstep.follows hs, hrest, hend, ?_⟩
    · cases hstep with
      | declare _ hinit => exact hinit
    · rw [hafter]
      exact Nat.lt_succ_self _
    · intro v hv
      rw [hafter]
      exact hstep.slot_of_declare hs hv

/-- What a declarator without initializer is ascribed, where its name has no injected type.  If its
scope does not declare the name again, it is the type of the first assignment to the variable, which
is a plain one.  If it does, it is the type of the last declarator of the name, be that the type of
its initializer or of its own first assignment.  The trace has the declarators and assignments of
the tree, in the order of inference. -/
theorem uninitialized_variables (h : f.infer injections registry = .ok t) :
    t.events.filterMap Event.declarator? = t.declarations ∧
    (t.events.filterMap Event.assignment?).Perm (t.exprs.filterMap TypedExpr.assignment?) ∧
    ∀ pre d post, t.events = pre ++ .declare d :: post → d.init = none →
      injections.get? d.name = none →
      ((t.lexicalAfter (pre ++ [.declare d])).IsLast ((t.lexicalAfter pre).declared d) post →
        ∃ value, Lexical.FirstAssignment ((t.lexicalAfter pre).declared d)
            (t.lexicalAfter (pre ++ [.declare d])) post .plain value ∧
          d.ascription.ty = value.ty) ∧
      ∀ mid d' rest, post = mid ++ .declare d' :: rest →
        (t.lexicalAfter (pre ++ .declare d :: mid)).Redeclares
          ((t.lexicalAfter pre).declared d) d' →
        (t.lexicalAfter (pre ++ .declare d :: mid ++ [.declare d'])).IsLast
          ((t.lexicalAfter (pre ++ .declare d :: mid)).declared d') rest →
        d.ascription.ty = d'.ascription.ty ∧ ∀ e, d'.init = some e → d.ascription.ty = e.ty := by
  refine ⟨?_, t.assignments_perm, ?_⟩
  · exact (TypedStmt.declares_block _).trans (TypedStmt.declares_eventsAll t.body)
  intro pre d post hevents hinit hget
  constructor
  · intro hlast
    obtain ⟨-, hindex, s, s', hs, htrace, hend, hslots⟩ := infer_declares h hevents
    have hslot := hslots _ (.inl rfl)
    have hpending : (f.context injections registry).declaredBinding d = .pending := by
      simp [Context.declaredBinding, hinit, context, hget]
    rw [hpending] at hslot
    exact htrace.first_assignment hs hslot hindex hlast hend hinit
  · rintro mid d' rest rfl ⟨hname, hmem⟩ hlast
    have hevents' : t.events = (pre ++ .declare d :: mid) ++ .declare d' :: rest := by
      simpa using hevents
    obtain ⟨hinit', hindex, s, s', hs, htrace, hend, hslots⟩ := infer_declares h hevents'
    have hslot := hslots _ (.inr hmem)
    obtain ⟨b, hb, hd, hd'⟩ := htrace.settles hs hname.symm hslot hindex hlast hend
    have hty : b.ty? = some d.ascription.ty := hd hinit
    cases hinitializer : d'.init with
    | none =>
      refine ⟨?_, by simp⟩
      exact Option.some.inj (hty.symm.trans (hd' hinitializer))
    | some e =>
      -- The initializer gave the slot its type, which it has kept.
      have htyped : (f.context injections registry).declaredBinding d' = .typed e.ty := by
        simp [Context.declaredBinding, hinitializer]
      rw [htyped] at hb
      obtain rfl := hb.eq_of_typed
      have hdty : d.ascription.ty = e.ty := (Option.some.inj hty).symm
      have hd'ty : d'.ascription.ty = e.ty := by rw [hinit' e hinitializer]; rfl
      refine ⟨hdty.trans hd'ty.symm, ?_⟩
      rintro e' ⟨⟩
      exact hdty

end Function

namespace Sample

/-- The outer `c` of the sample function, which is assigned in a branch only. -/
def settledC : TypedDeclarator := ⟨"c", none, .ofTy (.object .color), none⟩

/-- The outer `c` of the sample function is not declared again in its scope, though in a branch, and
has the type of the color that is assigned to it in the other branch. -/
theorem settledC_first_assignment :
    shade.infer injections ⟨[]⟩ = .ok typedShade ∧
    ∃ post value, typedShade.events = [.enter] ++ .declare settledC :: post ∧
      Lexical.FirstAssignment ((typedShade.lexicalAfter [.enter]).declared settledC)
        (typedShade.lexicalAfter ([.enter] ++ [.declare settledC])) post .plain value ∧
      settledC.ascription.ty = value.ty := by
  have hevents : typedShade.events = [.enter] ++ .declare settledC :: typedShade.events.drop 2 :=
    rfl
  have hlast : (typedShade.lexicalAfter ([.enter] ++ [.declare settledC])).IsLast
      ((typedShade.lexicalAfter [.enter]).declared settledC) (typedShade.events.drop 2) := by
    -- The other declaration of `c` comes fourth, in a scope without variables.
    iterate 3 refine Lexical.isLast_cons_iff.2 ⟨by rintro _ ⟨⟩, ?_⟩
    refine Lexical.isLast_cons_iff.2 ⟨?_, ?_⟩
    · rintro d ⟨⟩ ⟨-, hmem⟩
      cases hmem
    iterate 13 refine Lexical.isLast_cons_iff.2 ⟨by rintro _ ⟨⟩, ?_⟩
    exact Lexical.isLast_nil
  have hvariables := (Function.uninitialized_variables infer_shade).2.2 _ _ _ hevents rfl rfl
  obtain ⟨value, hfirst, hty⟩ := hvariables.1 hlast
  exact ⟨infer_shade, _, value, hevents, hfirst, hty⟩

/-- `function retype() { var c; c = true; var c = tint; return c; }` -/
def retype : Function :=
  Bare.function "retype" [] [
    Bare.declare [("c", none)],
    Bare.expr (Bare.assign .plain (Bare.ident "c") (Bare.bool true)),
    Bare.declare [("c", some (Bare.ident "tint"))],
    Bare.ret (some (Bare.ident "c"))]

/-- What inference makes of it. -/
def typedRetype : TypedFunction where
  name := "retype"
  params := []
  body := [
    .declare [settledC],
    .expr (.assign .plain (.ident "c" (mark .boolean))
      (.literal (some (.bool true)) ⟨⟨.boolean, some (.bool true)⟩, none⟩) (mark .boolean)),
    .declare [⟨"c", some (.ident "tint" (mark (.object .color))), .ofTy (.object .color), none⟩],
    .ret (some (.ident "c" (mark (.object .color))))]
  result := .object .color
  span := none

/-- A variable that is assigned a boolean and then declared again with a color is ascribed the type
of the color. -/
theorem redeclared_variable_has_later_type :
    retype.infer injections ⟨[]⟩ = .ok typedRetype ∧ settledC ∈ typedRetype.declarations ∧
    settledC.init = none ∧ injections.get? settledC.name = none ∧
    ∃ post value, typedRetype.events = [.enter] ++ .declare settledC :: post ∧
      Lexical.FirstAssignment ((typedRetype.lexicalAfter [.enter]).declared settledC)
        (typedRetype.lexicalAfter ([.enter] ++ [.declare settledC])) post .plain value ∧
      value.ty = .boolean ∧ settledC.ascription.ty = .object .color := by
  refine ⟨rfl, List.mem_cons_self, rfl, rfl, typedRetype.events.drop 2, _, rfl, .here rfl, rfl, rfl⟩

end Sample

end Shader
