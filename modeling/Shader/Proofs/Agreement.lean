import Shader.Proofs.Trace

/-!
# The scopes of inference follow the lexical scopes

Along a trace inference has one frame for each lexical scope that is open and one for the
parameters, in the same order.  A frame binds exactly the variables declared in its scope, so a name
is found in the frames where the lexical scopes say it stands.  The outermost frame is apart from
these: it takes the injections that were assigned, which keep their injected types.

All that an assignment does to the frames is to refine bindings: a pending name gets a type, and a
constant loses its value.  `Step.follows` shows that every step keeps the two in agreement, and
`Follows.initial` that a function starts in agreement.
-/

namespace Shader

/-! ## Refinement of bindings -/

/-- `Refines b b'`: an assignment may turn `b` into `b'`.  A pending name gets a type; a constant
loses its value and keeps its type. -/
inductive Binding.Refines : Binding → Binding → Prop where
  | same {b : Binding} : Refines b b
  | settled {ty : Ty} : Refines .pending (.typed ty)
  | demoted {ty : Ty} {v : Constant} : Refines (.constant ty v) (.typed ty)

/-- The two frames bind the same names, and each binding is refined. -/
def Frame.Refines (frame frame' : Frame) : Prop :=
  ∀ name, Option.Rel Binding.Refines (frame.get? name) (frame'.get? name)

/-- What an assignment may do to the scopes. -/
structure Scopes.Refines (cx : Context) (s s' : Scopes) : Prop where
  /-- Bindings of the inner frames are refined. -/
  inner : List.Forall₂ Frame.Refines s.inner s'.inner
  /-- The outermost frame loses no name. -/
  kept : ∀ {name : String}, (s.outermost.get? name).isSome → (s'.outermost.get? name).isSome
  /-- What is new in the outermost frame has its injected type. -/
  fresh : ∀ {name : String} {b : Binding}, s'.outermost.get? name = some b →
    s.outermost.get? name = some b ∨ ∃ a, cx.injections.resolve? name = some a ∧ b = .typed a.ty

/-- A refined binding keeps the type it had. -/
theorem Binding.Refines.ty?_eq {b b' : Binding} (h : b.Refines b') {ty : Ty}
    (hb : b.ty? = some ty) : b'.ty? = some ty := by
  cases h with
  | same => exact hb
  | settled => cases hb
  | demoted => exact hb

/-- A frame refines itself. -/
theorem Frame.Refines.refl (frame : Frame) : Frame.Refines frame frame := by
  intro name
  cases frame.get? name with
  | none => exact .none
  | some b => exact .some .same

/-- Binding one name anew refines a frame. -/
theorem Frame.Refines.insert {frame : Frame} {name : String} {b b' : Binding}
    (h : frame.get? name = some b) (hb : b.Refines b') :
    Frame.Refines frame (frame.insert name b') := by
  intro other
  by_cases hother : other = name
  · rw [hother, h, Table.get?_insert_self]
    exact .some hb
  · rw [Table.get?_insert_of_ne _ hother]
    exact Frame.Refines.refl frame other

namespace Scopes

variable {cx : Context}

/-- Scopes refine themselves. -/
theorem Refines.refl (s : Scopes) : Refines cx s s where
  inner := List.forall₂_same.2 fun frame _ => .refl frame
  kept h := h
  fresh h := .inl h

/-- A name is bound anew in the frame where it is found. -/
theorem setFrame?_of_findFrame? {name : String} {b b' : Binding} {frames : List Frame}
    (h : findFrame? name frames = some b) (hb : b.Refines b') :
    ∃ frames', setFrame? name b' frames = some frames' ∧
      List.Forall₂ Frame.Refines frames frames' ∧ findFrame? name frames' = some b' := by
  induction frames with
  | nil => cases h
  | cons frame rest ih =>
    unfold findFrame? at h
    unfold setFrame? Table.contains
    cases hget : frame.get? name with
    | some b₀ =>
      rw [hget] at h
      obtain rfl := Option.some.inj h
      refine ⟨frame.insert name b' :: rest, rfl, ?_, ?_⟩
      · exact .cons (.insert hget hb) (List.forall₂_same.2 fun frame _ => .refl frame)
      · rw [findFrame?, Table.get?_insert_self]
    | none =>
      rw [hget] at h
      obtain ⟨frames', hset, hrefines, hfind⟩ := ih h
      refine ⟨frame :: frames', ?_, .cons (.refl frame) hrefines, ?_⟩
      · simp [hset]
      · rw [findFrame?, hget]
        exact hfind

/-- A name that is found in the inner frames is bound anew there. -/
theorem refines_set {s : Scopes} {name : String} {b b' : Binding}
    (h : findFrame? name s.inner = some b) (hb : b.Refines b') :
    Refines cx s (s.set name b') ∧ (s.set name b').lookup? name = some b' := by
  obtain ⟨frames', hset, hrefines, hfind⟩ := setFrame?_of_findFrame? h hb
  rw [set_of_setFrame?_eq_some hset]
  exact ⟨⟨hrefines, fun h => h, fun h => .inl h⟩, lookup?_of_findFrame?_eq_some hfind⟩

/-- The outermost frame may take a name with its injected type. -/
theorem refines_insertOutermost (s : Scopes) {name : String} {a : Ascription}
    (ha : cx.injections.resolve? name = some a) :
    Refines cx s (s.insertOutermost name (.typed a.ty)) where
  inner := List.forall₂_same.2 fun frame _ => .refl frame
  kept {other} h := by
    unfold insertOutermost
    by_cases hother : other = name
    · rw [hother, Table.get?_insert_self]
      rfl
    · rwa [Table.get?_insert_of_ne _ hother]
  fresh {other b} h := by
    unfold insertOutermost at h
    by_cases hother : other = name
    · rw [hother, Table.get?_insert_self] at h
      exact .inr ⟨a, hother ▸ ha, (Option.some.inj h).symm⟩
    · rw [Table.get?_insert_of_ne _ hother] at h
      exact .inl h

/-- The outermost frame has injections that were assigned, with their types. -/
def HoldsInjections (cx : Context) (s : Scopes) : Prop :=
  ∀ (name : String) (b : Binding), s.outermost.get? name = some b →
    ∃ a, cx.injections.resolve? name = some a ∧ b = .typed a.ty

namespace HoldsInjections

variable {s s' : Scopes}

/-- A name that is pending or constant stands in the inner frames. -/
theorem findFrame?_of_lookup? (h : s.HoldsInjections cx) {name : String} {b : Binding}
    (hb : s.lookup? name = some b) (hne : ∀ ty, b ≠ .typed ty) :
    findFrame? name s.inner = some b := by
  rcases lookup?_eq_some_iff.1 hb with hfind | ⟨-, hget⟩
  · exact hfind
  · obtain ⟨a, -, rfl⟩ := h name b hget
    exact absurd rfl (hne a.ty)

/-- An assignment to a name refines the scopes, and leaves the name with the type of the target and
without a value. -/
theorem assignIdent (h : s.HoldsInjections cx) {op : AssignOp} {name : String}
    {value target result : Ty} {targetSpan span : Option Span}
    (ha : cx.assignIdent s op name targetSpan value span = .ok (target, result, s')) :
    s.Refines cx s' ∧ s'.lookup? name = some (.typed target) := by
  rcases Context.assignIdent_eq_ok ha with ⟨hlookup, -, rfl⟩ | ⟨v, hlookup, -, rfl⟩ |
    ⟨hlookup, -, -, -, rfl⟩ | ⟨hlookup, -, ⟨a, hresolve, rfl⟩, rfl⟩
  · exact ⟨.refl _, hlookup⟩
  · exact refines_set (h.findFrame?_of_lookup? hlookup (by simp)) .demoted
  · exact refines_set (h.findFrame?_of_lookup? hlookup (by simp)) .settled
  · refine ⟨refines_insertOutermost _ hresolve, ?_⟩
    -- The name was bound nowhere, so the outermost frame now has it.
    have hinner : findFrame? name s.inner = none := by
      cases hfind : findFrame? name s.inner with
      | none => rfl
      | some b => simp [lookup?_of_findFrame?_eq_some hfind] at hlookup
    have houter : (s.insertOutermost name (.typed a.ty)).lookup? name
        = (s.insertOutermost name (.typed a.ty)).outermost.get? name :=
      lookup?_of_findFrame?_eq_none hinner
    rw [houter]
    exact Table.get?_insert_self _ _ _

end HoldsInjections

end Scopes

/-! ## Frames and lexical scopes -/

/-- `v.Holds b`: the frame of an open scope may bind the variable `v` to `b`. -/
def Variable.Holds (v : Variable) : Binding → Prop
  | .pending => v.declarator.init = none
  -- A variable without initializer settles on its type only when its scope closes.
  | .typed ty => v.declarator.init ≠ none → ty = v.declarator.ascription.ty
  | .constant _ _ => False

/-- A frame binds the variables of a scope, of two with one name the later one. -/
def ScopeFits (scope : List Variable) (frame : Frame) : Prop :=
  ∀ name, Option.Rel Variable.Holds (Lexical.find? name scope) (frame.get? name)

/-- A frame binds the parameters, with their types. -/
structure ParamsFit (params : List TypedParam) (frame : Frame) : Prop where
  bound : ∀ {name : String}, params.any (fun p => p.name == name) = true →
    ∃ b, frame.get? name = some b ∧ ∀ p ∈ params, p.name = name → b.ty? = some p.ty
  unbound : ∀ {name : String}, params.any (fun p => p.name == name) = false →
    frame.get? name = none

/-- The frames are those of the open scopes and, last, that of the parameters. -/
inductive FramesFit (params : List TypedParam) : List (List Variable) → List Frame → Prop where
  | params {frame : Frame} : ParamsFit params frame → FramesFit params [] [frame]
  | scope {scope : List Variable} {frame : Frame} {scopes : List (List Variable)}
      {frames : List Frame} : ScopeFits scope frame → FramesFit params scopes frames →
      FramesFit params (scope :: scopes) (frame :: frames)

/-- `Follows cx Γ s`: the scopes of inference agree with the lexical scopes. -/
structure Follows (cx : Context) (Γ : Lexical) (s : Scopes) : Prop where
  params : cx.params = Γ.params.map (·.name)
  frames : FramesFit Γ.params Γ.scopes s.inner
  /-- The outermost frame has injections that were assigned, with their types. -/
  outermost : ∀ {name : String} {b : Binding}, s.outermost.get? name = some b →
    ∃ a, cx.injections.resolve? name = some a ∧ b = .typed a.ty

/-- What the frames may hold for a name, by what it stands for. -/
def Site.Fits (params : List TypedParam) (name : String) : Site → Option Binding → Prop
  | .variable v, some b => v.Holds b
  | .parameter, some b => ∀ p ∈ params, p.name = name → b.ty? = some p.ty
  | .free, none => True
  | _, _ => False

/-- The frames hold a name where the lexical scopes say that it stands. -/
theorem FramesFit.fits {params : List TypedParam} {scopes : List (List Variable)}
    {frames : List Frame} (h : FramesFit params scopes frames) (name : String) :
    (Lexical.resolveIn params name scopes).Fits params name (Scopes.findFrame? name frames) := by
  induction h with
  | params hparams =>
    unfold Lexical.resolveIn Scopes.findFrame?
    split
    · rename_i hany
      obtain ⟨b, hget, htypes⟩ := hparams.bound hany
      rw [hget]
      exact htypes
    · rename_i hany
      rw [hparams.unbound (Bool.not_eq_true _ ▸ hany)]
      trivial
  | @scope scope frame scopes frames hscope _ ih =>
    unfold Lexical.resolveIn Scopes.findFrame?
    generalize hv : Lexical.find? name scope = v, hb : frame.get? name = b
    have hrel := hscope name
    rw [hv, hb] at hrel
    cases hrel with
    | some hholds => exact hholds
    | none => exact ih

/-! ## What keeps the agreement -/

/-- A variable that holds a binding holds a refined one. -/
theorem Variable.Holds.refine {v : Variable} {b b' : Binding} (h : v.Holds b) (hb : b.Refines b') :
    v.Holds b' := by
  cases hb with
  | same => exact h
  | settled => exact fun hinit => absurd h hinit
  | demoted => exact h.elim

/-- Refining a frame keeps it that of its scope. -/
theorem ScopeFits.refine {scope : List Variable} {frame frame' : Frame} (h : ScopeFits scope frame)
    (hframe : Frame.Refines frame frame') : ScopeFits scope frame' := by
  intro name
  have hrel := h name
  have hrefines := hframe name
  revert hrel hrefines
  generalize Lexical.find? name scope = v, frame.get? name = b, frame'.get? name = b'
  intro hrel hrefines
  cases hrel with
  | none =>
    cases hrefines
    exact .none
  | some hholds =>
    cases hrefines with
    | some hb => exact .some (hholds.refine hb)

/-- Refining the frame of the parameters keeps it theirs. -/
theorem ParamsFit.refine {params : List TypedParam} {frame frame' : Frame}
    (h : ParamsFit params frame) (hframe : Frame.Refines frame frame') :
    ParamsFit params frame' where
  bound {name} hany := by
    obtain ⟨b, hget, htypes⟩ := h.bound hany
    have hrefines := hframe name
    rw [hget] at hrefines
    revert hrefines
    generalize frame'.get? name = b'
    rintro ⟨hb⟩
    exact ⟨_, rfl, fun p hp hname => hb.ty?_eq (htypes p hp hname)⟩
  unbound {name} hany := by
    have hrefines := hframe name
    rw [h.unbound hany] at hrefines
    revert hrefines
    generalize frame'.get? name = b'
    rintro ⟨⟩
    rfl

/-- Refining frames keeps them those of the open scopes. -/
theorem FramesFit.refine {params : List TypedParam} {scopes : List (List Variable)}
    {frames frames' : List Frame} (h : FramesFit params scopes frames)
    (hframes : List.Forall₂ Frame.Refines frames frames') : FramesFit params scopes frames' := by
  induction h generalizing frames' with
  | params hparams =>
    cases hframes with
    | cons hframe hrest =>
      cases hrest
      exact .params (hparams.refine hframe)
  | scope hscope _ ih =>
    cases hframes with
    | cons hframe hrest => exact .scope (hscope.refine hframe) (ih hrest)

namespace Follows

variable {cx : Context} {Γ : Lexical} {s s' : Scopes}

/-- An assignment keeps the agreement. -/
theorem refine (h : Follows cx Γ s) (hs : s.Refines cx s') : Follows cx Γ s' where
  params := h.params
  frames := h.frames.refine hs.inner
  outermost hb := (hs.fresh hb).elim h.outermost id

/-- The innermost open scope has the innermost frame. -/
theorem innermost (h : Follows cx Γ s) (hΓ : Γ.scopes ≠ []) :
    ∃ scope scopes frame frames, Γ.scopes = scope :: scopes ∧ s.inner = frame :: frames ∧
      ScopeFits scope frame ∧ FramesFit Γ.params scopes frames := by
  have hframes := h.frames
  revert hframes hΓ
  generalize Γ.scopes = scopes, s.inner = frames
  intro hΓ hframes
  cases hframes with
  | params _ => exact absurd rfl hΓ
  | scope hscope hrest => exact ⟨_, _, _, _, rfl, rfl, hscope, hrest⟩

/-- Free names are looked up in the outermost frame. -/
theorem lookup?_of_free (h : Follows cx Γ s) {name : String} (hfree : Γ.resolve name = .free) :
    s.lookup? name = s.outermost.get? name := by
  have hfits := h.frames.fits name
  rw [Lexical.resolve] at hfree
  rw [hfree] at hfits
  refine Scopes.lookup?_of_findFrame?_eq_none ?_
  cases hfind : Scopes.findFrame? name s.inner with
  | none => rfl
  | some b =>
    rw [hfind] at hfits
    exact hfits.elim

/-- Other names stand in the inner frames. -/
theorem exists_of_resolve (h : Follows cx Γ s) {name : String} {site : Site}
    (hsite : Γ.resolve name = site) (hne : site ≠ .free) :
    ∃ b, Scopes.findFrame? name s.inner = some b ∧ site.Fits Γ.params name (some b) := by
  have hfits := h.frames.fits name
  rw [← Lexical.resolve, hsite] at hfits
  cases hfind : Scopes.findFrame? name s.inner with
  | some b =>
    rw [hfind] at hfits
    exact ⟨b, rfl, hfits⟩
  | none =>
    rw [hfind] at hfits
    cases site with
    | free => exact absurd rfl hne
    | parameter => exact hfits.elim
    | «variable» v => exact hfits.elim

/-- The outermost frame holds assigned injections. -/
theorem holdsInjections (h : Follows cx Γ s) : s.HoldsInjections cx := fun _ _ => h.outermost

/-- A name that is pending or constant stands in the inner frames. -/
theorem findFrame?_of_lookup? (h : Follows cx Γ s) {name : String} {b : Binding}
    (hb : s.lookup? name = some b) (hne : ∀ ty, b ≠ .typed ty) :
    Scopes.findFrame? name s.inner = some b :=
  h.holdsInjections.findFrame?_of_lookup? hb hne

/-- An assignment to a name refines the scopes, and leaves the name with the type of the target and
without a value. -/
theorem assignIdent (h : Follows cx Γ s) {op : AssignOp} {name : String} {value target result : Ty}
    {targetSpan span : Option Span}
    (ha : cx.assignIdent s op name targetSpan value span = .ok (target, result, s')) :
    s.Refines cx s' ∧ s'.lookup? name = some (.typed target) :=
  h.holdsInjections.assignIdent ha

end Follows

/-- An assignment to a member refines the scopes: a value can only come from the injections. -/
theorem Context.refines_assignMember {cx : Context} {s : Scopes} {path : Option String}
    {object : Ty} {property : Ident} {span : Option Span} {a : Ascription}
    (h : cx.member s path object property span = .ok a) (other : String) :
    s.Refines cx (Context.assignMember s (path.getD other) a) := by
  unfold Context.assignMember
  split
  · rename_i v hv
    rcases Context.member_eq_ok h with ⟨p, rfl, hp⟩ | ⟨-, hnone, -⟩
    · rcases (Context.injectedPath?_eq_some hp).2 with ⟨-, hnone⟩ | ⟨-, hresolve⟩
      · simp [hnone] at hv
      · exact Scopes.refines_insertOutermost _ hresolve
    · simp [hnone] at hv
  · exact .refl s

/-- Reading and assigning refine the scopes. -/
theorem Step.refines {cx : Context} {Γ : Lexical} {s s' : Scopes} {ev : Event}
    (h : Step cx Γ s ev s') (hs : Follows cx Γ s) (hev : ev.isAccess = true) : s.Refines cx s' := by
  cases h with
  | enter => cases hev
  | leave => cases hev
  | declare => cases hev
  | readIdent => exact .refl s
  | readMember => exact .refl s
  | assignIdent ha => exact (hs.assignIdent ha).1
  | assignMember ha _ => exact Context.refines_assignMember ha _

/-- What a declared name is bound to fits the variable. -/
theorem Context.holds_declaredBinding {cx : Context} {d : TypedDeclarator}
    (h : ∀ e, d.init = some e → d.ascription = .ofTy e.ty) (index : Nat) :
    Variable.Holds ⟨index, d⟩ (cx.declaredBinding d) := by
  unfold Context.declaredBinding
  cases hinit : d.init with
  | some e =>
    intro _
    rw [h e hinit]
    rfl
  | none =>
    cases cx.injections.get? d.name with
    | some a => exact fun hne => absurd hinit hne
    | none => exact hinit

/-- A declared name is bound in the frame of its scope. -/
theorem ScopeFits.declare {scope : List Variable} {frame : Frame} (h : ScopeFits scope frame)
    {v : Variable} {b : Binding} (hb : v.Holds b) :
    ScopeFits (v :: scope) (frame.insert v.declarator.name b) := by
  intro name
  by_cases hname : name = v.declarator.name
  · rw [hname, Table.get?_insert_self, Lexical.find?, List.find?_cons_of_pos (by simp)]
    exact .some hb
  · rw [Table.get?_insert_of_ne _ hname, Lexical.find?,
      List.find?_cons_of_neg (by simpa using Ne.symm hname)]
    exact h name

/-- Every step keeps the agreement. -/
theorem Step.follows {cx : Context} {Γ : Lexical} {s s' : Scopes} {ev : Event}
    (h : Step cx Γ s ev s') (hs : Follows cx Γ s) : Follows cx (Γ.after ev) s' := by
  have haccess := h.refines hs
  cases h with
  | enter => exact ⟨hs.params, .scope (fun _ => .none) hs.frames, hs.outermost⟩
  | leave hΓ _ =>
    obtain ⟨scope, scopes, frame, frames, hscopes, hinner, -, hrest⟩ := hs.innermost hΓ
    refine ⟨hs.params, ?_, ?_⟩
    · rw [Scopes.pop_of_inner_eq_cons hinner, Lexical.after, hscopes]
      exact hrest
    · rw [Scopes.pop_of_inner_eq_cons hinner]
      exact hs.outermost
  | declare hΓ hinit =>
    obtain ⟨scope, scopes, frame, frames, hscopes, hinner, hscope, hrest⟩ := hs.innermost hΓ
    refine ⟨hs.params, ?_, ?_⟩
    · rw [Scopes.insert_of_inner_eq_cons hinner, Lexical.after, hscopes]
      exact .scope (hscope.declare (Context.holds_declaredBinding hinit _)) hrest
    · rw [Scopes.insert_of_inner_eq_cons hinner]
      exact hs.outermost
  | readIdent => exact hs
  | readMember => exact hs
  | assignIdent => exact hs.refine (haccess rfl)
  | assignMember => exact hs.refine (haccess rfl)

/-! ## The start -/

/-- The frame of the parameters binds each of them to its injected ascription. -/
theorem Function.bodyScopes_eq {injections : Injections} {params : List (Ident × Ascription)}
    (h : ∀ p ∈ params, injections.resolve? p.1.name = some p.2) :
    ∃ frame : Frame, bodyScopes params = ⟨[frame], .empty⟩ ∧ ∀ name, frame.get? name =
      if params.any (fun p => p.1.name == name) then
        (injections.resolve? name).map .ofAscription
      else none := by
  -- The fold is followed from any frame that it may have reached.
  have hfold : ∀ (ps : List (Ident × Ascription)) (frame : Frame),
      (∀ p ∈ ps, injections.resolve? p.1.name = some p.2) →
      ∃ frame' : Frame, ps.foldl (fun scopes p => scopes.insert p.1.name (.ofAscription p.2))
          (⟨[frame], .empty⟩ : Scopes) = ⟨[frame'], .empty⟩ ∧ ∀ name, frame'.get? name =
        if ps.any (fun p => p.1.name == name) then (injections.resolve? name).map .ofAscription
        else frame.get? name := by
    intro ps
    induction ps with
    | nil => exact fun frame _ => ⟨frame, rfl, fun _ => rfl⟩
    | cons p ps ih =>
      intro frame hps
      obtain ⟨frame', hfold, hget⟩ := ih (frame.insert p.1.name (.ofAscription p.2))
        fun q hq => hps q (List.mem_cons_of_mem _ hq)
      refine ⟨frame', hfold, ?_⟩
      intro name
      rw [hget, List.any_cons]
      by_cases hname : name = p.1.name
      · simp [hname, hps p (List.mem_cons_self ..)]
      · have hbeq : (p.1.name == name) = false := by simpa using Ne.symm hname
        rw [Table.get?_insert_of_ne _ hname, hbeq, Bool.false_or]
  exact hfold params .empty h

/-- A function starts in agreement with its lexical scopes. -/
theorem Follows.initial {cx : Context} {params : List (Ident × Ascription)}
    (hnames : cx.params = params.map (·.1.name))
    (h : ∀ p ∈ params, cx.injections.resolve? p.1.name = some p.2) :
    Follows cx (Lexical.initial (params.map fun p => ⟨p.1.name, p.2.ty, p.1.span⟩))
      (Function.bodyScopes params) := by
  obtain ⟨frame, hscopes, hget⟩ := Function.bodyScopes_eq h
  rw [hscopes]
  refine ⟨by simp [Lexical.initial, hnames], .params ⟨?_, ?_⟩, ?_⟩
  · intro name hany
    have hany : params.any (fun p => p.1.name == name) = true := by
      simpa [Lexical.initial] using hany
    obtain ⟨p, hp, hname⟩ := List.any_eq_true.1 hany
    have hname : p.1.name = name := by simpa using hname
    have hresolve : cx.injections.resolve? name = some p.2 := hname ▸ h p hp
    refine ⟨.ofAscription p.2, ?_, ?_⟩
    · rw [hget, if_pos hany, hresolve]
      rfl
    · intro q hq hqname
      -- Two parameters of one name have one injected type.
      obtain ⟨r, hr, rfl⟩ := List.mem_map.1 hq
      have hr' : cx.injections.resolve? name = some r.2 := hqname ▸ h r hr
      rw [hresolve] at hr'
      rw [Option.some.inj hr', Binding.ofAscription]
      split <;> rfl
  · intro name hany
    rw [hget, if_neg]
    simpa [Lexical.initial] using hany
  · intro name b hb
    cases hb

/-- Inference starts in agreement with the lexical scopes, with nothing in the outermost frame and
injected ascriptions in the others, and follows the whole trace from there. -/
theorem Function.infer_starts {f : Function} {injections : Injections} {registry : Registry}
    {t : TypedFunction} (h : f.infer injections registry = .ok t) :
    ∃ s s', Follows (f.context injections registry) (Lexical.initial t.params) s ∧
      s.outermost = .empty ∧
      (∀ frame ∈ s.inner, ∀ name b, frame.get? name = some b →
        ∃ a, injections.resolve? name = some a ∧ b = .ofAscription a) ∧
      Trace (f.context injections registry) (Lexical.initial t.params) s t.events s' := by
  obtain ⟨params, s', hparams, htyped, htrace⟩ := Function.infer_trace h
  obtain ⟨hmap, hresolve⟩ := Function.ascribedParams_eq_ok hparams
  obtain ⟨frame, hscopes, hget⟩ := Function.bodyScopes_eq hresolve
  refine ⟨bodyScopes params, s', ?_, by rw [hscopes], ?_, htrace⟩
  · rw [htyped]
    refine Follows.initial ?_ hresolve
    rw [Function.context, ← hmap, List.map_map]
    rfl
  · intro frame' hframe name b hb
    rw [hscopes, List.mem_singleton] at hframe
    rw [hframe, hget] at hb
    split at hb
    · obtain ⟨a, ha, hab⟩ := Option.map_eq_some_iff.1 hb
      exact ⟨a, ha, hab.symm⟩
    · cases hb

/-- At every point of the trace of a function inference is in agreement with the lexical scopes, and
follows the rest of the trace from there. -/
theorem Function.infer_follows {f : Function} {injections : Injections} {registry : Registry}
    {t : TypedFunction} (h : f.infer injections registry = .ok t) {pre rest : List Event}
    (hevents : t.events = pre ++ rest) :
    ∃ s s', Follows (f.context injections registry) (t.lexicalAfter pre) s ∧
      Trace (f.context injections registry) (t.lexicalAfter pre) s rest s' := by
  obtain ⟨s₀, s', hinitial, -, -, htrace⟩ := Function.infer_starts h
  rw [hevents] at htrace
  obtain ⟨s, hpre, hrest⟩ := htrace.split
  exact ⟨s, s', hpre.keeps Step.follows hinitial, hrest⟩

end Shader
