import Shader.Proofs.Agreement
import Shader.Proofs.Names

/-!
# Assigned constants are constants no longer

The host may fix the value of a parameter, of a free name or of a path such as `env.scale`, and
inference writes it into the tree wherever the name or path is read.  An assignment puts an end to
that: the target has no value, and neither has any read of the same name or path that comes later,
as long as it stands for the same thing.

There are three ways for this to happen.  A parameter has its binding replaced in the frame of the
parameters; a free name enters the outermost frame, and so does a path, under its text.  None of
these is undone when a scope closes (`Step.cleared`), and readers look there first.  Variables never
have a value.
-/

namespace Shader

/-! ## What an assignment leaves behind -/

/-- `site.Cleared name s`: what `name` stands for has no value in the scopes `s`. -/
def Site.Cleared (name : String) (s : Scopes) : Site → Prop
  -- The frames of blocks hold no values.
  | .variable _ => True
  | .parameter => ∃ frame ty, s.inner.getLast? = some frame ∧ frame.get? name = some (.typed ty)
  | .free => (s.outermost.get? name).isSome = true

namespace FramesFit

variable {params : List TypedParam} {scopes : List (List Variable)} {frames : List Frame}

/-- The frame of the parameters is always there. -/
theorem ne_nil (h : FramesFit params scopes frames) : frames ≠ [] := by
  cases h <;> exact List.cons_ne_nil _ _

/-- A parameter is found in the last frame. -/
theorem findFrame?_parameter (h : FramesFit params scopes frames) {name : String}
    (hsite : Lexical.resolveIn params name scopes = .parameter) :
    Scopes.findFrame? name frames = frames.getLast?.bind (·.get? name) := by
  induction h with
  | @params frame _ =>
    rw [Scopes.findFrame?, List.getLast?_singleton, Option.bind_some]
    cases frame.get? name <;> rfl
  | @scope scope frame scopes frames hscope hrest ih =>
    have hrel := hscope name
    rw [Lexical.resolveIn] at hsite
    rw [Scopes.findFrame?, List.getLast?_cons_of_ne_nil hrest.ne_nil]
    revert hrel hsite
    generalize Lexical.find? name scope = v, frame.get? name = b
    intro hsite hrel
    cases hrel with
    | some _ => cases hsite
    | none => exact ih hsite

end FramesFit

/-- Refined frames end with a refined frame. -/
theorem getLast?_refines {frames frames' : List Frame}
    (h : List.Forall₂ Frame.Refines frames frames') :
    Option.Rel Frame.Refines frames.getLast? frames'.getLast? := by
  induction h with
  | nil => exact .none
  | cons hframe hrest ih =>
    cases hrest with
    | nil => exact .some hframe
    | cons _ _ => exact ih

/-- A name with a type and no value keeps both in a refined frame. -/
theorem Frame.Refines.get?_typed {frame frame' : Frame} (h : Frame.Refines frame frame')
    {name : String} {ty : Ty} (hname : frame.get? name = some (.typed ty)) :
    frame'.get? name = some (.typed ty) := by
  have hrefines := h name
  rw [hname] at hrefines
  revert hrefines
  generalize frame'.get? name = b'
  rintro ⟨⟨⟩⟩
  rfl

/-- The outermost frame loses no names. -/
theorem Step.outermost_kept {cx : Context} {Γ : Lexical} {s s' : Scopes} {ev : Event}
    (h : Step cx Γ s ev s') (hs : Follows cx Γ s) {name : String}
    (hname : (s.outermost.get? name).isSome = true) :
    (s'.outermost.get? name).isSome = true := by
  have haccess := h.refines hs
  cases h with
  | enter => exact hname
  | leave hΓ _ =>
    obtain ⟨_, _, frame, frames, -, hinner, -, -⟩ := hs.innermost hΓ
    rwa [Scopes.pop_of_inner_eq_cons hinner]
  | declare hΓ _ =>
    obtain ⟨_, _, frame, frames, -, hinner, -, -⟩ := hs.innermost hΓ
    rwa [Scopes.insert_of_inner_eq_cons hinner]
  | readIdent => exact hname
  | readMember => exact hname
  | assignIdent => exact (haccess rfl).kept hname
  | assignMember => exact (haccess rfl).kept hname

/-- The frame of the parameters is refined at most. -/
theorem Step.params_refines {cx : Context} {Γ : Lexical} {s s' : Scopes} {ev : Event}
    (h : Step cx Γ s ev s') (hs : Follows cx Γ s) :
    Option.Rel Frame.Refines s.inner.getLast? s'.inner.getLast? := by
  have hrefl : List.Forall₂ Frame.Refines s.inner s.inner :=
    List.forall₂_same.2 fun frame _ => .refl frame
  have haccess := h.refines hs
  cases h with
  | enter =>
    rw [Scopes.push, List.getLast?_cons_of_ne_nil hs.frames.ne_nil]
    exact getLast?_refines hrefl
  | leave hΓ _ =>
    obtain ⟨_, _, frame, frames, -, hinner, -, hrest⟩ := hs.innermost hΓ
    rw [Scopes.pop_of_inner_eq_cons hinner, ← List.getLast?_cons_of_ne_nil hrest.ne_nil,
      ← hinner]
    exact getLast?_refines hrefl
  | declare hΓ _ =>
    obtain ⟨_, _, frame, frames, -, hinner, -, hrest⟩ := hs.innermost hΓ
    rw [Scopes.insert_of_inner_eq_cons hinner, List.getLast?_cons_of_ne_nil hrest.ne_nil, hinner,
      List.getLast?_cons_of_ne_nil hrest.ne_nil]
    rw [hinner] at hrefl
    exact getLast?_refines (List.forall₂_cons.1 hrefl).2
  | readIdent => exact getLast?_refines hrefl
  | readMember => exact getLast?_refines hrefl
  | assignIdent => exact getLast?_refines (haccess rfl).inner
  | assignMember => exact getLast?_refines (haccess rfl).inner

/-- What has no value gets none. -/
theorem Step.cleared {cx : Context} {Γ : Lexical} {s s' : Scopes} {ev : Event}
    (h : Step cx Γ s ev s') (hs : Follows cx Γ s) {name : String} {site : Site}
    (hsite : site.Cleared name s) : site.Cleared name s' := by
  cases site with
  | «variable» v => trivial
  | parameter =>
    obtain ⟨frame, ty, hlast, hget⟩ := hsite
    have hrel := h.params_refines hs
    rw [hlast] at hrel
    revert hrel
    unfold Site.Cleared
    generalize s'.inner.getLast? = last
    rintro ⟨hframe⟩
    exact ⟨_, ty, rfl, hframe.get?_typed hget⟩
  | free => exact h.outermost_kept hs hsite

/-- What has no value at some point of a trace has none later. -/
theorem Trace.cleared {cx : Context} {Γ : Lexical} {s s' : Scopes} {evs : List Event}
    (h : Trace cx Γ s evs s') (hs : Follows cx Γ s) {name : String} {site : Site}
    (hsite : site.Cleared name s) : site.Cleared name s' := by
  have hkeeps := h.keeps (I := fun Γ s => Follows cx Γ s ∧ site.Cleared name s)
    (fun hstep hI => ⟨hstep.follows hI.1, hstep.cleared hI.1 hI.2⟩) ⟨hs, hsite⟩
  exact hkeeps.2

/-- The outermost frame loses no names along a trace. -/
theorem Trace.outermost_kept {cx : Context} {Γ : Lexical} {s s' : Scopes} {evs : List Event}
    (h : Trace cx Γ s evs s') (hs : Follows cx Γ s) {name : String}
    (hname : (s.outermost.get? name).isSome = true) :
    (s'.outermost.get? name).isSome = true := by
  have hkept : Site.free.Cleared name s' := h.cleared hs (show Site.free.Cleared name s from hname)
  exact hkept

/-! ## Names -/

namespace Follows

variable {cx : Context} {Γ : Lexical} {s : Scopes} {name : String}

/-- Parameters are looked up in the last of the inner frames. -/
theorem lookup?_of_parameter (h : Follows cx Γ s) (hsite : Γ.resolve name = .parameter) :
    s.lookup? name = s.inner.getLast?.bind (·.get? name) := by
  obtain ⟨b, hfind, -⟩ := h.exists_of_resolve hsite nofun
  rw [Scopes.lookup?_of_findFrame?_eq_some hfind, ← h.frames.findFrame?_parameter hsite, hfind]

/-- A name with a type and no value is cleared. -/
theorem cleared_of_lookup? (h : Follows cx Γ s) {ty : Ty}
    (hlookup : s.lookup? name = some (.typed ty)) : (Γ.resolve name).Cleared name s := by
  cases hsite : Γ.resolve name with
  | «variable» v => trivial
  | parameter =>
    rw [h.lookup?_of_parameter hsite] at hlookup
    obtain ⟨frame, hlast, hget⟩ := Option.bind_eq_some_iff.1 hlookup
    exact ⟨frame, ty, hlast, hget⟩
  | free =>
    rw [h.lookup?_of_free hsite] at hlookup
    exact Option.isSome_of_mem hlookup

/-- A name that is cleared is read without a value. -/
theorem ident_of_cleared (h : Follows cx Γ s) (hsite : (Γ.resolve name).Cleared name s)
    {span : Option Span} {a : Ascription} (ha : cx.ident s name span = .ok a) : a.value = none := by
  have hbound : ∃ b, s.lookup? name = some b ∧ ∀ ty v, b ≠ .constant ty v := by
    cases hresolve : Γ.resolve name with
    | «variable» v =>
      obtain ⟨b, hfind, hfits⟩ := h.exists_of_resolve hresolve nofun
      refine ⟨b, Scopes.lookup?_of_findFrame?_eq_some hfind, ?_⟩
      rintro ty value rfl
      exact hfits
    | parameter =>
      rw [hresolve] at hsite
      obtain ⟨frame, ty, hlast, hget⟩ := hsite
      exact ⟨.typed ty, by rw [h.lookup?_of_parameter hresolve, hlast]; exact hget, by simp⟩
    | free =>
      rw [hresolve] at hsite
      obtain ⟨b, hb⟩ := Option.isSome_iff_exists.1 hsite
      obtain ⟨a, -, rfl⟩ := h.outermost hb
      exact ⟨_, (h.lookup?_of_free hresolve).trans hb, by simp⟩
  obtain ⟨b, hlookup, hb⟩ := hbound
  rcases Context.ident_eq_ok ha with ⟨-, hvalue⟩ | ⟨v, hconstant, -⟩ | ⟨hnone, -⟩ | ⟨hnone, -⟩
  · exact hvalue
  · exact absurd (Option.some.inj (hlookup.symm.trans hconstant)) (hb _ _)
  · cases hlookup.symm.trans hnone
  · cases hlookup.symm.trans hnone

end Follows

/-- A name that was assigned is read without a value. -/
theorem Trace.value_of_ident {cx : Context} {Γ : Lexical} {s s₁ s₂ s₃ : Scopes} {op : AssignOp}
    {name : String} {m₁ m₂ : Mark} {value : TypedExpr} {mid : List Event}
    (hassign : Step cx Γ s (.assign op (.ident name m₁) value) s₁) (hs : Follows cx Γ s)
    (hmid : Trace cx Γ s₁ mid s₂) (hread : Step cx (Γ.run mid) s₂ (.read (.ident name m₂)) s₃)
    (hsite : Γ.resolve name = (Γ.run mid).resolve name) : m₂.ascription.value = none := by
  have hs₁ : Follows cx Γ s₁ := hassign.follows hs
  have hs₂ : Follows cx (Γ.run mid) s₂ := hmid.keeps Step.follows hs₁
  cases hassign with
  | assignIdent ha =>
    have hcleared := hmid.cleared hs₁ (hs₁.cleared_of_lookup? (hs.assignIdent ha).2)
    rw [hsite] at hcleared
    cases hread with
    | readIdent hr => exact hs₂.ident_of_cleared hcleared hr

/-! ## Paths -/

namespace Context

variable {cx : Context} {s : Scopes} {path : String}

/-- A path is not injectable when its root is a local name, and no parameter. -/
theorem isInjectable_eq_false_iff :
    cx.isInjectable s path = false ↔
      root path ∉ cx.params ∧ (s.lookup? (root path)).isSome = true := by
  simp [isInjectable]

/-- Where the scopes do not have a path, its ascription comes from the injections. -/
theorem injectedPath?_of_lookup?_eq_none (hinjectable : cx.isInjectable s path = true)
    (hlookup : s.lookup? path = none) : cx.injectedPath? s path = cx.injections.resolve? path := by
  rw [injectedPath?, if_pos hinjectable, hlookup]
  rfl

/-- An injected path has its ascription, whatever the registry says. -/
theorem member_of_injectedPath? {object : Ty} {property : Ident} {span : Option Span}
    {a : Ascription} (h : cx.injectedPath? s path = some a) :
    cx.member s (some path) object property span = .ok a := by
  rw [member, Option.bind_some, h]

end Context

/-- A path whose root stands for the same thing is as little injectable later as it is now. -/
theorem Trace.isInjectable_eq_false {cx : Context} {Γ : Lexical} {s s' : Scopes} {evs : List Event}
    {path : String} (h : Trace cx Γ s evs s') (hs : Follows cx Γ s)
    (hsite : Γ.resolve (Context.root path) = (Γ.run evs).resolve (Context.root path))
    (hinjectable : cx.isInjectable s path = false) : cx.isInjectable s' path = false := by
  have hs' : Follows cx (Γ.run evs) s' := h.keeps Step.follows hs
  obtain ⟨hparams, hbound⟩ := Context.isInjectable_eq_false_iff.1 hinjectable
  refine Context.isInjectable_eq_false_iff.2 ⟨hparams, ?_⟩
  by_cases hfree : Γ.resolve (Context.root path) = .free
  · -- A free name that is bound was assigned.
    rw [hs.lookup?_of_free hfree] at hbound
    rw [hs'.lookup?_of_free (hsite.symm.trans hfree)]
    exact h.outermost_kept hs hbound
  · obtain ⟨b, hfind, -⟩ := hs'.exists_of_resolve hsite.symm hfree
    rw [Scopes.lookup?_of_findFrame?_eq_some hfind]
    rfl

/-- A path that has a value by injection enters the outermost frame when it is assigned. -/
theorem Step.assigned_path {cx : Context} {Γ : Lexical} {s s' : Scopes} {op : AssignOp}
    {object value : TypedExpr} {property path : String} {m : Mark}
    (h : Step cx Γ s (.assign op (.member object property m) value) s') (hs : Follows cx Γ s)
    (hpath : (TypedExpr.member object property m).path? = some path)
    (hfree : Γ.resolve path = .free) (hinjectable : cx.isInjectable s path = true) {a : Ascription}
    (hresolve : cx.injections.resolve? path = some a) (hvalue : a.value ≠ none) :
    (s'.outermost.get? path).isSome = true := by
  by_cases hget : (s.outermost.get? path).isSome = true
  · exact h.outermost_kept hs hget
  have hlookup : s.lookup? path = none := by
    rw [hs.lookup?_of_free hfree]
    exact Option.not_isSome_iff_eq_none.1 hget
  have hinjected := (Context.injectedPath?_of_lookup?_eq_none hinjectable hlookup).trans hresolve
  cases h with
  | @assignMember _ _ _ _ b _ _ targetSpan _ hmember _ =>
    have hpath' : (TypedExpr.member object property ⟨b, targetSpan⟩).path? = some path := hpath
    rw [hpath', Context.member_of_injectedPath? hinjected] at hmember
    obtain rfl := Except.ok.inj hmember
    obtain ⟨v, hv⟩ := Option.ne_none_iff_exists'.1 hvalue
    rw [TypedExpr.describe, hpath', Option.getD_some, Context.assignMember, hv,
      Scopes.insertOutermost, Table.get?_insert_self]
    rfl

/-- A path that is read with a value has it from the injections, and was not assigned. -/
theorem Step.read_path {cx : Context} {Γ : Lexical} {s s' : Scopes} {object : TypedExpr}
    {property path : String} {m : Mark} (h : Step cx Γ s (.read (.member object property m)) s')
    (hs : Follows cx Γ s) (hpath : (TypedExpr.member object property m).path? = some path)
    (hfree : Γ.resolve path = .free) (hvalue : m.ascription.value ≠ none) :
    s.outermost.get? path = none ∧ cx.isInjectable s path = true ∧
      cx.injections.resolve? path = some m.ascription := by
  cases h with
  | readMember hmember =>
    rcases Context.member_eq_ok hmember with ⟨p, hp, hinjected⟩ | ⟨-, hnone, -⟩
    · obtain rfl : path = p := Option.some.inj (hpath.symm.trans hp)
      obtain ⟨hinjectable, ⟨-, hnone⟩ | ⟨hty, hresolve⟩⟩ := Context.injectedPath?_eq_some hinjected
      · exact absurd hnone hvalue
      · refine ⟨?_, hinjectable, hresolve⟩
        -- The outermost frame has nothing without a type.
        rw [hs.lookup?_of_free hfree] at hty
        cases hget : s.outermost.get? path with
        | none => rfl
        | some b =>
          obtain ⟨a, -, rfl⟩ := hs.outermost hget
          rw [hget] at hty
          cases hty
    · exact absurd hnone hvalue

/-- A path that was assigned is read without a value. -/
theorem Trace.value_of_member {cx : Context} {Γ : Lexical} {s s₁ s₂ s₃ : Scopes} {op : AssignOp}
    {o₁ o₂ value : TypedExpr} {p₁ p₂ path : String} {m₁ m₂ : Mark} {mid : List Event}
    (hassign : Step cx Γ s (.assign op (.member o₁ p₁ m₁) value) s₁) (hs : Follows cx Γ s)
    (hmid : Trace cx Γ s₁ mid s₂) (hread : Step cx (Γ.run mid) s₂ (.read (.member o₂ p₂ m₂)) s₃)
    (hpath₁ : (TypedExpr.member o₁ p₁ m₁).path? = some path)
    (hpath₂ : (TypedExpr.member o₂ p₂ m₂).path? = some path)
    (hfree₁ : Γ.resolve path = .free) (hfree₂ : (Γ.run mid).resolve path = .free)
    (hsite : Γ.resolve (Context.root path) = (Γ.run mid).resolve (Context.root path)) :
    m₂.ascription.value = none := by
  have hs₁ : Follows cx Γ s₁ := hassign.follows hs
  have hs₂ : Follows cx (Γ.run mid) s₂ := hmid.keeps Step.follows hs₁
  by_contra hvalue
  obtain ⟨hnone, hinjectable, hresolve⟩ := hread.read_path hs₂ hpath₂ hfree₂ hvalue
  have hassigned : Trace cx Γ s (.assign op (.member o₁ p₁ m₁) value :: mid) s₂ :=
    .cons hassign hmid
  cases hinjectable₁ : cx.isInjectable s path with
  | false =>
    have hlater := hassigned.isInjectable_eq_false hs hsite hinjectable₁
    exact Bool.false_ne_true (hlater.symm.trans hinjectable)
  | true =>
    have hkept := hassign.assigned_path hs hpath₁ hfree₁ hinjectable₁ hresolve hvalue
    have hlater : (s₂.outermost.get? path).isSome = true := hmid.outermost_kept hs₁ hkept
    rw [hnone] at hlater
    cases hlater

/-! ## Functions -/

/-- What the name at the root of a chain of members stands for. -/
def TypedExpr.site? (Γ : Lexical) (e : TypedExpr) : Option Site := e.root?.map Γ.resolve

/-- The target of an assignment has no value. -/
theorem Step.target_value {cx : Context} {Γ : Lexical} {s s' : Scopes} {op : AssignOp}
    {target value : TypedExpr} (h : Step cx Γ s (.assign op target value) s') :
    target.ascription.value = none := by
  cases h with
  | assignIdent _ => rfl
  | assignMember _ _ => rfl

/-- Where no name has a dot in it, an assigned place is read without a value as long as its root
stands for the same thing. -/
theorem Trace.value_of_place {cx : Context} {Γ : Lexical} {s s₁ s₂ s₃ : Scopes} {op : AssignOp}
    {target value e : TypedExpr} {path : String} {mid : List Event}
    (hassign : Step cx Γ s (.assign op target value) s₁) (hs : Follows cx Γ s)
    (hmid : Trace cx Γ s₁ mid s₂) (hread : Step cx (Γ.run mid) s₂ (.read e) s₃)
    (hpath₁ : target.path? = some path) (hpath₂ : e.path? = some path)
    (hdots₁ : ∀ name ∈ target.erase.names, '.' ∉ name.toList)
    (hdots₂ : ∀ name ∈ e.erase.names, '.' ∉ name.toList)
    (hfree₁ : '.' ∈ path.toList → Γ.resolve path = .free)
    (hfree₂ : '.' ∈ path.toList → (Γ.run mid).resolve path = .free)
    (hsite : target.site? Γ = e.site? (Γ.run mid)) : e.ascription.value = none := by
  obtain ⟨root₁, -, hroot₁, hmem₁, -⟩ := TypedExpr.path?_eq_root hpath₁
  obtain ⟨root₂, -, hroot₂, hmem₂, -⟩ := TypedExpr.path?_eq_root hpath₂
  have heq₁ := TypedExpr.root_eq hpath₁ hroot₁ (hdots₁ _ hmem₁)
  have heq₂ := TypedExpr.root_eq hpath₂ hroot₂ (hdots₂ _ hmem₂)
  have hresolve : Γ.resolve (Context.root path) = (Γ.run mid).resolve (Context.root path) := by
    rw [TypedExpr.site?, TypedExpr.site?, hroot₁, hroot₂, ← heq₁, ← heq₂] at hsite
    exact Option.some.inj hsite
  -- Only names are paths without a dot, so the target and the place are of one kind.
  cases target with
  | ident n m₁ =>
    obtain rfl := Option.some.inj hpath₁
    obtain rfl := Option.some.inj hroot₁
    rw [heq₁] at hresolve
    cases e with
    | ident n' m₂ =>
      obtain rfl := Option.some.inj hpath₂
      exact Trace.value_of_ident hassign hs hmid hread hresolve
    | member o₂ p₂ m₂ => exact absurd (TypedExpr.dot_mem_path hpath₂) (hdots₁ _ hmem₁)
    | _ => cases hpath₂
  | member o₁ p₁ m₁ =>
    have hdot := TypedExpr.dot_mem_path hpath₁
    cases e with
    | ident n m₂ =>
      obtain rfl := Option.some.inj hpath₂
      exact absurd hdot (hdots₂ _ (List.mem_singleton_self _))
    | member o₂ p₂ m₂ =>
      exact Trace.value_of_member hassign hs hmid hread hpath₁ hpath₂ (hfree₁ hdot) (hfree₂ hdot)
        hresolve
    | _ => cases hpath₂
  | _ => cases hpath₁

/-- In a function whose names have no dots in them, the target of an assignment has no value, and
neither has a later read of the same name or path whose root stands for the same variable, parameter
or injection.  The trace has every name and member of the function, and every assignment. -/
theorem Function.assigned_values_are_dropped {f : Function} {injections : Injections}
    {registry : Registry} {t : TypedFunction} (h : f.infer injections registry = .ok t)
    (hdots : ∀ name ∈ f.names, '.' ∉ name.toList) :
    (t.events.filterMap Event.place?).Perm (t.exprs.filter TypedExpr.isPlace) ∧
    (t.events.filterMap Event.assignment?).Perm (t.exprs.filterMap TypedExpr.assignment?) ∧
    ∀ (pre : List Event) (op : AssignOp) (target value : TypedExpr) (rest : List Event),
      t.events = pre ++ .assign op target value :: rest →
      target.ascription.value = none ∧
      ∀ (mid : List Event) (e : TypedExpr) (post : List Event) (path : String),
        rest = mid ++ .read e :: post → target.path? = some path → e.path? = some path →
        target.site? (t.lexicalAfter pre) =
          e.site? (t.lexicalAfter (pre ++ .assign op target value :: mid)) →
        e.ascription.value = none := by
  refine ⟨t.places_perm, t.assignments_perm, ?_⟩
  intro pre op target value rest hevents
  obtain ⟨s, s', hs, htrace⟩ := Function.infer_follows h hevents
  cases htrace with
  | @cons _ _ s₁ _ _ _ hassign hrest =>
    refine ⟨hassign.target_value, ?_⟩
    rintro mid e post path rfl hpath₁ hpath₂ hsite
    obtain ⟨s₂, hmid, hread⟩ := hrest.split
    have hlater : t.lexicalAfter (pre ++ .assign op target value :: mid)
        = (t.lexicalAfter pre).run mid := Lexical.run_append _ _ _
    have hevents' : t.events = (pre ++ .assign op target value :: mid) ++ .read e :: post := by
      rw [hevents, List.append_assoc, List.cons_append]
    -- What has a dot in it is not the name of anything that the function declares.
    have hfree : ∀ {front back : List Event}, t.events = front ++ back → '.' ∈ path.toList →
        (t.lexicalAfter front).resolve path = .free := by
      intro front back hcut hdot
      by_contra hne
      exact hdots _ (Function.mem_names_of_resolve_ne_free h hcut hne) hdot
    have hnames : ∀ ev ∈ t.events, ∀ name ∈ ev.names, '.' ∉ name.toList :=
      fun ev hev name hname => hdots _ (Function.mem_names_of_mem_events h hev hname)
    cases hread with
    | cons hread _ =>
      rw [hlater] at hsite
      refine Trace.value_of_place hassign hs hmid hread hpath₁ hpath₂
        (hnames (.assign op target value) (by simp [hevents]))
        (hnames (.read e) (by simp [hevents])) (hfree hevents) ?_ hsite
      rw [← hlater]
      exact hfree hevents'

/-- In the sample function `env.on` is true by injection until it is assigned, and the last read of
it has no value. -/
theorem Sample.last_on_has_no_value :
    Sample.shade.infer Sample.injections ⟨[]⟩ = .ok Sample.typedShade ∧
    (∀ name ∈ Sample.shade.names, '.' ∉ name.toList) ∧
    ∃ pre op target value mid e post,
      Sample.typedShade.events = pre ++ .assign op target value :: (mid ++ .read e :: post) ∧
      e.path? = some "env.on" ∧ e.ascription.value = none := by
  have hevents : Sample.typedShade.events = Sample.typedShade.events.take 8 ++
      .assign .plain (Sample.typedOn none) (.ident "c" (Sample.mark .boolean)) ::
        ((Sample.typedShade.events.drop 9).take 6 ++
          .read (Sample.typedOn none) :: Sample.typedShade.events.drop 16) := rfl
  have hdots : ∀ name ∈ Sample.shade.names, '.' ∉ name.toList := by decide
  have hvalues :=
    (Function.assigned_values_are_dropped Sample.infer_shade hdots).2.2 _ _ _ _ _ hevents
  exact ⟨Sample.infer_shade, hdots, _, _, _, _, _, _, _, hevents, rfl,
    hvalues.2 _ _ _ _ rfl rfl rfl rfl⟩

end Shader
