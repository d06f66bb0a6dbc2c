import Shader.Proofs.Demotion
import Shader.Proofs.WellTyped

/-!
# When a member has its injected constant

The host may fix the value of a path such as `env.scale`.  Which reads of the path have this value
depends on the trace before them and on nothing else: on what the name at the root of the path
stands for, and on the assignments so far.  `Function.value_of_member_iff` gives the exact
condition.

An assignment leaves its mark in the outermost frame, under the text of its target, and nothing else
gets there (`Trace.outermost_origin`).  So an assignment to a free name hides the paths below it, as
inference finds the root among its scopes.  The root of a path is not looked up when it is the name
of a parameter.  Then neither an assignment to the parameter hides the path, nor does a variable of
the same name.  Assigning a member never hides the paths below it.
-/

namespace Shader

/-! ## The assignments of a trace -/

/-- The name or path that an event assigns, with what its root stands for. -/
def Event.assigned? (Γ : Lexical) : Event → Option (String × Site)
  | .assign _ target _ => target.path?.map fun path => (path, Γ.resolve (Context.root path))
  | _ => none

/-- The names and paths that a stretch of a trace assigns, each with what its root stands for at the
time. -/
def Lexical.assigned (Γ : Lexical) : List Event → List (String × Site)
  | [] => []
  | ev :: rest => (ev.assigned? Γ).toList ++ (Γ.after ev).assigned rest

/-- The names and paths that a function assigns with its first events. -/
def TypedFunction.assignedBefore (t : TypedFunction) (events : List Event) :
    List (String × Site) :=
  (Lexical.initial t.params).assigned events

/-- The assignments of one stretch come before those of the next. -/
theorem Lexical.assigned_append (Γ : Lexical) (xs ys : List Event) :
    Γ.assigned (xs ++ ys) = Γ.assigned xs ++ (Γ.run xs).assigned ys := by
  induction xs generalizing Γ with
  | nil => rfl
  | cons ev xs ih => rw [List.cons_append, assigned, assigned, ih, List.append_assoc, run_cons]

/-- A path is assigned in a stretch of a trace where some event of it has the path as its target. -/
theorem Lexical.mem_assigned_iff {Γ : Lexical} {evs : List Event} {path : String} {site : Site} :
    (path, site) ∈ Γ.assigned evs ↔
      ∃ front op target value back, evs = front ++ .assign op target value :: back ∧
        target.path? = some path ∧ (Γ.run front).resolve (Context.root path) = site := by
  constructor
  · intro h
    induction evs generalizing Γ with
    | nil => cases h
    | cons ev evs ih =>
      rcases List.mem_append.1 h with h | h
      · cases ev with
        | assign op target value =>
          have hassigned := Option.mem_toList.1 h
          obtain ⟨p, hpath, heq⟩ := Option.map_eq_some_iff.1 hassigned
          obtain ⟨rfl, rfl⟩ := Prod.mk.inj heq
          exact ⟨[], op, target, value, evs, rfl, hpath, rfl⟩
        | _ => cases h
      · obtain ⟨front, op, target, value, back, rfl, hpath, hsite⟩ := ih h
        exact ⟨ev :: front, op, target, value, back, rfl, hpath, hsite⟩
  · rintro ⟨front, op, target, value, back, rfl, hpath, rfl⟩
    rw [assigned_append]
    refine List.mem_append_right _ (List.mem_append_left _ ?_)
    simp [Event.assigned?, hpath]

/-- A name without dots is its own root. -/
theorem Context.root_of_no_dot {name : String} (h : '.' ∉ name.toList) : root name = name :=
  TypedExpr.root_eq (e := .ident name ⟨.ofTy .undefined, none⟩) rfl rfl h

/-- The paths below a name without dots have it as their root. -/
theorem Context.root_of_isBelow {name path : String} (h : Injections.isBelow name path = true)
    (hdot : '.' ∉ name.toList) : root path = name := by
  obtain ⟨rest, hrest⟩ := List.isPrefixOf_iff_prefix.1 h
  have hall : ∀ c ∈ name.toList, (c != '.') = true := by
    intro c hc
    simpa using ne_of_mem_of_not_mem hc hdot
  rw [root, ← hrest, List.append_assoc, List.takeWhile_append_of_pos hall]
  simp

/-! ## What the outermost frame holds -/

namespace Follows

variable {cx : Context} {Γ : Lexical} {s : Scopes}

/-- A name that is found nowhere is free. -/
theorem resolve_of_lookup?_eq_none (h : Follows cx Γ s) {name : String}
    (hlookup : s.lookup? name = none) : Γ.resolve name = .free := by
  by_contra hne
  obtain ⟨b, hfind, -⟩ := h.exists_of_resolve rfl hne
  rw [Scopes.lookup?_of_findFrame?_eq_some hfind] at hlookup
  cases hlookup

/-- Where the root of a path is a parameter's name the path may stand for an injection.  Otherwise
the root has to be free, and must not have been assigned. -/
theorem isInjectable_iff (h : Follows cx Γ s) {path : String} :
    cx.isInjectable s path = true ↔
      Context.root path ∈ cx.params ∨
        (Γ.resolve (Context.root path) = .free ∧ s.outermost.get? (Context.root path) = none) := by
  rw [Context.isInjectable, Bool.or_eq_true, List.contains_iff_mem, Option.isNone_iff_eq_none]
  refine or_congr_right ⟨fun hlookup => ?_, ?_⟩
  · have hfree := h.resolve_of_lookup?_eq_none hlookup
    exact ⟨hfree, by rw [← h.lookup?_of_free hfree, hlookup]⟩
  · rintro ⟨hfree, hget⟩
    rw [h.lookup?_of_free hfree, hget]

end Follows

/-- The outermost frame is what it was when a name is bound anew that an inner frame has. -/
theorem Scopes.outermost_set {s : Scopes} {name : String} {b b' : Binding}
    (h : findFrame? name s.inner = some b) (hb : b.Refines b') :
    (s.set name b').outermost = s.outermost := by
  obtain ⟨frames, hset, -, -⟩ := setFrame?_of_findFrame? h hb
  rw [set_of_setFrame?_eq_some hset]

/-- A name in the outermost frame was there before, or is the one that was put there. -/
theorem Scopes.isSome_of_insertOutermost {s : Scopes} {name other : String} {b : Binding}
    (h : ((s.insertOutermost other b).outermost.get? name).isSome = true) :
    (s.outermost.get? name).isSome = true ∨ name = other := by
  by_cases hname : name = other
  · exact .inr hname
  · rw [insertOutermost, Table.get?_insert_of_ne _ hname] at h
    exact .inl h

/-- What is new in the outermost frame has just been assigned.  Its root was free then, unless it is
a path and its root a parameter's name. -/
theorem Step.outermost_origin {cx : Context} {Γ : Lexical} {s s' : Scopes} {ev : Event}
    (h : Step cx Γ s ev s') (hs : Follows cx Γ s) (hdots : ∀ n ∈ ev.names, '.' ∉ n.toList)
    {name : String} (hname : (s'.outermost.get? name).isSome = true) :
    (s.outermost.get? name).isSome = true ∨ ∃ site, (name, site) ∈ ev.assigned? Γ ∧
      (site = .free ∨ ('.' ∈ name.toList ∧ Context.root name ∈ cx.params)) := by
  cases h with
  | enter => exact .inl hname
  | leave hΓ _ =>
    obtain ⟨_, _, frame, frames, -, hinner, -, -⟩ := hs.innermost hΓ
    rw [Scopes.pop_of_inner_eq_cons hinner] at hname
    exact .inl hname
  | declare hΓ _ =>
    obtain ⟨_, _, frame, frames, -, hinner, -, -⟩ := hs.innermost hΓ
    rw [Scopes.insert_of_inner_eq_cons hinner] at hname
    exact .inl hname
  | readIdent => exact .inl hname
  | readMember => exact .inl hname
  | assignIdent ha =>
    rcases Context.assignIdent_eq_ok ha with ⟨-, -, rfl⟩ | ⟨v, hlookup, -, rfl⟩ |
      ⟨hlookup, -, -, -, rfl⟩ | ⟨hlookup, -, -, rfl⟩
    · exact .inl hname
    · have hfind := hs.findFrame?_of_lookup? hlookup (by simp)
      rw [Scopes.outermost_set hfind .demoted] at hname
      exact .inl hname
    · have hfind := hs.findFrame?_of_lookup? hlookup (by simp)
      rw [Scopes.outermost_set hfind .settled] at hname
      exact .inl hname
    · rcases Scopes.isSome_of_insertOutermost hname with hname | rfl
      · exact .inl hname
      · have hroot := Context.root_of_no_dot (hdots name (List.mem_singleton_self _))
        refine .inr ⟨Γ.resolve (Context.root name), rfl, .inl ?_⟩
        rw [hroot]
        exact hs.resolve_of_lookup?_eq_none hlookup
  | assignMember hmember _ =>
    unfold Context.assignMember at hname
    split at hname
    · rename_i v hv
      rcases Context.member_eq_ok hmember with ⟨path, hpath, hinjected⟩ | ⟨-, hnone, -⟩
      · rw [TypedExpr.describe, hpath] at hname
        rcases Scopes.isSome_of_insertOutermost hname with hname | rfl
        · exact .inl hname
        · refine .inr ⟨Γ.resolve (Context.root name), ?_, ?_⟩
          · exact Option.map_eq_some_iff.2 ⟨name, hpath, rfl⟩
          · have hinjectable := (Context.injectedPath?_eq_some hinjected).1
            rcases hs.isInjectable_iff.1 hinjectable with hroot | ⟨hfree, -⟩
            · exact .inr ⟨TypedExpr.dot_mem_path hpath, hroot⟩
            · exact .inl hfree
      · cases hv.symm.trans hnone
    · exact .inl hname

/-- What the outermost frame holds was there at the start of the trace, or has been assigned along
it. -/
theorem Trace.outermost_origin {cx : Context} {Γ : Lexical} {s s' : Scopes} {evs : List Event}
    (h : Trace cx Γ s evs s') (hs : Follows cx Γ s)
    (hdots : ∀ ev ∈ evs, ∀ n ∈ ev.names, '.' ∉ n.toList) {name : String}
    (hname : (s'.outermost.get? name).isSome = true) :
    (s.outermost.get? name).isSome = true ∨ ∃ site, (name, site) ∈ Γ.assigned evs ∧
      (site = .free ∨ ('.' ∈ name.toList ∧ Context.root name ∈ cx.params)) := by
  induction h with
  | nil => exact .inl hname
  | @cons Γ s s₁ s₂ ev evs hstep _ ih =>
    have hlater := ih (hstep.follows hs) (fun ev hev => hdots ev (List.mem_cons_of_mem _ hev)) hname
    rcases hlater with hname₁ | ⟨site, hmem, hsite⟩
    · rcases hstep.outermost_origin hs (hdots ev (List.mem_cons_self ..)) hname₁ with
        hname₀ | ⟨site, hmem, hsite⟩
      · exact .inl hname₀
      · exact .inr ⟨site, List.mem_append_left _ (Option.mem_toList.2 hmem), hsite⟩
    · exact .inr ⟨site, List.mem_append_right _ hmem, hsite⟩

/-- A free name that has been assigned is in the outermost frame. -/
theorem Trace.outermost_of_assigned_name {cx : Context} {Γ : Lexical} {s s' : Scopes}
    {evs : List Event} (h : Trace cx Γ s evs s') (hs : Follows cx Γ s) {name : String}
    (hdot : '.' ∉ name.toList) (hassigned : (name, Site.free) ∈ Γ.assigned evs) :
    (s'.outermost.get? name).isSome = true := by
  obtain ⟨front, op, target, value, back, rfl, hpath, hfree⟩ :=
    Lexical.mem_assigned_iff.1 hassigned
  rw [Context.root_of_no_dot hdot] at hfree
  obtain ⟨s₁, hfront, hrest⟩ := h.split
  have hs₁ : Follows cx (Γ.run front) s₁ := hfront.keeps Step.follows hs
  cases hrest with
  | @cons _ _ s₂ _ _ _ hstep hback =>
    have hs₂ : Follows cx (Γ.run front) s₂ := hstep.follows hs₁
    refine hback.outermost_kept hs₂ ?_
    cases hstep with
    | assignIdent ha =>
      obtain rfl := Option.some.inj hpath
      rw [← hs₂.lookup?_of_free hfree, (hs₁.assignIdent ha).2]
      rfl
    | assignMember _ _ => exact absurd (TypedExpr.dot_mem_path hpath) hdot

/-- A path with a constant that has been assigned is in the outermost frame, or its root is: unless
its root stood for a variable at the time, which has no parameter's name. -/
theorem Trace.outermost_of_assigned_path {cx : Context} {Γ : Lexical} {s s' : Scopes}
    {evs : List Event} (h : Trace cx Γ s evs s') (hs : Follows cx Γ s) {path : String} {site : Site}
    (hdots : ∀ ev ∈ evs, ∀ n ∈ ev.names, '.' ∉ n.toList) (hdot : '.' ∈ path.toList)
    (hfree : ∀ front back, evs = front ++ back → (Γ.run front).resolve path = .free)
    (hassigned : (path, site) ∈ Γ.assigned evs)
    (hsite : Context.root path ∈ cx.params ∨ site = .free) {a : Ascription}
    (hresolve : cx.injections.resolve? path = some a) (hvalue : a.value ≠ none) :
    (s'.outermost.get? path).isSome = true ∨
      (Context.root path ∉ cx.params ∧ (s'.outermost.get? (Context.root path)).isSome = true) := by
  obtain ⟨front, op, target, value, back, rfl, hpath, rfl⟩ :=
    Lexical.mem_assigned_iff.1 hassigned
  have hpoint := hfree front _ rfl
  obtain ⟨s₁, hfront, hrest⟩ := h.split
  have hs₁ : Follows cx (Γ.run front) s₁ := hfront.keeps Step.follows hs
  cases hinjectable : cx.isInjectable s₁ path with
  | true =>
    left
    cases hrest with
    | @cons _ _ s₂ _ _ _ hstep hback =>
      have hs₂ : Follows cx (Γ.run front) s₂ := hstep.follows hs₁
      refine hback.outermost_kept hs₂ ?_
      cases target with
      | ident n m =>
        obtain rfl := Option.some.inj hpath
        have hnames := hdots (.assign op (.ident n m) value) (by simp)
        exact absurd hdot (hnames n (List.mem_singleton_self _))
      | member object property m =>
        exact hstep.assigned_path hs₁ hpath hpoint hinjectable hresolve hvalue
      | _ => cases hpath
  | false =>
    -- The root was found in the scopes, so it had been assigned before.
    right
    obtain ⟨hparams, hbound⟩ := Context.isInjectable_eq_false_iff.1 hinjectable
    refine ⟨hparams, hrest.outermost_kept hs₁ ?_⟩
    rw [← hs₁.lookup?_of_free (hsite.resolve_left hparams)]
    exact hbound

section

variable {cx : Context} {Γ : Lexical} {s s' : Scopes} {evs : List Event}

/-- From an empty frame on, a name is missing in the outermost frame as long as it has not been
assigned where it was free. -/
theorem Trace.outermost_name_iff (h : Trace cx Γ s evs s') (hs : Follows cx Γ s)
    (hempty : s.outermost = .empty) (hdots : ∀ ev ∈ evs, ∀ n ∈ ev.names, '.' ∉ n.toList)
    {name : String} (hdot : '.' ∉ name.toList) :
    s'.outermost.get? name = none ↔ (name, Site.free) ∉ Γ.assigned evs := by
  constructor
  · intro hnone hmem
    have hsome := h.outermost_of_assigned_name hs hdot hmem
    rw [hnone] at hsome
    cases hsome
  · intro hmem
    by_contra hne
    rcases h.outermost_origin hs hdots (Option.isSome_iff_ne_none.2 hne) with
      hstart | ⟨site, hassigned, rfl | ⟨hdot', -⟩⟩
    · rw [hempty] at hstart
      cases hstart
    · exact hmem hassigned
    · exact hdot hdot'

/-- From an empty frame on, a path with a constant that may stand for an injection is missing in the
outermost frame as long as it has not been assigned where its root was free or a parameter's
name. -/
theorem Trace.outermost_path_iff (h : Trace cx Γ s evs s') (hs : Follows cx Γ s)
    (hempty : s.outermost = .empty) (hdots : ∀ ev ∈ evs, ∀ n ∈ ev.names, '.' ∉ n.toList)
    {path : String} (hdot : '.' ∈ path.toList)
    (hfree : ∀ front back, evs = front ++ back → (Γ.run front).resolve path = .free)
    {a : Ascription} (hresolve : cx.injections.resolve? path = some a) (hvalue : a.value ≠ none)
    (hroot : Context.root path ∈ cx.params ∨ s'.outermost.get? (Context.root path) = none) :
    s'.outermost.get? path = none ↔ ∀ site, (path, site) ∈ Γ.assigned evs →
      Context.root path ∉ cx.params ∧ site ≠ .free := by
  constructor
  · intro hnone site hmem
    by_contra hsite
    have hsite : Context.root path ∈ cx.params ∨ site = .free := by
      by_contra hneither
      exact hsite (not_or.1 hneither)
    rcases h.outermost_of_assigned_path hs hdots hdot hfree hmem hsite hresolve hvalue with
      hsome | ⟨hparams, hsome⟩
    · rw [hnone] at hsome
      cases hsome
    · rw [hroot.resolve_left hparams] at hsome
      cases hsome
  · intro hassigned
    by_contra hne
    rcases h.outermost_origin hs hdots (Option.isSome_iff_ne_none.2 hne) with
      hstart | ⟨site, hmem, rfl | ⟨-, hparam⟩⟩
    · rw [hempty] at hstart
      cases hstart
    · exact (hassigned _ hmem).2 rfl
    · exact (hassigned _ hmem).1 hparam

end

/-! ## Constants -/

/-- A constant under a path is an entry of its own: records have no value. -/
theorem Injections.resolve?_constant_iff {m : Injections} {path : String} {ty : Ty}
    {v : Constant} : m.resolve? path = some ⟨ty, some v⟩ ↔ m.get? path = some ⟨ty, some v⟩ := by
  unfold Injections.resolve?
  split
  · rename_i a hget
    rw [hget]
  · rename_i hget
    rw [hget]
    split
    · simp [Ascription.ofTy]
    · rfl

/-- A member is read with a value exactly where the path may stand for an injection, has a constant
and was not assigned. -/
theorem Step.read_value_iff {cx : Context} {Γ : Lexical} {s s' : Scopes} {object : TypedExpr}
    {property path : String} {m : Mark} (h : Step cx Γ s (.read (.member object property m)) s')
    (hs : Follows cx Γ s) (hpath : (TypedExpr.member object property m).path? = some path)
    (hfree : Γ.resolve path = .free) {v : Constant} :
    m.ascription.value = some v ↔
      (∃ ty, cx.injections.get? path = some ⟨ty, some v⟩) ∧ cx.isInjectable s path = true ∧
        s.outermost.get? path = none := by
  constructor
  · intro hvalue
    have hne : m.ascription.value ≠ none := by simp [hvalue]
    obtain ⟨hnone, hinjectable, hresolve⟩ := h.read_path hs hpath hfree hne
    have heq : m.ascription = ⟨m.ascription.ty, some v⟩ := by rw [← hvalue]
    rw [heq] at hresolve
    exact ⟨⟨_, Injections.resolve?_constant_iff.1 hresolve⟩, hinjectable, hnone⟩
  · rintro ⟨⟨ty, hget⟩, hinjectable, hnone⟩
    have hlookup : s.lookup? path = none := (hs.lookup?_of_free hfree).trans hnone
    have hinjected := Context.injectedPath?_of_lookup?_eq_none hinjectable hlookup
    rw [Injections.resolve?_constant_iff.2 hget] at hinjected
    cases h with
    | readMember hmember =>
      rw [hpath, Context.member_of_injectedPath? hinjected] at hmember
      rw [← Except.ok.inj hmember]

/-! ## Reads -/

/-- The names of a place are those of the event that reads or assigns it. -/
theorem Event.names_of_place? {ev : Event} {e : TypedExpr} (h : ev.place? = some e) :
    ev.names = e.erase.names := by
  cases ev with
  | read e' =>
    obtain rfl := Option.some.inj h
    rfl
  | assign op target value =>
    rw [place?] at h
    split at h
    · obtain rfl := Option.some.inj h
      rfl
    · cases h
  | _ => cases h

namespace Function

variable {f : Function} {injections : Injections} {registry : Registry} {t : TypedFunction}

/-- What has a dot in it is not the name of anything that the function declares. -/
theorem resolve_of_dot (h : f.infer injections registry = .ok t)
    (hdots : ∀ name ∈ f.names, '.' ∉ name.toList) {pre rest : List Event}
    (hevents : t.events = pre ++ rest) {path : String} (hdot : '.' ∈ path.toList) :
    (t.lexicalAfter pre).resolve path = .free := by
  by_contra hne
  exact hdots _ (mem_names_of_resolve_ne_free h hevents hne) hdot

/-- The trace is about names without dots. -/
theorem no_dot_of_mem_events (h : f.infer injections registry = .ok t)
    (hdots : ∀ name ∈ f.names, '.' ∉ name.toList) {ev : Event} (hev : ev ∈ t.events) :
    ∀ name ∈ ev.names, '.' ∉ name.toList :=
  fun _ hname => hdots _ (mem_names_of_mem_events h hev hname)

/-- The root of a path in the trace is the name before its first dot. -/
theorem root_of_path (h : f.infer injections registry = .ok t)
    (hdots : ∀ name ∈ f.names, '.' ∉ name.toList) {ev : Event} (hev : ev ∈ t.events)
    {e : TypedExpr} (hplace : ev.place? = some e) {path root : String}
    (hpath : e.path? = some path) (hroot : e.root? = some root) :
    '.' ∉ root.toList ∧ Context.root path = root := by
  obtain ⟨root', -, hroot', hmem, -⟩ := TypedExpr.path?_eq_root hpath
  obtain rfl : root' = root := Option.some.inj (hroot'.symm.trans hroot)
  have hname : root' ∈ ev.names := by rwa [Event.names_of_place? hplace]
  have hdot := no_dot_of_mem_events h hdots hev root' hname
  exact ⟨hdot, TypedExpr.root_eq hpath hroot hdot⟩

/-- A member that is read has a value exactly where its path has a constant by injection, the root
of the path is a parameter's name or free and not assigned so far, and the path itself has not been
assigned while its root was such a name. -/
theorem value_of_member_iff (h : f.infer injections registry = .ok t)
    (hdots : ∀ name ∈ f.names, '.' ∉ name.toList) {pre post : List Event} {object : TypedExpr}
    {property path root : String} {m : Mark}
    (hevents : t.events = pre ++ .read (.member object property m) :: post)
    (hpath : (TypedExpr.member object property m).path? = some path)
    (hroot : (TypedExpr.member object property m).root? = some root) {v : Constant} :
    m.ascription.value = some v ↔
      (∃ ty, injections.get? path = some ⟨ty, some v⟩) ∧
      (root ∈ f.params.map (·.name) ∨
        ((t.lexicalAfter pre).resolve root = .free ∧ (root, .free) ∉ t.assignedBefore pre)) ∧
      ∀ site, (path, site) ∈ t.assignedBefore pre →
        root ∉ f.params.map (·.name) ∧ site ≠ .free := by
  obtain ⟨s₀, s', hs₀, hempty, -, htrace⟩ := infer_starts h
  rw [hevents] at htrace
  obtain ⟨s, hpre, hrest⟩ := htrace.split
  have hs : Follows (f.context injections registry) (t.lexicalAfter pre) s :=
    hpre.keeps Step.follows hs₀
  have hdotsPre : ∀ ev ∈ pre, ∀ n ∈ ev.names, '.' ∉ n.toList := by
    intro ev hev
    exact no_dot_of_mem_events h hdots (by simp [hevents, hev])
  have hmem : Event.read (.member object property m) ∈ t.events := by simp [hevents]
  obtain ⟨hdotRoot, rfl⟩ := root_of_path h hdots hmem rfl hpath hroot
  have hdotPath : '.' ∈ path.toList := TypedExpr.dot_mem_path hpath
  have hpoints : ∀ front back, pre = front ++ back →
      (t.lexicalAfter front).resolve path = .free := by
    rintro front back rfl
    exact resolve_of_dot h hdots (hevents.trans (List.append_assoc ..)) hdotPath
  have hname := hpre.outermost_name_iff hs₀ hempty hdotsPre hdotRoot
  cases hrest with
  | cons hread _ =>
    rw [hread.read_value_iff hs hpath (resolve_of_dot h hdots hevents hdotPath),
      hs.isInjectable_iff, hname]
    refine and_congr_right fun ⟨ty, hget⟩ => and_congr_right fun hinjectable => ?_
    have hresolve := Injections.resolve?_constant_iff.2 hget
    have hvisible : Context.root path ∈ (f.context injections registry).params ∨
        s.outermost.get? (Context.root path) = none :=
      hinjectable.imp_right fun hunassigned => hname.2 hunassigned.2
    exact hpre.outermost_path_iff hs₀ hempty hdotsPre hdotPath hpoints hresolve (by simp) hvisible

/-- In a function whose names have no dots in them, the constants that are injected below a name are
gone once it has been assigned, unless it is the name of a parameter.  Those below a parameter and
those below a member stay: only the root of a path and the path itself decide on its value. -/
theorem constants_below_assigned (h : f.infer injections registry = .ok t)
    (hdots : ∀ name ∈ f.names, '.' ∉ name.toList) :
    (t.events.filterMap Event.place?).Perm (t.exprs.filter TypedExpr.isPlace) ∧
    (t.events.filterMap Event.assignment?).Perm (t.exprs.filterMap TypedExpr.assignment?) ∧
    ∀ (pre : List Event) (object : TypedExpr) (property : String) (m : Mark) (post : List Event)
      (path root : String),
      t.events = pre ++ .read (.member object property m) :: post →
      (TypedExpr.member object property m).path? = some path →
      (TypedExpr.member object property m).root? = some root →
      (∀ v, m.ascription.value = some v ↔
        (∃ ty, injections.get? path = some ⟨ty, some v⟩) ∧
        (root ∈ f.params.map (·.name) ∨
          ((t.lexicalAfter pre).resolve root = .free ∧ (root, .free) ∉ t.assignedBefore pre)) ∧
        ∀ site, (path, site) ∈ t.assignedBefore pre →
          root ∉ f.params.map (·.name) ∧ site ≠ .free) ∧
      ∀ (front : List Event) (op : AssignOp) (target value : TypedExpr) (mid : List Event)
        (above : String),
        pre = front ++ .assign op target value :: mid → target.path? = some above →
        Injections.isBelow above path = true →
        target.site? (t.lexicalAfter front) = some ((t.lexicalAfter pre).resolve root) →
        m.ascription.value ≠ none →
        '.' ∈ above.toList ∨ above ∈ f.params.map (·.name) := by
  refine ⟨t.places_perm, t.assignments_perm, ?_⟩
  intro pre object property m post path root hevents hpath hroot
  have hiff := fun v => value_of_member_iff (v := v) h hdots hevents hpath hroot
  refine ⟨hiff, ?_⟩
  intro front op target value mid above hpre htarget hbelow hsite hvalue
  by_cases hdot : '.' ∈ above.toList
  · exact .inl hdot
  right
  -- Without a dot the target is the name at the root of the path.
  have hmem : Event.read (.member object property m) ∈ t.events := by simp [hevents]
  obtain ⟨-, hrootEq⟩ := root_of_path h hdots hmem rfl hpath hroot
  obtain rfl : above = root := (Context.root_of_isBelow hbelow hdot).symm.trans hrootEq
  have hname : target.root? = some above := by
    cases target with
    | ident name m => exact htarget
    | member o p m => exact absurd (TypedExpr.dot_mem_path htarget) hdot
    | _ => cases htarget
  rw [TypedExpr.site?, hname] at hsite
  obtain ⟨v, hv⟩ := Option.ne_none_iff_exists'.1 hvalue
  obtain ⟨-, hparam | ⟨hfree, hunassigned⟩, -⟩ := (hiff v).1 hv
  · exact hparam
  · refine absurd (Lexical.mem_assigned_iff.2 ⟨front, op, target, value, mid, hpre, htarget, ?_⟩)
      hunassigned
    rw [Context.root_of_no_dot hdot]
    exact (Option.some.inj hsite).trans hfree

end Function

namespace Sample

/-- A lamp with a constant member that the registry does not know of, and a color. -/
def lamps : Injections :=
  ⟨[("lamp", .ofTy (.object .color)), ("lamp.r", ⟨.boolean, some (.bool true)⟩),
    ("tint", .ofTy (.object .color))]⟩

/-- `function relit(params) { first return lamp.r; }` -/
def relit (params : List String) (first : Stmt) : Function :=
  Bare.function "relit" params [first, Bare.ret (some (Bare.member (Bare.ident "lamp") "r"))]

/-- What inference makes of such a function, where it gives `lamp.r` the ascription `a`. -/
def typedRelit (params : List String) (first : TypedStmt) (a : Ascription) : TypedFunction where
  name := "relit"
  params := params.map fun name => ⟨name, .object .color, none⟩
  body := [first, .ret (some (.member (.ident "lamp" (mark (.object .color))) "r" ⟨a, none⟩))]
  result := a.ty
  span := none

/-- `lamp = tint;` -/
def swap : Stmt := Bare.expr (Bare.assign .plain (Bare.ident "lamp") (Bare.ident "tint"))

/-- What inference makes of `lamp = tint;`. -/
def typedSwap : TypedStmt :=
  .expr (.assign .plain (.ident "lamp" (mark (.object .color)))
    (.ident "tint" (mark (.object .color))) (mark (.object .color)))

/-- A free lamp is swapped, and its member has no value afterwards. -/
theorem swapped_lamp_has_no_constant :
    (relit [] swap).infer lamps registry = .ok (typedRelit [] typedSwap (.ofTy .number)) ∧
    (∀ name ∈ (relit [] swap).names, '.' ∉ name.toList) ∧
    ∃ pre object property m post,
      (typedRelit [] typedSwap (.ofTy .number)).events
        = pre ++ .read (.member object property m) :: post ∧
      (TypedExpr.member object property m).path? = some "lamp.r" ∧ m.ascription.value = none := by
  have hinfer : (relit [] swap).infer lamps registry
      = .ok (typedRelit [] typedSwap (.ofTy .number)) := rfl
  have hdots : ∀ name ∈ (relit [] swap).names, '.' ∉ name.toList := by decide
  refine ⟨hinfer, hdots, (typedRelit [] typedSwap (.ofTy .number)).events.take 4, _, _, _, _, rfl,
    rfl, ?_⟩
  have hreads := (Function.constants_below_assigned hinfer hdots).2.2
    ((typedRelit [] typedSwap (.ofTy .number)).events.take 4) _ _ _ _ "lamp.r" "lamp" rfl rfl rfl
  by_contra hvalue
  rcases hreads.2 ((typedRelit [] typedSwap (.ofTy .number)).events.take 2) _ _ _ _ "lamp" rfl rfl
    (by decide) rfl hvalue with hdot | hparam
  · exact absurd hdot (by decide)
  · cases hparam

/-- A lamp that is a parameter is swapped, and its member still has the constant of the lamp that is
gone. -/
theorem swapped_parameter_keeps_constant :
    ∃ (t : TypedFunction) (pre : List Event) (op : AssignOp) (target value : TypedExpr)
      (mid : List Event) (e : TypedExpr) (post : List Event),
      (relit ["lamp"] swap).infer lamps registry = .ok t ∧
      (∀ name ∈ (relit ["lamp"] swap).names, '.' ∉ name.toList) ∧
      t.events = pre ++ .assign op target value :: (mid ++ .read e :: post) ∧
      target.path? = some "lamp" ∧ e.path? = some "lamp.r" ∧
      target.site? (t.lexicalAfter pre) = some .parameter ∧
      e.site? (t.lexicalAfter (pre ++ .assign op target value :: mid)) = some .parameter ∧
      e.ascription.value = some (.bool true) := by
  let t := typedRelit ["lamp"] typedSwap ⟨.boolean, some (.bool true)⟩
  have hevents : t.events = t.events.take 2 ++ .assign .plain
      (.ident "lamp" (mark (.object .color))) (.ident "tint" (mark (.object .color))) ::
        ((t.events.drop 3).take 1 ++
          .read (.member (.ident "lamp" (mark (.object .color))) "r"
            ⟨⟨.boolean, some (.bool true)⟩, none⟩) :: t.events.drop 5) := rfl
  exact ⟨t, _, _, _, _, _, _, _, rfl, by decide, hevents, rfl, rfl, rfl, rfl, rfl⟩

end Sample

/-! ## Members of variables -/

/-- A member that is read or assigned is looked up at this point; an assigned one keeps no value. -/
theorem Step.member_of_place {cx : Context} {Γ : Lexical} {s s' : Scopes} {ev : Event}
    {object : TypedExpr} {property : String} {m : Mark} (h : Step cx Γ s ev s')
    (hplace : ev.place? = some (.member object property m)) :
    ∃ a propertySpan, cx.member s (TypedExpr.member object property m).path? object.ty
        ⟨property, propertySpan⟩ m.span = .ok a ∧
      m.ascription.ty = a.ty ∧ (m.ascription = a ∨ m.ascription.value = none) := by
  cases h with
  | readMember hmember =>
    obtain ⟨rfl, rfl, rfl⟩ := TypedExpr.member.inj (Option.some.inj hplace)
    exact ⟨_, _, hmember, rfl, .inl rfl⟩
  | assignMember hmember _ =>
    obtain ⟨rfl, rfl, rfl⟩ := TypedExpr.member.inj (Option.some.inj hplace)
    exact ⟨_, _, hmember, rfl, .inr rfl⟩
  | readIdent => cases hplace
  | assignIdent => cases hplace
  | _ => cases hplace

namespace Follows

variable {cx : Context} {Γ : Lexical} {s : Scopes} {path : String} {v : Variable} {object : Ty}
  {property : Ident} {span : Option Span} {a : Ascription}

/-- The type that the outermost frame has for a path is the injected one. -/
theorem ty_of_lookup?_path (h : Follows cx Γ s) (hfree : Γ.resolve path = .free) {ty : Ty}
    (hty : (s.lookup? path).bind Binding.ty? = some ty) :
    ∃ b, cx.injections.resolve? path = some b ∧ b.ty = ty := by
  rw [h.lookup?_of_free hfree] at hty
  obtain ⟨binding, hget, hty⟩ := Option.bind_eq_some_iff.1 hty
  obtain ⟨b, hresolve, rfl⟩ := h.outermost hget
  exact ⟨b, hresolve, Option.some.inj hty⟩

/-- A member of a variable is looked up in the registry, where the variable has no parameter's name
or its path is not injected. -/
theorem member_of_variable (h : Follows cx Γ s) (hfree : Γ.resolve path = .free)
    (hsite : Γ.resolve (Context.root path) = .variable v)
    (hmember : cx.member s (some path) object property span = .ok a)
    (hpath : Context.root path ∉ cx.params ∨ cx.injections.resolve? path = none) :
    a.value = none ∧
      ∃ kind, object = .object kind ∧ cx.registry.memberTy? kind property.name = some a.ty := by
  rcases Context.member_eq_ok hmember with ⟨p, hp, hinjected⟩ | ⟨-, hvalue, hkind⟩
  · obtain rfl := Option.some.inj hp
    obtain ⟨hinjectable, htype⟩ := Context.injectedPath?_eq_some hinjected
    have hparam : Context.root path ∈ cx.params := by
      rcases h.isInjectable_iff.1 hinjectable with hparam | ⟨hroot, -⟩
      · exact hparam
      · cases hsite.symm.trans hroot
    have hnone := hpath.resolve_left fun hne => hne hparam
    rcases htype with ⟨hty, -⟩ | ⟨-, hresolve⟩
    · obtain ⟨b, hb, -⟩ := h.ty_of_lookup?_path hfree hty
      cases hnone.symm.trans hb
    · cases hnone.symm.trans hresolve
  · exact ⟨hvalue, hkind⟩

/-- An injected path whose root is a parameter's name has its injected type, and its value or
none. -/
theorem member_of_param (h : Follows cx Γ s) (hfree : Γ.resolve path = .free)
    (hmember : cx.member s (some path) object property span = .ok a)
    (hparam : Context.root path ∈ cx.params) {b : Ascription}
    (hresolve : cx.injections.resolve? path = some b) :
    a.ty = b.ty ∧ (a.value = none ∨ a = b) := by
  have hinjectable := h.isInjectable_iff.2 (.inl hparam)
  cases hty : (s.lookup? path).bind Binding.ty? with
  | some ty =>
    have hinjected : cx.injectedPath? s path = some (.ofTy ty) := by
      rw [Context.injectedPath?, if_pos hinjectable, hty]
    rw [Context.member_of_injectedPath? hinjected] at hmember
    obtain ⟨b', hb', rfl⟩ := h.ty_of_lookup?_path hfree hty
    obtain rfl := Option.some.inj (hresolve.symm.trans hb')
    rw [← Except.ok.inj hmember]
    exact ⟨rfl, .inl rfl⟩
  | none =>
    have hinjected : cx.injectedPath? s path = some b := by
      rw [Context.injectedPath?, if_pos hinjectable, hty]
      exact hresolve
    rw [Context.member_of_injectedPath? hinjected] at hmember
    rw [← Except.ok.inj hmember]
    exact ⟨rfl, .inr rfl⟩

end Follows

namespace Function

variable {f : Function} {injections : Injections} {registry : Registry} {t : TypedFunction}

/-- In a function whose names have no dots in them, a member of a variable has the type that the
registry gives it, and no value, unless the variable has the name of a parameter and the path is
injected.  Then it has the injected type, and the injected value as long as the path has not been
assigned. -/
theorem members_of_variables (h : f.infer injections registry = .ok t)
    (hdots : ∀ name ∈ f.names, '.' ∉ name.toList) :
    (t.events.filterMap Event.place?).Perm (t.exprs.filter TypedExpr.isPlace) ∧
    ∀ (pre : List Event) (ev : Event) (post : List Event) (object : TypedExpr) (property : String)
      (m : Mark) (path root : String) (v : Variable),
      t.events = pre ++ ev :: post → ev.place? = some (.member object property m) →
      (TypedExpr.member object property m).path? = some path →
      (TypedExpr.member object property m).root? = some root →
      (t.lexicalAfter pre).resolve root = .variable v →
      (root ∉ f.params.map (·.name) ∨ injections.resolve? path = none →
        m.ascription.value = none ∧ ∃ kind, object.ty = .object kind ∧
          registry.memberTy? kind property = some m.ascription.ty) ∧
      ∀ a, root ∈ f.params.map (·.name) → injections.resolve? path = some a →
        m.ascription.ty = a.ty ∧ (m.ascription.value = none ∨ m.ascription = a) := by
  refine ⟨t.places_perm, ?_⟩
  intro pre ev post object property m path root v hevents hplace hpath hroot hsite
  obtain ⟨-, rfl⟩ := root_of_path h hdots (by simp [hevents]) hplace hpath hroot
  have hfree := resolve_of_dot h hdots hevents (TypedExpr.dot_mem_path hpath)
  obtain ⟨s, s', hs, htrace⟩ := infer_follows h hevents
  cases htrace with
  | cons hstep _ =>
    obtain ⟨a, span, hmember, hty, hvalue⟩ := hstep.member_of_place hplace
    rw [hpath] at hmember
    constructor
    · intro hpath'
      obtain ⟨hnone, kind, hkind, hregistry⟩ := hs.member_of_variable hfree hsite hmember hpath'
      refine ⟨?_, kind, hkind, ?_⟩
      · rcases hvalue with heq | hvalue
        · rw [heq, hnone]
        · exact hvalue
      · rw [hty]
        exact hregistry
    · intro b hparam hresolve
      obtain ⟨htyb, hvalueb⟩ := hs.member_of_param hfree hmember hparam hresolve
      refine ⟨hty.trans htyb, ?_⟩
      rcases hvalue with heq | hvalue
      · rw [heq]
        exact hvalueb
      · exact .inl hvalue

end Function

namespace Sample

/-- `var lamp = tint;` -/
def declareLamp : Stmt := Bare.declare [("lamp", some (Bare.ident "tint"))]

/-- What inference makes of `var lamp = tint;`. -/
def typedDeclareLamp : TypedStmt :=
  .declare [⟨"lamp", some (.ident "tint" (mark (.object .color))), .ofTy (.object .color), none⟩]

/-- A variable hides the injected lamp, and its member is that of a color. -/
theorem member_of_declared_lamp :
    (relit [] declareLamp).infer lamps registry
      = .ok (typedRelit [] typedDeclareLamp (.ofTy .number)) ∧
    (∀ name ∈ (relit [] declareLamp).names, '.' ∉ name.toList) ∧
    ∃ pre object property m post v,
      (typedRelit [] typedDeclareLamp (.ofTy .number)).events
        = pre ++ .read (.member object property m) :: post ∧
      (TypedExpr.member object property m).path? = some "lamp.r" ∧
      ((typedRelit [] typedDeclareLamp (.ofTy .number)).lexicalAfter pre).resolve "lamp"
        = .variable v ∧
      m.ascription.value = none ∧ registry.memberTy? .color property = some m.ascription.ty := by
  have hinfer : (relit [] declareLamp).infer lamps registry
      = .ok (typedRelit [] typedDeclareLamp (.ofTy .number)) := rfl
  have hdots : ∀ name ∈ (relit [] declareLamp).names, '.' ∉ name.toList := by decide
  have hmember := (Function.members_of_variables hinfer hdots).2
    ((typedRelit [] typedDeclareLamp (.ofTy .number)).events.take 4) _ _ _ _ _ "lamp.r" "lamp" _
    rfl rfl rfl rfl rfl
  obtain ⟨hvalue, kind, hkind, hty⟩ := hmember.1 (.inl (by decide))
  cases hkind
  exact ⟨hinfer, hdots, (typedRelit [] typedDeclareLamp (.ofTy .number)).events.take 4, _, _, _, _,
    _, rfl, rfl, rfl, hvalue, hty⟩

/-- A variable with the name of a parameter does not hide the constant injected below the
parameter. -/
theorem shadowed_parameter_keeps_constant :
    ∃ (t : TypedFunction) (pre : List Event) (e : TypedExpr) (post : List Event) (v : Variable),
      (relit ["lamp"] declareLamp).infer lamps registry = .ok t ∧
      (∀ name ∈ (relit ["lamp"] declareLamp).names, '.' ∉ name.toList) ∧
      t.events = pre ++ .read e :: post ∧ e.path? = some "lamp.r" ∧
      (t.lexicalAfter pre).resolve "lamp" = .variable v ∧
      registry.memberTy? .color "r" = some .number ∧
      e.ascription = ⟨.boolean, some (.bool true)⟩ := by
  let t := typedRelit ["lamp"] typedDeclareLamp ⟨.boolean, some (.bool true)⟩
  have hevents : t.events = t.events.take 4 ++
      .read (.member (.ident "lamp" (mark (.object .color))) "r"
        ⟨⟨.boolean, some (.bool true)⟩, none⟩) :: t.events.drop 5 := rfl
  exact ⟨t, _, _, _, _, rfl, by decide, hevents, rfl, rfl, rfl, rfl⟩

end Sample

end Shader
