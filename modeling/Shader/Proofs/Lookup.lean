import Shader.Typing.Program

/-!
# Names in the scopes of inference

What looking up a name, reading a member and assigning a name can do, told as lists of cases.  The
cases are complete: each comes with what was found in the scopes, what the result is, and what the
scopes are afterwards.  Proofs about inference take these cases and never open the definitions.
-/

namespace Shader

/-- A failed check never succeeds. -/
@[simp] theorem fault_ne_ok {α : Type} {f : TypeFault} {span : Option Span} {a : α} :
    fault f span ≠ .ok a := by
  simp [fault]

/-- A sequence of two checks succeeds when both do. -/
theorem bind_eq_ok_iff {ε α β : Type} {x : Except ε α} {f : α → Except ε β} {b : β} :
    (x >>= f) = .ok b ↔ ∃ a, x = .ok a ∧ f a = .ok b := by
  cases x <;> simp [bind, Except.bind]

/-- A sequence of two checks fails when the first does, or the second after it. -/
theorem bind_eq_error_iff {ε α β : Type} {x : Except ε α} {f : α → Except ε β} {e : ε} :
    (x >>= f) = .error e ↔ x = .error e ∨ ∃ a, x = .ok a ∧ f a = .error e := by
  cases x <;> simp [bind, Except.bind]

/-- A run over a list fails at the first element whose step fails: the steps before it succeed. -/
theorem foldlM_eq_error_iff {ε σ α : Type} {f : σ → α → Except ε σ} {s : σ} {as : List α} {e : ε} :
    as.foldlM f s = .error e ↔
      ∃ before a after t, as = before ++ a :: after ∧ before.foldlM f s = .ok t ∧
        f t a = .error e := by
  induction as generalizing s with
  | nil => simp [pure, Except.pure]
  | cons a as ih =>
    rw [List.foldlM_cons]
    cases ha : f s a with
    | error e' =>
      constructor
      · intro h
        exact ⟨[], a, as, s, rfl, rfl, ha.trans h⟩
      · rintro ⟨before, a', after, t, has, hbefore, ht⟩
        cases before with
        | nil =>
          obtain ⟨rfl, -⟩ := List.cons.inj has
          obtain rfl := Except.ok.inj hbefore
          exact ha.symm.trans ht
        | cons _ before =>
          obtain ⟨rfl, -⟩ := List.cons.inj has
          rw [List.foldlM_cons, ha] at hbefore
          cases hbefore
    | ok s' =>
      refine Iff.trans ih ⟨?_, ?_⟩
      · rintro ⟨before, a', after, t, rfl, hbefore, ht⟩
        refine ⟨a :: before, a', after, t, rfl, ?_, ht⟩
        rw [List.foldlM_cons, ha]
        exact hbefore
      · rintro ⟨before, a', after, t, has, hbefore, ht⟩
        cases before with
        | nil =>
          obtain ⟨rfl, -⟩ := List.cons.inj has
          obtain rfl := Except.ok.inj hbefore
          rw [ha] at ht
          cases ht
        | cons _ before =>
          obtain ⟨rfl, hrest⟩ := List.cons.inj has
          rw [List.foldlM_cons, ha] at hbefore
          exact ⟨before, a', after, t, hrest, hbefore, ht⟩

namespace Scopes

/-- A name is bound in the inner frames or in the outermost one. -/
theorem lookup?_eq_some_iff {s : Scopes} {name : String} {b : Binding} :
    s.lookup? name = some b ↔
      findFrame? name s.inner = some b ∨
        (findFrame? name s.inner = none ∧ s.outermost.get? name = some b) := by
  unfold lookup?
  cases findFrame? name s.inner <;> simp

/-- A name that no inner frame binds is looked up in the outermost one. -/
theorem lookup?_of_findFrame?_eq_none {s : Scopes} {name : String}
    (h : findFrame? name s.inner = none) : s.lookup? name = s.outermost.get? name := by
  rw [lookup?, h]

/-- A name that some inner frame binds is looked up there. -/
theorem lookup?_of_findFrame?_eq_some {s : Scopes} {name : String} {b : Binding}
    (h : findFrame? name s.inner = some b) : s.lookup? name = some b := by
  rw [lookup?, h]

/-- A binding that is replaced is replaced in the inner frames, where they have it. -/
theorem set_of_setFrame?_eq_some {s : Scopes} {name : String} {b : Binding} {frames : List Frame}
    (h : setFrame? name b s.inner = some frames) : s.set name b = { s with inner := frames } := by
  rw [set, h]

/-- Closing a scope takes its frame away. -/
theorem pop_of_inner_eq_cons {s : Scopes} {frame : Frame} {frames : List Frame}
    (h : s.inner = frame :: frames) : s.pop = (frame, { s with inner := frames }) := by
  rw [pop, pop?, h]
  rfl

/-- A name is bound in the innermost frame. -/
theorem insert_of_inner_eq_cons {s : Scopes} {frame : Frame} {frames : List Frame}
    (h : s.inner = frame :: frames) (name : String) (b : Binding) :
    s.insert name b = { s with inner := frame.insert name b :: frames } := by
  rw [insert, h]

end Scopes

namespace Context

variable {cx : Context} {s s' : Scopes} {name : String} {span : Option Span}

/-- Where the ascription of a name comes from. -/
theorem ident_eq_ok {a : Ascription} (h : cx.ident s name span = .ok a) :
    (s.lookup? name = some (.typed a.ty) ∧ a.value = none) ∨
    (∃ v, s.lookup? name = some (.constant a.ty v) ∧ a.value = some v) ∨
    (s.lookup? name = none ∧ cx.injections.resolve? name = some a) ∨
    (s.lookup? name = none ∧ cx.injections.resolve? name = none ∧ a.value = none ∧
      (cx.registry.global? name = some a.ty ∨ (name = "undefined" ∧ a.ty = .undefined))) := by
  unfold ident at h
  split at h
  · obtain rfl := Except.ok.inj h
    exact .inl ⟨by assumption, rfl⟩
  · obtain rfl := Except.ok.inj h
    exact .inr (.inl ⟨_, by assumption, rfl⟩)
  · exact absurd h fault_ne_ok
  · rename_i hlookup
    split at h
    · obtain rfl := Except.ok.inj h
      exact .inr (.inr (.inl ⟨hlookup, by assumption⟩))
    · rename_i hresolve
      split at h
      · obtain rfl := Except.ok.inj h
        exact .inr (.inr (.inr ⟨hlookup, hresolve, rfl, .inl (by assumption)⟩))
      · split at h
        · rename_i hname
          obtain rfl := Except.ok.inj h
          exact .inr (.inr (.inr ⟨hlookup, hresolve, rfl, .inr ⟨hname, rfl⟩⟩))
        · exact absurd h fault_ne_ok

/-- Where the injected ascription of a path comes from: a type in the scopes that was left by an
assignment, or the injections themselves. -/
theorem injectedPath?_eq_some {path : String} {a : Ascription}
    (h : cx.injectedPath? s path = some a) :
    cx.isInjectable s path = true ∧
      (((s.lookup? path).bind Binding.ty? = some a.ty ∧ a.value = none) ∨
        ((s.lookup? path).bind Binding.ty? = none ∧ cx.injections.resolve? path = some a)) := by
  unfold injectedPath? at h
  split at h
  · rename_i hinjectable
    refine ⟨hinjectable, ?_⟩
    split at h
    · obtain rfl := Option.some.inj h
      exact .inl ⟨by assumption, rfl⟩
    · exact .inr ⟨by assumption, h⟩
  · cases h

/-- Where the ascription of a member comes from: its path, or the registry. -/
theorem member_eq_ok {path : Option String} {object : Ty} {property : Ident} {a : Ascription}
    (h : cx.member s path object property span = .ok a) :
    (∃ p, path = some p ∧ cx.injectedPath? s p = some a) ∨
    ((∀ p, path = some p → cx.injectedPath? s p = none) ∧ a.value = none ∧
      ∃ kind, object = .object kind ∧ cx.registry.memberTy? kind property.name = some a.ty) := by
  unfold member at h
  split at h
  · rename_i b hb
    obtain rfl := Except.ok.inj h
    exact .inl (Option.bind_eq_some_iff.1 hb)
  · rename_i hpath
    have hnone : ∀ p, path = some p → cx.injectedPath? s p = none := by
      rintro p rfl
      exact hpath
    split at h
    · rename_i ty hty
      obtain rfl := Except.ok.inj h
      obtain ⟨kind, hkind, hmember⟩ := Option.bind_eq_some_iff.1 hty
      refine .inr ⟨hnone, rfl, kind, ?_, hmember⟩
      cases object <;> simp_all [Ty.kind?]
    · exact absurd h fault_ne_ok

/-- What an assignment to a name does, by what the name is bound to. -/
theorem assignIdent_eq_ok {op : AssignOp} {targetSpan : Option Span} {value target result : Ty}
    (h : cx.assignIdent s op name targetSpan value span = .ok (target, result, s')) :
    (s.lookup? name = some (.typed target) ∧ assignedTy op name target value span = .ok result ∧
      s' = s) ∨
    (∃ v, s.lookup? name = some (.constant target v) ∧
      assignedTy op name target value span = .ok result ∧ s' = s.set name (.typed target)) ∨
    (s.lookup? name = some .pending ∧ op = .plain ∧ target = value ∧ result = value ∧
      s' = s.set name (.typed target)) ∨
    (s.lookup? name = none ∧ assignedTy op name target value span = .ok result ∧
      (∃ a, cx.injections.resolve? name = some a ∧ a.ty = target) ∧
      s' = s.insertOutermost name (.typed target)) := by
  unfold assignIdent at h
  split at h
  · rename_i ty hlookup
    obtain ⟨r, hassigned, h⟩ := bind_eq_ok_iff.1 h
    cases h
    exact .inl ⟨hlookup, hassigned, rfl⟩
  · rename_i ty v hlookup
    obtain ⟨r, hassigned, h⟩ := bind_eq_ok_iff.1 h
    cases h
    exact .inr (.inl ⟨v, hlookup, hassigned, rfl⟩)
  · rename_i hlookup
    cases op with
    | compound op => exact absurd h fault_ne_ok
    | plain =>
      cases h
      exact .inr (.inr (.inl ⟨hlookup, rfl, rfl, rfl, rfl⟩))
  · rename_i hlookup
    split at h
    · rename_i a hresolve
      obtain ⟨r, hassigned, h⟩ := bind_eq_ok_iff.1 h
      cases h
      exact .inr (.inr (.inr ⟨hlookup, hassigned, ⟨a, hresolve, rfl⟩, rfl⟩))
    · exact absurd h fault_ne_ok

/-- A constructor names an entry of the registry that can be constructed. -/
theorem constructible_eq_ok {entry : Entry} (h : cx.constructible name span = .ok entry) :
    cx.registry.byName? name = some entry ∧ entry.construction ≠ .none := by
  unfold constructible at h
  split at h
  · rename_i e he
    split at h
    · exact absurd h fault_ne_ok
    · rename_i hconstruction
      obtain rfl := Except.ok.inj h
      exact ⟨he, hconstruction⟩
  · exact absurd h fault_ne_ok

end Context

/-- The entry of a name has that name. -/
theorem Registry.byName?_name {registry : Registry} {name : String} {entry : Entry}
    (h : registry.byName? name = some entry) : entry.name = name := by
  simpa using List.find?_some h

end Shader
