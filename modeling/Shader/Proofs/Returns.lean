import Shader.Proofs.Judgement

/-!
# Returns in any order

The result of a function is found by unifying the types of its returns from the first to the last.
What comes out does not depend on that order: `Ty.Common` tells it from the types that occur, and
`returns_unify_in_any_order` says that unification computes it.  The order matters only for an
error, which is that of the first return that does not fit those before it.
-/

namespace Shader

namespace Ty

variable {a b c ty : Ty} {types types' : List Ty}

/-- `Common types ty`: what returns of the given types have in common.  It is `undefined` when there
is none, the type that all of them have, or a number when both numeric types occur. -/
inductive Common (types : List Ty) : Ty → Prop where
  | empty : types = [] → Common types .undefined
  | same {ty : Ty} : types ≠ [] → (∀ t ∈ types, t = ty) → Common types ty
  | mixed {a b : Ty} : (∀ t ∈ types, t.isNumeric = true) → a ∈ types → b ∈ types → a ≠ b →
      Common types .number

/-! ## The types that occur -/

/-- Only the types that occur matter. -/
theorem Common.congr (h : ∀ t, t ∈ types ↔ t ∈ types') (hty : Common types ty) :
    Common types' ty := by
  have hnil : types = [] ↔ types' = [] := by
    rw [List.eq_nil_iff_forall_not_mem, List.eq_nil_iff_forall_not_mem]
    exact forall_congr' fun t => not_congr (h t)
  cases hty with
  | empty hempty => exact .empty (hnil.1 hempty)
  | same hne hsame => exact .same (mt hnil.2 hne) fun t ht => hsame t ((h t).2 ht)
  | mixed hnumeric ha hb hab =>
    exact .mixed (fun t ht => hnumeric t ((h t).2 ht)) ((h _).1 ha) ((h _).1 hb) hab

/-- What is common to types with a number among them is a number, and all of them are numeric. -/
theorem common_iff_of_number_mem (h : .number ∈ types) :
    Common types ty ↔ ty = .number ∧ ∀ t ∈ types, t.isNumeric = true := by
  constructor
  · intro hty
    cases hty with
    | empty hempty =>
      rw [hempty] at h
      cases h
    | same _ hsame =>
      have hnumber : .number = ty := hsame .number h
      refine ⟨hnumber.symm, fun t ht => ?_⟩
      rw [hsame t ht, ← hnumber]
      rfl
    | mixed hnumeric _ _ _ => exact ⟨rfl, hnumeric⟩
  · rintro ⟨rfl, hnumeric⟩
    by_cases hsame : ∀ t ∈ types, t = .number
    · exact .same (List.ne_nil_of_mem h) hsame
    · simp only [Classical.not_forall, exists_prop] at hsame
      obtain ⟨t, ht, hne⟩ := hsame
      exact .mixed hnumeric ht h hne

/-! ## Unifying one after the other -/

/-- Two types unify when they are equal or both numeric. -/
theorem unify?_eq_none_iff :
    a.unify? b = none ↔ a ≠ b ∧ ¬ (a.isNumeric = true ∧ b.isNumeric = true) := by
  unfold unify?
  split
  · rename_i hab
    simp [hab]
  · rename_i hab
    rw [promote?_eq_none_iff, ← Bool.and_eq_true, Bool.not_eq_true]
    exact (and_iff_right hab).symm

/-- Types with something in common unify with each other. -/
theorem Common.unifies (h : Common types ty) (ha : a ∈ types) (hb : b ∈ types) :
    ∃ c, Unifies a b c := by
  suffices hsome : a.unify? b ≠ none by
    obtain ⟨c, hc⟩ := Option.ne_none_iff_exists'.1 hsome
    exact ⟨c, unify?_eq_some_iff.1 hc⟩
  intro hnone
  obtain ⟨hab, hnumeric⟩ := unify?_eq_none_iff.1 hnone
  cases h with
  | empty hempty =>
    rw [hempty] at ha
    cases ha
  | same _ hsame => exact hab ((hsame a ha).trans (hsame b hb).symm)
  | mixed hall _ _ _ => exact hnumeric ⟨hall a ha, hall b hb⟩

/-- The first two types may be replaced by the type they unify to. -/
theorem common_cons_iff_of_unifies (h : Unifies a b c) :
    Common (c :: types) ty ↔ Common (a :: b :: types) ty := by
  cases h with
  | same => constructor <;> exact Common.congr (by simp)
  | promoted hpromotes =>
    cases hpromotes with
    | int => constructor <;> exact Common.congr (by simp)
    | number => constructor <;> exact Common.congr (by simp)
    -- With two different numeric types there is a number before and after.
    | numberInt =>
      rw [common_iff_of_number_mem (by simp), common_iff_of_number_mem (by simp)]
      simp [isNumeric]
    | intNumber =>
      rw [common_iff_of_number_mem (by simp), common_iff_of_number_mem (by simp)]
      simp [isNumeric]

/-- Unifying one after the other finds what all have in common. -/
theorem unifiesAll_iff_common : UnifiesAll a types ty ↔ Common (a :: types) ty := by
  induction types generalizing a with
  | nil =>
    constructor
    · rintro ⟨⟩
      exact .same (List.cons_ne_nil _ _) (by simp)
    · intro h
      have hsame : a = ty := by
        cases h with
        | empty hempty => cases hempty
        | same _ hsame => exact hsame a List.mem_cons_self
        | mixed _ hx hy hxy =>
          rw [List.mem_singleton] at hx hy
          exact absurd (hx.trans hy.symm) hxy
      rw [hsame]
      exact .nil
  | cons b types ih =>
    constructor
    · rintro (_ | ⟨hunifies, hrest⟩)
      exact (common_cons_iff_of_unifies hunifies).1 (ih.1 hrest)
    · intro h
      obtain ⟨c, hunifies⟩ : ∃ c, Unifies a b c := h.unifies (by simp) (by simp)
      have hrest : Common (c :: types) ty := (common_cons_iff_of_unifies hunifies).2 h
      exact .cons hunifies (ih.2 hrest)

/-- The result of a function is what its returns have in common. -/
theorem results_iff_common : Results types ty ↔ Common types ty := by
  cases types with
  | nil =>
    constructor
    · rintro ⟨⟩
      exact .empty rfl
    · rintro (_ | ⟨hne, -⟩ | ⟨-, hmem, -⟩)
      · exact .none
      · exact absurd rfl hne
      · cases hmem
  | cons a types =>
    refine Iff.trans ⟨?_, .some⟩ unifiesAll_iff_common
    rintro (_ | h)
    exact h

end Ty

/-! ## The first return that does not fit -/

/-- Unify one more return. -/
def unifyReturn (function : String) (unified : Ty) (r : Ty × Option Span) : Except TypeError Ty :=
  match unified.unify? r.1 with
  | some both => .ok both
  | none => fault (.returnMismatch function unified r.1) r.2

/-- A return fails to unify when its type does, and the error names both types. -/
theorem unifyReturn_eq_error_iff {function : String} {unified : Ty} {r : Ty × Option Span}
    {e : TypeError} :
    unifyReturn function unified r = .error e ↔
      unified.unify? r.1 = none ∧ e = ⟨.returnMismatch function unified r.1, r.2⟩ := by
  unfold unifyReturn
  cases unified.unify? r.1 with
  | some both => simp
  | none => simp [fault, eq_comm]

/-- Returns are unified one by one. -/
theorem unifyReturns_eq_foldlM (function : String) (unified : Ty)
    (returns : List (Ty × Option Span)) :
    unifyReturns function unified returns = returns.foldlM (unifyReturn function) unified := by
  induction returns generalizing unified with
  | nil => rfl
  | cons r rest ih =>
    rw [unifyReturns, List.foldlM_cons, unifyReturn]
    cases unified.unify? r.1 with
    | some both => exact ih both
    | none => rfl

/-- A function has no result when some return does not unify with those before it, and the error is
that of the first such return. -/
theorem resultTy_eq_error_iff {function : String} {returns : List (Ty × Option Span)}
    {e : TypeError} :
    resultTy function returns = .error e ↔
      ∃ before first second span after, returns = before ++ (second, span) :: after ∧
        before ≠ [] ∧ resultTy function before = .ok first ∧ first.unify? second = none ∧
        e = ⟨.returnMismatch function first second, span⟩ := by
  cases returns with
  | nil => simp [resultTy]
  | cons r rest =>
    have hcons : ∀ tail, resultTy function (r :: tail) =
        tail.foldlM (unifyReturn function) r.1 := unifyReturns_eq_foldlM function r.1
    rw [hcons, foldlM_eq_error_iff]
    simp only [unifyReturn_eq_error_iff]
    constructor
    · rintro ⟨before, ⟨second, span⟩, after, first, rfl, hbefore, hnone, he⟩
      exact ⟨r :: before, first, second, span, after, rfl, List.cons_ne_nil _ _,
        (hcons before).trans hbefore, hnone, he⟩
    · rintro ⟨before, first, second, span, after, hreturns, hne, hbefore, hnone, he⟩
      cases before with
      | nil => exact absurd rfl hne
      | cons r' before =>
        obtain ⟨rfl, htail⟩ := List.cons.inj hreturns
        exact ⟨before, (second, span), after, first, htail, (hcons before).symm.trans hbefore,
          hnone, he⟩

/-! ## The result of a function -/

/-- There is something common to all types, to equal types or to numeric ones. -/
theorem Ty.exists_common_iff {types : List Ty} :
    (∃ ty, Common types ty) ↔
      types = [] ∨ (∀ a ∈ types, ∀ b ∈ types, a = b) ∨ ∀ t ∈ types, t.isNumeric = true := by
  constructor
  · rintro ⟨ty, h⟩
    cases h with
    | empty hempty => exact .inl hempty
    | same _ hsame => exact .inr (.inl fun a ha b hb => (hsame a ha).trans (hsame b hb).symm)
    | mixed hnumeric _ _ _ => exact .inr (.inr hnumeric)
  · intro h
    by_cases hempty : types = []
    · exact ⟨_, .empty hempty⟩
    by_cases hsame : ∀ a ∈ types, ∀ b ∈ types, a = b
    · obtain ⟨ty, hty⟩ := List.exists_mem_of_ne_nil types hempty
      exact ⟨ty, .same hempty fun t ht => hsame t ht ty hty⟩
    · have hnumeric : ∀ t ∈ types, t.isNumeric = true :=
        (h.resolve_left hempty).resolve_left hsame
      simp only [Classical.not_forall, exists_prop] at hsame
      obtain ⟨a, ha, b, hb, hab⟩ := hsame
      exact ⟨_, .mixed hnumeric ha hb hab⟩

/-- The type of a function's result does not depend on the order of its returns.  There is one when
there are no returns, when all have the same type, or when all are numeric; it is then what the
returns have in common.  Otherwise the error names the first return that does not fit and what the
returns before it have in common. -/
theorem returns_unify_in_any_order (function : String) (returns : List (Ty × Option Span)) :
    ((∃ ty, resultTy function returns = .ok ty) ↔
      returns = [] ∨ (∀ r ∈ returns, ∀ r' ∈ returns, r.1 = r'.1) ∨
        ∀ r ∈ returns, r.1.isNumeric = true) ∧
    (∀ ty, resultTy function returns = .ok ty ↔ Ty.Common (returns.map Prod.fst) ty) ∧
    (∀ permuted : List (Ty × Option Span), permuted.Perm returns →
      (resultTy function permuted).toOption = (resultTy function returns).toOption) ∧
    ∀ e, resultTy function returns = .error e ↔
      ∃ before first second span after, returns = before ++ (second, span) :: after ∧
        before ≠ [] ∧ resultTy function before = .ok first ∧
        (first ≠ second ∧ ¬ (first.isNumeric = true ∧ second.isNumeric = true)) ∧
        e = ⟨.returnMismatch function first second, span⟩ := by
  have hresult : ∀ (returns : List (Ty × Option Span)) (ty : Ty),
      resultTy function returns = .ok ty ↔ Ty.Common (returns.map Prod.fst) ty := by
    intro returns ty
    rw [resultTy_eq_ok_iff, Ty.results_iff_common]
  refine ⟨?_, hresult returns, ?_, ?_⟩
  · simp only [hresult, Ty.exists_common_iff, List.map_eq_nil_iff, List.forall_mem_map]
  · intro permuted hperm
    have hmem : ∀ t, t ∈ permuted.map Prod.fst ↔ t ∈ returns.map Prod.fst :=
      fun t => (hperm.map Prod.fst).mem_iff
    have hiff : ∀ ty, resultTy function permuted = .ok ty ↔ resultTy function returns = .ok ty := by
      intro ty
      rw [hresult, hresult]
      exact ⟨Ty.Common.congr hmem, Ty.Common.congr fun t => (hmem t).symm⟩
    have hoption : ∀ (x : Except TypeError Ty) (ty : Ty), x.toOption = some ty ↔ x = .ok ty := by
      intro x ty
      cases x <;> simp [Except.toOption]
    apply Option.ext
    intro ty
    rw [hoption, hoption, hiff]
  · intro e
    simp only [resultTy_eq_error_iff, Ty.unify?_eq_none_iff]

/-- An integer and a number are a number by the time a boolean does not fit. -/
example (span : Option Span) :
    resultTy "f" [(.int, none), (.number, none), (.boolean, span), (.string, none)] =
      .error ⟨.returnMismatch "f" .number .boolean, span⟩ := rfl

end Shader
