import Shader.Proofs.Folding
import Shader.Proofs.InjectedPath
import Shader.Proofs.Layout
import Shader.Proofs.NumberText

/-!
# The text of a path that is read

A chain of members is rendered in two ways.  As the target of an assignment it is spelled as the
path that it is; where it is read, each object in it whose value is known is replaced by that value,
and the rest of the path is written behind it.  The two texts are compared here for every chain that
is not replaced as a whole: `Function.read_text_eq_target_text_iff`.

They differ only below an object that has an injected number, since nothing else gives a name or a
member a value, and since the members of a number can only be injected.  Then the text that is read
is a number with members.
-/

namespace Shader

/-! ## Objects that are replaced -/

/-- The outermost object in a chain of members that is rendered as its value, with the value. -/
def TypedExpr.valuedObject? : TypedExpr → Option (TypedExpr × Float)
  | .member object _ _ =>
    match object.propagated? with
    | some value => some (object, value)
    | none => object.valuedObject?
  | _ => none

namespace TypedExpr

/-- An object that is replaced has a member in the chain. -/
theorem member_of_valuedObject? {e object : TypedExpr} {value : Float}
    (h : e.valuedObject? = some (object, value)) :
    object.propagated? = some value ∧ ∃ property m, member object property m ∈ e.all := by
  fun_induction valuedObject? e with
  | case1 object' property m value' hvalue =>
    cases h
    exact ⟨hvalue, property, m, self_mem_all _⟩
  | case2 object' property m hvalue ih =>
    obtain ⟨hobject, property', m', hmem⟩ := ih h
    refine ⟨hobject, property', m', ?_⟩
    rw [all]
    exact List.mem_cons_of_mem _ hmem
  | case3 => cases h

end TypedExpr

/-! ## The two texts -/

namespace Render

/-- What stands before a common end decides. -/
theorem map_append_eq_pure_iff {x : Except CodegenError String} {front rest : String} :
    (· ++ rest) <$> ofExcept x = Pure.pure (front ++ rest) ↔ x = .ok front := by
  constructor
  · intro h
    cases x with
    | error e => cases h
    | ok text =>
      have htext : text ++ rest = front ++ rest := (Prod.mk.inj (Except.ok.inj h)).1
      rw [String.append_left_inj] at htext
      rw [htext]
  · rintro rfl
    rfl

end Render

namespace Dialect

variable {d : Dialect} {e object : TypedExpr} {property path : String} {m : Mark} {value : Float}

/-- A chain with a path is assigned under its path. -/
theorem place_of_path? (h : e.path? = some path) (text : Unit → Render String) :
    d.place e text = pure path := by
  fun_induction TypedExpr.path? e generalizing path text with
  | case1 name m =>
    cases h
    rw [place]
  | case2 object property m ih =>
    obtain ⟨front, hfront, rfl⟩ := Option.map_eq_some_iff.1 h
    rw [place, ih hfront, Render.pure_bind]
  | case3 => cases h

theorem place_member (text : Unit → Render String) :
    d.place (.member object property m) text =
      (fun text => text ++ "." ++ property) <$> d.place object fun _ => d.expr object := by
  rw [place, map_eq_pure_bind]

theorem expr_member (h : (TypedExpr.member object property m).propagated? = none) :
    d.expr (.member object property m) =
      (fun text => text ++ "." ++ property) <$> d.expr object := by
  rw [expr.eq_def, h, map_eq_pure_bind]

/-- A chain is read and assigned alike if none of its objects is replaced. -/
theorem expr_eq_place (h : e.propagated? = none) (hobject : e.valuedObject? = none) :
    d.expr e = d.place e fun _ => d.expr e := by
  fun_induction TypedExpr.valuedObject? e with
  | case1 => cases hobject
  | case2 object property m hvalue ih => rw [expr_member h, place_member, ← ih hvalue hobject]
  | case3 e hmember =>
    cases e with
    | ident name m => rw [place, expr.eq_def, h]
    | member object property m => exact absurd rfl (hmember object property m)
    | _ =>
      rw [place]
      all_goals simp

/-- Where an object with a path is replaced, the rest of the path is written behind the value. -/
theorem expr_of_valuedObject? (h : e.propagated? = none)
    (hobject : e.valuedObject? = some (object, value)) (hpath : object.path? = some path) :
    ∃ rest, e.path? = some (path ++ rest) ∧
      d.expr e = (· ++ rest) <$> .ofExcept (d.number value object.ty) := by
  fun_induction TypedExpr.valuedObject? e with
  | case1 object' property m value' hvalue =>
    cases hobject
    refine ⟨"." ++ property, ?_, ?_⟩
    · rw [TypedExpr.path?, hpath, Option.map_some, String.append_assoc]
    · rw [expr_member h, expr_of_propagated? hvalue]
      simp only [String.append_assoc]
  | case2 object' property m hvalue ih =>
    obtain ⟨rest, hrest, htext⟩ := ih hvalue hobject
    refine ⟨rest ++ "." ++ property, ?_, ?_⟩
    · rw [TypedExpr.path?, hrest, Option.map_some]
      simp only [String.append_assoc]
    · rw [expr_member h, htext, Functor.map_map]
      simp only [String.append_assoc]
  | case3 => cases hobject

/-- Where an object with a path is replaced, the chain is read and assigned alike if and only if the
value is spelled like the path. -/
theorem expr_eq_place_iff (h : e.propagated? = none)
    (hobject : e.valuedObject? = some (object, value)) (hpath : object.path? = some path) :
    (d.expr e = d.place e fun _ => d.expr e) ↔ d.number value object.ty = .ok path := by
  obtain ⟨rest, hrest, htext⟩ := expr_of_valuedObject? h hobject hpath
  rw [place_of_path? hrest, htext]
  exact Render.map_append_eq_pure_iff

end Dialect

/-! ## Numbers are no paths -/

/-- Whether a character may stand in the text of a finite number. -/
def Number.isTextChar (c : Char) : Bool := c.isDigit || c == '.' || c == '-'

theorem Number.isTextChar_text {x : Float} (h : x.isFinite = true) :
    ∀ c ∈ (Number.text x).toList, isTextChar c = true := by
  obtain ⟨negative, m, q, hparts⟩ := isFinite_iff.1 h
  rw [toList_text_of_parts hparts, List.forall_mem_append]
  constructor
  · cases negative <;> exact List.all_eq_true.1 rfl
  · intro c hc
    rcases (magnitudeText_chars m q).chars c hc with hdigit | rfl
    · rw [isTextChar, hdigit]
      rfl
    · rfl

theorem Number.isTextChar_pointedText {x : Float} (h : x.isFinite = true) :
    ∀ c ∈ (Number.pointedText x).toList, isTextChar c = true := by
  have htext := isTextChar_text h
  unfold pointedText
  simp only
  split
  · exact htext
  · rw [String.toList_append, List.forall_mem_append]
    exact ⟨htext, List.all_eq_true.1 rfl⟩

/-- The literal of a finite number consists of digits, points and a sign in both languages. -/
theorem Dialect.isTextChar_number {d : Dialect} (hd : d = .glsl ∨ d = .embree) {x : Float}
    (hfinite : x.isFinite = true) {ty : Ty} {code : String} (h : d.number x ty = .ok code) :
    ∀ c ∈ code.toList, Number.isTextChar c = true := by
  rcases hd with rfl | rfl
  · cases h
    exact Number.isTextChar_text hfinite
  · by_cases hty : ty = .number
    · subst hty
      change floatLiteral x = .ok code at h
      rw [floatLiteral_of_isFinite hfinite] at h
      cases h
      exact Number.isTextChar_pointedText hfinite
    · rw [Dialect.embree_number_of_ne hty] at h
      cases h
      exact Number.isTextChar_text hfinite

/-! ## Typed functions -/

namespace Function

variable {f : Function} {injections : Injections} {registry : Registry} {t : TypedFunction}

/-- A number that has a member is a path: the registry has members of objects only. -/
theorem path?_of_isNumeric (h : f.infer injections registry = .ok t) {object : TypedExpr}
    {property : String} {m : Mark} (he : TypedExpr.member object property m ∈ t.exprs)
    (hnumeric : object.ty.isNumeric = true) : ∃ path, object.path? = some path := by
  obtain ⟨Γ, s, ev, s', hstep, -, -, hplace⟩ := Function.exists_step h he rfl
  obtain ⟨a, propertySpan, ha, -, -⟩ := hstep.member_of_place hplace
  rcases Context.member_eq_ok ha with ⟨path, hpath, -⟩ | ⟨-, -, kind, hkind, -⟩
  · obtain ⟨front, hfront, -⟩ := Option.map_eq_some_iff.1 hpath
    exact ⟨front, hfront⟩
  · rw [hkind] at hnumeric
    cases hnumeric

/-- An object that is replaced has its number from the injections. -/
theorem injected_of_valuedObject? (h : f.infer injections registry = .ok t) {e object : TypedExpr}
    (he : e ∈ t.exprs) {value : Float} (hobject : e.valuedObject? = some (object, value)) :
    ∃ path, object.path? = some path ∧ injections.get? path = some object.ascription := by
  obtain ⟨hvalue, property, m, hmem⟩ := TypedExpr.member_of_valuedObject? hobject
  have hmember : TypedExpr.member object property m ∈ t.exprs :=
    TypedStmt.all_subset_exprsAll he _ hmem
  have hexprs : object ∈ t.exprs :=
    TypedStmt.all_subset_exprsAll hmember _ (List.mem_cons_of_mem _ (TypedExpr.self_mem_all _))
  have hplace : object.isPlace = true := by
    have hnumeric := (TypedExpr.propagated?_eq_some_iff.1 hvalue).1
    obtain ⟨path, hpath⟩ := path?_of_isNumeric h hmember hnumeric
    exact TypedExpr.isPlace_of_path? hpath object (TypedExpr.self_mem_all _)
  have hconstant := TypedExpr.value_of_propagated? hvalue
  obtain ⟨path, hpath, hresolve⟩ := Function.resolve?_of_value h hexprs hplace hconstant
  refine ⟨path, hpath, ?_⟩
  have heq : object.ascription = ⟨object.ascription.ty, some (.number value)⟩ := by
    rw [← hconstant]
  rw [heq] at hresolve ⊢
  exact Injections.resolve?_constant_iff.1 hresolve

/-- A chain of members whose own value is not a known number is read under the text that it is
assigned under, unless one of its objects is replaced by a number that is not spelled like the path
of the object.  Such a number is injected under that path, and what is read is the number with the
rest of the path behind it; so the texts differ wherever the number is finite and the path is not
made of the characters of numbers. -/
theorem read_text_eq_target_text_iff {d : Dialect} (hd : d = .glsl ∨ d = .embree)
    (h : f.infer injections registry = .ok t) {object : TypedExpr} {property : String} {m : Mark}
    (he : TypedExpr.member object property m ∈ t.exprs) (hvalue : m.ascription.number? = none) :
    let e := TypedExpr.member object property m
    let target := d.place e fun _ => d.expr e
    (d.expr e = target ↔ ∀ q x, e.valuedObject? = some (q, x) →
      ∃ path, q.path? = some path ∧ d.number x q.ty = .ok path) ∧
    ∀ q x, e.valuedObject? = some (q, x) → ∃ path rest,
      q.path? = some path ∧ injections.get? path = some q.ascription ∧
      target = pure (path ++ rest) ∧
      d.expr e = (· ++ rest) <$> .ofExcept (d.number x q.ty) ∧
      (x.isFinite = true → path.toList.all Number.isTextChar = false → d.expr e ≠ target) := by
  intro e target
  have hnone : e.propagated? = none := by
    cases hpropagated : e.propagated? with
    | none => rfl
    | some x => cases hvalue.symm.trans (TypedExpr.propagated?_eq_some_iff.1 hpropagated).2
  constructor
  · constructor
    · intro heq q x hq
      obtain ⟨path, hpath, -⟩ := injected_of_valuedObject? h he hq
      exact ⟨path, hpath, (Dialect.expr_eq_place_iff hnone hq hpath).1 heq⟩
    · intro hspelled
      rcases hq : e.valuedObject? with - | ⟨q, x⟩
      · exact Dialect.expr_eq_place hnone hq
      · obtain ⟨path, hpath, hnumber⟩ := hspelled q x hq
        exact (Dialect.expr_eq_place_iff hnone hq hpath).2 hnumber
  · intro q x hq
    obtain ⟨path, hpath, hget⟩ := injected_of_valuedObject? h he hq
    obtain ⟨rest, hrest, htext⟩ := Dialect.expr_of_valuedObject? hnone hq hpath
    refine ⟨path, rest, hpath, hget, Dialect.place_of_path? hrest _, htext, ?_⟩
    intro hfinite hchars heq
    have hnumber := (Dialect.expr_eq_place_iff hnone hq hpath).1 heq
    have hall := List.all_eq_true.2 (Dialect.isTextChar_number hd hfinite hnumber)
    rw [hall] at hchars
    cases hchars

end Function

namespace Sample

/-- The member of the lamp that `relit` returns. -/
def lampR : TypedExpr := .member (.ident "lamp" (mark (.object .color))) "r" (mark .number)

/-- The member of a lamp is read under its path: the lamp is no number. -/
theorem lampR_is_read_under_its_path :
    (relit [] swap).infer lamps registry = .ok (typedRelit [] typedSwap (.ofTy .number)) ∧
    lampR ∈ (typedRelit [] typedSwap (.ofTy .number)).exprs ∧
    Dialect.glsl.expr lampR = Dialect.glsl.place lampR fun _ => Dialect.glsl.expr lampR := by
  have hinfer : (relit [] swap).infer lamps registry
      = .ok (typedRelit [] typedSwap (.ofTy .number)) := rfl
  have hmem : lampR ∈ (typedRelit [] typedSwap (.ofTy .number)).exprs :=
    .tail _ (.tail _ (.tail _ (.head _)))
  refine ⟨hinfer, hmem, ?_⟩
  refine (Function.read_text_eq_target_text_iff (.inl rfl) hinfer hmem rfl).1.2 ?_
  intro q x hobject
  cases hobject

/-- An environment that is a number, with a member, and another number. -/
def numbered : Injections :=
  ⟨[("env", ⟨.int, some (.number (Number.ofInt 3))⟩), ("env.x", .ofTy .number),
    ("a", .ofTy .number)]⟩

/-- `function store(env, a) { env.x = a; return env.x; }` -/
def store : Function :=
  Bare.function "store" ["env", "a"] [
    Bare.expr (Bare.assign .plain (Bare.member (Bare.ident "env") "x") (Bare.ident "a")),
    Bare.ret (some (Bare.member (Bare.ident "env") "x"))]

/-- The member of the environment, as inference ascribes it in both places. -/
def envX : TypedExpr :=
  .member (.ident "env" ⟨⟨.int, some (.number (Number.ofInt 3))⟩, none⟩) "x" (mark .number)

/-- The assignment to the member. -/
def storeX : TypedExpr := .assign .plain envX (.ident "a" (mark .number)) (mark .number)

/-- What inference makes of the function. -/
def typedStore : TypedFunction where
  name := "store"
  params := [⟨"env", .int, none⟩, ⟨"a", .number, none⟩]
  body := [.expr storeX, .ret (some envX)]
  result := .number
  span := none

/-- A member of a number is assigned under its path, and read as a member of the number. -/
theorem number_is_read_with_member :
    store.infer numbered registry = .ok typedStore ∧ envX ∈ typedStore.exprs ∧
    envX.ascription.number? = none ∧
    (Dialect.glsl.place envX fun _ => Dialect.glsl.expr envX) = pure "env.x" ∧
    Dialect.glsl.expr storeX = pure "env.x = a" ∧ Dialect.glsl.expr envX = pure "3.x" ∧
    (Dialect.embree.place envX fun _ => Dialect.embree.expr envX) = pure "env.x" ∧
    Dialect.embree.expr storeX = pure "env.x = a" ∧ Dialect.embree.expr envX = pure "3.x" := by
  have hread : envX ∈ typedStore.exprs := .tail _ (.head _)
  exact ⟨rfl, hread, rfl, rfl, rfl, rfl, rfl, rfl, rfl⟩

end Sample

end Shader
