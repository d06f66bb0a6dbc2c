import Shader.Proofs.CommonCode
import Shader.Proofs.Loading
import Shader.Proofs.LoadedLiterals
import Shader.Proofs.PathText
import Shader.Proofs.Positions

/-!
# Known numbers are finite

Folding drops a result that is infinite or `NaN`, and the signs keep finite numbers finite.  So
where the numbers of a program and of its injections are finite, all numbers in its typed tree are.

The numbers of a document are finite by themselves.  Hence the code for materials of a loaded
program never fails for want of a literal, and the numbers in its fragment shader are written with
digits, points and signs only: neither `NaN` nor an infinity can be among them.
-/

namespace Shader

/-! ## The numbers of a typed tree -/

/-- The numbers on an expression, without its parts: the known value, and that of a literal. -/
def TypedExpr.numbers (e : TypedExpr) : List Float :=
  e.ascription.number?.toList ++
    match e with
    | .literal (some (.number x)) _ => [x]
    | _ => []

/-- The numbers in the typed tree of a function. -/
def TypedFunction.numbers (t : TypedFunction) : List Float :=
  t.exprs.flatMap TypedExpr.numbers ++ t.declarations.filterMap fun d => d.ascription.number?

/-- `injections.AreFinite`: no injected value is an infinite number or `NaN`. -/
def Injections.AreFinite (injections : Injections) : Prop :=
  ∀ name a, injections.get? name = some a → a.IsFinite

theorem Injections.AreFinite.resolve? {injections : Injections} (h : injections.AreFinite)
    (name : String) (a : Ascription) (ha : injections.resolve? name = some a) : a.IsFinite := by
  unfold Injections.resolve? at ha
  split at ha
  · rename_i b hb
    obtain rfl := Option.some.inj ha
    exact h name b hb
  · split at ha
    · obtain rfl := Option.some.inj ha
      exact Ascription.inherited_isFinite.unknown rfl
    · cases ha

theorem Ascription.IsFinite.number? {a : Ascription} (h : a.IsFinite) {x : Float}
    (hx : a.number? = some x) : x.isFinite = true :=
  h x (Ascription.number?_eq_some hx)

namespace Function

variable {f : Function} {injections : Injections} {registry : Registry} {t : TypedFunction}

/-- The known value of an expression is finite where the literals and the injections are. -/
theorem isFinite_of_mem_exprs (hinjections : injections.AreFinite)
    (hliterals : ∀ l ∈ f.literals, l.IsFinite) (h : f.infer injections registry = .ok t)
    {e : TypedExpr} (he : e ∈ t.exprs) : e.ascription.IsFinite := by
  refine Function.ascriptions_hold Ascription.inherited_isFinite h hinjections.resolve? ?_ he
  intro l hl x hx
  rw [Context.literal_value] at hx
  exact hliterals l hl x hx

/-- The numbers in the typed tree of a function are finite where the literals and the injections
are. -/
theorem isFinite_of_mem_numbers (hinjections : injections.AreFinite)
    (hliterals : ∀ l ∈ f.literals, l.IsFinite) (h : f.infer injections registry = .ok t)
    {x : Float} (hx : x ∈ t.numbers) : x.isFinite = true := by
  rcases List.mem_append.1 hx with hx | hx
  · obtain ⟨e, he, hx⟩ := List.mem_flatMap.1 hx
    have hfinite := isFinite_of_mem_exprs hinjections hliterals h he
    rcases List.mem_append.1 hx with hx | hx
    · exact hfinite.number? (Option.mem_toList.1 hx)
    · split at hx
      · obtain rfl := List.mem_singleton.1 hx
        exact hfinite x (value_of_literal h he)
      · cases hx
  · obtain ⟨d, hd, hx⟩ := List.mem_filterMap.1 hx
    have hnone := (Function.infer_sourced h).typed d hd
    rw [Ascription.number?, hnone] at hx
    cases hx

end Function

/-! ## The numbers of generated code -/

section Generated

variable {functions : List TypedFunction} {value : Float} {ty : Ty}

/-- A number in a material is the value of an expression. -/
theorem Embree.value_of_mem_leaves {options : EmbreeOptions}
    (h : ∀ t ∈ functions, ∃ f injections registry, Function.infer f injections registry = .ok t)
    (hvalue : Leaf.number value ty ∈ (lines functions options).flatMap Line.leaves) :
    ∃ t ∈ functions, ∃ e ∈ t.exprs, e.ty = ty ∧ e.ascription.value = some (.number value) := by
  rw [← Line.mem_constants, survey_lines Piece.constants_survey fun _ _ _ _ => trivial] at hvalue
  obtain ⟨e, he, hvalue⟩ := List.mem_flatMap.1 hvalue
  obtain ⟨t, ht, he⟩ := List.mem_flatMap.1 he
  have hparts : ∀ x ∈ e.all, x ∈ t.exprs := fun x hx =>
    TypedFunction.mem_exprs_of_mem_roots he hx
  exact ⟨t, ht, Piece.value_of_mem_exprs (h t ht) hparts hvalue⟩

/-- A constant of a material is the value of an expression. -/
theorem Embree.value_of_constant
    (h : ∀ t ∈ functions, ∃ f injections registry, Function.infer f injections registry = .ok t)
    (hvalue : .constant value ty ∈ positions functions) :
    ∃ t ∈ functions, ∃ e ∈ t.exprs, e.ty = ty ∧ e.ascription.value = some (.number value) := by
  have hleaf : Leaf.number value ty ∈ Line.fallible (lines functions {}) := by
    rw [fallible_lines]
    exact List.mem_map_of_mem hvalue
  rw [← Line.filter_leaves] at hleaf
  exact value_of_mem_leaves h (List.mem_of_mem_filter hleaf)

/-- A material has no literal for a number only if one of its constants is not finite. -/
theorem Embree.constant_of_invalidFloat {options : EmbreeOptions}
    (h : generate functions options = .error (.invalidFloat value)) :
    value.isFinite = false ∧ ∃ ty, .constant value ty ∈ positions functions := by
  obtain ⟨before, p, after, hsplit, -, hp⟩ := generate_eq_error_iff.1 h
  have hmem : p ∈ positions functions := by
    rw [hsplit]
    exact List.mem_append_right _ List.mem_cons_self
  unfold fault? at hp
  split at hp
  · split at hp <;> cases hp
  · split at hp <;> cases hp
  · split at hp <;> cases hp
  · rename_i x ty
    split at hp
    · rename_i hbad
      cases hp
      exact ⟨hbad.2, ty, hmem⟩
    · cases hp

/-- The code of a fragment shader consists of leaves, and the numbers among them are values of
expressions. -/
theorem Glsl.value_of_mem_code {options : GlslOptions}
    (h : ∀ t ∈ functions, ∃ f injections registry, Function.infer f injections registry = .ok t)
    (hvalue : Leaf.number value ty ∈
      Piece.leavesAll (Dialect.glsl.codePieces (lines functions options))) :
    ∃ t ∈ functions, ∃ e ∈ t.exprs, e.ty = ty ∧ e.ascription.value = some (.number value) := by
  rcases Dialect.mem_leaves_codePieces hvalue with hleaf | ⟨text, hword⟩
  · exact value_of_mem_constants h (Line.mem_constants.2 hleaf)
  · cases hword

end Generated

/-! ## Loaded programs -/

/-- The literals of a program that was read from a document or a text are finite. -/
theorem Program.isFinite_of_loaded {p : Program}
    (h : (∃ v, Program.ofJson v = .ok p) ∨ ∃ text, Program.ofText text = .ok p) :
    ∀ l ∈ p.literals, l.IsFinite := by
  obtain ⟨v, hv⟩ : ∃ v, Program.ofJson v = .ok p := by
    rcases h with hv | ⟨text, htext⟩
    · exact hv
    · unfold ofText at htext
      cases hparse : Json.parse text with
      | ok v =>
        rw [hparse] at htext
        exact ⟨v, htext⟩
      | error reason =>
        rw [hparse] at htext
        cases htext
  intro l hl x hx
  exact (Program.literals_of_ofJson hv l hl).isFinite hx

/-- Where injected numbers are finite, folding makes no number that is not: all numbers in the typed
tree of a function with finite literals are finite.  For a loaded program the code for materials
never fails for want of a literal, and every number in its fragment shader is finite and is written
with digits, points and signs. -/
theorem constants_are_finite {injections : Injections} (hinjections : injections.AreFinite)
    (registry : Registry) :
    (∀ (f : Function) (t : TypedFunction), (∀ l ∈ f.literals, l.IsFinite) →
      f.infer injections registry = .ok t → ∀ x ∈ t.numbers, x.isFinite = true) ∧
    ∀ (p : Program) (t : TypedProgram),
      ((∃ v, Program.ofJson v = .ok p) ∨ ∃ text, Program.ofText text = .ok p) →
      p.infer injections registry = .ok t →
      (∀ options value, Embree.generate t.functions options ≠ .error (.invalidFloat value)) ∧
      ∀ options out, Glsl.generate t.functions options = .ok out →
        let leaves :=
          Piece.leavesAll (Dialect.glsl.codePieces (Glsl.lines t.functions options))
        out.code = Dialect.glsl.text leaves ∧
          ∀ value ty, Leaf.number value ty ∈ leaves → value.isFinite = true ∧
            ∀ c ∈ (Number.text value).toList, Number.isTextChar c = true := by
  refine ⟨fun f t hliterals h x => Function.isFinite_of_mem_numbers hinjections hliterals h, ?_⟩
  intro p t hload h
  have hliterals := Program.isFinite_of_loaded hload
  obtain ⟨typed, htyped, hok⟩ := bind_eq_ok_iff.1 h
  obtain rfl := Except.ok.inj hok
  have hinferred : ∀ t ∈ typed, ∃ f injections registry,
      Function.infer f injections registry = .ok t := by
    intro t ht
    obtain ⟨f, -, hinfer⟩ := exists_of_mem_mapM htyped ht
    exact ⟨f, injections, registry, hinfer⟩
  have hvalues : ∀ t ∈ typed, ∀ e ∈ t.exprs, e.ascription.IsFinite := by
    intro t ht e he
    obtain ⟨f, hf, hinfer⟩ := exists_of_mem_mapM htyped ht
    refine Function.isFinite_of_mem_exprs hinjections ?_ hinfer he
    intro l hl
    exact hliterals l (List.mem_flatMap.2 ⟨f, hf, hl⟩)
  constructor
  · intro options value herror
    obtain ⟨hinfinite, ty, hposition⟩ := Embree.constant_of_invalidFloat herror
    obtain ⟨t, ht, e, he, -, hvalue⟩ := Embree.value_of_constant hinferred hposition
    have hfinite := hvalues t ht e he value hvalue
    rw [hinfinite] at hfinite
    cases hfinite
  · intro options out hout
    rw [Glsl.generate_eq] at hout
    obtain ⟨-, hcode, -⟩ := Dialect.emit_eq_ok_iff.1 hout
    refine ⟨hcode.trans (Dialect.text_codePieces _ _).symm, ?_⟩
    intro value ty hleaf
    obtain ⟨t, ht, e, he, -, hvalue⟩ := Glsl.value_of_mem_code hinferred hleaf
    have hfinite := hvalues t ht e he value hvalue
    exact ⟨hfinite, Number.isTextChar_text hfinite⟩

namespace Sample

/-- The largest double. -/
def largest : Float := Float.ofBits 0x7FEFFFFFFFFFFFFF

/-- A number whose square is beyond all doubles. -/
def huge : Injections := ⟨[("k", ⟨.number, some (.number largest)⟩)]⟩

/-- `function square(k) { return k * k; }` -/
def square : Program :=
  ⟨[Bare.function "square" ["k"] [
    Bare.ret (some (Bare.binary (.arithmetic .mul) (Bare.ident "k") (Bare.ident "k")))]], none⟩

theorem huge_areFinite : huge.AreFinite := by
  intro name a ha x hx
  change (if "k" = name then some ⟨.number, some (.number largest)⟩ else none) = some a at ha
  split at ha
  · cases ha
    cases hx
    decide
  · cases ha

theorem square_loaded : Program.ofJson (square.toJson ⟨true, false⟩) = .ok square := by
  refine (square.writtenAs_toJson ⟨true, false⟩ ?_).ofJson (by decide) (by decide)
  intro l hl
  cases hl

/-- The square is not folded, the two numbers in the tree are finite, and so is what is printed. -/
theorem square_constants_are_finite : ∃ t out, square.infer huge ⟨[]⟩ = .ok ⟨[t]⟩ ∧
    t.numbers.length = 2 ∧ (∀ x ∈ t.numbers, x.isFinite = true) ∧
    (∀ options value, Embree.generate [t] options ≠ .error (.invalidFloat value)) ∧
    Glsl.generate [t] {} = .ok out ∧
    ∀ value ty,
      Leaf.number value ty ∈ Piece.leavesAll (Dialect.glsl.codePieces (Glsl.lines [t] {})) →
        value.isFinite = true := by
  obtain ⟨f, t, out, hf, hfunction, hinfer, hlength, hout⟩ : ∃ f t out, square.functions = [f] ∧
      f.infer huge ⟨[]⟩ = .ok t ∧ square.infer huge ⟨[]⟩ = .ok ⟨[t]⟩ ∧ t.numbers.length = 2 ∧
      Glsl.generate [t] {} = .ok out :=
    ⟨_, _, _, rfl, rfl, rfl, rfl, rfl⟩
  obtain ⟨hnumbers, hloaded⟩ := constants_are_finite huge_areFinite ⟨[]⟩
  have hliterals : ∀ l ∈ f.literals, l.IsFinite := by
    cases hf
    intro l hl
    cases hl
  obtain ⟨hembree, hglsl⟩ := hloaded square ⟨[t]⟩ (.inl ⟨_, square_loaded⟩) hinfer
  refine ⟨t, out, hinfer, hlength, hnumbers f t hliterals hfunction, hembree, hout, ?_⟩
  intro value ty hleaf
  exact ((hglsl {} out hout).2 value ty hleaf).1

end Sample

end Shader
