import Shader.Config
import Shader.Proofs.DecimalPoint
import Shader.Proofs.Provenance
import Shader.Proofs.WholeDouble

/-!
# Known values fit their types

A value that is known of an expression is one of its type: a number stands on a number or an
integer, a boolean on a boolean, a string on a string, and the number of an integer is finite and
whole.  The literals are so by their spelling, the injections of a configuration by the check of
their entries, and folding computes integers as integers.

The numbers are also finite, as long as those in the program and in the configuration are.  Then
the generated code has a decimal point in every constant of type number, exactly one, and in none of
type integer.
-/

namespace Shader

/-! ## Two properties of ascriptions -/

/-- `v.Fits ty`: the value `v` is one of the type `ty`. -/
inductive Constant.Fits : Constant → Ty → Prop where
  | number {x : Float} : Fits (.number x) .number
  | int {x : Float} : x.isFinite = true → Number.isWhole x = true → Fits (.number x) .int
  | bool {b : Bool} : Fits (.bool b) .boolean
  | string {s : String} : Fits (.string s) .string

namespace Ascription

/-- `a.Fits`: the value, if it is known, is one of the type. -/
def Fits (a : Ascription) : Prop := ∀ v, a.value = some v → v.Fits a.ty

/-- `a.IsFinite`: the value is not an infinite number and not `NaN`. -/
def IsFinite (a : Ascription) : Prop := ∀ x, a.value = some (.number x) → x.isFinite = true

theorem number?_eq_some {a : Ascription} {x : Float} (h : a.number? = some x) :
    a.value = some (.number x) := by
  obtain ⟨v, hv, hx⟩ := Option.bind_eq_some_iff.1 h
  cases v with
  | number y =>
    obtain rfl := Option.some.inj hx
    exact hv
  | string s => cases hx
  | bool b => cases hx

end Ascription

/-! ## Folding -/

/-- What a folded value is: finite, and whole when it is an integer. -/
theorem ArithmeticOp.fold_eq_some {op : ArithmeticOp} {ty : Ty} {left right : Ascription}
    {v : Constant} (h : op.fold ty left right = some v) :
    ∃ x, v = .number x ∧ x.isFinite = true ∧ v.Fits ty := by
  obtain ⟨a, -, h⟩ := Option.bind_eq_some_iff.1 h
  obtain ⟨b, -, h⟩ := Option.bind_eq_some_iff.1 h
  obtain ⟨x, hx, h⟩ := Option.bind_eq_some_iff.1 h
  split at h
  · rename_i hfinite
    obtain rfl := Option.some.inj h
    refine ⟨x, rfl, hfinite, ?_⟩
    unfold onNumbers at hx
    split at hx
    · obtain ⟨m, -, hx⟩ := Option.bind_eq_some_iff.1 hx
      obtain ⟨n, -, hx⟩ := Option.bind_eq_some_iff.1 hx
      obtain ⟨r, -, hx⟩ := Option.bind_eq_some_iff.1 hx
      obtain rfl := Option.some.inj hx
      exact .int hfinite (Number.isWhole_ofInt r)
    · exact .number
    · cases hx
  · cases h

/-- What a signed value is: the number itself or its negation, which is whole when it is an
integer. -/
theorem foldSign_eq_some {op : UnaryOp} {ty : Ty} {argument : Ascription} {v : Constant}
    (h : foldSign op ty argument = some v) :
    ∃ x y, v = .number x ∧ argument.value = some (.number y) ∧
      (x = y ∨ (ty = .int ∧ Number.isWhole x = true) ∨ (ty ≠ .int ∧ x = -y)) := by
  have hplus : ∀ {v}, argument.number?.map Constant.number = some v →
      ∃ x y, v = .number x ∧ argument.value = some (.number y) ∧
        (x = y ∨ (ty = .int ∧ Number.isWhole x = true) ∨ (ty ≠ .int ∧ x = -y)) := by
    intro v hv
    obtain ⟨y, hy, rfl⟩ := Option.map_eq_some_iff.1 hv
    exact ⟨y, y, rfl, Ascription.number?_eq_some hy, .inl rfl⟩
  unfold foldSign at h
  split at h
  · obtain ⟨x, hx, rfl⟩ := Option.map_eq_some_iff.1 h
    obtain ⟨y, hy, hneg⟩ := Option.bind_eq_some_iff.1 hx
    refine ⟨x, y, rfl, Ascription.number?_eq_some hy, .inr ?_⟩
    unfold foldNeg at hneg
    split at hneg
    · rename_i hint
      obtain ⟨n, -, hneg⟩ := Option.bind_eq_some_iff.1 hneg
      obtain ⟨m, -, rfl⟩ := Option.map_eq_some_iff.1 hneg
      exact .inl ⟨hint, Number.isWhole_ofInt m⟩
    · rename_i hint
      exact .inr ⟨hint, (Option.some.inj hneg).symm⟩
  · exact hplus h

/-- Where the value of a unary expression comes from. -/
theorem unaryAscription_value {op : UnaryOp} {argument a : Ascription} {span : Option Span}
    (h : unaryAscription op argument span = .ok a) {v : Constant} (hv : a.value = some v) :
    (a.ty = .boolean ∧ ∃ b, v = .bool b) ∨
      (a.ty = argument.ty ∧ a.ty.isNumeric = true ∧ foldSign op a.ty argument = some v) := by
  unfold unaryAscription at h
  split at h
  · obtain rfl := Except.ok.inj h
    refine .inl ⟨rfl, ?_⟩
    change foldNot argument = some v at hv
    unfold foldNot at hv
    split at hv
    · exact ⟨_, (Option.some.inj hv).symm⟩
    · cases hv
  · split at h
    · rename_i hnumeric
      obtain rfl := Except.ok.inj h
      exact .inr ⟨rfl, hnumeric, hv⟩
    · split at h
      · split at h
        · exact absurd h fault_ne_ok
        · obtain rfl := Except.ok.inj h
          cases hv
      · exact absurd h fault_ne_ok

/-- Where the value of a binary expression comes from. -/
theorem binaryAscription_value {op : BinaryOp} {left right a : Ascription} {span : Option Span}
    (h : binaryAscription op left right span = .ok a) {v : Constant} (hv : a.value = some v) :
    ∃ arith : ArithmeticOp, arith.fold a.ty left right = some v := by
  cases op with
  | arithmetic arith =>
    obtain ⟨ty, -, h⟩ := bind_eq_ok_iff.1 h
    obtain rfl := Except.ok.inj h
    exact ⟨arith, hv⟩
  | comparison comp =>
    obtain ⟨-, -, h⟩ := bind_eq_ok_iff.1 h
    obtain rfl := Except.ok.inj h
    cases hv

theorem Ty.eq_number_of_isNumeric {ty : Ty} (h : ty.isNumeric = true) (hint : ty ≠ .int) :
    ty = .number := by
  cases ty with
  | number => rfl
  | int => exact absurd rfl hint
  | _ => cases h

/-- Operators compute values of their types. -/
theorem Ascription.inherited_fits : Ascription.Inherited Ascription.Fits where
  unknown := by
    intro a hnone v hv
    rw [hnone] at hv
    cases hv
  binary := by
    intro op left right a span h _ _ v hv
    obtain ⟨arith, hfold⟩ := binaryAscription_value h hv
    obtain ⟨x, -, -, hfits⟩ := ArithmeticOp.fold_eq_some hfold
    exact hfits
  unary := by
    intro op argument a span h hargument v hv
    rcases unaryAscription_value h hv with ⟨hty, b, rfl⟩ | ⟨hty, hnumeric, hsign⟩
    · rw [hty]
      exact .bool
    · obtain ⟨x, y, rfl, hy, rfl | ⟨hint, hwhole⟩ | ⟨hint, -⟩⟩ := foldSign_eq_some hsign
      · rw [hty]
        exact hargument _ hy
      · rw [hint]
        exact .int (Number.isFinite_of_isWhole hwhole) hwhole
      · rw [Ty.eq_number_of_isNumeric hnumeric hint]
        exact .number

/-- Operators compute finite numbers from finite numbers. -/
theorem Ascription.inherited_isFinite : Ascription.Inherited Ascription.IsFinite where
  unknown := by
    intro a hnone x hx
    rw [hnone] at hx
    cases hx
  binary := by
    intro op left right a span h _ _ x hx
    obtain ⟨arith, hfold⟩ := binaryAscription_value h hx
    obtain ⟨y, hy, hfinite, -⟩ := ArithmeticOp.fold_eq_some hfold
    cases hy
    exact hfinite
  unary := by
    intro op argument a span h hargument x hx
    rcases unaryAscription_value h hx with ⟨-, b, hb⟩ | ⟨-, -, hsign⟩
    · cases hb
    · obtain ⟨x', y, hx', hy, hcases⟩ := foldSign_eq_some hsign
      cases hx'
      rcases hcases with rfl | ⟨-, hwhole⟩ | ⟨-, rfl⟩
      · exact hargument _ hy
      · exact Number.isFinite_of_isWhole hwhole
      · exact Number.isFinite_neg (hargument y hy)

/-! ## Literals -/

theorem Literal.isWhole_of_isIntegral {l : Literal} {x : Float} (hx : l.value = some (.number x))
    (h : l.isIntegral = true) : Number.isWhole x = true := by
  unfold Literal.isIntegral at h
  simp only [hx] at h
  split at h
  · exact (Bool.and_eq_true_iff.1 h).2
  · exact h

theorem Context.literal_value (l : Literal) : (Context.literal l).value = l.value := by
  unfold Context.literal
  split <;> simp_all [Ascription.ofTy]

/-- A literal has a value of its type. -/
theorem Context.literal_fits (l : Literal) : (Context.literal l).Fits := by
  intro v hv
  rw [Context.literal_value] at hv
  unfold Context.literal
  rw [hv]
  cases v with
  | number x =>
    by_cases hint : l.isIntegral = true
    · have hwhole := Literal.isWhole_of_isIntegral hv hint
      simp only [if_pos hint]
      exact .int (Number.isFinite_of_isWhole hwhole) hwhole
    · simp only [if_neg hint]
      exact .number
  | string s => exact .string
  | bool b => exact .bool

/-! ## Configurations -/

/-- The constant of a value is one of the type it was asked for, and a finite number if the value
is. -/
theorem Toml.Value.constant?_eq_some {v : Toml.Value} {ty : Ty} {k : Constant}
    (h : v.constant? ty = some k) :
    k.Fits ty ∧ ∀ x, k = .number x → (∀ y, v = .float y → y.isFinite = true) →
      x.isFinite = true := by
  have hint : ∀ n, (Number.ofInt n).isFinite = true :=
    fun n => Number.isFinite_of_isWhole (Number.isWhole_ofInt n)
  unfold Toml.Value.constant? at h
  split at h
  · rename_i n
    obtain rfl := Option.some.inj h
    refine ⟨.int (hint n) (Number.isWhole_ofInt n), ?_⟩
    rintro x hx -
    cases hx
    exact hint n
  · rename_i n
    obtain rfl := Option.some.inj h
    refine ⟨.number, ?_⟩
    rintro x hx -
    cases hx
    exact hint n
  · rename_i y
    obtain rfl := Option.some.inj h
    refine ⟨.number, ?_⟩
    intro x hx hfinite
    cases hx
    exact hfinite y rfl
  · obtain rfl := Option.some.inj h
    exact ⟨.bool, fun x hx => by cases hx⟩
  · obtain rfl := Option.some.inj h
    exact ⟨.string, fun x hx => by cases hx⟩
  · cases h

/-- What an entry injects has a value of its type, and a finite number if the entry has one. -/
theorem InjectEntry.resolve_eq_ok {entry : InjectEntry} {name : String} {a : Ascription}
    (h : entry.resolve name = .ok a) :
    a.Fits ∧ ((∀ y, entry.value = some (.float y) → y.isFinite = true) → a.IsFinite) := by
  unfold InjectEntry.resolve at h
  split at h
  · cases h
  · split at h
    · obtain rfl := Except.ok.inj h
      exact ⟨Ascription.inherited_fits.unknown rfl,
        fun _ => Ascription.inherited_isFinite.unknown rfl⟩
    · rename_i v hvalue
      split at h
      · cases h
      · rename_i k hk
        obtain rfl := Except.ok.inj h
        obtain ⟨hfits, hfinite⟩ := Toml.Value.constant?_eq_some hk
        constructor
        · intro w hw
          cases hw
          exact hfits
        · intro hentry x hx
          refine hfinite x (Option.some.inj hx) ?_
          intro y hy
          exact hentry y (by rw [hvalue, hy])

section Injections

variable {P : Ascription → Prop}

/-- Taking in one entry after the other keeps what holds of the entries. -/
theorem Config.foldlM_hold {entries : List (String × InjectEntry)} {before after : Injections}
    (h : entries.foldlM (fun (injections : Injections) (name, entry) => do
      let ascription ← InjectEntry.resolve entry name
      .ok (injections.insert name ascription)) before = Except.ok after)
    (hentries : ∀ name entry a, (name, entry) ∈ entries → entry.resolve name = .ok a → P a)
    (hbefore : ∀ name a, before.get? name = some a → P a) :
    ∀ name a, after.get? name = some a → P a := by
  induction entries generalizing before with
  | nil =>
    obtain rfl := Except.ok.inj h
    exact hbefore
  | cons pair entries ih =>
    obtain ⟨key, entry⟩ := pair
    rw [List.foldlM_cons] at h
    cases hresolve : entry.resolve key with
    | error e =>
      simp only [hresolve] at h
      cases h
    | ok b =>
      simp only [hresolve] at h
      refine ih h (fun name entry a hmem => hentries name entry a (List.mem_cons_of_mem _ hmem)) ?_
      intro name a ha
      by_cases hname : name = key
      · rw [hname, Table.get?_insert_self] at ha
        obtain rfl := Option.some.inj ha
        exact hentries key entry b List.mem_cons_self hresolve
      · rw [Table.get?_insert_of_ne _ hname] at ha
        exact hbefore name a ha

/-- What holds of every entry of a configuration that has a meaning holds of all injections. -/
theorem Config.injections_hold (hP : ∀ {a : Ascription}, a.value = none → P a) {c : Config}
    {injections : Injections} (h : c.injections = .ok injections)
    (hentries : ∀ name entry a, (name, entry) ∈ c.inject.entries → entry.resolve name = .ok a → P a)
    (name : String) (a : Ascription) (ha : injections.resolve? name = some a) : P a := by
  have hget : ∀ name a, injections.get? name = some a → P a := by
    refine Config.foldlM_hold h ?_ ?_
    · intro name entry a hmem
      exact hentries name entry a (List.mem_mergeSort.1 hmem)
    · intro name a hempty
      cases hempty
  unfold Injections.resolve? at ha
  split at ha
  · rename_i b hb
    obtain rfl := Option.some.inj ha
    exact hget name b hb
  · split at ha
    · obtain rfl := Option.some.inj ha
      exact hP rfl
    · cases ha

end Injections

/-! ## The code of a known value -/

theorem Dialect.expr_of_propagated? {d : Dialect} {e : TypedExpr} {x : Float}
    (h : e.propagated? = some x) : d.expr e = .ofExcept (d.number x e.ty) := by
  rw [Dialect.expr.eq_def, h]

/-- The code of a known integer is its text. -/
theorem Dialect.embree_int {e : TypedExpr} {x : Float} (h : e.propagated? = some x)
    (hty : e.ty = .int) : Dialect.embree.expr e = .ok (Number.text x, []) := by
  rw [Dialect.expr_of_propagated? h, hty]
  rfl

/-- The code of a known number is its form with a point, if it is finite. -/
theorem Dialect.embree_number {e : TypedExpr} {x : Float} (h : e.propagated? = some x)
    (hty : e.ty = .number) : Dialect.embree.expr e = .ofExcept (floatLiteral x) := by
  rw [Dialect.expr_of_propagated? h, hty]
  rfl

theorem floatLiteral_of_isFinite {x : Float} (h : x.isFinite = true) :
    floatLiteral x = .ok (Number.pointedText x) := if_pos h

theorem floatLiteral_of_not_isFinite {x : Float} (h : x.isFinite = false) :
    floatLiteral x = .error (.invalidFloat x) := if_neg (by rw [h]; decide)

theorem TypedExpr.value_of_propagated? {e : TypedExpr} {x : Float} (h : e.propagated? = some x) :
    e.ascription.value = some (.number x) := by
  unfold TypedExpr.propagated? at h
  split at h
  · exact Ascription.number?_eq_some h
  · cases h

/-! ## Programs -/

/-- Every value that is known in the typed tree of a program is one of its type.  In the code for
materials an integer is written without a point and a finite number with one; a number that is not
finite has no code, and comes only from a number of the configuration that is not finite. -/
theorem Program.known_values_fit {c : Config} {injections : Injections} {registry : Registry}
    {p : Program} {t : TypedProgram} (hconfig : c.injections = .ok injections)
    (hliterals : ∀ l ∈ p.literals, ∀ x, l.value = some (.number x) → x.isFinite = true)
    (h : p.infer injections registry = .ok t) :
    ∀ f ∈ t.functions, (∀ d ∈ f.declarations, d.ascription.value = none) ∧
      ∀ e ∈ f.exprs, e.ascription.Fits ∧
        (∀ x, e.propagated? = some x → e.ty = .int →
          ∃ text, Dialect.embree.expr e = .ok (text, []) ∧ '.' ∉ text.toList) ∧
        (∀ x, e.propagated? = some x → e.ty = .number → x.isFinite = true →
          ∃ text, Dialect.embree.expr e = .ok (text, []) ∧ text.toList.count '.' = 1) ∧
        (∀ x, e.propagated? = some x → e.ty = .number → x.isFinite = false →
          Dialect.embree.expr e = .error (.invalidFloat x)) ∧
        ((∀ entry ∈ c.inject.entries, ∀ x, entry.2.value = some (.float x) → x.isFinite = true) →
          e.ascription.IsFinite) := by
  intro f hf
  obtain ⟨typed, htyped, hok⟩ := bind_eq_ok_iff.1 h
  obtain rfl := Except.ok.inj hok
  obtain ⟨g, hg, hinfer⟩ := exists_of_mem_mapM htyped hf
  refine ⟨(Function.infer_sourced hinfer).typed, ?_⟩
  intro e he
  have hfits : e.ascription.Fits := by
    refine Function.ascriptions_hold Ascription.inherited_fits hinfer ?_ ?_ he
    · refine Config.injections_hold Ascription.inherited_fits.unknown hconfig ?_
      intro name entry a _ hresolve
      exact (InjectEntry.resolve_eq_ok hresolve).1
    · exact fun l _ => Context.literal_fits l
  refine ⟨hfits, ?_, ?_, ?_, ?_⟩
  · intro x hx hty
    refine ⟨_, Dialect.embree_int hx hty, ?_⟩
    have hvalue := hfits _ (TypedExpr.value_of_propagated? hx)
    change Constant.Fits (.number x) e.ty at hvalue
    rw [hty] at hvalue
    cases hvalue with
    | int _ hwhole => exact Number.point_notMem_text hwhole
  · intro x hx hty hfinite
    refine ⟨_, ?_, Number.count_point_pointedText x⟩
    rw [Dialect.embree_number hx hty, floatLiteral_of_isFinite hfinite]
    rfl
  · intro x hx hty hfinite
    rw [Dialect.embree_number hx hty, floatLiteral_of_not_isFinite hfinite]
    rfl
  · intro hentries
    refine Function.ascriptions_hold Ascription.inherited_isFinite hinfer ?_ ?_ he
    · refine Config.injections_hold Ascription.inherited_isFinite.unknown hconfig ?_
      intro name entry a hmem hresolve
      exact (InjectEntry.resolve_eq_ok hresolve).2 fun y hy => hentries _ hmem y hy
    · intro l hl x hx
      rw [Context.literal_value] at hx
      exact hliterals l (List.mem_flatMap.2 ⟨g, hg, hl⟩) x hx

namespace Sample

/-- A number and an integer with fixed values. -/
def fixed : Config where
  inject := ⟨[("gain", ⟨"number", some (.float 0.5)⟩), ("n", ⟨"int", some (.integer 7)⟩)]⟩

/-- The ascriptions of the fixed values. -/
def fixedInjections : Injections :=
  ⟨[("gain", ⟨.number, some (.number 0.5)⟩), ("n", ⟨.int, some (.number (Number.ofInt 7))⟩)]⟩

theorem injections_fixed : fixed.injections = .ok fixedInjections := by
  have hnumber : Ty.ofName? "number" = some .number := by cbv
  have hint : Ty.ofName? "int" = some .int := by cbv
  have hsorted : fixed.inject.sorted = fixed.inject.entries :=
    List.mergeSort_of_pairwise (by decide)
  unfold Config.injections
  rw [hsorted]
  unfold fixed
  simp only [List.foldlM_cons, List.foldlM_nil, InjectEntry.resolve, hnumber, hint]
  rfl

/-- `function level(gain, n) { return gain * (n - 2); }` -/
def level : Program :=
  ⟨[Bare.function "level" ["gain", "n"] [
    Bare.ret (some (Bare.binary (.arithmetic .mul) (Bare.ident "gain")
      (Bare.binary (.arithmetic .sub) (Bare.ident "n") (Bare.int 2))))]], none⟩

/-- The values in a product of a number and a difference of integers fit their types, and each has
its code, with a point or without. -/
theorem values_of_level_fit : ∃ t, level.infer fixedInjections ⟨[]⟩ = .ok t ∧
    ∀ f ∈ t.functions, ∀ e ∈ f.exprs, e.ascription.Fits ∧
      ∀ x, e.propagated? = some x → ∃ text, Dialect.embree.expr e = .ok (text, []) ∧
        ((e.ty = .int ∧ '.' ∉ text.toList) ∨ (e.ty = .number ∧ text.toList.count '.' = 1)) := by
  obtain ⟨t, h⟩ : ∃ t, level.infer fixedInjections ⟨[]⟩ = .ok t := ⟨_, rfl⟩
  have hliterals : ∀ l ∈ level.literals, ∀ x, l.value = some (.number x) → x.isFinite = true := by
    intro l hl x hx
    obtain rfl := List.mem_singleton.1 hl
    cases hx
    exact Number.isFinite_of_isWhole (Number.isWhole_ofInt 2)
  have hentries : ∀ entry ∈ fixed.inject.entries, ∀ x, entry.2.value = some (.float x) →
      x.isFinite = true := by
    intro entry hentry x hx
    rcases List.mem_cons.1 hentry with rfl | hentry
    · cases hx
      decide
    · obtain rfl := List.mem_singleton.1 hentry
      cases hx
  refine ⟨t, h, ?_⟩
  intro f hf e he
  obtain ⟨hfits, hint, hnumber, -, hfinite⟩ :=
    (Program.known_values_fit injections_fixed hliterals h f hf).2 e he
  refine ⟨hfits, ?_⟩
  intro x hx
  have hvalue := TypedExpr.value_of_propagated? hx
  have hty := hfits _ hvalue
  generalize hcase : e.ascription.ty = ty at hty
  cases hty with
  | int _ _ =>
    obtain ⟨text, htext, hpoint⟩ := hint x hx hcase
    exact ⟨text, htext, .inl ⟨hcase, hpoint⟩⟩
  | number =>
    obtain ⟨text, htext, hpoint⟩ := hnumber x hx hcase (hfinite hentries x hvalue)
    exact ⟨text, htext, .inr ⟨hcase, hpoint⟩⟩

/-- Infinity. -/
def infinity : Float := Float.ofBits 0x7FF0000000000000

/-- A number that is fixed to infinity. -/
def unbounded : Config where
  inject := ⟨[("k", ⟨"number", some (.float infinity)⟩)]⟩

/-- `function limit(k) { return k; }` -/
def limit : Program :=
  ⟨[Bare.function "limit" ["k"] [Bare.ret (some (Bare.ident "k"))]], none⟩

/-- A configuration may fix a number to infinity, and then the number is propagated and has no
code. -/
theorem infinite_number_has_no_code : ∃ injections t, unbounded.injections = .ok injections ∧
    limit.literals = [] ∧ limit.infer injections ⟨[]⟩ = .ok t ∧
    ∃ f ∈ t.functions, ∃ e ∈ f.exprs, e.propagated? = some infinity ∧ e.ty = .number ∧
      Dialect.embree.expr e = .error (.invalidFloat infinity) := by
  have hnumber : Ty.ofName? "number" = some .number := by cbv
  have hsorted : unbounded.inject.sorted = unbounded.inject.entries :=
    List.mergeSort_of_pairwise (by decide)
  have hconfig : unbounded.injections = .ok ⟨[("k", ⟨.number, some (.number infinity)⟩)]⟩ := by
    unfold Config.injections
    rw [hsorted]
    unfold unbounded
    simp only [List.foldlM_cons, List.foldlM_nil, InjectEntry.resolve, hnumber]
    rfl
  refine ⟨_, _, hconfig, rfl, rfl, _, List.mem_singleton_self _, _, List.mem_singleton_self _, rfl,
    rfl, ?_⟩
  rw [Dialect.embree_number rfl rfl, floatLiteral_of_not_isFinite (by decide)]
  rfl

end Sample

end Shader
