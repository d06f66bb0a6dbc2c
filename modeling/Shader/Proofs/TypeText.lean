import Shader.Ty.Basic

/-!
# Types and their texts

Diagnostics and signatures show types by their texts only, and a text shows everything about a type.
The texts are a *prefix code*: a text that begins with the text of a type begins with that of no
other type, so that a type can be read off the front of any text.  This holds although function
types are written without parentheses around them, because a parameter that is a function type ends
where its result ends, and a mark behind it can only be its own.

What a text does not show is how many parameters are required beyond those that exist, so the types
compared are those whose signatures ask for no more than they have (`Ty.isWellFormed`).
`Ty.display_append_inj` is the prefix code, and `Ty.texts_are_unambiguous` the result.
-/

namespace Shader

namespace Ty

/-! ## Signatures that require parameters they have -/

mutual

/-- Whether every signature in a type requires at most as many parameters as it has. -/
def isWellFormed : Ty → Bool
  | .function params required result =>
    decide (required ≤ params.length) && areWellFormed params && isWellFormed result
  | .number | .int | .boolean | .string | .undefined | .object _ => true

/-- Whether every signature in a list of types requires at most as many parameters as it has. -/
def areWellFormed : List Ty → Bool
  | [] => true
  | p :: ps => isWellFormed p && areWellFormed ps

end

/-- The signatures in a function type are its own and those in its parts. -/
theorem isWellFormed_function_iff {params : List Ty} {required : Nat} {result : Ty} :
    (function params required result).isWellFormed = true ↔
      required ≤ params.length ∧ areWellFormed params = true ∧ result.isWellFormed = true := by
  simp [isWellFormed, and_assoc]

/-- The signatures in a list of types are those in its elements. -/
theorem areWellFormed_cons_iff {p : Ty} {ps : List Ty} :
    areWellFormed (p :: ps) = true ↔ p.isWellFormed = true ∧ areWellFormed ps = true := by
  simp [areWellFormed]

/-! ## Texts of parameters -/

/-- What follows the type of a parameter, when `required` counts the required parameters from this
one on. -/
def optionalMark (required : Nat) : String := if required = 0 then "?" else ""

/-- The text of the first parameter, and those of the others. -/
theorem displayParams_cons (p : Ty) (ps : List Ty) (required : Nat) :
    displayParams (p :: ps) required =
      (p.display ++ optionalMark required) :: displayParams ps (required - 1) := by
  cases required with
  | zero => simp [displayParams, optionalMark]
  | succ n => simp [displayParams, optionalMark]

/-- The texts that follow the first one of a list, each behind a comma. -/
def laterTexts (texts : List String) : List Char := texts.flatMap fun t => ',' :: ' ' :: t.toList

/-- A list of texts is the first one and what follows it. -/
theorem toList_intercalate_cons (t : String) (ts : List String) :
    (", ".intercalate (t :: ts)).toList = t.toList ++ laterTexts ts := by
  induction ts generalizing t with
  | nil => simp [laterTexts]
  | cons u us ih =>
    rw [String.intercalate_cons_cons, String.toList_append, String.toList_append, ih]
    simp [laterTexts]

/-- The text of a function type with a first parameter. -/
theorem toList_display_function_cons (p : Ty) (ps : List Ty) (required : Nat) (result : Ty) :
    (function (p :: ps) required result).display.toList =
      '(' :: (p.display.toList ++ ((optionalMark required).toList ++
        (laterTexts (displayParams ps (required - 1)) ++
          (')' :: (" -> ".toList ++ result.display.toList))))) := by
  rw [display, displayParams_cons, String.toList_append, String.toList_append, String.toList_append,
    toList_intercalate_cons]
  simp

/-- The text of a function type without parameters. -/
theorem toList_display_function_nil (required : Nat) (result : Ty) :
    (function [] required result).display.toList =
      '(' :: ')' :: (" -> ".toList ++ result.display.toList) := by
  simp [display, displayParams]

/-- The texts of further parameters begin with a comma. -/
theorem laterTexts_displayParams_cons (p : Ty) (ps : List Ty) (required : Nat) :
    laterTexts (displayParams (p :: ps) required) =
      ',' :: ' ' :: (p.display.toList ++ ((optionalMark required).toList ++
        laterTexts (displayParams ps (required - 1)))) := by
  simp [laterTexts, displayParams_cons]

/-! ## Where texts end -/

/-- The text of a type does not begin with a closing parenthesis. -/
theorem head?_display_ne (t : Ty) (x : List Char) :
    (t.display.toList ++ x).head? ≠ some ')' := by
  cases t <;> simp [display]

/-- Behind a parameter and its mark stands no other mark. -/
theorem head?_laterTexts_ne (texts : List String) (x : List Char) :
    (laterTexts texts ++ ')' :: x).head? ≠ some '?' := by
  cases texts <;> simp [laterTexts]

/-- A mark can be told from what may follow it. -/
theorem optionalMark_append_inj {m n : Nat} {x y : List Char} (hx : x.head? ≠ some '?')
    (hy : y.head? ≠ some '?')
    (h : (optionalMark m).toList ++ x = (optionalMark n).toList ++ y) :
    (m = 0 ↔ n = 0) ∧ x = y := by
  have hmark : ∀ {x y : List Char}, x.head? ≠ some '?' → ∀ {n : Nat},
      x = (optionalMark n).toList ++ y → n ≠ 0 := by
    rintro x y hx n rfl rfl
    exact hx rfl
  cases m with
  | zero =>
    cases n with
    | zero => simpa [optionalMark] using h
    | succ n => exact absurd rfl (hmark hy h.symm)
  | succ m =>
    cases n with
    | zero => exact absurd rfl (hmark hx h)
    | succ n => simpa [optionalMark] using h

/-- The name of a kind ends with the parenthesis behind it. -/
theorem kindName_append_inj {k l : Kind} {x y : List Char}
    (h : k.name.toList ++ ')' :: x = l.name.toList ++ ')' :: y) : k = l ∧ x = y := by
  cases k <;> cases l <;> simp_all [Kind.name]

/-- A parameter, whether it is required, and what follows it can be told apart, if its type can. -/
theorem param_append_inj {p q : Ty} {m n : Nat} {ts us : List String} {x y : List Char}
    (htype : ∀ {x y : List Char}, p.display.toList ++ x = q.display.toList ++ y → p = q ∧ x = y)
    (h : p.display.toList ++ ((optionalMark m).toList ++ (laterTexts ts ++ ')' :: x)) =
      q.display.toList ++ ((optionalMark n).toList ++ (laterTexts us ++ ')' :: y))) :
    p = q ∧ (m = 0 ↔ n = 0) ∧ laterTexts ts ++ ')' :: x = laterTexts us ++ ')' :: y := by
  obtain ⟨hpq, hrest⟩ := htype h
  exact ⟨hpq, optionalMark_append_inj (head?_laterTexts_ne ts x) (head?_laterTexts_ne us y) hrest⟩

/-! ## The prefix code -/

mutual

/-- A type can be read off the front of a text. -/
theorem display_append_inj : ∀ (a b : Ty) {x y : List Char}, a.isWellFormed = true →
    b.isWellFormed = true → a.display.toList ++ x = b.display.toList ++ y → a = b ∧ x = y
  | .number, b, x, y, _, _, h => by cases b <;> simp_all [display]
  | .int, b, x, y, _, _, h => by cases b <;> simp_all [display]
  | .boolean, b, x, y, _, _, h => by cases b <;> simp_all [display]
  | .string, b, x, y, _, _, h => by cases b <;> simp_all [display]
  | .undefined, b, x, y, _, _, h => by cases b <;> simp_all [display]
  | .object k, b, x, y, _, _, h => by
    cases b with
    | object l =>
      obtain ⟨rfl, hxy⟩ := kindName_append_inj (by simpa [display] using h)
      exact ⟨rfl, hxy⟩
    | _ => simp [display] at h
  | .function [] m r, b, x, y, ha, hb, h => by
    rw [isWellFormed_function_iff] at ha
    rw [toList_display_function_nil] at h
    cases b with
    | function qs n s =>
      rw [isWellFormed_function_iff] at hb
      cases qs with
      | nil =>
        rw [toList_display_function_nil] at h
        obtain ⟨rfl, hxy⟩ := display_append_inj r s ha.2.2 hb.2.2 (by simpa using h)
        have hm : m = 0 := Nat.le_zero.1 ha.1
        have hn : n = 0 := Nat.le_zero.1 hb.1
        exact ⟨by rw [hm, hn], hxy⟩
      | cons q qs =>
        rw [toList_display_function_cons] at h
        simp only [List.cons_append, List.append_assoc, List.cons.injEq, true_and] at h
        exact absurd (congrArg List.head? h).symm (head?_display_ne q _)
    | _ => simp [display] at h
  | .function (p :: ps) m r, b, x, y, ha, hb, h => by
    rw [isWellFormed_function_iff, areWellFormed_cons_iff] at ha
    obtain ⟨hm, ⟨hp, hps⟩, hr⟩ := ha
    rw [toList_display_function_cons] at h
    cases b with
    | function qs n s =>
      rw [isWellFormed_function_iff] at hb
      cases qs with
      | nil =>
        rw [toList_display_function_nil] at h
        simp only [List.cons_append, List.append_assoc, List.cons.injEq, true_and] at h
        exact absurd (congrArg List.head? h) (head?_display_ne p _)
      | cons q qs =>
        rw [areWellFormed_cons_iff] at hb
        obtain ⟨hn, ⟨hq, hqs⟩, hs⟩ := hb
        rw [toList_display_function_cons] at h
        simp only [List.cons_append, List.append_assoc, List.cons.injEq, true_and] at h
        obtain ⟨hpq, hzero, hlater⟩ := param_append_inj (display_append_inj p q hp hq) h
        rw [List.length_cons] at hm hn
        obtain ⟨hpsqs, hmn, hresult⟩ := laterTexts_append_inj ps qs hps hqs (by omega) (by omega)
          hlater
        obtain ⟨hrs, hxy⟩ := display_append_inj r s hr hs (List.append_cancel_left hresult)
        have hcount : m = n := by omega
        exact ⟨by rw [hpq, hpsqs, hcount, hrs], hxy⟩
    | _ => simp [display] at h

/-- Further parameters, and which of them are required, can be read off the front of a text in which
the parenthesis behind them is closed. -/
theorem laterTexts_append_inj : ∀ (ps qs : List Ty) {m n : Nat} {x y : List Char},
    areWellFormed ps = true → areWellFormed qs = true → m ≤ ps.length → n ≤ qs.length →
    laterTexts (displayParams ps m) ++ ')' :: x = laterTexts (displayParams qs n) ++ ')' :: y →
    ps = qs ∧ m = n ∧ x = y
  | [], [], m, n, x, y, _, _, hm, hn, h => by
    have hm : m = 0 := Nat.le_zero.1 hm
    have hn : n = 0 := Nat.le_zero.1 hn
    refine ⟨rfl, by rw [hm, hn], ?_⟩
    simpa [displayParams, laterTexts] using h
  | [], q :: qs, m, n, x, y, _, _, _, _, h => by
    rw [laterTexts_displayParams_cons] at h
    simp [displayParams, laterTexts] at h
  | p :: ps, [], m, n, x, y, _, _, _, _, h => by
    rw [laterTexts_displayParams_cons] at h
    simp [displayParams, laterTexts] at h
  | p :: ps, q :: qs, m, n, x, y, hps, hqs, hm, hn, h => by
    rw [areWellFormed_cons_iff] at hps hqs
    rw [laterTexts_displayParams_cons, laterTexts_displayParams_cons] at h
    simp only [List.cons_append, List.append_assoc, List.cons.injEq, true_and] at h
    obtain ⟨hpq, hzero, hlater⟩ := param_append_inj (display_append_inj p q hps.1 hqs.1) h
    rw [List.length_cons] at hm hn
    obtain ⟨hpsqs, hmn, hxy⟩ := laterTexts_append_inj ps qs hps.2 hqs.2 (by omega) (by omega) hlater
    exact ⟨by rw [hpq, hpsqs], by omega, hxy⟩

end

/-- Two well-formed types with one text are one type. -/
theorem eq_of_display_eq {a b : Ty} (ha : a.isWellFormed = true) (hb : b.isWellFormed = true)
    (h : a.display = b.display) : a = b :=
  (display_append_inj a b ha hb (congrArg (fun text => text.toList ++ []) h)).1

end Ty

/-! ## Signatures as they are made -/

/-- A signature that is restricted to fewer required parameters is well formed, whatever it required
before. -/
theorem Signature.isWellFormed_withRequired (s : Signature)
    (hparams : Ty.areWellFormed s.params = true) (hresult : s.result.isWellFormed = true)
    (n : Nat) : (s.withRequired n).toTy.isWellFormed = true := by
  rw [toTy, Ty.isWellFormed_function_iff]
  exact ⟨Nat.min_le_right n s.params.length, hparams, hresult⟩

/-- The text of a type determines the type, with its parameters, their marks, its result and all
function types inside, for types whose signatures require no more parameters than they have.  The
signatures that are made from well-formed types, all of whose parameters are required or of which
some are made optional, are of this kind; and signatures have one text only if they are one. -/
theorem Ty.texts_are_unambiguous :
    (∀ a b : Ty, a.isWellFormed = true → b.isWellFormed = true →
      (a.display = b.display ↔ a = b)) ∧
    (∀ s t : Signature, s.toTy.isWellFormed = true → t.toTy.isWellFormed = true →
      (s.display = t.display ↔ s = t)) ∧
    ∀ (params : List Ty) (result : Ty), areWellFormed params = true → result.isWellFormed = true →
      (Signature.exactly params result).toTy.isWellFormed = true ∧
        ∀ n, ((Signature.exactly params result).withRequired n).toTy.isWellFormed = true := by
  refine ⟨?_, ?_, ?_⟩
  · intro a b ha hb
    exact ⟨eq_of_display_eq ha hb, fun h => by rw [h]⟩
  · intro s t hs ht
    refine ⟨fun h => ?_, fun h => by rw [h]⟩
    obtain ⟨ps, m, r⟩ := s
    obtain ⟨qs, n, u⟩ := t
    have heq : function ps m r = function qs n u := eq_of_display_eq hs ht h
    cases heq
    rfl
  · intro params result hparams hresult
    refine ⟨?_, Signature.isWellFormed_withRequired _ hparams hresult⟩
    exact isWellFormed_function_iff.2 ⟨Nat.le_refl _, hparams, hresult⟩

-- Parameters that are required without being there leave no trace in a text.
example : (Ty.function [] 0 .int).display = (Ty.function [] 1 .int).display := rfl

namespace Sample

/-- A function that takes a function with an optional parameter. -/
def takesOptional : Ty := .function [.function [.int] 0 .int] 1 .int

/-- A function that optionally takes a function. -/
def optionallyTakes : Ty := .function [.function [.int] 1 .int] 0 .int

/-- A mark inside a parameter and a mark behind it are told apart. -/
theorem marks_are_told_apart :
    takesOptional.display = "((Int?) -> Int) -> Int" ∧
    optionallyTakes.display = "((Int) -> Int?) -> Int" ∧
    takesOptional.isWellFormed = true ∧ optionallyTakes.isWellFormed = true ∧
    (takesOptional.display = optionallyTakes.display ↔ takesOptional = optionallyTakes) ∧
    ((Signature.exactly [takesOptional, optionallyTakes] .int).withRequired 1).toTy.isWellFormed =
      true :=
  ⟨rfl, rfl, rfl, rfl, Ty.texts_are_unambiguous.1 _ _ rfl rfl,
    (Ty.texts_are_unambiguous.2.2 [takesOptional, optionallyTakes] .int rfl rfl).2 1⟩

end Sample

end Shader
