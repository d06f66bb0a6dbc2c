import Shader.Proofs.Layout
import Shader.Proofs.NumberText

/-!
# Signs in generated code

When does the code of an expression hold a sign twice in a row?  `Marked` keeps, for a text and one
sign, what is needed to answer this for longer texts: whether the text starts with the sign, and
whether the sign is doubled in it.  There is one lemma for each way in which texts are put together:
a character that is no sign keeps what is on its two sides apart, and a sign is doubled with the one
after it.

String literals do not count, so the answer is about the text with its string literals emptied.
-/

namespace Shader

/-! ## Doubled characters -/

theorem doubled_cons_iff {c x : Char} {text : List Char} :
    [c, c] <:+: x :: text ↔ (x = c ∧ text.head? = some c) ∨ [c, c] <:+: text := by
  rw [List.infix_cons_iff]
  refine or_congr_left ?_
  cases text with
  | nil => simp
  | cons y text => simp [eq_comm]

/-- A character between two texts that is not the doubled one keeps them apart. -/
theorem doubled_append_iff {c x : Char} (hx : x ≠ c) (front back : List Char) :
    [c, c] <:+: front ++ x :: back ↔ [c, c] <:+: front ∨ [c, c] <:+: back := by
  induction front with
  | nil => simp [doubled_cons_iff, hx]
  | cons y front ih =>
    have hhead : (front ++ x :: back).head? = some c ↔ front.head? = some c := by
      cases front with
      | nil => simp [hx]
      | cons z front => simp
    rw [List.cons_append, doubled_cons_iff, doubled_cons_iff, ih, hhead, or_assoc]

theorem not_doubled_of_notMem {c : Char} {text : List Char} (h : c ∉ text) :
    ¬ [c, c] <:+: text := by
  intro hdoubled
  exact h (hdoubled.subset (List.mem_cons_self ..))

/-! ## Emptied string literals -/

/-- A string literal starts with a quote. -/
theorem exists_cons_stringLiteral (s : String) :
    ∃ rest, (stringLiteral s).toList = '"' :: rest := by
  rw [stringLiteral, String.toList_append, String.toList_append]
  exact ⟨_, rfl⟩

/-- `Emptied text bare`: the texts are the same but for string literals of the first one, of which
only the quotes are left in the second. -/
inductive Emptied : List Char → List Char → Prop where
  | nil : Emptied [] []
  | char {text bare : List Char} (c : Char) : Emptied text bare → Emptied (c :: text) (c :: bare)
  | string {text bare : List Char} (s : String) : Emptied text bare →
      Emptied ((stringLiteral s).toList ++ text) ((stringLiteral "").toList ++ bare)

namespace Emptied

theorem refl : ∀ text : List Char, Emptied text text
  | [] => .nil
  | c :: text => .char c (refl text)

theorem append {text bare text' bare' : List Char} (h : Emptied text bare)
    (h' : Emptied text' bare') : Emptied (text ++ text') (bare ++ bare') := by
  induction h with
  | nil => exact h'
  | char c _ ih => exact .char c ih
  | string s _ ih =>
    rw [List.append_assoc, List.append_assoc]
    exact .string s ih

/-- What a text starts with is still there when string literals are emptied, up to the first
quote. -/
theorem isPrefixOf_eq {start : List Char} (hstart : '"' ∉ start) {text bare : List Char}
    (h : Emptied text bare) : start.isPrefixOf text = start.isPrefixOf bare := by
  induction h generalizing start with
  | nil => rfl
  | char c _ ih =>
    cases start with
    | nil => rfl
    | cons x start =>
      rw [List.isPrefixOf_cons_cons, List.isPrefixOf_cons_cons,
        ih fun hquote => hstart (List.mem_cons_of_mem _ hquote)]
  | string s _ _ =>
    obtain ⟨rest, hrest⟩ := exists_cons_stringLiteral s
    obtain ⟨rest', hrest'⟩ := exists_cons_stringLiteral ""
    rw [hrest, hrest', List.cons_append, List.cons_append]
    cases start with
    | nil => rfl
    | cons x start =>
      have hx : (x == '"') = false := by
        rw [beq_eq_false_iff_ne]
        rintro rfl
        exact hstart (List.mem_cons_self ..)
      rw [List.isPrefixOf_cons_cons, List.isPrefixOf_cons_cons, hx, Bool.false_and, Bool.false_and]

theorem startsWithPlaceholder_eq {text bare : String} (h : Emptied text.toList bare.toList) :
    startsWithPlaceholder text = startsWithPlaceholder bare :=
  h.isPrefixOf_eq (by decide)

end Emptied

/-! ## Marked texts -/

/-- Whether a character is a sign. -/
def isSign (c : Char) : Bool := c == '-' || c == '+'

theorem ne_of_isSign {c x : Char} (hc : isSign c = true) (hx : isSign x = false) : x ≠ c := by
  rintro rfl
  rw [hc] at hx
  cases hx

theorem notMem_of_isSign {c : Char} (hc : isSign c = true) {text : List Char}
    (htext : text.any isSign = false) : c ∉ text := by
  intro hmem
  exact Bool.false_ne_true (htext.symm.trans (List.any_eq_true.2 ⟨c, hmem, hc⟩))

/-- No sign is doubled where there is only one. -/
theorem not_doubled_of_countP {c : Char} (hc : isSign c = true) {text : List Char}
    (htext : text.countP isSign ≤ 1) : ¬ [c, c] <:+: text := by
  intro hdoubled
  have hcount := hdoubled.sublist.countP_le (p := isSign)
  have htwo : [c, c].countP isSign = 2 := by simp [hc]
  omega

/-- `Marked c starts doubled text bare`: `bare` is the text with its string literals emptied,
`starts` says whether it starts with the character `c`, and `doubled` whether it has `c` twice in a
row. -/
structure Marked (c : Char) (starts doubled : Prop) (text bare : List Char) : Prop where
  emptied : Emptied text bare
  starts_iff : bare.head? = some c ↔ starts
  doubled_iff : [c, c] <:+: bare ↔ doubled

namespace Marked

variable {c x : Char} {starts doubled starts' doubled' : Prop} {text bare text' bare' : List Char}

theorem congr (h : Marked c starts doubled text bare) (hstarts : starts ↔ starts')
    (hdoubled : doubled ↔ doubled') : Marked c starts' doubled' text bare :=
  ⟨h.emptied, h.starts_iff.trans hstarts, h.doubled_iff.trans hdoubled⟩

/-- A text without the character. -/
theorem of_notMem (h : c ∉ text) : Marked c False False text text := by
  refine ⟨.refl text, ?_, iff_false_intro (not_doubled_of_notMem h)⟩
  refine iff_false_intro fun hhead => h ?_
  exact List.mem_of_mem_head? hhead

/-- A string literal has no sign outside. -/
theorem string (hc : isSign c = true) (s : String) :
    Marked c False False (stringLiteral s).toList (stringLiteral "").toList := by
  have hquotes : c ∉ (stringLiteral "").toList := notMem_of_isSign hc (by decide)
  have hempty := of_notMem hquotes
  refine ⟨?_, hempty.starts_iff, hempty.doubled_iff⟩
  have hstring := Emptied.string s .nil
  rwa [List.append_nil, List.append_nil] at hstring

/-- The character itself, in front of a text. -/
theorem sign (h : Marked c starts doubled text bare) :
    Marked c True (starts ∨ doubled) (c :: text) (c :: bare) := by
  refine ⟨.char c h.emptied, iff_true_intro rfl, ?_⟩
  rw [doubled_cons_iff, h.starts_iff, h.doubled_iff]
  simp

/-- Another character in front of a text. -/
theorem other (hx : x ≠ c) (h : Marked c starts doubled text bare) :
    Marked c False doubled (x :: text) (x :: bare) := by
  refine ⟨.char x h.emptied, ?_, ?_⟩
  · simp [hx]
  · rw [doubled_cons_iff, h.doubled_iff]
    simp [hx]

/-- Another character between two texts. -/
theorem append (h : Marked c starts doubled text bare) (hx : x ≠ c)
    (h' : Marked c starts' doubled' text' bare') :
    Marked c starts (doubled ∨ doubled') (text ++ x :: text') (bare ++ x :: bare') := by
  refine ⟨h.emptied.append (.char x h'.emptied), ?_, ?_⟩
  · rw [← h.starts_iff]
    cases bare with
    | nil => simp [hx]
    | cons y bare => simp
  · rw [doubled_append_iff hx, h.doubled_iff, h'.doubled_iff]

/-- A word between two texts, with a blank on either side. -/
theorem between (hc : isSign c = true) (h : Marked c starts doubled text bare) {word : String}
    (hword : ¬ [c, c] <:+: word.toList) (h' : Marked c starts' doubled' text' bare') :
    Marked c starts (doubled ∨ doubled') (text ++ ' ' :: (word.toList ++ ' ' :: text'))
      (bare ++ ' ' :: (word.toList ++ ' ' :: bare')) := by
  have hmarked : Marked c (word.toList.head? = some c) False word.toList word.toList :=
    ⟨.refl _, Iff.rfl, iff_false_intro hword⟩
  have hblank : ' ' ≠ c := ne_of_isSign hc rfl
  exact (h.append hblank (hmarked.append hblank h')).congr Iff.rfl (by rw [false_or])

/-- A text before a closing parenthesis. -/
theorem close (hc : isSign c = true) (h : Marked c starts doubled text bare) :
    Marked c starts doubled (text ++ [')']) (bare ++ [')']) := by
  have hend : Marked c False False [] [] := of_notMem (by simp)
  exact (h.append (ne_of_isSign hc rfl) hend).congr Iff.rfl (by rw [or_false])

/-- A text in parentheses. -/
theorem enclosed (hc : isSign c = true) (h : Marked c starts doubled text bare) :
    Marked c False doubled ('(' :: (text ++ [')'])) ('(' :: (bare ++ [')'])) :=
  (h.close hc).other (ne_of_isSign hc rfl)

/-- A text in front of others, with a comma and a blank between any two. -/
theorem intercalate (hc : isSign c = true) {code bare : String} {codes bares : List String}
    (h : Marked c starts doubled code.toList bare.toList) (hlength : codes.length = bares.length)
    (hrest : ∃ starts', Marked c starts' doubled' (", ".intercalate codes).toList
      (", ".intercalate bares).toList) :
    ∃ starts', Marked c starts' (doubled ∨ doubled') (", ".intercalate (code :: codes)).toList
      (", ".intercalate (bare :: bares)).toList := by
  obtain ⟨starts', hrest⟩ := hrest
  match codes, bares, hlength with
  | [], [], _ =>
    -- Nothing follows, and nothing has no doubled sign.
    have hnone : ¬ doubled' := fun hdoubled =>
      not_doubled_of_notMem (List.not_mem_nil) (hrest.doubled_iff.2 hdoubled)
    refine ⟨starts, ?_⟩
    rw [String.intercalate_singleton, String.intercalate_singleton]
    exact h.congr Iff.rfl (or_iff_left hnone).symm
  | next :: codes, next' :: bares, _ =>
    refine ⟨starts, ?_⟩
    have hcomma := h.append (ne_of_isSign hc rfl : ',' ≠ c)
      (hrest.other (ne_of_isSign hc rfl : ' ' ≠ c))
    simpa [String.intercalate_cons_cons, String.toList_append] using hcomma

/-- The text of an operand, when the expression with emptied strings gets parentheses like the one
with strings. -/
theorem operand (hc : isSign c = true) {e e' : TypedExpr} {code code' : String}
    (h : Marked c starts doubled code.toList code'.toList)
    (hcompound : e'.isCompound = e.isCompound) (hfolded : e'.isFolded = e.isFolded) :
    Marked c (starts ∧ (e.isCompound && !e.isFolded) = false) doubled
      (Shader.operand e code).toList (Shader.operand e' code').toList := by
  have hplaceholder := h.emptied.startsWithPlaceholder_eq
  unfold Shader.operand
  rw [hcompound, hfolded, hplaceholder]
  cases hform : e.isCompound && !e.isFolded with
  | false => exact h.congr (by simp) Iff.rfl
  | true =>
    cases hstart : startsWithPlaceholder code' with
    | true =>
      -- A placeholder starts with an angle.
      have hhead : code'.toList.head? = some '<' := by
        obtain ⟨rest, hrest⟩ := List.isPrefixOf_iff_prefix.1 hstart
        rw [← hrest]
        rfl
      refine h.congr ?_ Iff.rfl
      rw [← h.starts_iff, hhead, Option.some.injEq]
      exact ⟨fun heq => absurd heq (ne_of_isSign hc rfl), fun ⟨_, hfalse⟩ => by cases hfalse⟩
    | false =>
      have hparens : ∀ s : String, ("(" ++ s ++ ")").toList = '(' :: (s.toList ++ [')']) := by
        intro s
        rw [String.toList_append, String.toList_append]
        rfl
      simp only [Bool.not_false, Bool.and_self, if_true, hparens]
      exact (h.enclosed hc).congr (by simp) Iff.rfl

end Marked

/-! ## Numbers -/

namespace Number

/-- Whether a number has a minus sign; a zero may have one, and `NaN` has none. -/
def hasMinus (x : Float) : Bool :=
  match parts x with
  | .nan => false
  | .infinite negative => negative
  | .finite negative _ _ => negative

/-- The text of a number has no sign but a minus in front. -/
theorem text_sign (x : Float) : ∃ digits : List Char,
    (text x).toList = (if hasMinus x then ['-'] else []) ++ digits ∧
      digits.any isSign = false := by
  unfold hasMinus
  cases hparts : parts x with
  | nan =>
    refine ⟨['N', 'a', 'N'], ?_, rfl⟩
    rw [text, hparts]
    rfl
  | infinite negative =>
    refine ⟨['i', 'n', 'f'], ?_, rfl⟩
    rw [text, hparts]
    cases negative <;> rfl
  | finite negative m q =>
    refine ⟨magnitudeText m q, toList_text_of_parts hparts, ?_⟩
    rw [List.any_eq_false]
    intro c hc hsign
    rcases (magnitudeText_chars m q).chars c hc with hdigit | rfl
    · rcases Bool.or_eq_true_iff.1 hsign with heq | heq
      · rw [eq_of_beq heq] at hdigit
        cases hdigit
      · rw [eq_of_beq heq] at hdigit
        cases hdigit
    · cases hsign

end Number

/-- The code of a number has no sign but a minus in front. -/
theorem Dialect.embree_number_sign {x : Float} {ty : Ty} {code : String}
    (h : Dialect.embree.number x ty = .ok code) : ∃ digits : List Char,
      code.toList = (if Number.hasMinus x then ['-'] else []) ++ digits ∧
        digits.any isSign = false := by
  obtain ⟨digits, htext, hdigits⟩ := Number.text_sign x
  have hplain : code = Number.text x ∨ code = Number.text x ++ ".0" := by
    by_cases hty : ty = .number
    · subst hty
      change floatLiteral x = .ok code at h
      unfold floatLiteral at h
      split at h
      · obtain rfl := Except.ok.inj h
        unfold Number.pointedText
        simp only
        split
        · exact .inl rfl
        · exact .inr rfl
      · cases h
    · rw [Dialect.embree_number_of_ne hty] at h
      exact .inl (Except.ok.inj h).symm
  rcases hplain with rfl | rfl
  · exact ⟨digits, htext, hdigits⟩
  · refine ⟨digits ++ ['.', '0'], ?_, ?_⟩
    · rw [String.toList_append, htext, List.append_assoc]
      rfl
    · rw [List.any_append, hdigits]
      rfl

/-- The word for a type has no sign. -/
theorem Dialect.embree_typeName_sign {ty : Ty} {word : String}
    (h : Dialect.embree.typeName? ty = some word) : word.toList.any isSign = false := by
  unfold Dialect.embree at h
  simp only at h
  split at h
  · obtain rfl := Option.some.inj h
    decide
  · unfold commonTypeName? at h
    split at h
    all_goals cases h
    all_goals decide

end Shader
