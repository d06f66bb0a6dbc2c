import Mathlib
import Shader.Proofs.DecimalPoint
import Shader.Proofs.WholeDouble

/-!
# The characters of a number

The text of a finite number consists of digits, at most one point and a sign, and ends with a digit.
It has a point exactly when the number is not whole.  For this the search for the shortest decimal
has to be followed: a decimal without a fraction that reads back as a double `m / 2 ^ k` lies within
half of `1 / 2 ^ k` of it, and so it is `m / 2 ^ k` itself.
-/

namespace Shader.Number

/-! ## Digits -/

theorem isDigit_of_mem_decimalDigits {n : Nat} {c : Char} (h : c ∈ decimalDigits n) :
    c.isDigit = true := Nat.isDigit_of_mem_toDigits (by decide) (by decide) h

theorem decimalDigits_ne_nil (n : Nat) : decimalDigits n ≠ [] := Nat.toDigits_ne_nil

/-- `Positional cs`: digits and points, with a digit at the end. -/
structure Positional (cs : List Char) : Prop where
  chars : ∀ c ∈ cs, c.isDigit = true ∨ c = '.'
  last : ∃ c, cs.getLast? = some c ∧ c.isDigit = true

namespace Positional

theorem of_digits {cs : List Char} (hdigits : ∀ c ∈ cs, c.isDigit = true) (hne : cs ≠ []) :
    Positional cs := by
  refine ⟨fun c hc => .inl (hdigits c hc), cs.getLast hne, List.getLast?_eq_some_getLast hne, ?_⟩
  exact hdigits _ (List.getLast_mem hne)

/-- A point may stand between digits. -/
theorem point {whole fraction : List Char} (hwhole : ∀ c ∈ whole, c.isDigit = true)
    (hfraction : Positional fraction) : Positional (whole ++ '.' :: fraction) := by
  constructor
  · rw [List.forall_mem_append, List.forall_mem_cons]
    exact ⟨fun c hc => .inl (hwhole c hc), .inr rfl, hfraction.chars⟩
  · obtain ⟨c, hlast, hdigit⟩ := hfraction.last
    refine ⟨c, ?_, hdigit⟩
    rw [List.getLast?_append, List.getLast?_cons, hlast]
    rfl

end Positional

namespace Decimal

/-- The digits of a decimal with a fraction, with zeros in front so that there is one before the
point. -/
def padded (d : Decimal) : List Char :=
  List.replicate (d.exponent.natAbs + 1 - (decimalDigits d.digits).length) '0' ++
    decimalDigits d.digits

theorem isDigit_of_mem_padded {d : Decimal} {c : Char} (h : c ∈ d.padded) : c.isDigit = true := by
  rcases List.mem_append.1 h with hzero | hdigit
  · rw [(List.mem_replicate.1 hzero).2]
    rfl
  · exact isDigit_of_mem_decimalDigits hdigit

theorem lt_length_padded (d : Decimal) : d.exponent.natAbs < d.padded.length := by
  have hlength : d.padded.length = d.exponent.natAbs + 1 - (decimalDigits d.digits).length +
      (decimalDigits d.digits).length := by
    rw [padded, List.length_append, List.length_replicate]
  omega

/-- The zeros in front do not count. -/
theorem ofDigitChars_padded (d : Decimal) : Nat.ofDigitChars 10 d.padded 0 = d.digits := by
  rw [padded, Nat.ofDigitChars_append, Nat.ofDigitChars_replicate_zero, Nat.mul_zero]
  exact Nat.ofDigitChars_ten_toDigits

/-- Zeros at the end are a power of ten. -/
theorem dvd_of_zeros (cs : List Char) {zeros : List Char} (h : ∀ c ∈ zeros, c = '0') :
    10 ^ zeros.length ∣ Nat.ofDigitChars 10 (cs ++ zeros) 0 := by
  have hzeros : zeros = List.replicate zeros.length '0' := List.eq_replicate_of_mem h
  rw [Nat.ofDigitChars_append, hzeros, Nat.ofDigitChars_replicate_zero, List.length_replicate]
  exact Nat.dvd_mul_right _ _

/-- The digits before the point. -/
def whole (d : Decimal) : List Char := d.padded.take (d.padded.length - d.exponent.natAbs)

/-- The digits behind the point, with the zeros at the end. -/
def places (d : Decimal) : List Char := d.padded.drop (d.padded.length - d.exponent.natAbs)

theorem whole_append_places (d : Decimal) : d.whole ++ d.places = d.padded :=
  List.take_append_drop _ _

theorem length_places (d : Decimal) : d.places.length = d.exponent.natAbs := by
  have hlt := d.lt_length_padded
  rw [places, List.length_drop]
  omega

theorem whole_ne_nil (d : Decimal) : d.whole ≠ [] := by
  have hlt := d.lt_length_padded
  apply List.ne_nil_of_length_pos
  rw [whole, List.length_take]
  omega

/-- A decimal with a fraction is written without the zeros at the end. -/
theorem positional_of_neg {d : Decimal} (h : d.exponent < 0) :
    d.positional =
      if ((d.places.reverse.dropWhile (· == '0')).reverse).isEmpty then d.whole
      else d.whole ++ '.' :: (d.places.reverse.dropWhile (· == '0')).reverse := by
  have hneg : ¬ 0 ≤ d.exponent := by omega
  unfold positional
  simp only [if_neg hneg]
  rfl

/-- A decimal is written as digits and at most one point, with a digit at the end. -/
theorem positional_chars (d : Decimal) : Positional d.positional := by
  by_cases hexponent : 0 ≤ d.exponent
  · unfold positional
    simp only [if_pos hexponent]
    apply Positional.of_digits
    · rw [List.forall_mem_append]
      refine ⟨fun c hc => isDigit_of_mem_decimalDigits hc, fun c hc => ?_⟩
      rw [(List.mem_replicate.1 hc).2]
      rfl
    · exact List.append_ne_nil_of_left_ne_nil (decimalDigits_ne_nil _) _
  · have hwhole : ∀ c ∈ d.whole, c.isDigit = true :=
      fun c hc => isDigit_of_mem_padded (List.mem_of_mem_take hc)
    rw [positional_of_neg (by omega)]
    split
    · exact .of_digits hwhole d.whole_ne_nil
    · rename_i hne
      refine .point hwhole (.of_digits ?_ ?_)
      · intro c hc
        have hplaces : c ∈ d.places.reverse :=
          (List.dropWhile_sublist _).mem (List.mem_reverse.1 hc)
        exact isDigit_of_mem_padded (List.mem_of_mem_drop (List.mem_reverse.1 hplaces))
      · intro hnil
        rw [hnil] at hne
        exact hne rfl

/-- A decimal that is written without a point is a whole number. -/
theorem dvd_of_point_notMem {d : Decimal} (hexponent : d.exponent < 0) (h : '.' ∉ d.positional) :
    10 ^ d.exponent.natAbs ∣ d.digits := by
  rw [positional_of_neg hexponent] at h
  split at h
  · rename_i hempty
    have hzeros : ∀ c ∈ d.places, c = '0' := by
      rw [List.isEmpty_iff, List.reverse_eq_nil_iff, List.dropWhile_eq_nil_iff] at hempty
      intro c hc
      exact eq_of_beq (hempty c (List.mem_reverse.2 hc))
    have hdvd := dvd_of_zeros d.whole hzeros
    rwa [whole_append_places, ofDigitChars_padded, length_places] at hdvd
  · exact absurd (List.mem_append_right _ List.mem_cons_self) h

end Decimal

/-! ## The shortest decimal reads back -/

namespace Target

theorem admits_of_pick {t : Target} {drop : Nat} {d : Decimal} (h : t.pick drop = some d) :
    t.admits (d.digits * 10 ^ drop) = true := by
  unfold pick at h
  simp only at h
  split at h
  · rename_i hbelow habove
    split at h
    · cases h
      exact hbelow
    · cases h
      exact habove
  · rename_i hbelow _
    cases h
    exact hbelow
  · rename_i _ habove
    cases h
    exact habove
  · cases h

/-- The shortest decimal is a multiple of some power of ten that reads back. -/
theorem shortest_admits {m : Nat} {q : Int} (hm : m ≠ 0) :
    ∃ drop : Nat, (ofParts m q).shortest.exponent = (ofParts m q).scale + drop ∧
      (ofParts m q).admits ((ofParts m q).shortest.digits * 10 ^ drop) = true := by
  generalize ht : ofParts m q = t
  have hself : t.admits t.value = true := by
    rw [← ht]
    exact admits_ofParts hm
  unfold shortest
  simp only
  split
  · rename_i d hfound
    obtain ⟨i, -, hpick⟩ := List.exists_of_findSome?_eq_some hfound
    exact ⟨_, exponent_of_pick hpick, admits_of_pick hpick⟩
  · refine ⟨0, (Int.add_zero _).symm, ?_⟩
    rw [Nat.pow_zero, Nat.mul_one]
    exact hself

/-- What reads back as `m / 2 ^ k` and is a whole number is that number itself. -/
theorem isWhole_of_admits {m : Nat} {q : Int} (hq : q < 0) {n : Nat}
    (hdvd : 10 ^ q.natAbs ∣ n) (h : (ofParts m q).admits n = true) : isWholeParts m q = true := by
  obtain ⟨k, rfl⟩ := hdvd
  have hten : 10 ^ q.natAbs * k = 2 ^ q.natAbs * k * 5 ^ q.natAbs := by
    rw [show (10 : Nat) = 2 * 5 from rfl, Nat.mul_pow, Nat.mul_right_comm]
  have hunit : 0 < 5 ^ q.natAbs := Nat.pow_pos (by decide)
  have hpow : Nat.pow 5 q.natAbs = 5 ^ q.natAbs := rfl
  rw [hten] at h
  unfold ofParts admits at h
  simp only [if_pos hq, hpow] at h
  -- In units of the value, the decimal is off by a half at most.
  have hbounds : 4 * (2 ^ q.natAbs * k) * 5 ^ q.natAbs ≤ (4 * m + 2) * 5 ^ q.natAbs ∧
      4 * m * 5 ^ q.natAbs ≤ (4 * (2 ^ q.natAbs * k) + 2) * 5 ^ q.natAbs := by
    simp only [Nat.add_mul, Nat.mul_assoc 4]
    generalize 5 ^ q.natAbs = unit at h hunit
    split at h <;> split at h <;> simp only [Bool.and_eq_true, decide_eq_true_eq] at h <;> omega
  have hle := Nat.le_of_mul_le_mul_right hbounds.1 hunit
  have hge := Nat.le_of_mul_le_mul_right hbounds.2 hunit
  have heq : m = 2 ^ q.natAbs * k := by omega
  unfold isWholeParts
  rw [heq]
  simp

/-- The decimal of a number that is not whole is written with a point. -/
theorem point_mem_positional {m : Nat} {q : Int} (hwhole : isWholeParts m q = false) :
    '.' ∈ (ofParts m q).shortest.positional := by
  have hm : m ≠ 0 := by
    rintro rfl
    simp [isWholeParts] at hwhole
  have hq : q < 0 := by
    unfold isWholeParts at hwhole
    simp only [Bool.or_eq_false_iff, decide_eq_false_iff_not] at hwhole
    omega
  obtain ⟨drop, hexponent, hadmits⟩ := shortest_admits (q := q) hm
  have hscale : (ofParts m q).scale = q := by
    show min q 0 = q
    omega
  rw [hscale] at hexponent
  generalize (ofParts m q).shortest = d at hexponent hadmits ⊢
  -- Without a point the decimal is whole, and then the number that it reads back as is whole, too.
  by_contra hpoint
  have hdvd : 10 ^ q.natAbs ∣ d.digits * 10 ^ drop := by
    by_cases hneg : d.exponent < 0
    · have hpower : 10 ^ q.natAbs = 10 ^ d.exponent.natAbs * 10 ^ drop := by
        rw [← Nat.pow_add]
        congr 1
        omega
      rw [hpower]
      exact Nat.mul_dvd_mul_right (Decimal.dvd_of_point_notMem hneg hpoint) _
    · exact Nat.dvd_mul_left_of_dvd (Nat.pow_dvd_pow 10 (by omega)) _
  rw [isWhole_of_admits hq hdvd hadmits] at hwhole
  cases hwhole

end Target

/-! ## Texts -/

theorem magnitudeText_chars (m : Nat) (q : Int) : Positional (magnitudeText m q) := by
  unfold magnitudeText
  split
  · exact .of_digits (List.all_eq_true.1 rfl) (by decide)
  · exact Decimal.positional_chars _

/-- The text of a finite number: an optional sign, and the magnitude. -/
theorem toList_text_of_parts {x : Float} {negative : Bool} {m : Nat} {q : Int}
    (h : parts x = .finite negative m q) :
    (text x).toList = (if negative then ['-'] else []) ++ magnitudeText m q := by
  unfold text
  rw [h]
  exact String.toList_ofList

/-- A finite number ends with a digit. -/
theorem last_text {x : Float} (h : x.isFinite = true) :
    ∃ c, (text x).toList.getLast? = some c ∧ c.isDigit = true := by
  obtain ⟨negative, m, q, hparts⟩ := isFinite_iff.1 h
  obtain ⟨c, hlast, hdigit⟩ := (magnitudeText_chars m q).last
  refine ⟨c, ?_, hdigit⟩
  rw [toList_text_of_parts hparts, List.getLast?_append, hlast]
  rfl

/-- A number is written without `<`, and so are `NaN` and the infinities. -/
theorem angle_notMem_text (x : Float) : '<' ∉ (text x).toList := by
  cases hparts : parts x with
  | nan =>
    unfold text
    rw [hparts]
    decide
  | infinite negative =>
    unfold text
    rw [hparts]
    cases negative <;> decide
  | finite negative m q =>
    rw [toList_text_of_parts hparts, List.mem_append]
    rintro (hsign | hmagnitude)
    · cases negative <;> revert hsign <;> decide
    · rcases (magnitudeText_chars m q).chars _ hmagnitude with hdigit | hpoint
      · revert hdigit
        decide
      · revert hpoint
        decide

/-- A finite number that is not whole is written with a point. -/
theorem point_mem_text {x : Float} (hfinite : x.isFinite = true) (h : isWhole x = false) :
    '.' ∈ (text x).toList := by
  obtain ⟨negative, m, q, hparts⟩ := isFinite_iff.1 hfinite
  have hwhole : isWholeParts m q = false := by
    unfold isWhole at h
    rw [hparts] at h
    exact h
  have hm : m ≠ 0 := by
    rintro rfl
    simp [isWholeParts] at hwhole
  rw [toList_text_of_parts hparts, magnitudeText, if_neg hm]
  exact List.mem_append_right _ (Target.point_mem_positional hwhole)

/-- A finite number that is not whole has a point without further ado. -/
theorem pointedText_of_not_isWhole {x : Float} (hfinite : x.isFinite = true)
    (h : isWhole x = false) : pointedText x = text x := by
  have hpoint : hasPoint (text x) = true := List.contains_iff_mem.2 (point_mem_text hfinite h)
  rw [pointedText]
  exact if_pos hpoint

end Shader.Number
