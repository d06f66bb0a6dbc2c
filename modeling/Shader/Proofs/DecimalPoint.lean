import Mathlib
import Shader.Number.Text

/-!
# Decimal points

Where the text of a number has a decimal point.  A whole number is written without one: its last
digit before the point is a place at which the search for the shortest decimal stops at the latest,
since dropping the zeros behind it leaves the value itself.  Any text has at most one point, and the
form with a point has exactly one.
-/

namespace Shader.Number

/-! ## Digits -/

theorem point_notMem_decimalDigits (n : Nat) : '.' ∉ decimalDigits n := by
  intro h
  have hdigit := Nat.isDigit_of_mem_toDigits (by decide) (by decide) h
  revert hdigit
  decide

theorem lt_length_decimalDigits {n k : Nat} (h : 10 ^ k ≤ n) : k < (decimalDigits n).length := by
  unfold decimalDigits
  by_cases hk : k = 0
  · rw [hk]
    exact Nat.length_toDigits_pos
  · have hiff := Nat.length_toDigits_le_iff (b := 10) (n := n) (by decide) (Nat.pos_of_ne_zero hk)
    omega

theorem Decimal.point_notMem_positional {d : Decimal} (h : 0 ≤ d.exponent) :
    '.' ∉ d.positional := by
  unfold Decimal.positional
  simp only [if_pos h, List.mem_append, List.mem_replicate]
  rintro (hdigit | ⟨-, hzero⟩)
  · exact point_notMem_decimalDigits _ hdigit
  · exact absurd hzero (by decide)

/-- A decimal is written with at most one point. -/
theorem Decimal.count_point_positional_le (d : Decimal) : d.positional.count '.' ≤ 1 := by
  by_cases h : 0 ≤ d.exponent
  · rw [List.count_eq_zero.mpr (point_notMem_positional h)]
    omega
  · unfold Decimal.positional
    simp only [if_neg h]
    generalize hpadded : List.replicate (d.exponent.natAbs + 1 - (decimalDigits d.digits).length)
      '0' ++ decimalDigits d.digits = padded
    have hnone : '.' ∉ padded := by
      rw [← hpadded, List.mem_append, List.mem_replicate]
      rintro (⟨-, hzero⟩ | hdigit)
      · exact absurd hzero (by decide)
      · exact point_notMem_decimalDigits _ hdigit
    have hwhole : '.' ∉ padded.take (padded.length - d.exponent.natAbs) :=
      fun hmem => hnone (List.mem_of_mem_take hmem)
    split
    · rw [List.count_eq_zero.mpr hwhole]
      omega
    · generalize padded.length - d.exponent.natAbs = point at hwhole ⊢
      have hfraction : '.' ∉ ((padded.drop point).reverse.dropWhile (· == '0')).reverse := by
        intro hmem
        have hdrop := (List.dropWhile_sublist _).mem (List.mem_reverse.mp hmem)
        exact hnone (List.mem_of_mem_drop (List.mem_reverse.mp hdrop))
      apply Nat.le_of_eq
      rw [List.count_append, List.count_cons_self, List.count_eq_zero.mpr hwhole,
        List.count_eq_zero.mpr hfraction]

/-! ## The search for the shortest decimal -/

namespace Target

theorem exponent_of_pick {t : Target} {drop : Nat} {d : Decimal} (h : t.pick drop = some d) :
    d.exponent = t.scale + drop := by
  unfold pick at h
  simp only at h
  split at h
  · split at h <;> cases h <;> rfl
  · cases h
    rfl
  · cases h
    rfl
  · cases h

/-- Where the dropped digits are zeros the value itself is tried. -/
theorem isSome_pick {t : Target} {drop : Nat} (hdvd : 10 ^ drop ∣ t.value)
    (hadmits : t.admits t.value = true) : (t.pick drop).isSome := by
  have hback : t.value / Nat.pow 10 drop * Nat.pow 10 drop = t.value := Nat.div_mul_cancel hdvd
  unfold pick
  simp only [hback, hadmits]
  split
  · split <;> rfl
  · rfl
  · contradiction
  · contradiction

/-- The search stops no later than at a count of digits that has a decimal. -/
theorem le_exponent_shortest {t : Target} {drop : Nat} (hsome : (t.pick drop).isSome)
    (hlt : drop < (decimalDigits t.value).length) : t.scale + drop ≤ t.shortest.exponent := by
  have hmem : (decimalDigits t.value).length - (drop + 1) ∈
      List.range (decimalDigits t.value).length := by
    rw [List.mem_range]
    omega
  have hdrop : (decimalDigits t.value).length -
      ((decimalDigits t.value).length - (drop + 1) + 1) = drop := by omega
  have hne : t.pick ((decimalDigits t.value).length -
      ((decimalDigits t.value).length - (drop + 1) + 1)) ≠ none := by
    rw [hdrop]
    exact Option.isSome_iff_ne_none.mp hsome
  unfold shortest
  simp only
  split
  · rename_i d hfound
    obtain ⟨before, i, after, hrange, hpick, hnone⟩ := List.findSome?_eq_some_iff.mp hfound
    have hsorted := List.pairwise_lt_range (n := (decimalDigits t.value).length)
    rw [hrange] at hsorted hmem
    have hafter := (List.pairwise_cons.mp (List.pairwise_append.mp hsorted).2.1).1
    have hle : i ≤ (decimalDigits t.value).length - (drop + 1) := by
      rcases List.mem_append.mp hmem with hbefore | hrest
      · exact absurd (hnone _ hbefore) hne
      · rcases List.mem_cons.mp hrest with heq | hlater
        · omega
        · exact Nat.le_of_lt (hafter _ hlater)
    rw [exponent_of_pick hpick]
    omega
  · rename_i hfound
    exact absurd (List.findSome?_eq_none_iff.mp hfound _ hmem) hne

theorem unit_pos (q : Int) :
    0 < (if q < 0 then Nat.pow 5 q.natAbs else Nat.pow 2 q.natAbs) := by
  split
  · exact Nat.pow_pos (by decide)
  · exact Nat.pow_pos (by decide)

/-- A value reads back as itself. -/
theorem admits_ofParts {m : Nat} {q : Int} (hm : m ≠ 0) :
    (ofParts m q).admits (ofParts m q).value = true := by
  have hpos := unit_pos q
  unfold ofParts admits
  simp only
  generalize (if q < 0 then Nat.pow 5 q.natAbs else Nat.pow 2 q.natAbs) = unit at hpos ⊢
  have hle : unit ≤ m * unit := Nat.le_mul_of_pos_left unit (Nat.pos_of_ne_zero hm)
  split <;> split <;> simp only [Bool.and_eq_true, decide_eq_true_eq] <;> omega

/-- Behind the units of a whole number stand as many zeros as its exact value has places. -/
theorem dvd_value_ofParts {m : Nat} {q : Int} (h : isWholeParts m q = true) :
    10 ^ (min q 0).natAbs ∣ (ofParts m q).value := by
  unfold isWholeParts at h
  unfold ofParts
  by_cases hq : q < 0
  · have hmin : min q 0 = q := by omega
    have htwo : 2 ^ q.natAbs ∣ m := by
      simpa [show ¬0 ≤ q by omega, Nat.dvd_iff_mod_eq_zero] using h
    have hten : 10 ^ q.natAbs = 2 ^ q.natAbs * 5 ^ q.natAbs := by
      rw [← Nat.mul_pow]
    simp only [if_pos hq]
    rw [hmin, hten]
    exact Nat.mul_dvd_mul_right htwo (5 ^ q.natAbs)
  · have hmin : min q 0 = 0 := by omega
    rw [hmin]
    exact Nat.one_dvd _

/-- The decimal of a whole number has no digits behind the point. -/
theorem exponent_shortest_nonneg {m : Nat} {q : Int} (hm : m ≠ 0)
    (hwhole : isWholeParts m q = true) : 0 ≤ (ofParts m q).shortest.exponent := by
  have hdvd := dvd_value_ofParts hwhole
  have hpos : 0 < (ofParts m q).value := Nat.mul_pos (Nat.pos_of_ne_zero hm) (unit_pos q)
  have hbound := le_exponent_shortest (isSome_pick hdvd (admits_ofParts hm))
    (lt_length_decimalDigits (Nat.le_of_dvd hpos hdvd))
  have hscale : (ofParts m q).scale = min q 0 := rfl
  omega

end Target

/-! ## Texts -/

theorem point_notMem_magnitudeText {m : Nat} {q : Int} (h : isWholeParts m q = true) :
    '.' ∉ magnitudeText m q := by
  unfold magnitudeText
  by_cases hm : m = 0
  · rw [if_pos hm]
    decide
  · rw [if_neg hm]
    exact Decimal.point_notMem_positional (Target.exponent_shortest_nonneg hm h)

/-- A whole number is written without a point. -/
theorem point_notMem_text {x : Float} (h : isWhole x = true) : '.' ∉ (text x).toList := by
  unfold isWhole at h
  unfold text
  cases hparts : parts x with
  | nan => simp [hparts] at h
  | infinite negative => simp [hparts] at h
  | finite negative m q =>
    simp only [hparts] at h
    have hmagnitude := point_notMem_magnitudeText h
    cases negative <;> simpa using hmagnitude

/-- A number is written with at most one point. -/
theorem count_point_text_le (x : Float) : (text x).toList.count '.' ≤ 1 := by
  unfold text
  cases parts x with
  | nan => decide
  | infinite negative => cases negative <;> decide
  | finite negative m q =>
    have hmagnitude : (magnitudeText m q).count '.' ≤ 1 := by
      unfold magnitudeText
      split
      · decide
      · exact Decimal.count_point_positional_le _
    cases negative <;> simpa using hmagnitude

/-- The form with a point has exactly one. -/
theorem count_point_pointedText (x : Float) : (pointedText x).toList.count '.' = 1 := by
  have hle := count_point_text_le x
  unfold pointedText hasPoint
  simp only
  split
  · rename_i hpoint
    have hpos : 0 < (text x).toList.count '.' := by
      apply List.count_pos_iff.mpr
      simpa using hpoint
    omega
  · rename_i hpoint
    have hnone : '.' ∉ (text x).toList := by simpa using hpoint
    rw [String.toList_append, List.count_append, List.count_eq_zero.mpr hnone]
    decide

end Shader.Number
