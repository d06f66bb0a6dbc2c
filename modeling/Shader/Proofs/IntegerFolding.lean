import Mathlib
import Shader.Proofs.KnownValue
import Shader.Proofs.NearestDouble

/-!
# Folding integers

An operation on known integers is computed by the compiler.  The operands are doubles that denote
whole numbers, the computation is that of a 64-bit word, and the result is a double again.  This
file says when there is a result and what it is: where the operands are 64-bit integers and the
exact result is one, the folded value is the double nearest to it.

`ArithmeticOp.Exact` is the arithmetic of the integers, with division truncated toward zero, and
`ArithmeticOp.onInts_eq_some_iff` compares the computation with it.  They differ in one place.  The
least integer leaves the remainder zero when it is divided by minus one, but the quotient is out of
range, and the remainder is then not computed either.
-/

namespace Shader

/-! ## Exact arithmetic -/

/-- The integers of a signed 64-bit word. -/
def Number.int64 : Set ℤ := Set.Ico (-2 ^ 63) (2 ^ 63)

/-- Division truncated toward zero: the remainder is smaller than the divisor and has the sign of
the dividend. -/
structure TruncatedDivision (m n quotient remainder : ℤ) : Prop where
  eq : n * quotient + remainder = m
  lt : remainder.natAbs < n.natAbs
  sign : remainder = 0 ∨ remainder.sign = m.sign

/-- `op.Exact m n r`: the exact result of the operation on `m` and `n` is `r`.  There is none of a
division by zero. -/
inductive ArithmeticOp.Exact (m n : ℤ) : ArithmeticOp → ℤ → Prop where
  | add : Exact m n .add (m + n)
  | sub : Exact m n .sub (m - n)
  | mul : Exact m n .mul (m * n)
  | div {q s : ℤ} : TruncatedDivision m n q s → Exact m n .div q
  | rem {q s : ℤ} : TruncatedDivision m n q s → Exact m n .rem s

section Division

variable {m n q s : ℤ}

/-- The words of the range. -/
theorem Number.fitsInt64_iff : Number.fitsInt64 m = true ↔ m ∈ Number.int64 := by
  unfold Number.fitsInt64 Number.int64
  rw [Bool.and_eq_true, decide_eq_true_eq, decide_eq_true_eq, Set.mem_Ico]
  norm_num

/-- Quotient and remainder are unique. -/
theorem truncatedDivision_iff :
    TruncatedDivision m n q s ↔ n ≠ 0 ∧ q = m.tdiv n ∧ s = m.tmod n := by
  constructor
  · rintro ⟨heq, hlt, hsign⟩
    have hn : n ≠ 0 := by
      rintro rfl
      exact absurd hlt (by simp)
    have hsum : s + n * q = m := by rw [add_comm, heq]
    refine ⟨hn, ?_⟩
    rcases le_total 0 m with hm | hm
    · have hs : 0 ≤ s := by
        rcases hsign with rfl | hsign
        · exact le_refl _
        · rw [← Int.sign_nonneg_iff, hsign]
          exact Int.sign_nonneg_iff.2 hm
      obtain ⟨hq, hs⟩ := (Int.tdiv_tmod_unique hm hn).2 ⟨hsum, hs, by omega⟩
      exact ⟨hq.symm, hs.symm⟩
    · have hs : s ≤ 0 := by
        rcases hsign with rfl | hsign
        · exact le_refl _
        · rw [← Int.sign_nonpos_iff, hsign]
          exact Int.sign_nonpos_iff.2 hm
      obtain ⟨hq, hs⟩ := (Int.tdiv_tmod_unique' hm hn).2 ⟨hsum, by omega, hs⟩
      exact ⟨hq.symm, hs.symm⟩
  · rintro ⟨hn, rfl, rfl⟩
    refine ⟨Int.mul_tdiv_add_tmod m n, ?_, ?_⟩
    · rw [Int.natAbs_tmod]
      exact Nat.mod_lt _ (by omega)
    · rw [Int.sign_tmod]
      split
      · rename_i hdvd
        exact .inl (Int.tmod_eq_zero_of_dvd hdvd)
      · exact .inr rfl

/-- The remainder is in range. -/
theorem tmod_mem_int64 (hn : n ∈ Number.int64) (hz : n ≠ 0) : m.tmod n ∈ Number.int64 := by
  have hlt : (m.tmod n).natAbs < n.natAbs := by
    rw [Int.natAbs_tmod]
    exact Nat.mod_lt _ (by omega)
  unfold Number.int64 at hn ⊢
  rw [Set.mem_Ico] at hn ⊢
  constructor <;> omega

/-- The quotient is in range, except for that of the least integer and minus one. -/
theorem tdiv_mem_int64_iff (hm : m ∈ Number.int64) (hz : n ≠ 0) :
    m.tdiv n ∈ Number.int64 ↔ ¬ (m = -2 ^ 63 ∧ n = -1) := by
  unfold Number.int64 at hm ⊢
  rw [Set.mem_Ico] at hm ⊢
  by_cases hone : n = -1
  · subst hone
    rw [Int.tdiv_neg, Int.tdiv_one]
    omega
  · refine iff_of_true ?_ (fun h => hone h.2)
    by_cases hpos : n = 1
    · rw [hpos, Int.tdiv_one]
      exact hm
    · -- A divisor of magnitude two or more halves the magnitude at least.
      have hhalf : (m.tdiv n).natAbs ≤ m.natAbs / 2 := by
        rw [Int.natAbs_tdiv]
        exact Nat.div_le_div_left (by omega) two_pos
      constructor <;> omega

end Division

/-! ## The computation -/

/-- A result is kept when it is in range. -/
theorem Number.filter_fitsInt64_iff {a r : ℤ} :
    (some a).filter Number.fitsInt64 = some r ↔ a = r ∧ r ∈ Number.int64 := by
  rw [Option.filter_eq_some_iff, Option.some_inj, Number.fitsInt64_iff]

namespace ArithmeticOp

variable {op : ArithmeticOp} {m n r : ℤ}

/-- An operation with one exact result, which is kept when it is in range. -/
theorem onInts_iff_of_filter {a : ℤ} (hop : op ≠ .rem)
    (hvalue : op.onInts m n = (some a).filter Number.fitsInt64)
    (hexact : ∀ r, op.Exact m n r ↔ a = r) :
    op.onInts m n = some r ↔
      op.Exact m n r ∧ r ∈ Number.int64 ∧ ¬ (op = .rem ∧ m = -2 ^ 63 ∧ n = -1) := by
  rw [hvalue, Number.filter_fitsInt64_iff, hexact]
  simp [hop]

/-- The exact quotient. -/
theorem exact_div_iff (hn : n ≠ 0) : Exact m n .div r ↔ m.tdiv n = r := by
  constructor
  · intro h
    cases h with
    | div hdivision => exact (truncatedDivision_iff.1 hdivision).2.1.symm
  · rintro rfl
    exact .div (truncatedDivision_iff.2 ⟨hn, rfl, rfl⟩)

/-- The exact remainder. -/
theorem exact_rem_iff (hn : n ≠ 0) : Exact m n .rem r ↔ m.tmod n = r := by
  constructor
  · intro h
    cases h with
    | rem hdivision => exact (truncatedDivision_iff.1 hdivision).2.2.symm
  · rintro rfl
    exact .rem (truncatedDivision_iff.2 ⟨hn, rfl, rfl⟩)

/-- A division by zero has no exact result. -/
theorem not_exact_zero (hop : op = .div ∨ op = .rem) : ¬ op.Exact m 0 r := by
  intro h
  cases h with
  | div hdivision => exact (truncatedDivision_iff.1 hdivision).1 rfl
  | rem hdivision => exact (truncatedDivision_iff.1 hdivision).1 rfl
  | _ => simp at hop

/-- The computation on 64-bit integers gives the exact result where it is in range, but no remainder
where the quotient is out of range. -/
theorem onInts_eq_some_iff (hm : m ∈ Number.int64) (hn : n ∈ Number.int64) :
    op.onInts m n = some r ↔
      op.Exact m n r ∧ r ∈ Number.int64 ∧ ¬ (op = .rem ∧ m = -2 ^ 63 ∧ n = -1) := by
  cases op with
  | add =>
    refine onInts_iff_of_filter (by simp) rfl fun r => ⟨?_, ?_⟩
    · rintro ⟨⟩
      rfl
    · rintro rfl
      exact .add
  | sub =>
    refine onInts_iff_of_filter (by simp) rfl fun r => ⟨?_, ?_⟩
    · rintro ⟨⟩
      rfl
    · rintro rfl
      exact .sub
  | mul =>
    refine onInts_iff_of_filter (by simp) rfl fun r => ⟨?_, ?_⟩
    · rintro ⟨⟩
      rfl
    · rintro rfl
      exact .mul
  | div =>
    by_cases hzero : n = 0
    · subst hzero
      exact iff_of_false (by simp [onInts]) fun h => not_exact_zero (.inl rfl) h.1
    · have hvalue : onInts .div m n = (some (m.tdiv n)).filter Number.fitsInt64 := if_neg hzero
      exact onInts_iff_of_filter (by simp) hvalue fun r => exact_div_iff hzero
  | rem =>
    by_cases hzero : n = 0
    · subst hzero
      exact iff_of_false (by simp [onInts]) fun h => not_exact_zero (.inr rfl) h.1
    · have hquotient := tdiv_mem_int64_iff hm hzero
      rw [← Number.fitsInt64_iff] at hquotient
      rw [exact_rem_iff hzero]
      by_cases hfits : Number.fitsInt64 (m.tdiv n) = true
      · have hvalue : onInts .rem m n = some (m.tmod n) := if_neg (by simp [hzero, hfits])
        rw [hvalue, Option.some_inj]
        constructor
        · rintro rfl
          exact ⟨rfl, tmod_mem_int64 hn hzero, fun h => hquotient.1 hfits h.2⟩
        · exact fun h => h.1
      · have hvalue : onInts .rem m n = none := if_pos (.inr (Bool.not_eq_true _ ▸ hfits))
        rw [hvalue]
        refine iff_of_false (by simp) ?_
        rintro ⟨-, -, hcorner⟩
        exact hfits (hquotient.2 fun h => hcorner ⟨rfl, h⟩)

end ArithmeticOp

namespace Number

/-- The integer part of an integer is the integer. -/
theorem signed_integerPart {negative : Bool} {m : Nat} {q n : ℤ}
    (h : (n : ℚ) = signed negative m * 2 ^ q) : signed negative (integerPart m q) = n := by
  unfold integerPart
  split
  · rename_i hneg
    obtain ⟨j, rfl⟩ := Int.exists_eq_neg_ofNat hneg.le
    have hscaled : n * 2 ^ j = signed negative m := by
      rw [zpow_neg, zpow_natCast, eq_mul_inv_iff_mul_eq₀ (pow_ne_zero j two_ne_zero)] at h
      exact_mod_cast h
    have hpos : (0 : ℤ) < 2 ^ j := pow_pos two_pos j
    have hexact : m / 2 ^ j = n.natAbs := by
      have hm : m = n.natAbs * 2 ^ j := by
        have habs := congrArg Int.natAbs hscaled
        rw [Int.natAbs_mul, Int.natAbs_pow] at habs
        cases negative <;> simpa [signed] using habs.symm
      rw [hm, Nat.mul_div_cancel _ (Nat.two_pow_pos j)]
    rw [Int.natAbs_neg, Int.natAbs_natCast]
    change signed negative (m / 2 ^ j) = n
    rw [hexact]
    cases negative with
    | true =>
      have hle : n ≤ 0 := by
        refine nonpos_of_mul_nonpos_left ?_ hpos
        rw [hscaled]
        simp [signed]
      have hsigned : signed true n.natAbs = -(n.natAbs : ℤ) := rfl
      omega
    | false =>
      have hle : 0 ≤ n := by
        refine nonneg_of_mul_nonneg_left ?_ hpos
        rw [hscaled]
        simp [signed]
      have hsigned : signed false n.natAbs = (n.natAbs : ℤ) := rfl
      omega
  · rename_i hnonneg
    obtain ⟨j, rfl⟩ := Int.eq_ofNat_of_zero_le (not_lt.1 hnonneg)
    rw [zpow_natCast] at h
    have hscaled : n = signed negative m * 2 ^ j := by exact_mod_cast h
    rw [Int.natAbs_natCast, hscaled]
    change signed negative (m * 2 ^ j) = _
    cases negative <;> simp [signed]

/-- A double that denotes an integer is cut to that integer. -/
theorem truncate?_of_value? {x : Float} {n : ℤ} (h : value? x = some (n : ℚ)) :
    truncate? x = some n := by
  obtain ⟨negative, m, q, hparts, hn⟩ := value?_eq_some_iff.1 h
  unfold truncate?
  rw [hparts, ← signed_integerPart hn]

/-- A double that denotes an integer stands for it where it is in range. -/
theorem toInt64?_eq_some_iff {x : Float} {m n : ℤ} (h : value? x = some (m : ℚ)) :
    toInt64? x = some n ↔ m = n ∧ n ∈ int64 := by
  rw [toInt64?, truncate?_of_value? h, filter_fitsInt64_iff]

/-- The conversion of an integer is finite. -/
theorem isFinite_ofInt (n : ℤ) : (ofInt n).isFinite = true :=
  isFinite_of_isWhole (isWhole_ofInt n)

/-- The conversion of a 64-bit integer gives the nearest double. -/
theorem isNearest_of_mem_int64 {n : ℤ} (h : n ∈ int64) : IsNearest (ofInt n) n := by
  refine isNearest_ofInt ?_
  unfold int64 at h
  rw [Set.mem_Ico] at h
  omega

end Number

/-! ## Folding -/

section Folding

variable {x y : Float} {m n : ℤ} {c : Constant}

/-- The value of an operation on two integers is the conversion of its exact result. -/
theorem ArithmeticOp.onNumbers_int_iff {op : ArithmeticOp} {z : Float}
    (hx : Number.value? x = some (m : ℚ)) (hy : Number.value? y = some (n : ℚ)) :
    op.onNumbers .int x y = some z ↔
      m ∈ Number.int64 ∧ n ∈ Number.int64 ∧ ∃ r ∈ Number.int64, op.Exact m n r ∧
        ¬ (op = .rem ∧ m = -2 ^ 63 ∧ n = -1) ∧ z = Number.ofInt r := by
  constructor
  · intro h
    obtain ⟨m', hm', h⟩ := Option.bind_eq_some_iff.1 h
    obtain ⟨rfl, hm⟩ := (Number.toInt64?_eq_some_iff hx).1 hm'
    obtain ⟨n', hn', h⟩ := Option.bind_eq_some_iff.1 h
    obtain ⟨rfl, hn⟩ := (Number.toInt64?_eq_some_iff hy).1 hn'
    obtain ⟨r, hr, h⟩ := Option.bind_eq_some_iff.1 h
    obtain ⟨hexact, hrange, hcorner⟩ := (onInts_eq_some_iff hm hn).1 hr
    exact ⟨hm, hn, r, hrange, hexact, hcorner, (Option.some.inj h).symm⟩
  · rintro ⟨hm, hn, r, hrange, hexact, hcorner, rfl⟩
    refine Option.bind_eq_some_iff.2 ⟨m, (Number.toInt64?_eq_some_iff hx).2 ⟨rfl, hm⟩, ?_⟩
    refine Option.bind_eq_some_iff.2 ⟨n, (Number.toInt64?_eq_some_iff hy).2 ⟨rfl, hn⟩, ?_⟩
    have hr := (onInts_eq_some_iff hm hn).2 ⟨hexact, hrange, hcorner⟩
    exact Option.bind_eq_some_iff.2 ⟨r, hr, rfl⟩

/-- An operation on two integers is folded to the conversion of its exact result. -/
theorem ArithmeticOp.fold_int_iff {op : ArithmeticOp} {left right : Ascription}
    (hleft : left.number? = some x) (hright : right.number? = some y)
    (hx : Number.value? x = some (m : ℚ)) (hy : Number.value? y = some (n : ℚ)) :
    op.fold .int left right = some c ↔
      m ∈ Number.int64 ∧ n ∈ Number.int64 ∧ ∃ r ∈ Number.int64, op.Exact m n r ∧
        ¬ (op = .rem ∧ m = -2 ^ 63 ∧ n = -1) ∧ c = .number (Number.ofInt r) := by
  have hfold : op.fold .int left right = (op.onNumbers .int x y).bind fun z =>
      if z.isFinite then some (.number z) else none := by
    unfold fold
    rw [hleft, hright]
    rfl
  rw [hfold, Option.bind_eq_some_iff]
  constructor
  · rintro ⟨z, hz, hc⟩
    obtain ⟨hm, hn, r, hrange, hexact, hcorner, rfl⟩ := (onNumbers_int_iff hx hy).1 hz
    rw [if_pos (Number.isFinite_ofInt r)] at hc
    exact ⟨hm, hn, r, hrange, hexact, hcorner, (Option.some.inj hc).symm⟩
  · rintro ⟨hm, hn, r, hrange, hexact, hcorner, rfl⟩
    refine ⟨_, (onNumbers_int_iff hx hy).2 ⟨hm, hn, r, hrange, hexact, hcorner, rfl⟩, ?_⟩
    rw [if_pos (Number.isFinite_ofInt r)]

/-- The negation of an integer is folded where both are in range. -/
theorem foldSign_neg_iff {a : Ascription} (hx : a.number? = some x)
    (hn : Number.value? x = some (n : ℚ)) :
    foldSign .neg .int a = some c ↔
      n ∈ Number.int64 ∧ -n ∈ Number.int64 ∧ c = .number (Number.ofInt (-n)) := by
  have hfold : foldSign .neg .int a = ((Number.toInt64? x).bind fun n =>
      (some (-n) |>.filter Number.fitsInt64).map Number.ofInt).map .number := by
    rw [foldSign, hx]
    rfl
  rw [hfold, Option.map_eq_some_iff]
  constructor
  · rintro ⟨z, hz, rfl⟩
    obtain ⟨n', hn', hz⟩ := Option.bind_eq_some_iff.1 hz
    obtain ⟨rfl, hrange⟩ := (Number.toInt64?_eq_some_iff hn).1 hn'
    obtain ⟨r, hr, rfl⟩ := Option.map_eq_some_iff.1 hz
    obtain ⟨rfl, hneg⟩ := Number.filter_fitsInt64_iff.1 hr
    exact ⟨hrange, hneg, rfl⟩
  · rintro ⟨hrange, hneg, rfl⟩
    have hword := (Number.toInt64?_eq_some_iff hn).2 ⟨rfl, hrange⟩
    refine ⟨_, Option.bind_eq_some_iff.2 ⟨n, hword, ?_⟩, rfl⟩
    exact Option.map_eq_some_iff.2 ⟨-n, Number.filter_fitsInt64_iff.2 ⟨rfl, hneg⟩, rfl⟩

/-- Operations of object type are not folded. -/
theorem ArithmeticOp.fold_object (op : ArithmeticOp) (k : Kind) (left right : Ascription) :
    op.fold (.object k) left right = none := by
  unfold fold onNumbers
  cases left.number? with
  | none => rfl
  | some x =>
    cases right.number? with
    | none => rfl
    | some y => rfl

end Folding

/-- Integers are folded exactly.  An arithmetic operation on two known integers has a value exactly
when both are 64-bit integers and the exact result exists and is one, except that the remainder of
the least integer by minus one is not computed; the value is the double nearest to the result.  A
minus sign before a known integer has the value of the negation exactly when both are 64-bit
integers.  Comparisons have no values, and neither has anything of object type. -/
theorem integers_fold_exactly :
    (∀ (op : ArithmeticOp) (left right : Ascription) (x y : Float) (m n : ℤ) (c : Constant),
      left.number? = some x → right.number? = some y →
      Number.value? x = some (m : ℚ) → Number.value? y = some (n : ℚ) →
      (op.fold .int left right = some c ↔
        m ∈ Number.int64 ∧ n ∈ Number.int64 ∧ ∃ r ∈ Number.int64, op.Exact m n r ∧
          ¬ (op = .rem ∧ m = -2 ^ 63 ∧ n = -1) ∧ c = .number (Number.ofInt r))) ∧
    (∀ (a : Ascription) (span : Option Span) (x : Float) (n : ℤ), a.ty = .int →
      a.number? = some x → Number.value? x = some (n : ℚ) →
      ∃ value, unaryAscription .neg a span = .ok ⟨.int, value⟩ ∧ ∀ c, value = some c ↔
        n ∈ Number.int64 ∧ -n ∈ Number.int64 ∧ c = .number (Number.ofInt (-n))) ∧
    (∀ n ∈ Number.int64, Number.IsNearest (Number.ofInt n) n) ∧
    (∀ (op : ComparisonOp) (left right a : Ascription) (span : Option Span),
      binaryAscription (.comparison op) left right span = .ok a → a.value = none) ∧
    (∀ (op : ArithmeticOp) (k : Kind) (left right : Ascription),
      op.fold (.object k) left right = none) ∧
    ∀ (op : UnaryOp) (k : Kind) (argument a : Ascription) (span : Option Span),
      unaryAscription op argument span = .ok a → a.ty = .object k → a.value = none := by
  refine ⟨?_, ?_, fun n hn => Number.isNearest_of_mem_int64 hn, ?_, ArithmeticOp.fold_object, ?_⟩
  · intro op left right x y m n c hleft hright hx hy
    exact ArithmeticOp.fold_int_iff hleft hright hx hy
  · intro a span x n hty hx hn
    refine ⟨foldSign .neg .int a, ?_, fun c => foldSign_neg_iff hx hn⟩
    unfold unaryAscription
    rw [hty]
    rfl
  · intro op left right a span h
    obtain ⟨-, -, h⟩ := bind_eq_ok_iff.1 h
    obtain rfl := Except.ok.inj h
    rfl
  · intro op k argument a span h hty
    cases hvalue : a.value with
    | none => rfl
    | some v =>
      rcases unaryAscription_value h hvalue with ⟨hboolean, -⟩ | ⟨-, hnumeric, -⟩
      · rw [hty] at hboolean
        cases hboolean
      · rw [hty] at hnumeric
        cases hnumeric

namespace Sample

/-- A known integer. -/
def known (n : ℤ) : Ascription := ⟨.int, some (.number (Number.ofInt n))⟩

/-- The sum of `2 ^ 53` and `3` has 54 bits; it is folded to the nearest double. -/
theorem long_sum_is_rounded :
    Number.value? (Number.ofInt (2 ^ 53)) = some ((2 ^ 53 : ℤ) : ℚ) ∧
    Number.value? (Number.ofInt 3) = some ((3 : ℤ) : ℚ) ∧
    ArithmeticOp.fold .add .int (known (2 ^ 53)) (known 3) =
      some (.number (Number.ofInt (2 ^ 53 + 3))) ∧
    Number.IsNearest (Number.ofInt (2 ^ 53 + 3)) ((2 ^ 53 + 3 : ℤ) : ℚ) := by
  have hpower : Number.value? (Number.ofInt (2 ^ 53)) = some ((2 ^ 53 : ℤ) : ℚ) :=
    Number.value?_eq_some_iff.2 ⟨false, 2 ^ 52, 1, rfl, by norm_num [Number.signed]⟩
  have hthree : Number.value? (Number.ofInt 3) = some ((3 : ℤ) : ℚ) :=
    Number.value?_eq_some_iff.2 ⟨false, 3 * 2 ^ 51, -51, rfl, by norm_num [Number.signed]⟩
  have hsum : (2 ^ 53 + 3 : ℤ) ∈ Number.int64 := by norm_num [Number.int64]
  obtain ⟨hfolds, -, hnearest, -⟩ := integers_fold_exactly
  refine ⟨hpower, hthree, ?_, hnearest _ hsum⟩
  refine (hfolds .add (known (2 ^ 53)) (known 3) _ _ _ _ _ rfl rfl hpower hthree).2 ?_
  exact ⟨by norm_num [Number.int64], by norm_num [Number.int64], _, hsum, .add, by simp, rfl⟩

/-- The remainder of the least integer by minus one is zero, and is not folded. -/
theorem least_by_minus_one_is_unknown :
    Number.value? (Number.ofInt (-2 ^ 63)) = some ((-2 ^ 63 : ℤ) : ℚ) ∧
    Number.value? (Number.ofInt (-1)) = some ((-1 : ℤ) : ℚ) ∧
    (-2 ^ 63 : ℤ) ∈ Number.int64 ∧ (-1 : ℤ) ∈ Number.int64 ∧ (0 : ℤ) ∈ Number.int64 ∧
    ArithmeticOp.Exact (-2 ^ 63) (-1) .rem 0 ∧
    ArithmeticOp.fold .rem .int (known (-2 ^ 63)) (known (-1)) = none := by
  have hdivision : TruncatedDivision (-2 ^ 63) (-1) (2 ^ 63) 0 := ⟨by norm_num, by decide, .inl rfl⟩
  refine ⟨?_, ?_, by norm_num [Number.int64], by norm_num [Number.int64],
    by norm_num [Number.int64], .rem hdivision, rfl⟩
  · exact Number.value?_eq_some_iff.2 ⟨true, 2 ^ 52, 11, rfl, by norm_num [Number.signed]⟩
  · exact Number.value?_eq_some_iff.2 ⟨true, 2 ^ 52, -52, rfl, by norm_num [Number.signed]⟩

end Sample

end Shader
