import Mathlib
import Shader.Proofs.WholeDouble

/-!
# The double nearest to an integer

A finite double denotes a rational number.  This file proves that `ofInt` gives the nearest double
to an integer of 64 bits: no double lies closer to it, and of two that are equally close it gives
the one with the even mantissa.

An integer of at most 53 bits is a double itself.  Of a longer one the low `k` bits are rounded off,
which leaves the multiple of `2 ^ k` next to it (`roundedMantissa_shiftRight`).  Doubles above
`2 ^ (52 + k)` are multiples of `2 ^ k` as well, so none of them is closer, and the smaller ones are
further away than `2 ^ (52 + k)` is.
-/

namespace Shader.Number

open Float.Model (Format totalExponent UnpackedFloat)
open Float.Model.UnpackedFloat

/-! ## What a double denotes -/

/-- The rational number that the parts of a double denote. -/
def Parts.value? : Parts → Option ℚ
  | .finite negative m q => some (signed negative m * 2 ^ q)
  | _ => none

/-- The rational number that a double denotes; `NaN` and the infinities denote none. -/
def value? (x : Float) : Option ℚ := (parts x).value?

/-- A double that denotes a number is finite. -/
theorem value?_eq_some_iff {x : Float} {v : ℚ} :
    value? x = some v ↔ ∃ negative m q, parts x = .finite negative m q ∧
      v = signed negative m * 2 ^ q := by
  unfold value?
  cases parts x with
  | finite negative m q => simp [Parts.value?, eq_comm]
  | _ => simp [Parts.value?]

/-- The negative of a double denotes the negative of its number. -/
theorem value?_neg {x : Float} {v : ℚ} (h : value? x = some v) : value? (-x) = some (-v) := by
  obtain ⟨negative, m, q, hparts, rfl⟩ := value?_eq_some_iff.1 h
  refine value?_eq_some_iff.2 ⟨!negative, m, q, by rw [parts_neg, hparts]; rfl, ?_⟩
  cases negative <;> simp [signed]

/-- The components of a double give a mantissa of at most 53 bits. -/
theorem mantissa_ofComponents_lt {s s' : Sign} {e : BitVec 11} {m : BitVec 52} {m' : Nat} {e' : Int}
    {h : 0 < m'} (heq : ofComponents s e m = .finite s' m' e' h) : m' < 2 ^ 53 := by
  have hm := m.isLt
  unfold ofComponents at heq
  split at heq
  · split at heq <;> cases heq
  · split at heq
    · split at heq
      · cases heq
      · cases heq
        omega
    · cases heq
      omega

/-- A mantissa has at most 53 bits. -/
theorem mantissa_lt {x : Float} {negative : Bool} {m : Nat} {q : Int}
    (h : parts x = .finite negative m q) : m < 2 ^ 53 := by
  unfold parts Float.Model.unpack at h
  rw [unpack_eq_ofComponents] at h
  split at h
  · cases h
  · cases h
  · cases h
    omega
  · rename_i heq
    cases h
    exact mantissa_ofComponents_lt heq

/-- A double that is no less than `2 ^ (52 + k)` is a multiple of `2 ^ k`. -/
theorem exists_eq_mul_of_le {x : Float} {v : ℚ} (h : value? x = some v) {k : Nat}
    (hle : 2 ^ (52 + k) ≤ v) : ∃ z : ℤ, v = z * 2 ^ k := by
  obtain ⟨negative, m, q, hparts, rfl⟩ := value?_eq_some_iff.1 h
  have hm := mantissa_lt hparts
  have hq : (k : ℤ) ≤ q := by
    by_contra hlt
    have hsigned : (signed negative m : ℚ) ≤ m := by
      cases negative <;> simp [signed]
    have hscale : (0 : ℚ) < 2 ^ q := zpow_pos two_pos q
    have hmantissa : (m : ℚ) < 2 ^ 53 := by exact_mod_cast hm
    have hexponent : 53 + q ≤ ((52 + k : ℕ) : ℤ) := by
      push_cast
      omega
    have hless : (signed negative m * 2 ^ q : ℚ) < 2 ^ (52 + k) := calc
      (signed negative m * 2 ^ q : ℚ) ≤ m * 2 ^ q := by gcongr
      _ < 2 ^ 53 * 2 ^ q := by gcongr
      _ = 2 ^ (53 + q) := by rw [zpow_add₀ two_ne_zero]; rfl
      _ ≤ 2 ^ ((52 + k : ℕ) : ℤ) := zpow_le_zpow_right₀ one_le_two hexponent
      _ = 2 ^ (52 + k) := zpow_natCast _ _
    exact absurd hle (not_le.2 hless)
  obtain ⟨j, rfl⟩ := Int.le.dest hq
  refine ⟨signed negative m * 2 ^ j, ?_⟩
  rw [zpow_add₀ two_ne_zero, zpow_natCast, zpow_natCast]
  push_cast
  ring

/-! ## Rounding off bits -/

/-- The residual bits of a mantissa that was shifted say what is below its last bit. -/
theorem shiftRight_succ (n i : Nat) :
    ExtendedMantissa.mk n false false >>> (i + 1) =
      ⟨n / 2 ^ (i + 1), n / 2 ^ i % 2 != 0, n % 2 ^ i != 0⟩ := by
  change (i + 1).repeat ExtendedMantissa.shiftRightOne ⟨n, false, false⟩ = _
  induction i with
  | zero => simp [Nat.repeat, ExtendedMantissa.shiftRightOne, Nat.mod_one]
  | succ i ih =>
    have hmantissa : n / 2 ^ (i + 1) / 2 = n / 2 ^ (i + 1 + 1) := by
      rw [Nat.div_div_eq_div_mul, ← Nat.pow_succ]
    have hsticky : (n / 2 ^ i % 2 != 0 || n % 2 ^ i != 0) = (n % 2 ^ (i + 1) != 0) := by
      have hpos := Nat.two_pow_pos i
      rw [Nat.mod_pow_succ, Bool.eq_iff_iff]
      simp
      omega
    rw [Nat.repeat, ih, ExtendedMantissa.shiftRightOne, hmantissa, hsticky]

/-- Rounding to `a` or `a + 1` by a bit `b` of weight `P` and a rest `r` below it: the result is the
nearer of the two, or the even one where they are equally close. -/
theorem roundedMantissa_mk {a b r P : Nat} (hb : b < 2) (hr : r < P) :
    2 * |((ExtendedMantissa.mk a (b != 0) (r != 0)).roundedMantissa * (2 * P)
        - (a * (2 * P) + (P * b + r)) : ℤ)| ≤ 2 * P ∧
      (2 * |((ExtendedMantissa.mk a (b != 0) (r != 0)).roundedMantissa * (2 * P)
          - (a * (2 * P) + (P * b + r)) : ℤ)| = 2 * P →
        Even (ExtendedMantissa.mk a (b != 0) (r != 0)).roundedMantissa) := by
  have hdown : ((a : ℤ) * (2 * P) - (a * (2 * P) + (P * b + r))) = -((P * b + r : ℕ) : ℤ) := by
    push_cast
    ring
  have hup : (((a + 1 : ℕ) : ℤ) * (2 * P) - (a * (2 * P) + (P * b + r))) =
      2 * P - ((P * b + r : ℕ) : ℤ) := by
    push_cast
    ring
  obtain rfl | rfl : b = 0 ∨ b = 1 := by omega
  · -- The rest is less than half.
    have hround : (ExtendedMantissa.mk a (0 != 0) (r != 0)).roundedMantissa = a := by
      cases r != 0 <;> rfl
    rw [hround, hdown, abs_neg, Nat.abs_cast]
    refine ⟨by omega, ?_⟩
    intro hhalf
    omega
  · cases hrest : r != 0 with
    | true =>
      -- The rest is more than half.
      have hne : r ≠ 0 := by simpa using hrest
      have hround : (ExtendedMantissa.mk a (1 != 0) true).roundedMantissa = a + 1 := rfl
      rw [hround, hup, abs_of_nonneg (by omega)]
      refine ⟨by omega, ?_⟩
      intro hhalf
      omega
    | false =>
      -- The rest is half, and goes to the even side.
      have hzero : r = 0 := by simpa using hrest
      have hround : (ExtendedMantissa.mk a (1 != 0) false).roundedMantissa = a + a % 2 := rfl
      rw [hround]
      rcases Nat.mod_two_eq_zero_or_one a with heven | hodd
      · rw [heven, add_zero, hdown, abs_neg, Nat.abs_cast]
        exact ⟨by omega, fun _ => Nat.even_iff.2 heven⟩
      · rw [hodd, hup, abs_of_nonneg (by omega)]
        exact ⟨by omega, fun _ => (Nat.odd_iff.2 hodd).add_one⟩

/-- Rounding off `k` bits leaves a multiple of `2 ^ k` that is next to the number, an even one where
two are equally close. -/
theorem roundedMantissa_shiftRight (n k : Nat) :
    2 * |((ExtendedMantissa.mk n false false >>> k).roundedMantissa * 2 ^ k - n : ℤ)| ≤ 2 ^ k ∧
      (2 * |((ExtendedMantissa.mk n false false >>> k).roundedMantissa * 2 ^ k - n : ℤ)| = 2 ^ k →
        Even (ExtendedMantissa.mk n false false >>> k).roundedMantissa) := by
  cases k with
  | zero =>
    have hexact : (ExtendedMantissa.mk n false false >>> 0).roundedMantissa = n := rfl
    simp [hexact]
  | succ i =>
    have hrest : n % 2 ^ i < 2 ^ i := Nat.mod_lt _ (Nat.two_pow_pos i)
    have hbit : n / 2 ^ i % 2 < 2 := Nat.mod_lt _ two_pos
    have hpow : (2 : ℤ) ^ (i + 1) = 2 * ((2 ^ i : ℕ) : ℤ) := by
      push_cast
      ring
    have hsplit : n / 2 ^ (i + 1) * (2 * 2 ^ i) + (2 ^ i * (n / 2 ^ i % 2) + n % 2 ^ i) = n := by
      rw [add_comm (2 ^ i * _), ← Nat.mod_pow_succ, ← Nat.pow_succ']
      exact Nat.div_add_mod' n _
    have hdist : ∀ q : ℤ, q * 2 ^ (i + 1) - n = q * (2 * ((2 ^ i : ℕ) : ℤ)) -
        ((n / 2 ^ (i + 1) : ℕ) * (2 * ((2 ^ i : ℕ) : ℤ)) +
          (((2 ^ i : ℕ) : ℤ) * (n / 2 ^ i % 2 : ℕ) + (n % 2 ^ i : ℕ))) := by
      intro q
      rw [hpow]
      congr 1
      exact_mod_cast hsplit.symm
    rw [shiftRight_succ, hdist, hpow]
    exact roundedMantissa_mk hbit hrest

/-- A multiple that is next to a number is as close as any other, and another one is equally close
only when the number lies half way between them. -/
theorem abs_sub_le_of_multiple {K q n : ℤ} (hK : 0 < K) (hq : 2 * |q * K - n| ≤ K) {z : ℤ}
    (hz : z ≠ q) :
    |q * K - n| ≤ |z * K - n| ∧ (|q * K - n| = |z * K - n| → 2 * |q * K - n| = K) := by
  have hstep : K ≤ |z * K - q * K| := by
    rw [← sub_mul, abs_mul, abs_of_pos hK]
    have hone : 1 ≤ |z - q| := Int.one_le_abs (sub_ne_zero.2 hz)
    exact le_mul_of_one_le_left hK.le hone
  have htriangle : |z * K - q * K| ≤ |z * K - n| + |q * K - n| := by
    have hsum := abs_sub (z * K - n) (q * K - n)
    rwa [sub_sub_sub_cancel_right] at hsum
  constructor
  · linarith
  · intro heq
    linarith

/-! ## Nearest doubles -/

section Nearest

variable {n m k : Nat} {e : Int} {y : Float} {w : ℚ}

/-- No double is closer to a number of `53 + k` bits than the number with `k` bits rounded off, and
another one is equally close only when the rounded mantissa is even. -/
theorem nearest_of_log2 (hlog : n.log2 = 52 + k) (hy : value? y = some w) :
    |((ExtendedMantissa.mk n false false >>> k).roundedMantissa * 2 ^ k - n : ℚ)| ≤ |w - n| ∧
      (|((ExtendedMantissa.mk n false false >>> k).roundedMantissa * 2 ^ k - n : ℚ)| = |w - n| →
        w = (ExtendedMantissa.mk n false false >>> k).roundedMantissa * 2 ^ k ∨
          Even (ExtendedMantissa.mk n false false >>> k).roundedMantissa) := by
  obtain ⟨hnear, hhalf⟩ := roundedMantissa_shiftRight n k
  generalize (ExtendedMantissa.mk n false false >>> k).roundedMantissa = q at hnear hhalf ⊢
  have hmultiple : ∀ z : ℤ, |(q * 2 ^ k - n : ℚ)| ≤ |(z * 2 ^ k - n : ℚ)| ∧
      (|(q * 2 ^ k - n : ℚ)| = |(z * 2 ^ k - n : ℚ)| → z = q ∨ Even q) := by
    intro z
    by_cases hz : z = q
    · rw [hz]
      exact ⟨le_refl _, fun _ => .inl rfl⟩
    · obtain ⟨hle, htie⟩ := abs_sub_le_of_multiple (pow_pos two_pos k) hnear hz
      refine ⟨by exact_mod_cast hle, ?_⟩
      intro heq
      exact .inr (hhalf (htie (by exact_mod_cast heq)))
  by_cases hw : 2 ^ (52 + k) ≤ w
  · obtain ⟨z, rfl⟩ := exists_eq_mul_of_le hy hw
    obtain ⟨hle, htie⟩ := hmultiple z
    refine ⟨hle, ?_⟩
    intro heq
    rcases htie heq with rfl | heven
    · exact .inl rfl
    · exact .inr heven
  · -- A smaller double is further away than `2 ^ (52 + k)`, which is a multiple of `2 ^ k`.
    have hpos : n ≠ 0 := by
      rintro rfl
      rw [Nat.log2_zero] at hlog
      omega
    have hlow : (2 ^ (52 + k) : ℚ) ≤ n := by
      exact_mod_cast ((Nat.log2_eq_iff hpos).1 hlog).1
    have hless : |(q * 2 ^ k - n : ℚ)| < |w - n| := by
      have hfirst := (hmultiple (2 ^ 52)).1
      rw [not_le] at hw
      have hpower : (((2 ^ 52 : ℤ) : ℚ) * 2 ^ k) = 2 ^ (52 + k) := by
        rw [pow_add]
        norm_num
      rw [hpower, abs_sub_comm (2 ^ (52 + k) : ℚ), abs_of_nonneg (sub_nonneg.2 hlow)] at hfirst
      have hdist : |w - n| = n - w := by
        rw [abs_sub_comm, abs_of_pos (by linarith)]
      rw [hdist]
      linarith
    exact ⟨hless.le, fun heq => absurd heq hless.ne⟩

/-- No double is closer to a number than the one it is rounded to, and another one is equally close
only when the mantissa is even. -/
theorem Rounds.nearest (h : Rounds n m e) (hy : value? y = some w) :
    |(m * 2 ^ e - n : ℚ)| ≤ |w - n| ∧
      (|(m * 2 ^ e - n : ℚ)| = |w - n| → w = m * 2 ^ e ∨ Even m) := by
  cases h with
  | exact k =>
    have hvalue : (((n * 2 ^ k : ℕ) : ℚ) * 2 ^ (-(k : ℤ))) = n := by
      rw [zpow_neg, zpow_natCast]
      push_cast
      rw [mul_assoc, mul_inv_cancel₀ (pow_ne_zero k two_ne_zero), mul_one]
    rw [hvalue, sub_self, abs_zero]
    refine ⟨abs_nonneg _, ?_⟩
    intro heq
    exact .inl (sub_eq_zero.1 (abs_eq_zero.1 heq.symm))
  | cut hlog =>
    rw [zpow_natCast]
    exact nearest_of_log2 hlog hy
  | @carried k hlog hcarry =>
    have hnearest := nearest_of_log2 hlog hy
    rw [hcarry] at hnearest
    have hvalue : (((2 ^ 53 : ℕ) : ℚ) * 2 ^ k) = ((2 ^ 52 : ℕ) : ℚ) * 2 ^ ((k : ℤ) + 1) := by
      rw [zpow_add₀ two_ne_zero, zpow_natCast, zpow_one]
      push_cast
      ring
    rw [hvalue] at hnearest
    exact ⟨hnearest.1, fun heq => (hnearest.2 heq).imp_right fun _ => by decide⟩

end Nearest

/-- `IsNearest x r`: no double is closer to `r` than `x`, and where another one is equally close the
mantissa of `x` is even. -/
def IsNearest (x : Float) (r : ℚ) : Prop :=
  ∃ negative m q, parts x = .finite negative m q ∧ ∀ y w, value? y = some w →
    |signed negative m * 2 ^ q - r| ≤ |w - r| ∧
      (|signed negative m * 2 ^ q - r| = |w - r| → w = signed negative m * 2 ^ q ∨ Even m)

/-- The conversion of a natural number of 64 bits gives the nearest double. -/
theorem isNearest_toFloat {n : Nat} (h : n < 2 ^ 64) : IsNearest n.toUInt64.toFloat n := by
  have htoNat : n.toUInt64.toNat = n := UInt64.toNat_ofNat_of_lt h
  by_cases hzero : n = 0
  · subst hzero
    refine ⟨false, 0, leastExponent, rfl, ?_⟩
    intro y w _
    simp [signed, eq_comm]
  · obtain ⟨m, q, hparts, hrounds⟩ := parts_toFloat (n := n.toUInt64) (by rwa [htoNat])
    rw [htoNat] at hrounds
    refine ⟨false, m, q, hparts, ?_⟩
    intro y w hy
    simpa [signed] using hrounds.nearest hy

/-- The negative of the nearest double is the nearest double of the negative. -/
theorem IsNearest.neg {x : Float} {r : ℚ} (h : IsNearest x r) : IsNearest (-x) (-r) := by
  obtain ⟨negative, m, q, hparts, hnearest⟩ := h
  have hsigned : (signed (!negative) m * 2 ^ q : ℚ) = -(signed negative m * 2 ^ q) := by
    cases negative <;> simp [signed]
  refine ⟨!negative, m, q, by rw [parts_neg, hparts]; rfl, ?_⟩
  intro y w hy
  obtain ⟨hle, htie⟩ := hnearest (-y) (-w) (value?_neg hy)
  have hdist : ∀ a b : ℚ, |-a - -b| = |a - b| := by
    intro a b
    rw [← abs_neg, neg_sub, sub_neg_eq_add, neg_add_eq_sub]
  have hdist' : |-w - r| = |w - -r| := by
    rw [← abs_neg]
    congr 1
    ring
  rw [hsigned, hdist, ← hdist']
  refine ⟨hle, ?_⟩
  intro heq
  exact (htie heq).imp_left neg_eq_iff_eq_neg.1

/-- The conversion of an integer of 64 bits gives the nearest double. -/
theorem isNearest_ofInt {n : Int} (h : n.natAbs < 2 ^ 64) : IsNearest (ofInt n) n := by
  have hnearest := isNearest_toFloat h
  unfold ofInt
  by_cases hneg : n < 0
  · have hvalue : (n : ℚ) = -(n.natAbs : ℚ) := by
      have habs : n = -(n.natAbs : ℤ) := by omega
      exact_mod_cast habs
    simp only [if_pos hneg]
    rw [hvalue]
    exact hnearest.neg
  · have hvalue : (n : ℚ) = (n.natAbs : ℚ) := by
      rw [← Int.cast_natCast, Int.natAbs_of_nonneg (by omega)]
    simp only [if_neg hneg]
    rw [hvalue]
    exact hnearest

end Shader.Number
