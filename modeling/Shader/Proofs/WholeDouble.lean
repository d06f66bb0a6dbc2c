import Mathlib
import Shader.Number.Parts

/-!
# Doubles that are whole numbers

A double is read through its mantissa and its exponent.  This file proves the two facts about them
that folding rests on: negation changes the sign and nothing else, and the double nearest to a
64-bit integer is a whole number.

The second is about rounding.  An integer below `2 ^ 53` is scaled up to a full mantissa, exactly,
and the scale is a divisor of the mantissa; a larger one may lose bits, but the exponent it is
rounded to is not negative.
-/

namespace Shader.Number

open Float.Model (Format totalExponent UnpackedFloat)
open Float.Model.UnpackedFloat

/-! ## The three components of a double -/

/-- What the sign, the exponent bits and the mantissa bits of a double denote. -/
def ofComponents (s : Sign) (e : BitVec 11) (m : BitVec 52) : UnpackedFloat :=
  if e = -1#11 then
    if m = 0#52 then .infinity s else .notANumber
  else if e = 0#11 then
    if h : m = 0#52 then .zero s
    else .finite s m.toNat leastExponent (by simpa [BitVec.toNat_pos, BitVec.pos_iff_ne_zero])
  else .finite s (2 ^ 52 + m.toNat) ((e.toNat : Int) - 1075) (by omega)

theorem toNat_implicit (v : BitVec 52) : (1#1 ++ v).toNat = 2 ^ 52 + v.toNat := by
  rw [BitVec.toNat_append, ← Nat.shiftLeft_add_eq_or_of_lt v.isLt]
  simp [Nat.shiftLeft_eq]

theorem ofComponents_normal {s : Sign} {e : BitVec 11} {m : BitVec 52} (hinf : e ≠ -1#11)
    (hz : e ≠ 0#11) :
    ofComponents s e m = .finite s (2 ^ 52 + m.toNat) ((e.toNat : Int) - 1075) (by omega) := by
  unfold ofComponents
  rw [if_neg hinf, if_neg hz]

theorem unpack_eq_ofComponents (b : BitVec Format.binary64.numBits) :
    unpack Format.binary64 b =
      ofComponents (.ofBitVec (unpackSign b)) (unpackExponent b) (unpackMantissa b) := by
  have hbias : (Format.binary64.exponentBias : Int) + (52 : Nat) = 1075 := rfl
  unfold unpack
  simp only [toNat_implicit, hbias]
  unfold ofComponents
  by_cases hz : unpackExponent b = 0#11
  · simp only [hz]
    rfl
  · simp only [hz, if_false]

theorem unpackSign_packComponents (s : Sign) (e : BitVec 11) (m : BitVec 52) :
    unpackSign (packComponents Format.binary64 s e m) = s.toBitVec := by
  change (s.toBitVec ++ e ++ m).extractLsb' 63 1 = s.toBitVec
  rw [BitVec.extractLsb'_append_eq_of_le (by decide)]
  rw [BitVec.extractLsb'_append_eq_of_le (by decide)]
  cases s <;> rfl

theorem unpack_packComponents (s : Sign) (e : BitVec 11) (m : BitVec 52) :
    unpack Format.binary64 (packComponents Format.binary64 s e m) = ofComponents s e m := by
  have hsign : Sign.ofBitVec s.toBitVec = s := by cases s <;> rfl
  rw [unpack_eq_ofComponents, unpackSign_packComponents, unpackExponent_packComponents,
    unpackMantissa_packComponents, hsign]

/-- The components of a packed double: the highest bit of a full mantissa is left out. -/
theorem pack_finite {s : Sign} {m : Nat} {e : Int} (h : 0 < m) (hleast : -1074 ≤ e)
    (hle : e ≤ 971) :
    pack Format.binary64 (.finite s m e h) =
      if m.log2 = 52 then
        packComponents Format.binary64 s (.ofNat 11 (e + 1075).toNat) (.ofNat 52 m)
      else packComponents Format.binary64 s 0#11 (.ofNat 52 m) := by
  have hbiased : (e + Format.binary64.exponentBias +
      Format.binary64.mantissaBitsWithoutImplicit).toNat = (e + 1075).toNat := by
    change (e + 1023 + 52).toNat = (e + 1075).toNat
    omega
  have hfits : ¬2 ^ Format.binary64.exponentBits ≤ (e + 1075).toNat + 1 := by
    change ¬2048 ≤ (e + 1075).toNat + 1
    omega
  have hbits : m.log2 + 1 = Format.binary64.mantissaBits ↔ m.log2 = 52 := by
    change m.log2 + 1 = 53 ↔ m.log2 = 52
    omega
  unfold pack
  simp only [hbiased]
  rw [if_neg hfits]
  simp only [hbits]

/-- Packing loses nothing of a double. -/
theorem unpack_pack_ofComponents (s : Sign) (e : BitVec 11) (m : BitVec 52) :
    unpack Format.binary64 (pack Format.binary64 (ofComponents s e m)) = ofComponents s e m := by
  have hlt := m.isLt
  by_cases hinf : e = -1#11
  · subst hinf
    by_cases hm : m = 0#52
    · subst hm
      exact unpack_packComponents s (-1#11) 0#52
    · have hnan : ofComponents s (-1#11) m = .notANumber := by simp [ofComponents, hm]
      rw [hnan]
      exact unpack_packComponents .positive (-1#11) (1#52 <<< 51)
  by_cases hz : e = 0#11
  · subst hz
    by_cases hm : m = 0#52
    · subst hm
      exact unpack_packComponents s 0#11 0#52
    · have hpos : 0 < m.toNat := by simpa [BitVec.toNat_pos, BitVec.pos_iff_ne_zero]
      have heq : ofComponents s 0#11 m = .finite s m.toNat leastExponent hpos := by
        simp [ofComponents, hm]
      have hlog : m.toNat.log2 < 52 := (Nat.log2_lt (by omega)).mpr hlt
      rw [heq, pack_finite hpos (by decide) (by decide), if_neg (by omega), BitVec.ofNat_toNat,
        BitVec.setWidth_eq, unpack_packComponents, heq]
  · have hexp := e.isLt
    have hne : e.toNat ≠ 2047 := by
      intro h
      exact hinf (BitVec.eq_of_toNat_eq h)
    have hnz : e.toNat ≠ 0 := by
      intro h
      exact hz (BitVec.eq_of_toNat_eq h)
    have heq : ofComponents s e m =
        .finite s (2 ^ 52 + m.toNat) ((e.toNat : Int) - 1075) (by omega) :=
      ofComponents_normal hinf hz
    have hlog : (2 ^ 52 + m.toNat).log2 = 52 :=
      (Nat.log2_eq_iff (by omega)).mpr ⟨by omega, by omega⟩
    have hbiased : BitVec.ofNat 11 ((e.toNat : Int) - 1075 + 1075).toNat = e := by
      rw [Int.sub_add_cancel, Int.toNat_natCast, BitVec.ofNat_toNat, BitVec.setWidth_eq]
    have hmant : BitVec.ofNat 52 (2 ^ 52 + m.toNat) = m := by
      apply BitVec.eq_of_toNat_eq
      rw [BitVec.toNat_ofNat, Nat.add_mod_left, Nat.mod_eq_of_lt hlt]
    have hpack := pack_finite (s := s) (m := 2 ^ 52 + m.toNat) (e := (e.toNat : Int) - 1075)
      (by omega) (by omega) (by omega)
    rw [if_pos hlog, hbiased, hmant] at hpack
    rw [heq, hpack, unpack_packComponents, heq]

/-- A full mantissa and an exponent in range are those of a double. -/
theorem unpack_pack_normal {m : Nat} {e : Int} (s : Sign) (h : 0 < m) (hfull : 2 ^ 52 ≤ m)
    (hlt : m < 2 ^ 53) (hleast : -1074 ≤ e) (hle : e ≤ 971) :
    unpack Format.binary64 (pack Format.binary64 (.finite s m e h)) = .finite s m e h := by
  have hexp : (BitVec.ofNat 11 (e + 1075).toNat).toNat = (e + 1075).toNat := by
    rw [BitVec.toNat_ofNat]
    omega
  have hmant : 2 ^ 52 + (BitVec.ofNat 52 m).toNat = m := by
    rw [BitVec.toNat_ofNat]
    omega
  have hback : (((e + 1075).toNat : Nat) : Int) - 1075 = e := by omega
  have hinf : BitVec.ofNat 11 (e + 1075).toNat ≠ -1#11 := by
    intro hc
    have htoNat := congrArg BitVec.toNat hc
    rw [hexp] at htoNat
    change (e + 1075).toNat = 2047 at htoNat
    omega
  have hz : BitVec.ofNat 11 (e + 1075).toNat ≠ 0#11 := by
    intro hc
    have htoNat := congrArg BitVec.toNat hc
    rw [hexp] at htoNat
    change (e + 1075).toNat = 0 at htoNat
    omega
  have heq : .finite s m e h = ofComponents s (.ofNat 11 (e + 1075).toNat) (.ofNat 52 m) := by
    rw [ofComponents_normal hinf hz]
    simp only [hexp, hmant, hback]
  rw [heq, unpack_pack_ofComponents]

/-! ## Negation -/

/-- The parts with the sign turned round. -/
def Parts.neg : Parts → Parts
  | .nan => .nan
  | .infinite negative => .infinite !negative
  | .finite negative m q => .finite (!negative) m q

theorem isNegative_neg (s : Sign) : isNegative (-s) = !isNegative s := by
  cases s <;> rfl

theorem ofComponents_neg (s : Sign) (e : BitVec 11) (m : BitVec 52) :
    (ofComponents s e m).neg = ofComponents (-s) e m := by
  unfold ofComponents
  by_cases hinf : e = -1#11
  · by_cases hm : m = 0#52 <;> simp only [hinf, hm, if_true, if_false] <;> rfl
  · by_cases hz : e = 0#11
    · by_cases hm : m = 0#52 <;> simp only [hz, hm, if_true, if_false] <;> rfl
    · simp only [hinf, hz, if_false]
      rfl

theorem unpack_neg (x : Float) : (-x).toModel.unpack = x.toModel.unpack.neg := by
  change unpack Format.binary64 (pack Format.binary64 (unpack Format.binary64 _).neg) = _
  unfold Float.Model.unpack
  rw [unpack_eq_ofComponents x.toModel.toBits.toBitVec, ofComponents_neg, unpack_pack_ofComponents]

/-- Negation turns the sign round and changes nothing else. -/
theorem parts_neg (x : Float) : parts (-x) = (parts x).neg := by
  unfold parts
  rw [unpack_neg]
  cases x.toModel.unpack <;> simp [UnpackedFloat.neg, Parts.neg, isNegative_neg]

theorem isWhole_neg (x : Float) : isWhole (-x) = isWhole x := by
  unfold isWhole
  rw [parts_neg]
  cases parts x <;> rfl

theorem isFinite_iff {x : Float} :
    x.isFinite = true ↔ ∃ negative m q, parts x = .finite negative m q := by
  change x.toModel.unpack.isFinite = true ↔ _
  unfold parts
  cases x.toModel.unpack <;> simp [UnpackedFloat.isFinite]

theorem isFinite_neg {x : Float} (h : x.isFinite = true) : (-x).isFinite = true := by
  obtain ⟨negative, m, q, hparts⟩ := isFinite_iff.mp h
  exact isFinite_iff.mpr ⟨!negative, m, q, by rw [parts_neg, hparts]; rfl⟩

theorem isFinite_of_isWhole {x : Float} (h : isWhole x = true) : x.isFinite = true := by
  unfold isWhole at h
  cases hparts : parts x with
  | finite negative m q => exact isFinite_iff.mpr ⟨negative, m, q, hparts⟩
  | nan => simp [hparts] at h
  | infinite negative => simp [hparts] at h

/-! ## Rounding an integer -/

theorem mantissa_shiftRight (m : ExtendedMantissa) (n : Nat) :
    (m >>> n).mantissa = m.mantissa / 2 ^ n := by
  change (n.repeat ExtendedMantissa.shiftRightOne m).mantissa = _
  induction n with
  | zero => simp [Nat.repeat]
  | succ n ih =>
    rw [Nat.repeat]
    change _ / 2 = _
    rw [ih, Nat.div_div_eq_div_mul, Nat.pow_succ]

theorem roundedMantissa_bounds (m : ExtendedMantissa) :
    m.mantissa ≤ m.roundedMantissa ∧ m.roundedMantissa ≤ m.mantissa + 1 := by
  obtain ⟨mantissa, round, sticky⟩ := m
  cases round <;> cases sticky <;>
    simp only [ExtendedMantissa.roundedMantissa, ExtendedMantissa.accuracy,
      Accuracy.roundToNearestEven] <;> omega

theorem targetExponent_eq {m k : Nat} {e : Int} (hlog : m.log2 = 52 + k) (he : -1074 ≤ e) :
    Format.binary64.targetExponent (totalExponent m e) = e + k := by
  unfold Format.targetExponent totalExponent
  rw [hlog]
  change max (((52 + k : Nat) : Int) + 1 + e - (53 : Nat)) (-1074) = e + k
  omega

/-- The excess bits of a mantissa are shifted out. -/
theorem shiftToTargetExponent_eq {m k : Nat} {e : Int} (hlog : m.log2 = 52 + k)
    (he : -1074 ≤ e) :
    shiftToTargetExponent Format.binary64 m e .exact =
      (ExtendedMantissa.mk m false false >>> k, e + k) := by
  have hshift : (e + k - e).toNat = k := by omega
  unfold shiftToTargetExponent
  simp only [targetExponent_eq hlog he, shiftToExponent, hshift]
  rfl

/-- Rounding may carry into a new bit, which is shifted out again. -/
theorem renormalize {m : Nat} {e : Int} (hfull : 2 ^ 52 ≤ m) (hle : m ≤ 2 ^ 53)
    (he : -1074 ≤ e) :
    (m < 2 ^ 53 ∧ (shiftToTargetExponent Format.binary64 m e .exact).1.mantissa = m ∧
      (shiftToTargetExponent Format.binary64 m e .exact).2 = e) ∨
    (m = 2 ^ 53 ∧ (shiftToTargetExponent Format.binary64 m e .exact).1.mantissa = 2 ^ 52 ∧
      (shiftToTargetExponent Format.binary64 m e .exact).2 = e + 1) := by
  by_cases hlt : m < 2 ^ 53
  · have hlog : m.log2 = 52 + 0 := (Nat.log2_eq_iff (by omega)).mpr ⟨hfull, hlt⟩
    rw [shiftToTargetExponent_eq hlog he]
    refine .inl ⟨hlt, ?_, ?_⟩
    · rw [mantissa_shiftRight]
      simp
    · simp
  · have heq : m = 2 ^ 53 := by omega
    have hlog : m.log2 = 52 + 1 := by rw [heq, Nat.log2_two_pow]
    rw [shiftToTargetExponent_eq hlog he]
    refine .inr ⟨heq, ?_, rfl⟩
    rw [mantissa_shiftRight, heq]
    rfl

/-- `Rounds n m e`: the double `m * 2 ^ e` is what `n` is rounded to. -/
inductive Rounds (n : Nat) : Nat → Int → Prop where
  /-- A number of at most 53 bits is filled up with zeros. -/
  | exact (k : Nat) : Rounds n (n * 2 ^ k) (-k)
  /-- The low bits of a longer number are rounded off. -/
  | cut {k : Nat} : n.log2 = 52 + k →
      Rounds n (ExtendedMantissa.mk n false false >>> k).roundedMantissa k
  /-- Rounding up may carry into a new bit. -/
  | carried {k : Nat} : n.log2 = 52 + k →
      (ExtendedMantissa.mk n false false >>> k).roundedMantissa = 2 ^ 53 →
      Rounds n (2 ^ 52) (k + 1)

/-- Rounding a mantissa of at least 53 bits leaves 53 bits.  A mantissa of 53 bits is kept. -/
theorem roundWithAccuracy_eq {m k : Nat} {e : Int} (s : Sign) (hlog : m.log2 = 52 + k)
    (he : -1074 ≤ e) :
    ∃ m' e', ∃ h : 0 < m',
      roundWithAccuracy Format.binary64 s m e .exact = .finite s m' (e + e') h ∧
      2 ^ 52 ≤ m' ∧ m' < 2 ^ 53 ∧ 0 ≤ e' ∧ e' ≤ k + 1 ∧ Rounds m m' e' ∧
      (k = 0 → m' = m ∧ e' = 0) := by
  have hpos : m ≠ 0 := by
    intro h
    rw [h, Nat.log2_zero] at hlog
    omega
  obtain ⟨hlo, hhi⟩ := (Nat.log2_eq_iff hpos).mp hlog
  have hcut : 2 ^ 52 ≤ m / 2 ^ k ∧ m / 2 ^ k < 2 ^ 53 := by
    constructor
    · rw [Nat.le_div_iff_mul_le (Nat.two_pow_pos k), ← Nat.pow_add]
      exact hlo
    · rw [Nat.div_lt_iff_lt_mul (Nat.two_pow_pos k), ← Nat.pow_add]
      have : 53 + k = 52 + k + 1 := by omega
      rw [this]
      exact hhi
  have hmant : (ExtendedMantissa.mk m false false >>> k).mantissa = m / 2 ^ k :=
    mantissa_shiftRight _ k
  have hround := roundedMantissa_bounds (ExtendedMantissa.mk m false false >>> k)
  rw [hmant] at hround
  rcases renormalize (m := (ExtendedMantissa.mk m false false >>> k).roundedMantissa) (e := e + k)
      (by omega) (by omega) (by omega) with ⟨hlt, hfirst, hsecond⟩ | ⟨hcarry, hfirst, hsecond⟩
  · have hne : (ExtendedMantissa.mk m false false >>> k).roundedMantissa ≠ 0 := by omega
    refine ⟨_, k, Nat.pos_of_ne_zero hne, ?_, by omega, hlt, by omega, by omega, .cut hlog, ?_⟩
    · unfold roundWithAccuracy
      simp only [shiftToTargetExponent_eq hlog he, hfirst, hsecond, dif_neg hne]
    · rintro rfl
      exact ⟨rfl, rfl⟩
  · refine ⟨2 ^ 52, k + 1, by omega, ?_, by omega, by omega, by omega, by omega,
      .carried hlog hcarry, ?_⟩
    · unfold roundWithAccuracy
      simp only [shiftToTargetExponent_eq hlog he, hfirst, hsecond]
      rw [dif_neg (by decide)]
      simp only [add_assoc]
    · -- Nothing is rounded off a mantissa of 53 bits, so there is no carry.
      rintro rfl
      have hexact : (ExtendedMantissa.mk m false false >>> 0).roundedMantissa = m := rfl
      rw [hexact] at hcarry
      omega

theorem scaled_bounds {n : Nat} (hpos : n ≠ 0) (hsmall : n.log2 ≤ 52) :
    2 ^ 52 ≤ n * 2 ^ (52 - n.log2) ∧ n * 2 ^ (52 - n.log2) < 2 ^ 53 := by
  obtain ⟨hlo, hhi⟩ := (Nat.log2_eq_iff hpos).mp rfl
  have hlo' := Nat.mul_le_mul_right (2 ^ (52 - n.log2)) hlo
  have hhi' := Nat.mul_lt_mul_of_pos_right hhi (Nat.two_pow_pos (52 - n.log2))
  rw [← Nat.pow_add] at hlo' hhi'
  have hlow : n.log2 + (52 - n.log2) = 52 := by omega
  have hhigh : n.log2 + 1 + (52 - n.log2) = 53 := by omega
  rw [hlow] at hlo'
  rw [hhigh] at hhi'
  exact ⟨hlo', hhi'⟩

/-- The double that a positive integer of 64 bits is rounded to. -/
theorem round_nat {n : Nat} (s : Sign) (hpos : n ≠ 0) (hlt : n < 2 ^ 64) :
    ∃ m e, ∃ h : 0 < m, UnpackedFloat.round Format.binary64 s n 0 = .finite s m e h ∧
      2 ^ 52 ≤ m ∧ m < 2 ^ 53 ∧ -52 ≤ e ∧ e ≤ 12 ∧ Rounds n m e := by
  have hlog : n.log2 < 64 := (Nat.log2_lt hpos).mpr hlt
  have htarget : Format.binary64.targetExponent (totalExponent n 0) = (n.log2 : Int) - 52 := by
    unfold Format.targetExponent totalExponent
    change max ((n.log2 : Int) + 1 + 0 - (53 : Nat)) (-1074) = (n.log2 : Int) - 52
    omega
  unfold UnpackedFloat.round
  simp only [htarget, decreaseExponent]
  by_cases hsmall : n.log2 ≤ 52
  · -- The mantissa is filled up with zeros, so nothing is left to round.
    have hshift : (0 - ((n.log2 : Int) - 52)).toNat = 52 - n.log2 := by omega
    have hbounds := scaled_bounds hpos hsmall
    have hfull : (n * 2 ^ (52 - n.log2)).log2 = 52 + 0 :=
      (Nat.log2_eq_iff (by omega)).mpr hbounds
    rw [hshift, Nat.shiftLeft_eq]
    obtain ⟨m, e, h, heq, hm, hm', -, -, -, hkept⟩ :=
      roundWithAccuracy_eq (e := 0 - ((52 - n.log2 : Nat) : Int)) s hfull (by omega)
    obtain ⟨rfl, rfl⟩ := hkept rfl
    refine ⟨_, _, h, heq, hm, hm', by omega, by omega, ?_⟩
    rw [add_zero, zero_sub]
    exact .exact _
  · -- Bits may be lost, but only those below the units of an exponent that is not negative.
    have hshift : (0 - ((n.log2 : Int) - 52)).toNat = 0 := by omega
    have hfull : n.log2 = 52 + (n.log2 - 52) := by omega
    rw [hshift, Nat.shiftLeft_zero]
    obtain ⟨m, e, h, heq, hm, hm', hle, hle', hrounds, -⟩ :=
      roundWithAccuracy_eq (e := 0 - ((0 : Nat) : Int)) s hfull (by omega)
    refine ⟨m, _, h, heq, hm, hm', by omega, by omega, ?_⟩
    rw [Nat.cast_zero, sub_zero, zero_add]
    exact hrounds

/-- The parts of the double nearest to a positive integer of 64 bits. -/
theorem parts_toFloat {n : UInt64} (hz : n.toNat ≠ 0) :
    ∃ m e, parts n.toFloat = .finite false m e ∧ Rounds n.toNat m e := by
  obtain ⟨m, e, h, hround, hm, hm', he, he', hrounds⟩ := round_nat .positive hz n.toNat_lt
  have hcompare : compare (n.toNat : Int) 0 = .gt := Int.compare_eq_gt.mpr (by omega)
  have hunpack : n.toFloat.toModel.unpack = .finite .positive m e h := by
    change unpack Format.binary64 (pack Format.binary64
      (UnpackedFloat.normalize _ (n.toNat : Int) 0 _)) = _
    unfold UnpackedFloat.normalize
    simp only [hcompare, Int.toNat_natCast, hround]
    exact unpack_pack_normal _ _ hm hm' (by omega) (by omega)
  refine ⟨m, e, ?_, hrounds⟩
  unfold parts
  rw [hunpack]
  rfl

/-- What an integer is rounded to is whole. -/
theorem Rounds.isWholeParts_eq {n m : Nat} {e : Int} (h : Rounds n m e) :
    isWholeParts m e = true := by
  cases h with
  | exact k => simp [isWholeParts]
  | cut _ => simp [isWholeParts]
  | @carried k _ _ =>
    have hexp : (0 : Int) ≤ k + 1 := by omega
    simp [isWholeParts, hexp]

/-- The double nearest to an unsigned 64-bit integer is a whole number. -/
theorem isWhole_toFloat (n : UInt64) : isWhole n.toFloat = true := by
  by_cases hz : n.toNat = 0
  · have hn : n = 0 := UInt64.toNat_inj.mp hz
    subst hn
    change isWholeParts 0 leastExponent = true
    unfold isWholeParts
    rw [Nat.zero_mod]
    rfl
  · obtain ⟨m, e, hparts, hrounds⟩ := parts_toFloat hz
    unfold isWhole
    rw [hparts]
    exact hrounds.isWholeParts_eq

/-- The double nearest to an integer is a whole number. -/
theorem isWhole_ofInt (n : Int) : isWhole (ofInt n) = true := by
  unfold ofInt
  by_cases hneg : n < 0
  · simp only [if_pos hneg, isWhole_neg, isWhole_toFloat]
  · simp only [if_neg hneg, isWhole_toFloat]

end Shader.Number
