import Mathlib

/-! Fractions that a floating-point format holds exactly.

`fraction S n d` is the float of `n / 2 ^ d` in a format `S`, its mantissa moved up as far as
the format has room for it. While `n` fits into the mantissa nothing is lost by converting it
(`ofNat_eq`), by scaling it with a power of two (`mul_eq`) or by writing it down in bits and
reading it back (`unpack_pack`): what rounding drops is only what moving the mantissa
brought in (`roundWithAccuracy_zeros`). -/
namespace Philox.Fraction
open Float.Model (Format totalExponent UnpackedFloat)
open Float.Model.UnpackedFloat

/-! ### Numbers and formats -/

/-- The number that a float stands for, if it stands for one. -/
def value? : UnpackedFloat → Option ℚ
  | .zero _ => some 0
  | .finite s m e _ => some (s.apply m * 2 ^ e)
  | .infinity _ => none
  | .notANumber => none

variable {S : Format} {s : Sign} {m n d : ℕ} {e : ℤ}

/-- How far a number can be moved up in a mantissa. -/
def room (S : Format) (n : ℕ) : ℕ := S.mantissaBitsWithoutImplicit - n.log2

/-- The float of `n / 2 ^ d`. -/
def fraction (S : Format) (n d : ℕ) : UnpackedFloat :=
  if h : n = 0 then .zero .positive
  else .finite .positive (n * 2 ^ room S n) (-(d + room S n : ℕ))
    (Nat.mul_pos (Nat.pos_of_ne_zero h) (Nat.two_pow_pos _))

/-- The format has the exponents of `n / 2 ^ d`, for each `n` that fits into its mantissa. -/
structure Holds (S : Format) (d : ℕ) : Prop where
  low : S.minExponent ≤ -(d + S.mantissaBitsWithoutImplicit : ℕ)
  high : S.mantissaBitsWithoutImplicit ≤ S.exponentBias

theorem two_pow_exponentBits (S : Format) : 2 ^ S.exponentBits = 2 * S.exponentBias + 2 := by
  have he := S.he
  have hpos := Nat.two_pow_pos (S.exponentBits - 1)
  have hbits : S.exponentBits = S.exponentBits - 1 + 1 := by omega
  rw [hbits, Nat.pow_succ, Format.exponentBias]
  omega

theorem minExponent_eq (S : Format) :
    S.minExponent = 1 - (S.exponentBias + S.mantissaBitsWithoutImplicit : ℕ) := by
  have hpos := Nat.two_pow_pos (S.exponentBits - 1)
  have hcast : ((2 ^ (S.exponentBits - 1) : ℕ) : ℤ) = 2 ^ (S.exponentBits - 1) := by
    rw [Nat.cast_pow, Nat.cast_ofNat]
  rw [Format.minExponent, ← hcast, Format.mantissaBits, Format.exponentBias]
  omega

theorem log2_mul_two_pow (hn : n ≠ 0) (k : ℕ) : (n * 2 ^ k).log2 = n.log2 + k := by
  induction k with
  | zero => rw [Nat.pow_zero, Nat.mul_one, Nat.add_zero]
  | succ k ih =>
    have hne : n * 2 ^ k ≠ 0 := Nat.mul_ne_zero hn (Nat.two_pow_pos k).ne'
    rw [Nat.pow_succ, ← Nat.mul_assoc, Nat.mul_comm _ 2, Nat.log2_two_mul hne, ih, Nat.add_assoc]

/-- Moved up, a number fills the mantissa. -/
theorem log2_mul_room (hn : n ≠ 0) (hfit : n < 2 ^ S.mantissaBits) :
    (n * 2 ^ room S n).log2 = S.mantissaBitsWithoutImplicit := by
  have hlt : n.log2 < S.mantissaBits := (Nat.log2_lt hn).2 hfit
  rw [log2_mul_two_pow hn, room]
  rw [Format.mantissaBits] at hlt
  omega

/-- A full mantissa stays where it is. -/
theorem targetExponent_full (hm : m.log2 = S.mantissaBitsWithoutImplicit)
    (he : S.minExponent ≤ e) : S.targetExponent (totalExponent m e) = e := by
  rw [Format.targetExponent, totalExponent, hm, Format.mantissaBits]
  omega

/-! ### Rounding -/

/-- Zeros that are shifted out leave no trace. -/
theorem shiftRight_zeros (m k : ℕ) :
    (⟨m * 2 ^ k, false, false⟩ : ExtendedMantissa) >>> k = ⟨m, false, false⟩ := by
  induction k generalizing m with
  | zero => rw [Nat.pow_zero, Nat.mul_one]; rfl
  | succ k ih =>
    have hstep : (⟨m * 2 ^ (k + 1), false, false⟩ : ExtendedMantissa) >>> (k + 1) =
        ((⟨m * 2 * 2 ^ k, false, false⟩ : ExtendedMantissa) >>> k).shiftRightOne := by
      rw [Nat.pow_succ', ← Nat.mul_assoc]
      rfl
    rw [hstep, ih, ExtendedMantissa.shiftRightOne]
    simp

theorem shiftToTargetExponent_zeros (hm : m.log2 = S.mantissaBitsWithoutImplicit) (hpos : m ≠ 0)
    (he : S.minExponent ≤ e) (k : ℕ) :
    shiftToTargetExponent S (m * 2 ^ k) (e - k) .exact = (⟨m, false, false⟩, e) := by
  have htotal : totalExponent (m * 2 ^ k) (e - k) = totalExponent m e := by
    rw [totalExponent, totalExponent, log2_mul_two_pow hpos]
    omega
  have hshift : (e - (e - k)).toNat = k := by omega
  have hback : e - (k : ℤ) + k = e := by omega
  rw [shiftToTargetExponent, htotal, targetExponent_full hm he]
  simp only [shiftToExponent, hshift, hback, ExtendedMantissa.ofMantissaAndAccuracy,
    shiftRight_zeros]

/-- Rounding a full mantissa with zeros after it drops the zeros. -/
theorem roundWithAccuracy_zeros (hm : m.log2 = S.mantissaBitsWithoutImplicit) (hpos : 0 < m)
    (he : S.minExponent ≤ e) (k : ℕ) :
    roundWithAccuracy S s (m * 2 ^ k) (e - k) .exact = .finite s m e hpos := by
  have hfirst := shiftToTargetExponent_zeros hm hpos.ne' he k
  have hagain := shiftToTargetExponent_zeros hm hpos.ne' he 0
  rw [Nat.pow_zero, Nat.mul_one, Nat.cast_zero, Int.sub_zero] at hagain
  rw [roundWithAccuracy, hfirst]
  simp only [ExtendedMantissa.roundedMantissa, ExtendedMantissa.accuracy,
    Accuracy.roundToNearestEven, hagain, hpos.ne', dif_neg, not_false_eq_true]

/-! ### Operations -/

theorem fraction_of_ne (hn : n ≠ 0) :
    fraction S n d = .finite .positive (n * 2 ^ room S n) (-(d + room S n : ℕ))
      (Nat.mul_pos (Nat.pos_of_ne_zero hn) (Nat.two_pow_pos _)) :=
  dif_neg hn

theorem fraction_zero : fraction S 0 d = .zero .positive :=
  dif_pos rfl

/-- The exponent of a fraction is one of the format. -/
theorem Holds.minExponent_le (h : Holds S d) (n : ℕ) : S.minExponent ≤ -(d + room S n : ℕ) := by
  have hlow := h.low
  have hroom : room S n ≤ S.mantissaBitsWithoutImplicit := Nat.sub_le ..
  omega

/-- A number that fits into the mantissa is converted as it is. -/
theorem ofNat_eq (h : Holds S 0) (hfit : n < 2 ^ S.mantissaBits) :
    UnpackedFloat.ofNat S n = fraction S n 0 := by
  by_cases hn : n = 0
  · subst hn
    exact fraction_zero.symm
  · have hfull := log2_mul_room hn hfit
    have hlog := log2_mul_two_pow hn (room S n)
    have hmin := h.minExponent_le n
    have hpos : 0 < n * 2 ^ room S n := Nat.mul_pos (Nat.pos_of_ne_zero hn) (Nat.two_pow_pos _)
    have hcompare : compare (n : ℤ) 0 = .gt := Int.compare_eq_gt.2 (by omega)
    have htarget : S.targetExponent (totalExponent n 0) = -(room S n : ℤ) := by
      rw [Format.targetExponent, totalExponent, Format.mantissaBits]
      omega
    have hround := roundWithAccuracy_zeros (s := .positive) hfull hpos hmin 0
    rw [Nat.pow_zero, Nat.mul_one, Nat.zero_add, Nat.cast_zero, Int.sub_zero] at hround
    rw [fraction_of_ne hn, UnpackedFloat.ofNat, ofInt, UnpackedFloat.normalize, hcompare]
    simp only [Int.toNat_natCast, UnpackedFloat.round, htarget, decreaseExponent,
      Nat.shiftLeft_eq, Int.zero_sub, Int.neg_neg, hround, Nat.zero_add]

/-- Scaling by a power of two moves the exponent and nothing else. -/
theorem mul_eq {k : ℕ} (h : Holds S (d + k)) (hfit : n < 2 ^ S.mantissaBits) :
    mul S (fraction S n d) (fraction S 1 k) = fraction S n (d + k) := by
  have hone : (1 : ℕ) ≠ 0 := Nat.one_ne_zero
  by_cases hn : n = 0
  · subst hn
    rw [fraction_zero, fraction_zero, fraction_of_ne hone]
    rfl
  · have hpos : 0 < n * 2 ^ room S n := Nat.mul_pos (Nat.pos_of_ne_zero hn) (Nat.two_pow_pos _)
    have hexponent : (-(d + room S n : ℕ) : ℤ) + -(k + room S 1 : ℕ) =
        -(d + k + room S n : ℕ) - (room S 1 : ℕ) := by
      omega
    rw [fraction_of_ne hn, fraction_of_ne hone, fraction_of_ne hn]
    show roundWithAccuracy S .positive (n * 2 ^ room S n * (1 * 2 ^ room S 1))
      (-(d + room S n : ℕ) + -(k + room S 1 : ℕ)) .exact = _
    rw [Nat.one_mul, hexponent]
    exact roundWithAccuracy_zeros (log2_mul_room hn hfit) hpos (h.minExponent_le n) (room S 1)

/-! ### Bits -/

/-- The leading bit of a full mantissa goes without saying. -/
theorem toNat_implicit (hm : m.log2 = S.mantissaBitsWithoutImplicit) (hpos : m ≠ 0) :
    (1#1 ++ BitVec.ofNat S.mantissaBitsWithoutImplicit m).toNat = m := by
  obtain ⟨hlow, hhigh⟩ := (Nat.log2_eq_iff hpos).1 hm
  have hmod := Nat.mod_lt m (Nat.two_pow_pos S.mantissaBitsWithoutImplicit)
  have hrest : m % 2 ^ S.mantissaBitsWithoutImplicit = m - 2 ^ S.mantissaBitsWithoutImplicit := by
    rw [Nat.mod_eq_sub_mod hlow, Nat.mod_eq_of_lt]
    rw [Nat.pow_succ] at hhigh
    omega
  have hbits : (BitVec.ofNat S.mantissaBitsWithoutImplicit m).toNat =
      m % 2 ^ S.mantissaBitsWithoutImplicit := BitVec.toNat_ofNat ..
  rw [BitVec.toNat_append, hbits, ← Nat.shiftLeft_add_eq_or_of_lt hmod, hrest, Nat.shiftLeft_eq]
  show 1 * 2 ^ S.mantissaBitsWithoutImplicit + _ = m
  omega

theorem unpack_pack_full (hm : m.log2 = S.mantissaBitsWithoutImplicit) (hpos : 0 < m)
    (hlow : S.minExponent ≤ e)
    (hhigh : e + S.mantissaBitsWithoutImplicit ≤ S.exponentBias) :
    unpack S (pack S (.finite s m e hpos)) = .finite s m e hpos := by
  let b := (e + S.exponentBias + S.mantissaBitsWithoutImplicit).toNat
  have hmin := minExponent_eq S
  have hcapacity := two_pow_exponentBits S
  have hb : (b : ℤ) = e + S.exponentBias + S.mantissaBitsWithoutImplicit :=
    Int.toNat_of_nonneg (by omega)
  have hbits : (BitVec.ofNat S.exponentBits b).toNat = b := by
    rw [BitVec.toNat_ofNat, Nat.mod_eq_of_lt (by omega)]
  -- The exponent is neither that of the infinities nor that of zero.
  have hones : BitVec.ofNat S.exponentBits b ≠ -1#_ := by
    intro h
    have hall := congrArg BitVec.toNat h
    rw [hbits, BitVec.neg_one_eq_allOnes, BitVec.toNat_allOnes] at hall
    omega
  have hzero : BitVec.ofNat S.exponentBits b ≠ 0#_ := by
    intro h
    have hnone := congrArg BitVec.toNat h
    rw [hbits, BitVec.toNat_zero] at hnone
    omega
  have hpack : pack S (.finite s m e hpos) = packComponents S s (.ofNat _ b) (.ofNat _ m) := by
    show (if 2 ^ S.exponentBits ≤ b + 1 then _ else
      if m.log2 + 1 = S.mantissaBits then _ else _) = _
    rw [if_neg (by omega), if_pos (by rw [hm, Format.mantissaBits, Nat.add_comm])]
  have hexponent : (b : ℤ) - (S.exponentBias + S.mantissaBitsWithoutImplicit) = e := by omega
  rw [hpack, unpack]
  simp only [unpackMantissa_packComponents, unpackExponent_packComponents,
    unpackSign_packComponents, Sign.ofBitVec_toBitVec, hones, hzero, if_false, hbits,
    toNat_implicit hm hpos.ne', hexponent]

/-- The bits of a fraction are read back as that fraction. -/
theorem unpack_pack (h : Holds S d) (hfit : n < 2 ^ S.mantissaBits) :
    unpack S (pack S (fraction S n d)) = fraction S n d := by
  by_cases hn : n = 0
  · subst hn
    rw [fraction_zero]
    exact unpack_packedZero
  · have hhigh := h.high
    rw [fraction_of_ne hn]
    exact unpack_pack_full (log2_mul_room hn hfit) _ (h.minExponent_le n) (by omega)

theorem Holds.zero (h : Holds S d) : Holds S 0 := by
  have hlow := h.low
  exact ⟨by omega, h.high⟩

/-- A number that fits into the mantissa, converted and written down. -/
theorem unpack_pack_ofNat (h : Holds S 0) (hfit : n < 2 ^ S.mantissaBits) :
    unpack S (pack S (UnpackedFloat.ofNat S n)) = fraction S n 0 := by
  rw [ofNat_eq h hfit, unpack_pack h hfit]

/-- A number that fits into the mantissa, scaled and written down. -/
theorem unpack_pack_mul (h : Holds S d) (hfit : n < 2 ^ S.mantissaBits) :
    unpack S (pack S (mul S (fraction S n 0) (fraction S 1 d))) = fraction S n d := by
  have hscaled := h
  rw [← Nat.zero_add d] at hscaled
  rw [mul_eq hscaled hfit, Nat.zero_add, unpack_pack h hfit]

/-! ### Values -/

theorem value?_fraction (S : Format) (n d : ℕ) :
    value? (fraction S n d) = some ((n : ℚ) / 2 ^ d) := by
  by_cases hn : n = 0
  · subst hn
    rw [fraction_zero, Nat.cast_zero, zero_div]
    rfl
  · have hexponent : (-(d + room S n : ℕ) : ℤ) = -(d : ℤ) + -(room S n : ℤ) := by omega
    have htwo : (2 : ℚ) ≠ 0 := two_ne_zero
    rw [fraction_of_ne hn, value?, hexponent, zpow_add₀ htwo, zpow_neg, zpow_neg]
    simp only [Sign.apply, zpow_natCast]
    push_cast
    field_simp

end Philox.Fraction
