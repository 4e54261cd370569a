import Philox.Proofs.Fraction
import Philox.Proofs.Word
import Philox.Sampler

/-! What the sampled reals are, as numbers.

A float is read as the rational number it stands for (`number?`). The bits that a real is
made of are just as many as its format holds, and they are scaled by a power of two, so each
step from the words to the real is exact (`Uniform.unpack_single`, `Uniform.unpack_double`).
What follows from this does not depend on the format: the leading bits of a number, read as a
fraction, lie in `[0, 1)`, keep the order of the numbers and are met by equally many of them
(`Spreads.of_exact`). -/
namespace Philox
open Float.Model (Format UnpackedFloat)

/-- Numbers that are kept as floats. -/
class Floating (β : Type) where
  unpack : β → UnpackedFloat

instance : Floating Float32 := ⟨fun x => x.toModel.unpack⟩

instance : Floating Float := ⟨fun x => x.toModel.unpack⟩

/-- The number that a float stands for, if it stands for one. -/
def number? {β : Type} [Floating β] (x : β) : Option ℚ := Fraction.value? (Floating.unpack x)

/-! ### Leading bits -/

section

variable {α β : Type} [Floating β] {make : α → β} {number : α → ℕ} {bits spare k : ℕ}

/-- `make` takes the leading bits of a number of `bits + spare` bits for a fraction: exactly,
inside `[0, 1)`, in order, and each fraction from as many numbers as the spare bits allow. -/
structure Spreads (make : α → β) (number : α → ℕ) (bits spare : ℕ) : Prop where
  exact (a : α) : number? (make a) = some (((number a / 2 ^ spare : ℕ) : ℚ) / 2 ^ bits)
  bounds (a : α) (q : ℚ) : number? (make a) = some q → 0 ≤ q ∧ q ≤ 1 - 1 / 2 ^ bits ∧ q < 1
  mono (a b : α) (q r : ℚ) : number a ≤ number b →
    number? (make a) = some q → number? (make b) = some r → q ≤ r
  card (k : ℕ) : k < 2 ^ bits →
    Nat.card {a // number? (make a) = some ((k : ℚ) / 2 ^ bits)} = 2 ^ spare

/-- Numbers with the same leading bits differ in the spare ones alone. -/
theorem card_leading (h : Set.BijOn number Set.univ (Set.Iio (2 ^ (bits + spare))))
    (hk : k < 2 ^ bits) : Nat.card {a // number a / 2 ^ spare = k} = 2 ^ spare := by
  have hpos := Nat.two_pow_pos spare
  let rest (a : {a // number a / 2 ^ spare = k}) : Fin (2 ^ spare) :=
    ⟨number a % 2 ^ spare, Nat.mod_lt _ hpos⟩
  have hinj : Function.Injective rest := by
    intro a b hab
    have hrest : number a % 2 ^ spare = number b % 2 ^ spare := congrArg Fin.val hab
    have hnumber : number a = number b := by
      rw [← Nat.div_add_mod (number a) (2 ^ spare), ← Nat.div_add_mod (number b) (2 ^ spare),
        a.2, b.2, hrest]
    exact Subtype.ext (h.injOn (Set.mem_univ _) (Set.mem_univ _) hnumber)
  have hsurj : Function.Surjective rest := by
    intro i
    have hlt : 2 ^ spare * k + i < 2 ^ (bits + spare) := by
      have hnext : 2 ^ spare * (k + 1) ≤ 2 ^ spare * 2 ^ bits := Nat.mul_le_mul_left _ hk
      rw [Nat.mul_succ] at hnext
      rw [Nat.pow_add, Nat.mul_comm (2 ^ bits)]
      omega
    obtain ⟨a, -, ha⟩ := h.surjOn (Set.mem_Iio.2 hlt)
    have hlead : number a / 2 ^ spare = k := by
      rw [ha, Nat.mul_add_div hpos, Nat.div_eq_of_lt i.isLt, Nat.add_zero]
    refine ⟨⟨a, hlead⟩, Fin.ext ?_⟩
    show number a % 2 ^ spare = i
    rw [ha, Nat.mul_add_mod, Nat.mod_eq_of_lt i.isLt]
  rw [Nat.card_eq_of_bijective rest ⟨hinj, hsurj⟩, Nat.card_fin]

theorem Spreads.of_exact (h : Set.BijOn number Set.univ (Set.Iio (2 ^ (bits + spare))))
    (exact : ∀ a, number? (make a) = some (((number a / 2 ^ spare : ℕ) : ℚ) / 2 ^ bits)) :
    Spreads make number bits spare := by
  have hpos : (0 : ℚ) < 2 ^ bits := pow_pos two_pos bits
  refine ⟨exact, ?_, ?_, ?_⟩
  · intro a q hq
    obtain rfl := Option.some_inj.1 ((exact a).symm.trans hq)
    have hlead : number a / 2 ^ spare + 1 ≤ 2 ^ bits := by
      rw [Nat.succ_le_iff, Nat.div_lt_iff_lt_mul (Nat.two_pow_pos spare), ← Nat.pow_add]
      exact h.mapsTo (Set.mem_univ a)
    have hcast : ((number a / 2 ^ spare : ℕ) : ℚ) + 1 ≤ 2 ^ bits := by exact_mod_cast hlead
    have hle : ((number a / 2 ^ spare : ℕ) : ℚ) / 2 ^ bits ≤ 1 - 1 / 2 ^ bits := by
      rw [le_sub_iff_add_le, ← add_div, div_le_one hpos]
      exact hcast
    exact ⟨by positivity, hle, hle.trans_lt (sub_lt_self 1 (by positivity))⟩
  · intro a b q r hab hq hr
    obtain rfl := Option.some_inj.1 ((exact a).symm.trans hq)
    obtain rfl := Option.some_inj.1 ((exact b).symm.trans hr)
    have hlead : number a / 2 ^ spare ≤ number b / 2 ^ spare := Nat.div_le_div_right hab
    exact div_le_div_of_nonneg_right (Nat.cast_le.2 hlead) hpos.le
  · intro k hk
    have hiff (a : α) :
        number? (make a) = some ((k : ℚ) / 2 ^ bits) ↔ number a / 2 ^ spare = k := by
      rw [exact, Option.some_inj, div_left_inj' hpos.ne', Nat.cast_inj]
    simp only [hiff]
    exact card_leading h hk

end

/-! ### Singles and doubles -/

namespace Uniform
open Fraction (Holds fraction)

theorem holds_single : Holds .binary32 24 := ⟨by decide, by decide⟩

theorem holds_double : Holds .binary64 53 := ⟨by decide, by decide⟩

theorem unpack_toFloat32 {w : UInt32} (h : w.toNat < 2 ^ 24) :
    Floating.unpack w.toFloat32 = fraction .binary32 w.toNat 0 :=
  Fraction.unpack_pack_ofNat holds_single.zero h

theorem unpack_toFloat {x : UInt64} (h : x.toNat < 2 ^ 53) :
    Floating.unpack x.toFloat = fraction .binary64 x.toNat 0 :=
  Fraction.unpack_pack_ofNat holds_double.zero h

theorem unpack_range_single :
    Floating.unpack ((1 : UInt32) <<< 24).toFloat32 =
      .finite .positive (2 ^ 23) 1 (Nat.two_pow_pos 23) := by
  rfl

theorem unpack_range_double :
    Floating.unpack ((1 : UInt64) <<< 53).toFloat =
      .finite .positive (2 ^ 52) 1 (Nat.two_pow_pos 52) := by
  rfl

theorem unpack_scale_single :
    Floating.unpack ((1.0 : Float32) / ((1 : UInt32) <<< 24).toFloat32) =
      fraction .binary32 1 24 := by
  rfl

theorem unpack_scale_double :
    Floating.unpack ((1.0 : Float) / ((1 : UInt64) <<< 53).toFloat) = fraction .binary64 1 53 := by
  rfl

theorem unpack_leading_single (w : UInt32) :
    Floating.unpack (w >>> 8).toFloat32 = fraction .binary32 (w.toNat / 2 ^ 8) 0 := by
  have hlt := w.toNat_lt
  have hlead : (w >>> 8).toNat = w.toNat / 2 ^ 8 := by
    rw [UInt32.toNat_shiftRight, Nat.shiftRight_eq_div_pow]
    rfl
  rw [unpack_toFloat32 (by omega), hlead]

theorem unpack_leading_double (x : UInt64) :
    Floating.unpack (x >>> 11).toFloat = fraction .binary64 (x.toNat / 2 ^ 11) 0 := by
  have hlt := x.toNat_lt
  have hlead : (x >>> 11).toNat = x.toNat / 2 ^ 11 := by
    rw [UInt64.toNat_shiftRight, Nat.shiftRight_eq_div_pow]
    rfl
  rw [unpack_toFloat (by omega), hlead]

/-- The pairs of words are the numbers of twice as many bits. The first word leads. -/
def ofPair (words : UInt32 × UInt32) : ℕ := words.1.toNat * 2 ^ 32 + words.2.toNat

theorem toNat_join_pair (first second : UInt32) :
    (Word.join second first).toNat = ofPair (first, second) := by
  rw [Word.toNat_join, Nat.add_comm, Nat.mul_comm, ofPair]

theorem bijOn_toNat : Set.BijOn UInt32.toNat Set.univ (Set.Iio (2 ^ (24 + 8))) := by
  refine ⟨?_, ?_, ?_⟩
  · intro w _
    exact w.toNat_lt
  · intro v _ w _ hvw
    exact UInt32.toNat_inj.1 hvw
  · intro n hn
    exact ⟨UInt32.ofNat n, Set.mem_univ _, UInt32.toNat_ofNat_of_lt' hn⟩

theorem bijOn_ofPair : Set.BijOn ofPair Set.univ (Set.Iio (2 ^ (53 + 11))) := by
  refine ⟨?_, ?_, ?_⟩
  · rintro ⟨first, second⟩ _
    rw [← toNat_join_pair]
    exact (Word.join second first).toNat_lt
  · rintro ⟨first, second⟩ _ ⟨first', second'⟩ _ h
    rw [← toNat_join_pair, ← toNat_join_pair] at h
    have hjoin := UInt64.toNat_inj.1 h
    have hfirst := congrArg Word.high hjoin
    have hsecond := congrArg Word.low hjoin
    rw [Word.high_join, Word.high_join] at hfirst
    rw [Word.low_join, Word.low_join] at hsecond
    rw [hfirst, hsecond]
  · intro n hn
    refine ⟨(Word.high (.ofNat n), Word.low (.ofNat n)), Set.mem_univ _, ?_⟩
    rw [← toNat_join_pair, Word.join_low_high]
    exact UInt64.toNat_ofNat_of_lt' hn

/-- A single is the fraction of the leading bits of its word. -/
theorem unpack_single (w : UInt32) :
    Floating.unpack (single w) = fraction .binary32 (w.toNat / 2 ^ 8) 24 := by
  have hlt := w.toNat_lt
  have hfit : w.toNat / 2 ^ 8 < 2 ^ 24 := by omega
  show UnpackedFloat.unpack _ (UnpackedFloat.pack _ (UnpackedFloat.mul _
    (Floating.unpack (w >>> 8).toFloat32)
    (Floating.unpack ((1.0 : Float32) / ((1 : UInt32) <<< 24).toFloat32)))) = _
  rw [unpack_leading_single, unpack_scale_single]
  exact Fraction.unpack_pack_mul holds_single hfit

/-- A double is the fraction of the leading bits of its two words. -/
theorem unpack_double (first second : UInt32) :
    Floating.unpack (double first second) =
      fraction .binary64 (ofPair (first, second) / 2 ^ 11) 53 := by
  have hlt := (Word.join second first).toNat_lt
  have hfit : ofPair (first, second) / 2 ^ 11 < 2 ^ 53 := by
    rw [← toNat_join_pair]
    omega
  show UnpackedFloat.unpack _ (UnpackedFloat.pack _ (UnpackedFloat.mul _
    (Floating.unpack (Word.join second first >>> 11).toFloat)
    (Floating.unpack ((1.0 : Float) / ((1 : UInt64) <<< 53).toFloat)))) = _
  rw [unpack_leading_double, toNat_join_pair, unpack_scale_double]
  exact Fraction.unpack_pack_mul holds_double hfit

/-- **Real sampling theorem.** No step from the words to a real rounds: the leading bits are
converted as they are, the scale is a power of two, and the product is the fraction of the two.
So the reals stay below one, keep the order of the words and are all equally likely. -/
theorem reals_exact :
    ((∀ w : UInt32, number? (w >>> 8).toFloat32 = some ((w.toNat / 2 ^ 8 : ℕ) : ℚ)) ∧
      number? ((1 : UInt32) <<< 24).toFloat32 = some (2 ^ 24) ∧
      number? ((1.0 : Float32) / ((1 : UInt32) <<< 24).toFloat32) = some (1 / 2 ^ 24) ∧
      Spreads (fun w => Sampler.single.ofWords #v[w]) UInt32.toNat 24 8) ∧
    (∀ first second : UInt32, number? (Word.join second first >>> 11).toFloat =
        some ((ofPair (first, second) / 2 ^ 11 : ℕ) : ℚ)) ∧
      number? ((1 : UInt64) <<< 53).toFloat = some (2 ^ 53) ∧
      number? ((1.0 : Float) / ((1 : UInt64) <<< 53).toFloat) = some (1 / 2 ^ 53) ∧
      Spreads (fun words => Sampler.double.ofWords #v[words.1, words.2]) ofPair 53 11 := by
  refine ⟨⟨?_, ?_, ?_, ?_⟩, ?_, ?_, ?_, ?_⟩
  · intro w
    rw [number?, unpack_leading_single, Fraction.value?_fraction, pow_zero, div_one]
  · rw [number?, unpack_range_single, Fraction.value?]
    norm_num [UnpackedFloat.Sign.apply]
  · rw [number?, unpack_scale_single, Fraction.value?_fraction, Nat.cast_one]
  · refine Spreads.of_exact bijOn_toNat ?_
    intro w
    show number? (single w) = _
    rw [number?, unpack_single, Fraction.value?_fraction]
  · intro first second
    rw [number?, unpack_leading_double, toNat_join_pair, Fraction.value?_fraction, pow_zero,
      div_one]
  · rw [number?, unpack_range_double, Fraction.value?]
    norm_num [UnpackedFloat.Sign.apply]
  · rw [number?, unpack_scale_double, Fraction.value?_fraction, Nat.cast_one]
  · refine Spreads.of_exact bijOn_ofPair ?_
    rintro ⟨first, second⟩
    show number? (double first second) = _
    rw [number?, unpack_double, Fraction.value?_fraction]

end Uniform

end Philox
