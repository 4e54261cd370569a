import Mathlib.Algebra.Group.Nat.Defs
import Philox.Counter

/-! What the halves of a number are.

`toNat_high`, `toNat_low` and `toNat_join` say it in numbers, and `toNat_mul` that no
part of a product is lost. -/
namespace Philox.Word

theorem toNat_high (x : UInt64) : (high x).toNat = x.toNat / 2 ^ 32 := by
  have := x.toNat_lt
  simp only [high, UInt64.toNat_toUInt32, UInt64.toNat_shiftRight, Nat.shiftRight_eq_div_pow,
    UInt64.reduceToNat, Nat.reduceMod, Nat.reducePow]
  omega

theorem toNat_low (x : UInt64) : (low x).toNat = x.toNat % 2 ^ 32 := by
  simp [low]

theorem toNat_join (lo hi : UInt32) : (join lo hi).toNat = lo.toNat + 2 ^ 32 * hi.toNat := by
  have hl := lo.toNat_lt
  have hh := hi.toNat_lt
  have hs : (hi.toUInt64 <<< 32).toNat = hi.toNat <<< 32 := by
    simp only [UInt64.toNat_shiftLeft, UInt32.toNat_toUInt64, UInt64.reduceToNat,
      Nat.shiftLeft_eq, Nat.reduceMod, Nat.reducePow]
    omega
  rw [join, UInt64.toNat_or, hs, UInt32.toNat_toUInt64, ← Nat.shiftLeft_add_eq_or_of_lt hl,
    Nat.shiftLeft_eq]
  omega

@[simp] theorem low_join (lo hi : UInt32) : low (join lo hi) = lo := by
  apply UInt32.toNat_inj.1
  have hl := lo.toNat_lt
  rw [toNat_low, toNat_join]
  omega

@[simp] theorem high_join (lo hi : UInt32) : high (join lo hi) = hi := by
  apply UInt32.toNat_inj.1
  have hl := lo.toNat_lt
  rw [toNat_high, toNat_join]
  omega

@[simp] theorem join_low_high (x : UInt64) : join (low x) (high x) = x := by
  apply UInt64.toNat_inj.1
  rw [toNat_join, toNat_low, toNat_high]
  omega

/-- The two halves together are the product. -/
theorem toNat_mul (a b : UInt32) :
    (mul a b).low.toNat + 2 ^ 32 * (mul a b).high.toNat = a.toNat * b.toNat := by
  have hb : a.toNat * b.toNat ≤ (2 ^ 32 - 1) * (2 ^ 32 - 1) :=
    Nat.mul_le_mul (Nat.le_sub_one_of_lt a.toNat_lt) (Nat.le_sub_one_of_lt b.toNat_lt)
  simp only [mul, toNat_low, toNat_high, UInt64.toNat_mul, UInt32.toNat_toUInt64]
  omega

end Philox.Word
