import Philox.Proofs.Word
import Philox.State

/-! What a counter counts.

A counter is its value: `ofValue` makes the counter of any number modulo 2^128, and
every counter is made so (`ofValue_value`). `advance_eq`, `skip_eq` and
`value_skipSubsequence` say that the three ways of moving a counter, each with a carry
of its own, add to the one number. -/
namespace Philox.Counter
open Storage

variable {C : Type} [Storage C 4]

/-- The counter as a number. -/
def value (c : C) : Nat :=
  (get c 0).toNat + 2 ^ 32 * (get c 1).toNat + 2 ^ 64 * (get c 2).toNat +
    2 ^ 96 * (get c 3).toNat

/-- The counter whose value is `n` modulo 2^128. -/
def ofValue (n : Nat) : C :=
  ofWords #v[.ofNat n, .ofNat (n / 2 ^ 32), .ofNat (n / 2 ^ 64), .ofNat (n / 2 ^ 96)]

/-! ### The two halves -/

theorem value_eq (c : C) : value c = (position c).toNat + 2 ^ 64 * (subsequence c).toNat := by
  rw [value, position, subsequence, Word.toNat_join, Word.toNat_join]
  omega

theorem value_lt (c : C) : value c < 2 ^ 128 := by
  have hp := (position c).toNat_lt
  have hs := (subsequence c).toNat_lt
  rw [value_eq]
  omega

@[simp] theorem position_setPosition (c : C) (x : UInt64) : position (setPosition c x) = x := by
  simp [position, setPosition, get_set]

@[simp] theorem subsequence_setPosition (c : C) (x : UInt64) :
    subsequence (setPosition c x) = subsequence c := by
  simp [subsequence, setPosition, get_set]

@[simp] theorem position_setSubsequence (c : C) (x : UInt64) :
    position (setSubsequence c x) = position c := by
  simp [position, setSubsequence, get_set]

@[simp] theorem subsequence_setSubsequence (c : C) (x : UInt64) :
    subsequence (setSubsequence c x) = x := by
  simp [subsequence, setSubsequence, get_set]

/-! ### Counters and values -/

theorem toNat_get_ofValue (n : Nat) (i : Fin 4) :
    (get (ofValue n : C) i).toNat = n / 2 ^ (32 * i.val) % 2 ^ 32 := by
  rw [ofValue, get_ofWords]
  rcases index_cases i with rfl | rfl | rfl | rfl
  · exact (UInt32.toNat_ofNat' ..).trans (congrArg (· % 2 ^ 32) (Nat.div_one n).symm)
  · exact UInt32.toNat_ofNat' ..
  · exact UInt32.toNat_ofNat' ..
  · exact UInt32.toNat_ofNat' ..

theorem value_ofValue (n : Nat) : value (ofValue n : C) = n % 2 ^ 128 := by
  simp only [value, toNat_get_ofValue, Fin.val_zero, Fin.val_one, Fin.val_two]
  show n / 2 ^ 0 % 2 ^ 32 + 2 ^ 32 * (n / 2 ^ 32 % 2 ^ 32) + 2 ^ 64 * (n / 2 ^ 64 % 2 ^ 32) +
    2 ^ 96 * (n / 2 ^ 96 % 2 ^ 32) = n % 2 ^ 128
  omega

theorem value_inj {c d : C} (h : value c = value d) : c = d := by
  have hp := (position c).toNat_lt
  have hq := (position d).toNat_lt
  rw [value_eq, value_eq] at h
  have hposition : position c = position d := UInt64.toNat_inj.1 (by omega)
  have hsubsequence : subsequence c = subsequence d := UInt64.toNat_inj.1 (by omega)
  apply Storage.ext_four
  · simpa [position] using congrArg Word.low hposition
  · simpa [position] using congrArg Word.high hposition
  · simpa [subsequence] using congrArg Word.low hsubsequence
  · simpa [subsequence] using congrArg Word.high hsubsequence

@[simp] theorem ofValue_value (c : C) : ofValue (value c) = c := by
  apply value_inj
  rw [value_ofValue, Nat.mod_eq_of_lt (value_lt c)]

/-- Two numbers name one counter exactly when they agree modulo 2^128. -/
theorem ofValue_eq_iff (m n : Nat) :
    (ofValue m : C) = ofValue n ↔ m % 2 ^ 128 = n % 2 ^ 128 := by
  refine ⟨?_, ?_⟩
  · intro h
    rw [← value_ofValue (C := C) m, h, value_ofValue]
  · intro h
    apply value_inj
    rw [value_ofValue, value_ofValue, h]

/-! ### Moving -/

theorem value_set (c : C) (i : Fin 4) (w : UInt32) :
    value (set c i w) + 2 ^ (32 * i.val) * (get c i).toNat =
      value c + 2 ^ (32 * i.val) * w.toNat := by
  have hval : (0 : Fin 4).val = 0 ∧ (1 : Fin 4).val = 1 ∧ (2 : Fin 4).val = 2 ∧
      (3 : Fin 4).val = 3 := ⟨rfl, rfl, rfl, rfl⟩
  rcases index_cases i with rfl | rfl | rfl | rfl <;>
    simp +decide only [value, get_set, hval, if_true, if_false] <;>
    omega

/-- One word of a carry, if what comes out of it goes to the words after. -/
theorem value_carry_cons (c : C) (i : Fin 4) (rest : List (Fin 4))
    (h : ∀ d : C, value (carry d rest) = (value d + 2 ^ (32 * (i.val + 1))) % 2 ^ 128) :
    value (carry c (i :: rest)) = (value c + 2 ^ (32 * i.val)) % 2 ^ 128 := by
  have hset := value_set c i (get c i + 1)
  have hlt := value_lt (set c i (get c i + 1))
  have hget := (get c i).toNat_lt
  have hadd : (get c i + 1).toNat = ((get c i).toNat + 1) % 2 ^ 32 := UInt32.toNat_add ..
  by_cases hw : get c i + 1 = 0
  · have hfull : (get c i).toNat + 1 = 2 ^ 32 := by
      rw [hw, UInt32.toNat_zero] at hadd
      omega
    have hpow : 2 ^ (32 * (i.val + 1)) = 2 ^ (32 * i.val) * (get c i).toNat + 2 ^ (32 * i.val) := by
      rw [← Nat.mul_succ, Nat.succ_eq_add_one, hfull, ← Nat.pow_add, ← Nat.mul_succ]
    rw [hw, UInt32.toNat_zero, Nat.mul_zero, Nat.add_zero] at hset
    simp only [carry, hw, if_true]
    rw [h, hpow, ← Nat.add_assoc, hset]
  · have hnext : (get c i + 1).toNat = (get c i).toNat + 1 := by
      have hne : (get c i + 1).toNat ≠ 0 := fun h0 => hw (UInt32.toNat_inj.1 h0)
      omega
    rw [hnext, Nat.mul_succ] at hset
    have hmoved : value (set c i (get c i + 1)) = value c + 2 ^ (32 * i.val) := by omega
    simp only [carry, hw, if_false]
    rw [hmoved] at hlt ⊢
    exact (Nat.mod_eq_of_lt hlt).symm

theorem value_advance (c : C) : value (advance c) = (value c + 1) % 2 ^ 128 := by
  apply value_carry_cons c 0
  intro c
  apply value_carry_cons c 1
  intro c
  apply value_carry_cons c 2
  intro c
  apply value_carry_cons c 3
  intro c
  show value c = (value c + 2 ^ 128) % 2 ^ 128
  rw [Nat.add_mod_right, Nat.mod_eq_of_lt (value_lt c)]

theorem value_skip (c : C) (n : UInt64) : value (skip c n) = (value c + n.toNat) % 2 ^ 128 := by
  have hp := (position c).toNat_lt
  have hs := (subsequence c).toNat_lt
  have hn := n.toNat_lt
  have hsum : (position c + n).toNat = ((position c).toNat + n.toNat) % 2 ^ 64 :=
    UInt64.toNat_add ..
  have hone : (subsequence c + 1).toNat = ((subsequence c).toNat + 1) % 2 ^ 64 :=
    UInt64.toNat_add ..
  rw [value_eq c]
  unfold skip
  by_cases hcarry : position c + n < n
  · have hlt := UInt64.lt_iff_toNat_lt.1 hcarry
    simp only [hcarry, if_true, value_eq, position_setSubsequence, subsequence_setSubsequence,
      position_setPosition, subsequence_setPosition, hsum, hone]
    omega
  · have hge := mt UInt64.lt_iff_toNat_lt.2 hcarry
    simp only [hcarry, if_false, value_eq, position_setPosition, subsequence_setPosition, hsum]
    omega

theorem value_skipSubsequence (c : C) (n : UInt64) :
    value (skipSubsequence c n) = (value c + n.toNat * 2 ^ 64) % 2 ^ 128 := by
  have hp := (position c).toNat_lt
  have hs := (subsequence c).toNat_lt
  simp only [value_eq, skipSubsequence, position_setSubsequence, subsequence_setSubsequence,
    UInt64.toNat_add]
  omega

theorem advance_eq (c : C) : advance c = ofValue (value c + 1) :=
  value_inj (by rw [value_advance, value_ofValue])

theorem skip_eq (c : C) (n : UInt64) : skip c n = ofValue (value c + n.toNat) :=
  value_inj (by rw [value_skip, value_ofValue])

theorem skipSubsequence_eq (c : C) (n : UInt64) :
    skipSubsequence c n = ofValue (value c + n.toNat * 2 ^ 64) :=
  value_inj (by rw [value_skipSubsequence, value_ofValue])

@[simp] theorem advance_ofValue (n : Nat) : advance (ofValue n : C) = ofValue (n + 1) := by
  rw [advance_eq, value_ofValue, ofValue_eq_iff]
  omega

@[simp] theorem skip_ofValue (n : Nat) (k : UInt64) :
    skip (ofValue n : C) k = ofValue (n + k.toNat) := by
  rw [skip_eq, value_ofValue, ofValue_eq_iff]
  omega

/-- The words of a counter are those of its position and of its subsequence. -/
theorem ofValue_halves (subsequence position : UInt64) :
    (ofValue (subsequence.toNat * 2 ^ 64 + position.toNat) : C) =
      ofWords #v[Word.low position, Word.high position, Word.low subsequence,
        Word.high subsequence] := by
  have hvalue : value (ofWords #v[Word.low position, Word.high position, Word.low subsequence,
      Word.high subsequence] : C) = position.toNat + 2 ^ 64 * subsequence.toNat := by
    rw [value_eq, Counter.position, Counter.subsequence]
    simp only [get_ofWords]
    show (Word.join (Word.low position) (Word.high position)).toNat +
      2 ^ 64 * (Word.join (Word.low subsequence) (Word.high subsequence)).toNat = _
    rw [Word.join_low_high, Word.join_low_high]
  have hposition := position.toNat_lt
  have hsubsequence := subsequence.toNat_lt
  apply value_inj
  rw [value_ofValue, hvalue]
  omega

theorem zero_eq : (zero : C) = ofValue 0 := by
  apply value_inj
  rw [value_ofValue]
  simp [value, zero, get_ofWords]

end Philox.Counter

namespace Philox.State
open Storage

variable {l : Layout}

/-- Where a block lies among all the blocks of a key. -/
theorem placed_eq (seed subsequence block : UInt64) :
    (placed seed subsequence block : State l) =
      ⟨Counter.ofValue (subsequence.toNat * 2 ^ 64 + block.toNat), keyOf seed⟩ := by
  simp [placed, ofSeed, keyOf, Counter.zero_eq, Counter.skipSubsequence_eq,
    Counter.value_ofValue]

/-- A block is placed by the words of its position, its subsequence and its seed. -/
theorem toParts_placed (seed subsequence block : UInt64) :
    (placed seed subsequence block : State l).toParts =
      (#v[Word.low block, Word.high block, Word.low subsequence, Word.high subsequence],
        #v[Word.low seed, Word.high seed]) := by
  rw [placed_eq, Counter.ofValue_halves]
  exact toParts_ofParts ..

end Philox.State
