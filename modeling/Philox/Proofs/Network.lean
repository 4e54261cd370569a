import Philox.Proofs.Word
import Philox.Round

/-! The network is a permutation of the counters.

A round loses nothing. Its multipliers are odd, so the low half of a product gives back
the word that was multiplied, and with it the high half that was mixed into another
word (`undo_apply`, `apply_undo`). The rounds of a network are undone from the last to
the first, each under the key it was made with (`undoNetwork_network`). -/
namespace Philox.Round
open Storage

variable {C K : Type} [Storage C 4] [Storage K 2]

/-! ### One round -/

/-- The inverses of the multipliers modulo 2^32. -/
def inverse0 : UInt32 := 0x991A7CDB
def inverse1 : UInt32 := 0x6D7CAE67

theorem mul_low (a b : UInt32) : (Word.mul a b).low = a * b := by
  apply UInt32.toNat_inj.1
  have h := Word.toNat_mul a b
  have hlt := (Word.mul a b).low.toNat_lt
  rw [UInt32.toNat_mul]
  omega

theorem multiplier0_mul_inverse0 : multiplier0 * inverse0 = 1 := by decide

theorem multiplier1_mul_inverse1 : multiplier1 * inverse1 = 1 := by decide

/-- The low half of a product with an invertible word gives the other word back. -/
theorem mul_low_cancel {m i : UInt32} (h : m * i = 1) (a : UInt32) :
    (Word.mul a m).low * i = a := by
  rw [mul_low, UInt32.mul_assoc, h, UInt32.mul_one]

theorem low_mul_cancel {m i : UInt32} (h : m * i = 1) (a : UInt32) :
    (Word.mul (a * i) m).low = a := by
  rw [mul_low, UInt32.mul_assoc, UInt32.mul_comm i, h, UInt32.mul_one]

/-- Mixing a word with the same two words again takes them out. -/
theorem xor_cancel (h w k : UInt32) : h ^^^ (h ^^^ w ^^^ k) ^^^ k = w := by
  rw [UInt32.xor_assoc h w k, ← UInt32.xor_assoc h h, UInt32.xor_self, UInt32.zero_xor,
    UInt32.xor_assoc, UInt32.xor_self, UInt32.xor_zero]

/-- The counter that a round with the key `k` makes into `c`. -/
def undo (c : C) (k : K) : C :=
  let x := get c 3 * inverse0
  let z := get c 1 * inverse1
  ofWords #v[x, (Word.mul z multiplier1).high ^^^ get c 0 ^^^ get k 0, z,
    (Word.mul x multiplier0).high ^^^ get c 2 ^^^ get k 1]

@[simp] theorem get_undo_zero (c : C) (k : K) : get (undo c k) 0 = get c 3 * inverse0 :=
  get_ofWords ..

@[simp] theorem get_undo_one (c : C) (k : K) :
    get (undo c k) 1 =
      (Word.mul (get c 1 * inverse1) multiplier1).high ^^^ get c 0 ^^^ get k 0 :=
  get_ofWords ..

@[simp] theorem get_undo_two (c : C) (k : K) : get (undo c k) 2 = get c 1 * inverse1 :=
  get_ofWords ..

@[simp] theorem get_undo_three (c : C) (k : K) :
    get (undo c k) 3 =
      (Word.mul (get c 3 * inverse0) multiplier0).high ^^^ get c 2 ^^^ get k 1 :=
  get_ofWords ..

theorem undo_apply (c : C) (k : K) : undo (apply c k) k = c := by
  apply Storage.ext_four
  · rw [get_undo_zero, get_apply_three, mul_low_cancel multiplier0_mul_inverse0]
  · rw [get_undo_one, get_apply_one, mul_low_cancel multiplier1_mul_inverse1, get_apply_zero,
      xor_cancel]
  · rw [get_undo_two, get_apply_one, mul_low_cancel multiplier1_mul_inverse1]
  · rw [get_undo_three, get_apply_three, mul_low_cancel multiplier0_mul_inverse0, get_apply_two,
      xor_cancel]

theorem apply_undo (c : C) (k : K) : apply (undo c k) k = c := by
  apply Storage.ext_four
  · rw [get_apply_zero, get_undo_two, get_undo_one, xor_cancel]
  · rw [get_apply_one, get_undo_two, low_mul_cancel multiplier1_mul_inverse1]
  · rw [get_apply_two, get_undo_zero, get_undo_three, xor_cancel]
  · rw [get_apply_three, get_undo_zero, low_mul_cancel multiplier0_mul_inverse0]

/-! ### All rounds -/

/-- Undoes the `n` rounds after one that used the key `k`, the last of them first. -/
def undoFurther : Nat → C → K → C
  | 0, c, _ => c
  | n + 1, c, k => undo (undoFurther n c (Key.bump k)) (Key.bump k)

def undoNetwork (n : Nat) (c : C) (k : K) : C := undo (undoFurther (n - 1) c k) k

theorem undoFurther_further (n : Nat) (c : C) (k : K) : undoFurther n (further n c k) k = c := by
  induction n generalizing c k with
  | zero => rfl
  | succ n ih => rw [further, undoFurther, ih, undo_apply]

theorem further_undoFurther (n : Nat) (c : C) (k : K) : further n (undoFurther n c k) k = c := by
  induction n generalizing c k with
  | zero => rfl
  | succ n ih => rw [undoFurther, further, apply_undo, ih]

theorem undoNetwork_network (n : Nat) (c : C) (k : K) : undoNetwork n (network n c k) k = c := by
  rw [network, undoNetwork, undoFurther_further, undo_apply]

theorem network_undoNetwork (n : Nat) (c : C) (k : K) : network n (undoNetwork n c k) k = c := by
  rw [undoNetwork, network, apply_undo, further_undoFurther]

/-- Under one key, different counters have different blocks. -/
theorem network_inj {n : Nat} {c d : C} {k : K} (h : network n c k = network n d k) : c = d := by
  rw [← undoNetwork_network n c k, h, undoNetwork_network]

end Philox.Round
