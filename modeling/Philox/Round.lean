import Philox.Counter

/-! The Philox network.

One round multiplies the even counter words by two odd constants, keeps both halves
of each product, and mixes the high halves with the odd words and the key. The
rounds of a network run one after another, and between two of them each key word
grows by its own constant. -/
namespace Philox
open Storage

/-- The golden ratio and the square root of three less one, as fractions of 2^64. -/
def weyl0 : UInt64 := 0x9E3779B97F4A7C15
def weyl1 : UInt64 := 0xBB67AE8584CAA73B

namespace Key

variable {K : Type} [Storage K 2]

/-- What a key word grows by between rounds. -/
def increment0 : UInt32 := Word.high weyl0
def increment1 : UInt32 := Word.high weyl1

def bump (k : K) : K := ofWords #v[get k 0 + increment0, get k 1 + increment1]

@[simp] theorem get_bump_zero (k : K) : get (bump k) 0 = get k 0 + increment0 := get_ofWords ..

@[simp] theorem get_bump_one (k : K) : get (bump k) 1 = get k 1 + increment1 := get_ofWords ..

/-- The key after each of `n` bumps. -/
def bumps : Nat → K → List K
  | 0, _ => []
  | n + 1, k => bump k :: bumps n (bump k)

end Key

namespace Round

variable {C K : Type} [Storage C 4] [Storage K 2]

/-- What the even counter words are multiplied by. -/
def multiplier0 : UInt32 := 0xD2511F53
def multiplier1 : UInt32 := 0xCD9E8D57

/-- One round. -/
def apply (c : C) (k : K) : C :=
  let p := Word.mul (get c 0) multiplier0
  let q := Word.mul (get c 2) multiplier1
  ofWords #v[q.high ^^^ get c 1 ^^^ get k 0, q.low, p.high ^^^ get c 3 ^^^ get k 1, p.low]

@[simp] theorem get_apply_zero (c : C) (k : K) :
    get (apply c k) 0 = (Word.mul (get c 2) multiplier1).high ^^^ get c 1 ^^^ get k 0 :=
  get_ofWords ..

@[simp] theorem get_apply_one (c : C) (k : K) :
    get (apply c k) 1 = (Word.mul (get c 2) multiplier1).low := get_ofWords ..

@[simp] theorem get_apply_two (c : C) (k : K) :
    get (apply c k) 2 = (Word.mul (get c 0) multiplier0).high ^^^ get c 3 ^^^ get k 1 :=
  get_ofWords ..

@[simp] theorem get_apply_three (c : C) (k : K) :
    get (apply c k) 3 = (Word.mul (get c 0) multiplier0).low := get_ofWords ..

/-- `n` further rounds after one that used the key `k`. -/
def further : Nat → C → K → C
  | 0, c, _ => c
  | n + 1, c, k => further n (apply c (Key.bump k)) (Key.bump k)

/-- A network of `n` rounds. The first round is always run. -/
def network (n : Nat) (c : C) (k : K) : C := further (n - 1) (apply c k) k

end Round
end Philox
