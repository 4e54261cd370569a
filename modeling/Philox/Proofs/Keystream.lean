import Philox.Proofs.Counter
import Philox.Proofs.Network

/-! The stream of a key.

A key has 2^128 blocks, one for each counter, and so 2^130 words: `Keystream.block` and
`Keystream.word` number them, and start over after the last. Every engine and every fill
is described by the numbers of what it hands out. No two blocks of a key are the same
(`block_eq_iff`), and the stream does not depend on the layout its counters and keys are
kept in (`block_convert`). -/
namespace Philox

/-! ### Rounds in another layout -/

namespace Storage

variable {σ τ : Type} {n : Nat} [Storage σ n] [Storage τ n]

@[simp] theorem convert_ofWords (v : Vector UInt32 n) : (convert (ofWords v : σ) : τ) = ofWords v := by
  rw [convert, toWords_ofWords]

end Storage

open Storage

section Convert

variable {C D K L : Type} [Storage C 4] [Storage D 4] [Storage K 2] [Storage L 2]

@[simp] theorem Key.bump_convert (k : K) : (bump (convert k) : L) = convert (bump k) := by
  apply Storage.ext_two
  · rw [get_convert, get_bump_zero, get_bump_zero, get_convert]
  · rw [get_convert, get_bump_one, get_bump_one, get_convert]

@[simp] theorem Round.apply_convert (c : C) (k : K) :
    (apply (convert c) (convert k : L) : D) = convert (apply c k) := by
  apply Storage.ext_four
  · simp only [get_convert, get_apply_zero]
  · simp only [get_convert, get_apply_one]
  · simp only [get_convert, get_apply_two]
  · simp only [get_convert, get_apply_three]

theorem Round.further_convert (n : Nat) (c : C) (k : K) :
    (further n (convert c) (convert k : L) : D) = convert (further n c k) := by
  induction n generalizing c k with
  | zero => rfl
  | succ n ih => rw [further, further, Key.bump_convert, apply_convert, ih]

/-- The network computes the same words wherever they are kept. -/
theorem Round.network_convert (n : Nat) (c : C) (k : K) :
    (network n (convert c) (convert k : L) : D) = convert (network n c k) := by
  rw [network, network, apply_convert, further_convert]

@[simp] theorem Counter.ofValue_convert (n : Nat) :
    (convert (ofValue n : C) : D) = ofValue n :=
  convert_ofWords ..

theorem Counter.advance_convert (c : C) : (advance (convert c) : D) = convert (advance c) := by
  have hvalue : value (convert c : D) = value c := by
    simp only [value, get_convert]
  rw [advance_eq, advance_eq, hvalue, ofValue_convert]

end Convert

/-! ### Blocks and words by number -/

namespace Keystream

variable (p : Params) {l : Layout}

/-- Block number `n` of a key, modulo 2^128: what the network makes of the counter `n`. -/
def block (k : l.Key) (n : Nat) : Block :=
  toWords (Round.network p.rounds.toNat (Counter.ofValue n : l.Counter) k)

/-- Word number `i` of a key, modulo 2^130. -/
def word (k : l.Key) (i : Nat) : UInt32 :=
  have h : i % 4 < 4 := Nat.mod_lt i (Nat.succ_pos 3)
  (block p k (i / 4))[i % 4]

theorem block_congr (k : l.Key) {m n : Nat} (h : m % 2 ^ 128 = n % 2 ^ 128) :
    block p k m = block p k n := by
  rw [block, block, (Counter.ofValue_eq_iff m n).2 h]

/-- No two blocks of a key are the same. -/
theorem block_eq_iff (k : l.Key) (m n : Nat) :
    block p k m = block p k n ↔ m % 2 ^ 128 = n % 2 ^ 128 := by
  refine ⟨?_, ?_⟩
  · intro h
    exact (Counter.ofValue_eq_iff m n).1 (Round.network_inj (toWords_inj h))
  · exact block_congr p k

theorem block_of_state (s : State l) : s.block p = block p s.key (Counter.value s.counter) := by
  rw [block, Counter.ofValue_value]
  rfl

theorem word_mod (k : l.Key) (i : Nat) : word p k (i % 2 ^ 130) = word p k i := by
  have hblock : block p k (i % 2 ^ 130 / 4) = block p k (i / 4) := block_congr p k (by omega)
  have hlane : i % 2 ^ 130 % 4 = i % 4 := by omega
  simp only [word, hblock, hlane]

theorem word_congr (k : l.Key) {i j : Nat} (h : i % 2 ^ 130 = j % 2 ^ 130) :
    word p k i = word p k j := by
  rw [← word_mod, h, word_mod]

theorem block_convert (k : l.Key) (m : Layout) (n : Nat) :
    block p (convert k : m.Key) n = block p k n := by
  show toWords (Round.network _ (Counter.ofValue n : m.Counter) (convert k)) =
    toWords (Round.network _ (Counter.ofValue n : l.Counter) k)
  rw [← Counter.ofValue_convert (C := l.Counter), Round.network_convert, toWords_convert]

end Keystream
end Philox
