import Philox.Layout

/-! Words, and the counters made of them.

Every number the generator stores is a 32-bit *word*; positions, seeds and
subsequences are 64-bit numbers made of two words. `high`, `low` and `join` pass
between the two, and `mul` keeps both halves of a product.

A counter is a 128-bit number, its least significant word first. The lower half is
the *position* of a block within a subsequence, the upper half the number of the
*subsequence*. `advance` ripples a carry from word to word, `skip` adds to the
lower half and carries into the upper one, and `skipSubsequence` adds to the upper
half alone. -/
namespace Philox

/-! ### Words -/

namespace Word

def high (x : UInt64) : UInt32 := (x >>> 32).toUInt32

def low (x : UInt64) : UInt32 := x.toUInt32

def join (lo hi : UInt32) : UInt64 := (hi.toUInt64 <<< 32) ||| lo.toUInt64

/-- Both halves of the product of two words. -/
structure Product where
  high : UInt32
  low : UInt32
  deriving DecidableEq

def mul (a b : UInt32) : Product :=
  let p := a.toUInt64 * b.toUInt64
  ⟨high p, low p⟩

end Word

/-! ### Counters -/

namespace Counter
open Storage

variable {C : Type} [Storage C 4]

def position (c : C) : UInt64 := Word.join (get c 0) (get c 1)

def subsequence (c : C) : UInt64 := Word.join (get c 2) (get c 3)

def setPosition (c : C) (x : UInt64) : C := set (set c 0 (Word.low x)) 1 (Word.high x)

def setSubsequence (c : C) (x : UInt64) : C := set (set c 2 (Word.low x)) 3 (Word.high x)

/-- Adds one to the first of the words at `indices`; a word that comes round to
zero carries into the next. -/
def carry (c : C) : List (Fin 4) → C
  | [] => c
  | i :: rest =>
    let word := get c i + 1
    let c := set c i word
    if word = 0 then carry c rest else c

def advance (c : C) : C := carry c [0, 1, 2, 3]

/-- Moves `n` blocks ahead. The sum of the lower halves wrapped exactly when it is
less than what was added. -/
def skip (c : C) (n : UInt64) : C :=
  let sum := position c + n
  let moved := setPosition c sum
  if sum < n then setSubsequence moved (subsequence moved + 1) else moved

def skipSubsequence (c : C) (n : UInt64) : C := setSubsequence c (subsequence c + n)

end Counter
end Philox
