import Philox.Params
import Philox.Round

/-! The state of a generator: a counter, and the key that a seed becomes.

`State.placed` starts a generator: the seed is its key, the subsequence the upper half
of its counter, and the block the lower half. A state fixes its block of words. -/
namespace Philox
open Storage Text

/-- Four words, in the order they are handed out. -/
abbrev Block := Vector UInt32 4

structure State (l : Layout) where
  counter : l.Counter
  key : l.Key
  deriving DecidableEq

namespace State

variable {l : Layout}

def zero : State l := ⟨Storage.zero, Storage.zero⟩

def ofSeed (seed : UInt64) : State l :=
  ⟨Storage.zero, ofWords #v[Word.low seed, Word.high seed]⟩

/-- The key of a seed: its two words, the lower one first. -/
def keyOf (seed : UInt64) : l.Key := ofWords #v[Word.low seed, Word.high seed]

/-- The state of block `block` of a subsequence. -/
def placed (seed subsequence block : UInt64) : State l :=
  let s := ofSeed seed
  {s with counter := Counter.skip (Counter.skipSubsequence s.counter subsequence) block}

/-- The state with the given words. -/
def ofParts (counter : Vector UInt32 4) (key : Vector UInt32 2) : State l :=
  ⟨ofWords counter, ofWords key⟩

/-- The words of the counter and of the key. -/
def toParts (s : State l) : Vector UInt32 4 × Vector UInt32 2 := (toWords s.counter, toWords s.key)

/-- The same state in another layout. -/
def convert (m : Layout) (s : State l) : State m :=
  ⟨Storage.convert s.counter, Storage.convert s.key⟩

@[simp] theorem toParts_ofParts (counter : Vector UInt32 4) (key : Vector UInt32 2) :
    (ofParts counter key : State l).toParts = (counter, key) := by
  simp [ofParts, toParts]

/-- Going over to another layout keeps every word. -/
@[simp] theorem toParts_convert (m : Layout) (s : State l) : (s.convert m).toParts = s.toParts :=
  toParts_ofParts ..

/-- Going over to another layout and back changes nothing. -/
@[simp] theorem convert_convert (m : Layout) (s : State l) : (s.convert m).convert l = s := by
  cases s
  simp [convert]

/-- The state of the next block. -/
def next (s : State l) : State l := {s with counter := Counter.advance s.counter}

/-- The state `n` blocks ahead. -/
def skip (s : State l) (n : UInt64) : State l := {s with counter := Counter.skip s.counter n}

/-- The network's output for this state, in the state's own layout. -/
def output (p : Params) (s : State l) : l.Counter :=
  Round.network p.rounds.toNat s.counter s.key

def block (p : Params) (s : State l) : Block := toWords (s.output p)

instance : Readable (State l) where
  term s := .record "PhiloxState" [("counter", term s.counter), ("key", term s.key)]

end State
end Philox
