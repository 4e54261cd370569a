import Philox.Engine

/-! Whole blocks, one after another or each directly.

The engine that hands out whole blocks keeps nothing but a state: a call returns the
block of its counter and advances the counter by one. Any block of any subsequence can
also be computed where it stands, without an engine. -/
namespace Philox

/-! ### The engine -/

structure BlockEngine (p : Params) (l : Layout) where
  state : State l
  deriving DecidableEq

namespace BlockEngine
open Storage

variable {p : Params} {l : Layout}

/-- Offsets count blocks. -/
def start (seed subsequence offset : UInt64) : BlockEngine p l :=
  ⟨.placed seed subsequence offset⟩

def ofSeed (seed : UInt64) : BlockEngine p l := start seed 0 0

def ofStream (s : Stream) : BlockEngine p l := start s.seed s.subsequence s.offset

/-- The next block, in the engine's own layout. -/
def nextOutput (e : BlockEngine p l) : l.Counter × BlockEngine p l :=
  (e.state.output p, ⟨e.state.next⟩)

def next (e : BlockEngine p l) : Block × BlockEngine p l :=
  let (output, e) := e.nextOutput
  (toWords output, e)

def skip (e : BlockEngine p l) (n : UInt64) : BlockEngine p l := ⟨e.state.skip n⟩

/-- The engine in another layout, at the same place. -/
def convert (m : Layout) (e : BlockEngine p l) : BlockEngine p m := ⟨e.state.convert m⟩

instance : Engine (BlockEngine p l) l Block := ⟨next, skip, state⟩

end BlockEngine

/-! ### Without an engine -/

namespace Direct

/-- The block of a counter under a key. -/
def block (p : Params) {l : Layout} (counter : l.Counter) (key : l.Key) : Block :=
  State.block p ⟨counter, key⟩

/-- Block number `index` of a subsequence. -/
def blockAt (p : Params) (l : Layout) (seed subsequence index : UInt64) : Block :=
  State.block p (State.placed seed subsequence index : State l)

end Direct
end Philox
