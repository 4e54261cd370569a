import Philox.Engine

/-! The engine that hands out one word at a time.

It caches the block of its state and counts how many of its words are used. A block
that is used up stays cached until the next word is asked for; a skip moves to the
right word at once, and works out a new block only when it leaves the cached one. -/
namespace Philox

structure WordEngine (p : Params) (l : Layout) where
  stored : State l
  block : Block
  used : Nat
  used_le : used ≤ 4
  deriving DecidableEq

namespace WordEngine

variable {p : Params} {l : Layout}

/-- All four words of the block of `s` are still to come. -/
def ofState (s : State l) : WordEngine p l := ⟨s, s.block p, 0, by decide⟩

/-- Offsets count words. -/
def start (seed subsequence offset : UInt64) : WordEngine p l :=
  {(ofState (.placed seed subsequence (offset / 4)) : WordEngine p l) with
    used := offset.toNat % 4
    used_le := Nat.le_of_lt (Nat.mod_lt _ (by decide))}

def ofSeed (seed : UInt64) : WordEngine p l := start seed 0 0

def ofStream (s : Stream) : WordEngine p l := start s.seed s.subsequence s.offset

/-- Moves on to the next block once the cached one is used up. -/
def refresh (e : WordEngine p l) : WordEngine p l :=
  if e.used = 4 then ofState e.stored.next else e

theorem used_refresh_lt (e : WordEngine p l) : e.refresh.used < 4 := by
  have := e.used_le
  unfold refresh
  split
  · exact Nat.zero_lt_succ 3
  · omega

def next (e : WordEngine p l) : UInt32 × WordEngine p l :=
  let r := e.refresh
  have h : r.used < 4 := e.used_refresh_lt
  (r.block[r.used], {r with used := r.used + 1, used_le := h})

/-- Moves `n` words ahead: whole blocks through the counter, the rest within the block. -/
def skip (e : WordEngine p l) (n : UInt64) : WordEngine p l :=
  let within := e.used + n.toNat % 4
  let blocks := n / 4 + UInt64.ofNat (within / 4)
  have h : within % 4 ≤ 4 := Nat.le_of_lt (Nat.mod_lt _ (by decide))
  if blocks = 0 then {e with used := within % 4, used_le := h}
  else
    let s := e.stored.skip blocks
    ⟨s, s.block p, within % 4, h⟩

/-- The state of the block that holds the next word. -/
def state (e : WordEngine p l) : State l := if e.used = 4 then e.stored.next else e.stored

/-- The index of the next word within its block. -/
def position (e : WordEngine p l) : UInt64 := UInt64.ofNat (e.used % 4)

/-- All that is needed to continue from here. -/
def checkpoint (e : WordEngine p l) : State l × UInt64 := (e.state, e.position)

/-- The engine `position` words after the first word of a state. -/
def ofStateAt (s : State l) (position : UInt64) : WordEngine p l := (ofState s).skip position

def ofCheckpoint (c : State l × UInt64) : WordEngine p l := ofStateAt c.1 c.2

/-- The engine in another layout, resumed from its checkpoint. -/
def convert (m : Layout) (e : WordEngine p l) : WordEngine p m :=
  ofStateAt (e.state.convert m) e.position

instance : Engine (WordEngine p l) l UInt32 := ⟨next, skip, state⟩

end WordEngine
end Philox
