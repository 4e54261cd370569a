import Philox.Engine.Direct
import Philox.Proofs.Keystream

/-! What a block engine hands out: the blocks of its key, one number after another.

An engine stands *on* the block it hands out next (`On`). A block handed out moves it by one
and a skip by its number (`On.next`, `On.skip`), so the values of an engine are the blocks
from its place on (`On.nth`). -/
namespace Philox.BlockEngine

variable {p : Params} {l : Layout} {e : BlockEngine p l} {k : l.Key} {v : Nat}

/-- The next block is block `v` of the key `k`. -/
def On (k : l.Key) (v : Nat) (e : BlockEngine p l) : Prop := e.state = ⟨Counter.ofValue v, k⟩

theorem on_start (seed subsequence offset : UInt64) :
    (start seed subsequence offset : BlockEngine p l).On (State.keyOf seed)
      (subsequence.toNat * 2 ^ 64 + offset.toNat) :=
  State.placed_eq seed subsequence offset

/-- Every engine stands on the block of its counter. -/
theorem on_state (s : State l) : (⟨s⟩ : BlockEngine p l).On s.key (Counter.value s.counter) := by
  rw [On, Counter.ofValue_value]

theorem On.next (h : e.On k v) : e.next.1 = Keystream.block p k v ∧ e.next.2.On k (v + 1) := by
  refine ⟨?_, ?_⟩
  · show e.state.block p = Keystream.block p k v
    rw [h]
    rfl
  · show e.state.next = ⟨Counter.ofValue (v + 1), k⟩
    rw [h, State.next, Counter.advance_ofValue]

theorem On.skip (h : e.On k v) (n : UInt64) : (e.skip n).On k (v + n.toNat) := by
  show e.state.skip n = ⟨Counter.ofValue (v + n.toNat), k⟩
  rw [h, State.skip, Counter.skip_ofValue]

/-! ### Values by number -/

theorem On.after (h : e.On k v) (n : Nat) : (Engine.after n e).On k (v + n) := by
  induction n generalizing e v with
  | zero => exact h
  | succ n ih =>
    have hplace : v + 1 + n = v + (n + 1) := by omega
    rw [← hplace]
    exact ih h.next.2

/-- The values of an engine are the blocks from its place on. -/
theorem On.nth (h : e.On k v) (n : Nat) : Engine.nth e n = Keystream.block p k (v + n) :=
  (h.after n).next.1

end Philox.BlockEngine
