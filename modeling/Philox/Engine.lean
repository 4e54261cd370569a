import Philox.Plan
import Philox.State

/-! What every engine does.

An engine hands out a value and moves on, moves ahead without handing anything
out, and shows the state it would continue from. -/
namespace Philox

class Engine (ε : Type) (l : outParam Layout) (α : outParam Type) where
  next : ε → α × ε
  skip : ε → UInt64 → ε
  state : ε → State l

namespace Engine

/-- The least and the greatest word an engine can hand out. -/
def minWord : UInt32 := 0
def maxWord : UInt32 := 0xFFFFFFFF

/-- The next `n` values. -/
def take [Engine ε l α] : Nat → ε → List α × ε
  | 0, e => ([], e)
  | n + 1, e =>
    let (a, e) := next e
    let (rest, e) := take n e
    (a :: rest, e)

/-- The engine once it has handed out `n` values. -/
def after [Engine ε l α] : Nat → ε → ε
  | 0, e => e
  | n + 1, e => after n (next e).2

/-- Value number `n`, from 0. -/
def nth [Engine ε l α] (e : ε) (n : Nat) : α := (next (after n e)).1

/-- The values that are taken are the values by number. -/
theorem take_eq [Engine ε l α] (n : Nat) (e : ε) :
    take n e = ((List.range n).map (nth e), after n e) := by
  induction n generalizing e with
  | zero => rfl
  | succ n ih =>
    have hrest : take (n + 1) e =
        ((next e).1 :: (take n (next e).2).1, (take n (next e).2).2) := rfl
    rw [hrest, ih, List.range_succ_eq_map, List.map_cons, List.map_map]
    rfl

end Engine
end Philox
