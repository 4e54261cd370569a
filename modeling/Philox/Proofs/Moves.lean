import Mathlib.Algebra.GroupWithZero.Nat
import Philox.Proofs.Counter

/-! Moving a counter is adding to it.

A counter is moved in three ways, and each has a carry of its own. All of them add a
distance to the value, modulo 2^128 (`Move.value_apply`), so moves made one after another
add the sum of their distances (`value_run`), and two lists of moves end on one counter
exactly when their sums agree modulo 2^128 (`run_eq_iff`). `moves_add` says what this comes
to: single steps are a skip, and the order of moves is never seen. -/
namespace Philox.Counter
open Storage

variable {C : Type} [Storage C 4]

/-! ### One move -/

/-- A way to move a counter. -/
inductive Move where
  | advance
  | skip (n : UInt64)
  | skipSubsequence (n : UInt64)
  deriving DecidableEq

namespace Move

def apply (c : C) : Move → C
  | advance => Counter.advance c
  | skip n => Counter.skip c n
  | skipSubsequence n => Counter.skipSubsequence c n

/-- How many blocks a move goes ahead. -/
def distance : Move → Nat
  | advance => 1
  | skip n => n.toNat
  | skipSubsequence n => n.toNat * 2 ^ 64

theorem value_apply (c : C) (m : Move) : value (m.apply c) = (value c + m.distance) % 2 ^ 128 := by
  cases m with
  | advance => exact value_advance c
  | skip n => exact value_skip c n
  | skipSubsequence n => exact value_skipSubsequence c n

end Move

/-- A move of the subsequence leaves the words of the position alone. -/
theorem get_skipSubsequence (c : C) (n : UInt64) :
    get (skipSubsequence c n) 0 = get c 0 ∧ get (skipSubsequence c n) 1 = get c 1 := by
  simp [skipSubsequence, setSubsequence, get_set]

/-! ### Moves one after another -/

/-- The counter after all of the moves, the first of the list first. -/
def run (c : C) : List Move → C
  | [] => c
  | m :: rest => run (m.apply c) rest

/-- How many blocks the moves go ahead together. -/
def total (moves : List Move) : Nat := (moves.map Move.distance).sum

theorem value_run (c : C) (moves : List Move) :
    value (run c moves) = (value c + total moves) % 2 ^ 128 := by
  induction moves generalizing c with
  | nil => exact (Nat.mod_eq_of_lt (value_lt c)).symm
  | cons m rest ih =>
    have htotal : total (m :: rest) = m.distance + total rest := by simp [total]
    rw [run, ih, Move.value_apply, htotal, Nat.mod_add_mod, Nat.add_assoc]

/-- Nothing but the sum of the distances, modulo 2^128, is left of moves that are made. -/
theorem run_eq_iff (c : C) (moves moves' : List Move) :
    run c moves = run c moves' ↔ total moves % 2 ^ 128 = total moves' % 2 ^ 128 := by
  have hvalue := value_run c moves
  have hvalue' := value_run c moves'
  refine ⟨?_, ?_⟩
  · intro h
    rw [h] at hvalue
    omega
  · intro h
    apply value_inj
    omega

theorem run_perm (c : C) {moves moves' : List Move} (h : moves.Perm moves') :
    run c moves = run c moves' :=
  (run_eq_iff c moves moves').2 (congrArg (· % 2 ^ 128) (h.map Move.distance).sum_nat)

theorem run_advance (c : C) (n : UInt64) :
    run c (.replicate n.toNat .advance) = skip c n := by
  have htotal : total (.replicate n.toNat .advance) = total [.skip n] := by
    simp [total, Move.distance]
  exact (run_eq_iff c _ [.skip n]).2 (congrArg (· % 2 ^ 128) htotal)

/-- **Every way of moving a counter adds to its value, modulo 2^128.** So `n` steps of one
are a skip by `n`, and moves may be made in any order. -/
theorem moves_add (l : Layout) (c : l.Counter) :
    value (advance c) = (value c + 1) % 2 ^ 128 ∧
    (∀ n : UInt64, value (skip c n) = (value c + n.toNat) % 2 ^ 128) ∧
    (∀ n : UInt64, value (skipSubsequence c n) = (value c + n.toNat * 2 ^ 64) % 2 ^ 128 ∧
      get (skipSubsequence c n) 0 = get c 0 ∧ get (skipSubsequence c n) 1 = get c 1) ∧
    (∀ n : UInt64, run c (.replicate n.toNat .advance) = skip c n) ∧
    ∀ moves moves' : List Move, moves.Perm moves' → run c moves = run c moves' := by
  refine ⟨value_advance c, value_skip c, ?_, run_advance c, ?_⟩
  · intro n
    exact ⟨value_skipSubsequence c n, get_skipSubsequence c n⟩
  · intro moves moves' h
    exact run_perm c h

/-- From the last counter of all, where the first move of either list wraps. -/
theorem moves_add_atEnd :
    List.Perm [.skip 0xFFFFFFFFFFFFFFFF, .advance, .skipSubsequence 0xFFFFFFFFFFFFFFFF]
        [.advance, .skipSubsequence 0xFFFFFFFFFFFFFFFF, Move.skip 0xFFFFFFFFFFFFFFFF] ∧
      run (C := Layout.lanes.Counter) ⟨0xFFFFFFFF, 0xFFFFFFFF, 0xFFFFFFFF, 0xFFFFFFFF⟩
          [.skip 0xFFFFFFFFFFFFFFFF, .advance, .skipSubsequence 0xFFFFFFFFFFFFFFFF] =
        run (C := Layout.lanes.Counter) ⟨0xFFFFFFFF, 0xFFFFFFFF, 0xFFFFFFFF, 0xFFFFFFFF⟩
          [.advance, .skipSubsequence 0xFFFFFFFFFFFFFFFF, .skip 0xFFFFFFFFFFFFFFFF] := by
  have hperm : List.Perm [.skip 0xFFFFFFFFFFFFFFFF, .advance, .skipSubsequence 0xFFFFFFFFFFFFFFFF]
      [.advance, .skipSubsequence 0xFFFFFFFFFFFFFFFF, Move.skip 0xFFFFFFFFFFFFFFFF] := by
    decide
  exact ⟨hperm, (moves_add .lanes _).2.2.2.2 _ _ hperm⟩

end Philox.Counter
