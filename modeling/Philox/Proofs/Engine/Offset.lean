import Mathlib.Logic.Function.Defs
import Philox.Proofs.Engine.Block
import Philox.Proofs.Engine.Checkpoint

/-! Starting at an offset is starting and moving ahead.

A state is a seed, a subsequence and a block, each of 64 bits, and nothing is left of it
besides (`State.place_placed`, `State.placed_place`). So an offset and a skip add up, and not
only in what is handed out: the engines are the same. One that counts words stays in its
subsequence, for no offset reaches past it (`WordEngine.skip_start`); one that counts blocks
goes on into the next (`BlockEngine.skip_start`). -/
namespace Philox

/-! ### States and their places -/

namespace State
open Storage

variable {l : Layout}

/-- The seed, the subsequence and the block of a state. -/
def place (s : State l) : UInt64 × UInt64 × UInt64 :=
  (Word.join (get s.key 0) (get s.key 1), Counter.subsequence s.counter,
    Counter.position s.counter)

theorem place_placed (seed subsequence block : UInt64) :
    (placed seed subsequence block : State l).place = (seed, subsequence, block) := by
  rw [placed_eq, Counter.ofValue_halves, place, Counter.subsequence, Counter.position, keyOf]
  simp only [get_ofWords]
  show (Word.join (Word.low seed) (Word.high seed),
    Word.join (Word.low subsequence) (Word.high subsequence),
    Word.join (Word.low block) (Word.high block)) = _
  rw [Word.join_low_high, Word.join_low_high, Word.join_low_high]

/-- No part of a state is lost in its place. -/
theorem placed_place (s : State l) : placed s.place.1 s.place.2.1 s.place.2.2 = s := by
  have hvalue : s.place.2.1.toNat * 2 ^ 64 + s.place.2.2.toNat = Counter.value s.counter := by
    rw [Counter.value_eq, Nat.mul_comm, Nat.add_comm]
    rfl
  have hkey : (keyOf s.place.1 : l.Key) = s.key := by
    apply Storage.ext_two
    · exact (get_ofWords ..).trans (Word.low_join ..)
    · exact (get_ofWords ..).trans (Word.high_join ..)
  rw [placed_eq, hvalue, hkey, Counter.ofValue_value]

theorem placed_injective :
    Function.Injective fun t : UInt64 × UInt64 × UInt64 => (placed t.1 t.2.1 t.2.2 : State l) :=
  Function.LeftInverse.injective (g := place) fun t => place_placed t.1 t.2.1 t.2.2

theorem placed_surjective :
    Function.Surjective fun t : UInt64 × UInt64 × UInt64 => (placed t.1 t.2.1 t.2.2 : State l) :=
  fun s => ⟨s.place, placed_place s⟩

end State

/-! ### Engines of words -/

namespace WordEngine

variable {p : Params} {l : Layout}

/-- An offset is counted from the first word of its subsequence. -/
theorem on_start_word (seed subsequence offset : UInt64) :
    (start seed subsequence offset : WordEngine p l).On (State.keyOf seed)
      (subsequence.toNat * 2 ^ 66 + offset.toNat) := by
  have hs := subsequence.toNat_lt
  have ho := offset.toNat_lt
  have hblock : (offset / 4).toNat = offset.toNat / 4 := UInt64.toNat_div ..
  have hplace : (4 * (subsequence.toNat * 2 ^ 64 + (offset / 4).toNat) + offset.toNat % 4) %
      2 ^ 130 = subsequence.toNat * 2 ^ 66 + offset.toNat := by
    omega
  rw [← hplace]
  exact on_start seed subsequence offset

theorem used_start_lt (seed subsequence offset : UInt64) :
    (start seed subsequence offset : WordEngine p l).used < 4 :=
  Nat.mod_lt _ (Nat.succ_pos 3)

/-- The cached block and the words used of it are those of the engine that starts there. -/
theorem skip_start (seed subsequence : UInt64) {a b : UInt64} (h : a.toNat + b.toNat < 2 ^ 64) :
    (start seed subsequence a : WordEngine p l).skip b = start seed subsequence (a + b) := by
  have hs := subsequence.toNat_lt
  have hsum : (a + b).toNat = a.toNat + b.toNat := by
    rw [UInt64.toNat_add, Nat.mod_eq_of_lt h]
  have hplace : (subsequence.toNat * 2 ^ 66 + a.toNat + b.toNat) % 2 ^ 130 =
      subsequence.toNat * 2 ^ 66 + (a + b).toNat := by
    omega
  have hskip := (on_start_word (p := p) (l := l) seed subsequence a).skip b
  rw [hplace] at hskip
  exact hskip.eq_of_used_lt (on_start_word ..) (used_skip_lt ..) (used_start_lt ..)

end WordEngine

/-! ### Engines of blocks -/

namespace BlockEngine

variable {p : Params} {l : Layout} {d e : BlockEngine p l} {k : l.Key} {v w : Nat}

/-- Engines on the same block are the same. -/
theorem On.eq (hd : d.On k v) (he : e.On k w) (h : v % 2 ^ 128 = w % 2 ^ 128) : d = e := by
  have hstate : d.state = e.state := by
    rw [hd, he, (Counter.ofValue_eq_iff v w).2 h]
  cases d
  cases e
  rw [mk.injEq]
  exact hstate

/-- What goes beyond a subsequence goes into the next, and from the last into the first. -/
theorem skip_start (seed subsequence a b : UInt64) :
    (start seed subsequence a : BlockEngine p l).skip b =
      start seed (subsequence + .ofNat ((a.toNat + b.toNat) / 2 ^ 64)) (a + b) := by
  apply ((on_start seed subsequence a).skip b).eq (on_start ..)
  rw [UInt64.toNat_add, UInt64.toNat_add, UInt64.toNat_ofNat']
  omega

end BlockEngine

/-- **An offset and a skip add up to an offset**, whichever unit they are counted in: the engine
of words keeps the same block and has used as many words of it, and the engine of blocks carries
into its subsequence. Every state is the place of one seed, one subsequence and one block, whose
words it holds. -/
theorem start_then_skip (p : Params) (l : Layout) :
    (∀ seed subsequence a b : UInt64, a.toNat + b.toNat < 2 ^ 64 →
      (WordEngine.start seed subsequence a : WordEngine p l).skip b =
        WordEngine.start seed subsequence (a + b)) ∧
    (∀ seed subsequence a b : UInt64,
      (BlockEngine.start seed subsequence a : BlockEngine p l).skip b =
        BlockEngine.start seed (subsequence + .ofNat ((a.toNat + b.toNat) / 2 ^ 64)) (a + b)) ∧
    Function.Bijective
      (fun t : UInt64 × UInt64 × UInt64 => (State.placed t.1 t.2.1 t.2.2 : State l)) ∧
    ∀ seed subsequence block : UInt64,
      (State.placed seed subsequence block : State l).toParts =
        (#v[Word.low block, Word.high block, Word.low subsequence, Word.high subsequence],
          #v[Word.low seed, Word.high seed]) := by
  refine ⟨?_, ?_, ⟨State.placed_injective, State.placed_surjective⟩, State.toParts_placed⟩
  · intro seed subsequence a b h
    exact WordEngine.skip_start seed subsequence h
  · intro seed subsequence a b
    exact BlockEngine.skip_start seed subsequence a b

/-- Up to the last offset of all, from the middle of one block to the end of another. -/
theorem start_then_skip_lastOffset :
    (0xFFFFFFFFFFFFFFF9 : UInt64).toNat + (6 : UInt64).toNat < 2 ^ 64 ∧
      (WordEngine.start 7 0xFFFFFFFFFFFFFFFF 0xFFFFFFFFFFFFFFF9 :
          WordEngine (.ofRounds 10) .lanes).skip 6 =
        WordEngine.start 7 0xFFFFFFFFFFFFFFFF 0xFFFFFFFFFFFFFFFF :=
  ⟨by decide, (start_then_skip (.ofRounds 10) .lanes).1 7 0xFFFFFFFFFFFFFFFF
    0xFFFFFFFFFFFFFFF9 6 (by decide)⟩

/-- One block further than the last subsequence of a seed reaches is the first block of all. -/
example :
    (BlockEngine.start 7 0xFFFFFFFFFFFFFFFF 0xFFFFFFFFFFFFFFFF :
        BlockEngine (.ofRounds 10) .lanes).skip 1 = BlockEngine.start 7 0 0 := by
  decide

end Philox
