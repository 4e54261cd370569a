import Philox.Proofs.Engine.Block
import Philox.Proofs.Engine.Word

/-! Words one at a time are the words of the blocks.

The two engines count their offsets in different units and move on at different moments:
one after it hands out a block, the other before it needs the next. `take_eq_flatten` says
that nothing of this is seen: the words read one at a time are the blocks put end to end,
from the word that the offset leaves in its block. -/
namespace Philox

/-! ### Blocks end to end -/

namespace Keystream

variable {p : Params} {l : Layout} {k : l.Key}

/-- A block is four words of the stream. -/
theorem toList_block (v : Nat) :
    (block p k v).toList = (List.range 4).map fun u => word p k (4 * v + u) := by
  apply List.ext_getElem
  · rw [Vector.length_toList, List.length_map, List.length_range]
  · intro u hu _
    rw [Vector.length_toList] at hu
    have hblock : (4 * v + u) / 4 = v := by omega
    have hlane : (4 * v + u) % 4 = u := by omega
    simp only [Vector.getElem_toList, List.getElem_map, List.getElem_range, word, hblock, hlane]

/-- The first blocks from block `v` on, end to end, are the first words from its first. -/
theorem flatMap_block (v m : Nat) :
    ((List.range m).flatMap fun j => (block p k (v + j)).toList) =
      (List.range (4 * m)).map fun j => word p k (4 * v + j) := by
  induction m with
  | zero => rfl
  | succ m ih =>
    rw [List.range_succ, List.flatMap_append, ih, List.flatMap_singleton, toList_block,
      Nat.mul_succ, List.range_add, List.map_append, List.map_map]
    simp only [Function.comp_def, Nat.mul_add, Nat.add_assoc]

theorem drop_take_flatMap_block {v m r n : Nat} (h : r + n ≤ 4 * m) :
    (((List.range m).flatMap fun j => (block p k (v + j)).toList).drop r).take n =
      (List.range n).map fun j => word p k (4 * v + r + j) := by
  have hlength : ((List.range r).map fun j => word p k (4 * v + j)).length = r := by
    rw [List.length_map, List.length_range]
  -- Taken first, the words are the `r` that are dropped and the `n` that stay.
  rw [flatMap_block, List.take_drop, ← List.map_take, List.take_range, Nat.min_eq_left h,
    List.range_add, List.map_append, List.drop_left' hlength, List.map_map]
  simp only [Function.comp_def, Nat.add_assoc]

end Keystream

/-! ### Engines -/

namespace WordEngine

variable {p : Params} {l : Layout} {e : WordEngine p l} {k : l.Key}

/-- An engine of words and an engine of blocks of one key, the first of them `r` words
ahead, hand out the same words. -/
theorem On.take_eq {b : BlockEngine p l} {v r n m : Nat} (he : e.On k ((4 * v + r) % 2 ^ 130))
    (hb : b.On k v) (h : r + n ≤ 4 * m) :
    (Engine.take n e).1 = (((Engine.take m b).1.flatMap Vector.toList).drop r).take n := by
  have hblocks : Engine.nth b = fun j => Keystream.block p k (v + j) := funext hb.nth
  rw [Engine.take_eq, Engine.take_eq, hblocks, he.nth_mod, List.flatMap_map,
    Keystream.drop_take_flatMap_block h]

/-- **The words read one at a time are the words of the blocks, put end to end**, from the
word that the offset leaves in its block, however many are read. -/
theorem take_eq_flatten (p : Params) (l : Layout) (seed subsequence offset : UInt64) (n m : Nat)
    (h : offset.toNat % 4 + n ≤ 4 * m) :
    (Engine.take n (start seed subsequence offset : WordEngine p l)).1 =
      (((Engine.take m
          (BlockEngine.start seed subsequence (offset / 4) : BlockEngine p l)).1.flatMap
        Vector.toList).drop (offset.toNat % 4)).take n :=
  (on_start seed subsequence offset).take_eq
    (BlockEngine.on_start seed subsequence (offset / 4)) h

/-- The last offset there is: its word is the last of its block, in the last subsequence. -/
theorem take_eq_flatten_lastOffset :
    (0xFFFFFFFFFFFFFFFF : UInt64).toNat % 4 + 6 ≤ 4 * 3 ∧
      (Engine.take 6 (start 7 0xFFFFFFFFFFFFFFFF 0xFFFFFFFFFFFFFFFF :
          WordEngine (.ofRounds 10) .lanes)).1 =
        (((Engine.take 3 (BlockEngine.start 7 0xFFFFFFFFFFFFFFFF (0xFFFFFFFFFFFFFFFF / 4) :
            BlockEngine (.ofRounds 10) .lanes)).1.flatMap
          Vector.toList).drop ((0xFFFFFFFFFFFFFFFF : UInt64).toNat % 4)).take 6 :=
  ⟨by decide, take_eq_flatten (.ofRounds 10) .lanes 7 0xFFFFFFFFFFFFFFFF 0xFFFFFFFFFFFFFFFF 6 3
    (by decide)⟩

end WordEngine
end Philox
