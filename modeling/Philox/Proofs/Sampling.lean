import Mathlib.Data.List.Basic
import Mathlib.Logic.Function.Iterate
import Philox.Proofs.Engine.Flatten
import Philox.Proofs.Grid.Reals
import Philox.Proofs.Grid.Total

/-! What values are made of, whichever way they are asked for.

A source is a stream of words (`WordSource.nth`), and so is a block; `Sampler.ofStream` says
which words of a stream make its `i`-th value. Values that are sampled are the values of the
source's stream, and they use up its words with none left over (`Sampler.samples_eq`);
the values of a block are those of its words (`Sampler.ofBlock_eq`). The words read one at
a time being the words of the blocks, it does not matter which of the two are made into
values (`Sampler.samples_start`). -/
namespace Philox

/-! ### Sources as streams -/

namespace WordSource

variable {σ : Type} [WordSource σ]

/-- The source without its next word. -/
def rest (source : σ) : σ := (next source).2

/-- Word number `i` of a source, from 0. -/
def nth (source : σ) (i : Nat) : UInt32 := (next (rest^[i] source)).1

theorem nth_iterate (source : σ) (n i : Nat) : nth (rest^[n] source) i = nth source (n + i) := by
  rw [nth, nth, ← Function.iterate_add_apply, Nat.add_comm]

/-- The words drawn are the words by number, and no others are used up. -/
theorem draw_eq (n : Nat) (source : σ) :
    draw n source = (.ofFn fun i => nth source i, rest^[n] source) := by
  induction n with
  | zero => rfl
  | succ n ih =>
    have hdraw : draw (n + 1) source =
        ((draw n source).1.push (next (draw n source).2).1, rest (draw n source).2) := rfl
    rw [hdraw, ih, Function.iterate_succ_apply', Vector.ofFn_succ]
    rfl

end WordSource

namespace Sampler

variable {α σ : Type} [WordSource σ]

/-- The `i`-th value that the words of a stream make. -/
def ofStream (s : Sampler α) (stream : Nat → UInt32) (i : Nat) : α :=
  s.ofWords (.ofFn fun j => stream (i * s.wordsPerValue + j))

theorem single_ofStream (stream : Nat → UInt32) (i : Nat) :
    single.ofStream stream i = Uniform.single (stream i) := by
  have hword : i * 1 + 0 = i := by omega
  show Uniform.single (stream (i * 1 + 0)) = _
  rw [hword]

theorem double_ofStream (stream : Nat → UInt32) (i : Nat) :
    double.ofStream stream i = Uniform.double (stream (2 * i)) (stream (2 * i + 1)) := by
  rw [Nat.mul_comm]
  rfl

/-- The source without the words of its next value. -/
def rest (s : Sampler α) (source : σ) : σ := (s.sample source).2

theorem sample_eq (s : Sampler α) (source : σ) :
    s.sample source =
      (s.ofStream (WordSource.nth source) 0, WordSource.rest^[s.wordsPerValue] source) := by
  have hfirst : s.ofStream (WordSource.nth source) 0 =
      s.ofWords (.ofFn fun j => WordSource.nth source j) := by
    simp only [ofStream, Nat.zero_mul, Nat.zero_add]
  rw [sample, WordSource.draw_eq, hfirst]

/-- Values use up words one value after another. -/
theorem iterate_rest (s : Sampler α) (n : Nat) (source : σ) :
    s.rest^[n] source = WordSource.rest^[n * s.wordsPerValue] source := by
  have hrest : (s.rest : σ → σ) = WordSource.rest^[s.wordsPerValue] :=
    funext fun t => congrArg Prod.snd (s.sample_eq t)
  rw [hrest, ← Function.iterate_mul, Nat.mul_comm]

/-- Several values are sampled one at a time. -/
theorem samples_eq_calls (s : Sampler α) (n : Nat) (source : σ) :
    s.samples n source =
      ((List.range n).map fun i => (s.sample (s.rest^[i] source)).1, s.rest^[n] source) := by
  induction n generalizing source with
  | zero => rfl
  | succ n ih =>
    have hsamples : s.samples (n + 1) source =
        ((s.sample source).1 :: (s.samples n (s.rest source)).1,
          (s.samples n (s.rest source)).2) := rfl
    rw [hsamples, ih, List.range_succ_eq_map, List.map_cons, List.map_map]
    rfl

/-- The values sampled are the values of the source's stream. -/
theorem samples_eq (s : Sampler α) (n : Nat) (source : σ) :
    s.samples n source = ((List.range n).map (s.ofStream (WordSource.nth source)),
      WordSource.rest^[n * s.wordsPerValue] source) := by
  rw [samples_eq_calls, iterate_rest]
  refine congrArg (fun values => (values, _)) (List.map_congr_left fun i _ => ?_)
  rw [sample_eq, iterate_rest]
  simp only [ofStream, WordSource.nth_iterate, Nat.zero_mul, Nat.zero_add]

/-! ### Blocks as streams -/

/-- The values of a block are made of its words in order. -/
theorem ofBlock_eq (s : Sampler α) (b : Block) :
    s.ofBlock b = (List.range s.perBlock).map (s.ofStream fun i => b[i]?.getD 0) := by
  apply List.ext_getElem
  · rw [s.length_ofBlock, List.length_map, List.length_range]
  · intro i hi _
    rw [s.length_ofBlock] at hi
    have hplace (j : Fin s.wordsPerValue) := s.index_lt ⟨i, hi⟩ j
    simp only [ofBlock, List.getElem_ofFn, List.getElem_map, List.getElem_range, ofStream, wordsAt]
    congr 2
    funext j
    rw [Vector.getElem?_eq_getElem (hplace j)]
    rfl

/-- As many values of a block are written as fit in, and the buffer ends as it did. -/
theorem toList_fillBlock (s : Sampler α) (b : Block) (buffer : Array α) :
    (s.fillBlock b buffer).toList =
      (s.ofBlock b).take buffer.size ++ buffer.toList.drop s.perBlock := by
  have hlength : ((s.ofBlock b).take buffer.size).length = min buffer.size s.perBlock := by
    rw [List.length_take, s.length_ofBlock]
  apply List.ext_getElem?
  intro i
  rw [Array.getElem?_toList, List.getElem?_append, hlength, List.getElem?_drop]
  by_cases hi : i < buffer.size
  · have hput : (s.fillBlock b buffer)[i]? = ((s.ofBlock b)[i]?).or buffer[i]? :=
      Store.getElem?_put buffer 0 (s.ofBlock b) i hi
    rw [hput]
    by_cases hb : i < s.perBlock
    · rw [if_pos (by omega), List.getElem?_take_of_lt hi, s.getElem?_ofBlock, dif_pos hb]
      rfl
    · have hplace : s.perBlock + (i - min buffer.size s.perBlock) = i := by omega
      rw [if_neg (by omega), hplace, s.getElem?_ofBlock, dif_neg hb, Array.getElem?_toList]
      rfl
  · rw [Array.getElem?_eq_none, if_neg (by omega), List.getElem?_eq_none]
    · rw [Array.length_toList]
      omega
    · rw [fillBlock, Store.size_apply]
      omega

end Sampler

/-! ### Engines -/

namespace Keystream

variable {p : Params} {l : Layout} {α : Type}

/-- The values of a block are those of the stream of its key, from its first on. -/
theorem ofBlock_block (s : Sampler α) (k : l.Key) (v : Nat) :
    s.ofBlock (block p k v) =
      (List.range s.perBlock).map fun c => s.ofStream (word p k) (v * s.perBlock + c) := by
  rw [s.ofBlock_eq]
  apply List.map_congr_left
  intro c hc
  refine congrArg (fun words => s.ofWords (.ofFn words)) (funext fun j => ?_)
  have hplace : c * s.wordsPerValue + j < 4 := s.index_lt ⟨c, List.mem_range.1 hc⟩ j
  have hword : (v * s.perBlock + c) * s.wordsPerValue + j = 4 * v + (c * s.wordsPerValue + j) := by
    rw [Nat.add_mul, Nat.mul_assoc, s.perBlock_mul, Nat.mul_comm v, Nat.add_assoc]
  have hblock : (4 * v + (c * s.wordsPerValue + j)) / 4 = v := by omega
  have hlane : (4 * v + (c * s.wordsPerValue + j)) % 4 = c * s.wordsPerValue + j := by omega
  simp only [hword, word, hblock, hlane, Vector.getElem?_eq_getElem hplace, Option.getD_some]

/-- The values of the first blocks from block `v` on are the first values from its first. -/
theorem flatMap_ofBlock (s : Sampler α) (k : l.Key) (v m : Nat) :
    ((List.range m).flatMap fun j => s.ofBlock (block p k (v + j))) =
      (List.range (m * s.perBlock)).map fun i => s.ofStream (word p k) (v * s.perBlock + i) := by
  rw [range_mul, List.map_flatMap]
  apply List.flatMap_congr
  intro j _
  rw [ofBlock_block, List.map_map]
  simp only [Function.comp_def, Nat.add_mul, Nat.add_assoc]

end Keystream

namespace WordEngine

variable {p : Params} {l : Layout} {e : WordEngine p l} {k : l.Key} {i : Nat}

/-- As a source, an engine hands out its values by number. -/
theorem nth_source (e : WordEngine p l) (n : Nat) : WordSource.nth e n = Engine.nth e n := by
  have hrest : WordSource.rest^[n] e = Engine.after n e := by
    induction n generalizing e with
    | zero => rfl
    | succ n ih => exact ih _
  rw [WordSource.nth, hrest]
  rfl

/-- An engine of words and an engine of blocks of one key that stand before the same block
make the same values. -/
theorem On.samples_eq {α : Type} {b : BlockEngine p l} {v n m : Nat}
    (he : e.On k (4 * v % 2 ^ 130)) (hb : b.On k v) (s : Sampler α) (h : n ≤ m * s.perBlock) :
    (s.samples n e).1 = ((Engine.take m b).1.flatMap s.ofBlock).take n := by
  have hblocks : Engine.nth b = fun j => Keystream.block p k (v + j) := funext hb.nth
  have hwords : WordSource.nth e = fun j => Keystream.word p k (4 * v + j) :=
    (funext (nth_source e)).trans he.nth_mod
  rw [s.samples_eq, Engine.take_eq, hblocks, hwords, List.flatMap_map, Keystream.flatMap_ofBlock,
    ← List.map_take, List.take_range, Nat.min_eq_left h]
  apply List.map_congr_left
  intro i _
  have hplace : v * s.perBlock * s.wordsPerValue = 4 * v := by
    rw [Nat.mul_assoc, s.perBlock_mul, Nat.mul_comm]
  simp only [Sampler.ofStream, Nat.add_mul, hplace, Nat.add_assoc]

end WordEngine

/-- An engine started at the first word of a block samples the values of that block and of
those that follow. -/
theorem Sampler.samples_start {α : Type} (s : Sampler α) (p : Params) (l : Layout)
    (seed subsequence : UInt64) {offset : UInt64} (ho : offset.toNat < 2 ^ 62) {n m : Nat}
    (h : n ≤ m * s.perBlock) :
    (s.samples n (WordEngine.start seed subsequence (4 * offset) : WordEngine p l)).1 =
      ((Engine.take m (BlockEngine.start seed subsequence offset : BlockEngine p l)).1.flatMap
        s.ofBlock).take n := by
  have hwords : (4 * offset).toNat = 4 * offset.toNat := by
    rw [UInt64.toNat_mul]
    show 4 * offset.toNat % 2 ^ 64 = _
    omega
  have hblock : (4 * offset / 4).toNat = offset.toNat := by
    rw [UInt64.toNat_div, hwords]
    show 4 * offset.toNat / 4 = _
    omega
  have he := WordEngine.on_start (p := p) (l := l) seed subsequence (4 * offset)
  rw [hblock, hwords, Nat.mul_mod_right, Nat.add_zero] at he
  exact he.samples_eq (BlockEngine.on_start seed subsequence offset) s h

/-- **Values do not depend on the way their words are asked for.** Together or one by one they
use up their words and no others, a single real one word and a double real two, and are made
of them in order. An engine of words gives the values that the blocks from its own on are
mapped to, and mapping a block fills as much of a buffer as the block has values or the buffer
has room for, and leaves the rest of it as it was. -/
theorem values_of_words_and_blocks :
    (∀ (σ : Type) [WordSource σ] (source : σ) (n : Nat),
      Sampler.single.samples n source =
          ((List.range n).map fun i => Uniform.single (WordSource.nth source i),
            WordSource.rest^[n] source) ∧
        Sampler.double.samples n source =
          ((List.range n).map fun i =>
              Uniform.double (WordSource.nth source (2 * i)) (WordSource.nth source (2 * i + 1)),
            WordSource.rest^[2 * n] source)) ∧
    (∀ b : Block,
      Sampler.single.ofBlock b =
          [Uniform.single (b.get 0), Uniform.single (b.get 1), Uniform.single (b.get 2),
            Uniform.single (b.get 3)] ∧
        Sampler.double.ofBlock b =
          [Uniform.double (b.get 0) (b.get 1), Uniform.double (b.get 2) (b.get 3)]) ∧
    ∀ (α : Type) (s : Sampler α),
      (∀ (σ : Type) [WordSource σ] (source : σ) (n : Nat), s.samples n source =
        ((List.range n).map fun i => (s.sample (s.rest^[i] source)).1, s.rest^[n] source)) ∧
      (∀ (p : Params) (l : Layout) (seed subsequence offset : UInt64) (n m : Nat),
        offset.toNat < 2 ^ 62 → n ≤ m * s.perBlock →
          (s.samples n (WordEngine.start seed subsequence (4 * offset) : WordEngine p l)).1 =
            ((Engine.take m (BlockEngine.start seed subsequence offset :
              BlockEngine p l)).1.flatMap s.ofBlock).take n) ∧
      ∀ (b : Block) (buffer : Array α), (s.fillBlock b buffer).toList =
        (s.ofBlock b).take buffer.size ++ buffer.toList.drop s.perBlock := by
  refine ⟨?_, ?_, ?_⟩
  · intro σ _ source n
    rw [Sampler.single.samples_eq, Sampler.double.samples_eq, Nat.mul_comm 2 n]
    refine ⟨?_, ?_⟩
    · rw [funext (Sampler.single_ofStream _)]
      exact congrArg (fun k => (_, WordSource.rest^[k] source)) (Nat.mul_one n)
    · rw [funext (Sampler.double_ofStream _)]
      rfl
  · intro b
    exact ⟨rfl, rfl⟩
  · intro α s
    refine ⟨?_, ?_, s.toList_fillBlock⟩
    · intro σ _ source n
      exact s.samples_eq_calls n source
    · intro p l seed subsequence offset n m ho h
      exact s.samples_start p l seed subsequence ho h

/-- The last block that can be started at, and three doubles, so that half of the block after
it is left over. -/
theorem values_of_words_and_blocks_lastOffset :
    (0x3FFFFFFFFFFFFFFF : UInt64).toNat < 2 ^ 62 ∧ 3 ≤ 2 * Sampler.double.perBlock ∧
      (Sampler.double.samples 3 (WordEngine.start 7 0xFFFFFFFFFFFFFFFF
          (4 * 0x3FFFFFFFFFFFFFFF) : WordEngine (.ofRounds 10) .lanes)).1 =
        ((Engine.take 2 (BlockEngine.start 7 0xFFFFFFFFFFFFFFFF 0x3FFFFFFFFFFFFFFF :
          BlockEngine (.ofRounds 10) .lanes)).1.flatMap Sampler.double.ofBlock).take 3 :=
  ⟨by decide, by decide, (values_of_words_and_blocks.2.2 Float .double).2.1 (.ofRounds 10) .lanes 7
    0xFFFFFFFFFFFFFFFF 0x3FFFFFFFFFFFFFFF 3 2 (by decide) (by decide)⟩

end Philox
