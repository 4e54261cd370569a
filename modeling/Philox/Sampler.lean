import Philox.Source
import Philox.Store

/-! How words become values.

A `Sampler` takes a fixed number of words for each value, and a block holds a whole
number of values. Raw words, single reals and double reals are the three of them.
A real is the largest number of leading bits that its format holds exactly, scaled
to `[0, 1)`, so no step rounds. -/
namespace Philox

namespace Uniform

/-- The upper 24 bits of a word, scaled by `2⁻²⁴`. -/
def single (word : UInt32) : Float32 :=
  (word >>> 8).toFloat32 * ((1.0 : Float32) / ((1 : UInt32) <<< 24).toFloat32)

/-- The upper 53 bits of a pair of words, scaled by `2⁻⁵³`. The first word leads. -/
def double (first second : UInt32) : Float :=
  (Word.join second first >>> 11).toFloat * ((1.0 : Float) / ((1 : UInt64) <<< 53).toFloat)

end Uniform

structure Sampler (α : Type) where
  /-- What the values are called in a report. -/
  name : String
  wordsPerValue : Nat
  wordsPerValue_pos : 0 < wordsPerValue
  wordsPerValue_dvd : wordsPerValue ∣ 4
  ofWords : Vector UInt32 wordsPerValue → α

namespace Sampler

variable {α σ : Type} [WordSource σ]

def words : Sampler UInt32 := ⟨"u32", 1, by decide, by decide, fun v => v[0]⟩

def single : Sampler Float32 := ⟨"f32", 1, by decide, by decide, fun v => Uniform.single v[0]⟩

def double : Sampler Float :=
  ⟨"f64", 2, Nat.two_pos, by decide, fun v => Uniform.double (v.get 0) (v.get 1)⟩

/-- The values in a block. -/
def perBlock (s : Sampler α) : Nat := 4 / s.wordsPerValue

theorem perBlock_mul (s : Sampler α) : s.perBlock * s.wordsPerValue = 4 :=
  Nat.div_mul_cancel s.wordsPerValue_dvd

theorem index_lt (s : Sampler α) (i : Fin s.perBlock) (j : Fin s.wordsPerValue) :
    i * s.wordsPerValue + j < 4 := by
  have h : (i + 1) * s.wordsPerValue ≤ s.perBlock * s.wordsPerValue := Nat.mul_le_mul_right _ i.isLt
  rw [s.perBlock_mul, Nat.succ_mul] at h
  omega

/-- The value that the first words of a list make. -/
def ofList? (s : Sampler α) (words : List UInt32) : Except Failure α :=
  if h : s.wordsPerValue ≤ words.length then
    .ok (s.ofWords (.ofFn fun i => words[i]))
  else fault (.outOfBounds words.length words.length)

/-- The words of the `i`-th value of a block. -/
def wordsAt (s : Sampler α) (b : Block) (i : Fin s.perBlock) : Vector UInt32 s.wordsPerValue :=
  .ofFn fun j =>
    have h := s.index_lt i j
    b[i * s.wordsPerValue + j]

/-- The values of a block, in order. -/
def ofBlock (s : Sampler α) (b : Block) : List α := List.ofFn fun i => s.ofWords (s.wordsAt b i)

/-- Writes the values of a block to the front of a buffer, as many as it has room for. -/
def fillBlock (s : Sampler α) (b : Block) (buffer : Array α) : Array α :=
  Store.apply buffer ⟨0, s.ofBlock b⟩

/-- The next value of a source. -/
def sample (s : Sampler α) (source : σ) : α × σ :=
  let (words, source) := WordSource.draw s.wordsPerValue source
  (s.ofWords words, source)

/-- The next `n` values of a source. -/
def samples (s : Sampler α) : Nat → σ → List α × σ
  | 0, source => ([], source)
  | n + 1, source =>
    let (a, source) := s.sample source
    let (rest, source) := s.samples n source
    (a :: rest, source)

end Sampler
end Philox
