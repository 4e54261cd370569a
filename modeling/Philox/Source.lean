import Philox.Engine.Word

/-! Anything that words can be drawn from.

A source has one operation of its own, drawing the next word; pairs and runs of
words are drawn through it. The one-word engine is a source, and so is a tape that
plays the same words again and again. -/
namespace Philox

class WordSource (σ : Type) where
  next : σ → UInt32 × σ

namespace WordSource

variable {σ : Type} [WordSource σ]

/-- A 64-bit number. The first word drawn is its lower half. -/
def nextWide (s : σ) : UInt64 × σ :=
  let (lo, s) := next s
  let (hi, s) := next s
  (Word.join lo hi, s)

/-- The next `n` words. -/
def draw : (n : Nat) → σ → Vector UInt32 n × σ
  | 0, s => (#v[], s)
  | n + 1, s =>
    let (words, s) := draw n s
    let (word, s) := next s
    (words.push word, s)

end WordSource

instance (p : Params) (l : Layout) : WordSource (WordEngine p l) := ⟨WordEngine.next⟩

/-- Words that are played in order, and from the first again after the last. -/
structure Tape where
  words : Array UInt32
  size_pos : 0 < words.size
  used : Nat := 0

namespace Tape

def ofWords? (words : Array UInt32) : Option Tape :=
  if h : 0 < words.size then some {words := words, size_pos := h} else none

def next (t : Tape) : UInt32 × Tape :=
  have h : t.used % t.words.size < t.words.size := Nat.mod_lt _ t.size_pos
  (t.words[t.used % t.words.size], {t with used := t.used + 1})

instance : WordSource Tape := ⟨next⟩

end Tape
end Philox
