import Philox.Proofs.Keystream
import Philox.Source

/-! What a word engine hands out.

An engine stands *on* a word of the stream of its key (`On`): the cached block is the
block of its state, and the block and the words used of it say which word comes next.
The end of a block and the beginning of the next are one place in the stream, so
`On.next` and `On.skip` need no case for a block that is used up. `session_eq` puts
every request of a session together: it is answered by the words at the place, and
moves the place by their number. -/
namespace Philox

/-! ### Sessions -/

/-- What may be asked of a source of words. -/
inductive Request where
  | word
  | wide
  | words (n : Nat)
  | skip (n : UInt64)

inductive Answer where
  | word (w : UInt32)
  | wide (x : UInt64)
  | words (ws : List UInt32)
  | moved
  deriving DecidableEq

namespace Request

/-- How many words a request moves over. -/
def length : Request → Nat
  | word => 1
  | wide => 2
  | words n => n
  | skip n => n.toNat

/-- The answer from place `i` of a stream. -/
def answer (stream : Nat → UInt32) (i : Nat) : Request → Answer
  | word => .word (stream i)
  | wide => .wide (Word.join (stream i) (stream (i + 1)))
  | words n => .words ((List.range n).map fun k => stream (i + k))
  | skip _ => .moved

end Request

/-- An answer, and what the engine shows of itself after it. -/
structure Report (l : Layout) where
  answer : Answer
  state : State l
  position : UInt64
  deriving DecidableEq

namespace Keystream

variable (p : Params) {l : Layout}

/-- The state and the position that name word `i` of a key. -/
def checkpoint (k : l.Key) (i : Nat) : State l × UInt64 :=
  (⟨Counter.ofValue (i / 4), k⟩, .ofNat (i % 4))

/-- A session on the stream of a key, from word `i`. -/
def session (k : l.Key) : Nat → List Request → List (Report l)
  | _, [] => []
  | i, r :: rest =>
    let j := (i + r.length) % 2 ^ 130
    ⟨r.answer (word p k) i, (checkpoint k j).1, (checkpoint k j).2⟩ :: session k j rest

theorem word_of_lt (k : l.Key) {v u : Nat} (hv : v < 2 ^ 128) (hu : u < 4) :
    word p k ((4 * v + u) % 2 ^ 130) = (block p k v)[u] := by
  have hblock : (4 * v + u) % 2 ^ 130 / 4 = v := by omega
  have hlane : (4 * v + u) % 2 ^ 130 % 4 = u := by omega
  simp only [word, hblock, hlane]

end Keystream

namespace WordEngine

variable {p : Params} {l : Layout}

/-- The ways to make an engine. -/
inductive Origin (l : Layout) where
  | start (seed subsequence offset : UInt64)
  | seed (seed : UInt64)
  | stream (s : Stream)
  | standard
  | state (s : State l)
  | stateAt (s : State l) (position : UInt64)
  | checkpoint (c : State l × UInt64)

def Origin.engine : Origin l → WordEngine p l
  | .start n subsequence offset => .start n subsequence offset
  | .seed n => .ofSeed n
  | .stream s => .ofStream s
  | .standard => .ofStream {}
  | .state s => .ofState s
  | .stateAt s position => .ofStateAt s position
  | .checkpoint c => .ofCheckpoint c

def respond (e : WordEngine p l) : Request → Answer × WordEngine p l
  | .word =>
    let (w, e) := e.next
    (.word w, e)
  | .wide =>
    let (x, e) := WordSource.nextWide e
    (.wide x, e)
  | .words n =>
    let (ws, e) := WordSource.draw n e
    (.words ws.toList, e)
  | .skip n => (.moved, e.skip n)

/-- What is seen of an engine that is asked one thing after another. -/
def session (e : WordEngine p l) : List Request → List (Report l)
  | [] => []
  | r :: rest =>
    let (a, e) := e.respond r
    ⟨a, e.state, e.position⟩ :: e.session rest

/-! ### Places in the stream -/

/-- The next word is word `i` of the key `k`. -/
structure On (k : l.Key) (i : Nat) (e : WordEngine p l) : Prop where
  block : e.block = e.stored.block p
  key : e.stored.key = k
  place : (4 * Counter.value e.stored.counter + e.used) % 2 ^ 130 = i

variable {e : WordEngine p l} {k : l.Key} {i : Nat}

theorem on_ofState (s : State l) :
    (ofState s : WordEngine p l).On s.key (4 * Counter.value s.counter) := by
  have hv := Counter.value_lt s.counter
  refine ⟨rfl, rfl, ?_⟩
  show (4 * Counter.value s.counter + 0) % 2 ^ 130 = 4 * Counter.value s.counter
  omega

/-- A used-up block and the next one unused are the same place. -/
theorem On.refresh (h : e.On k i) : e.refresh.On k i := by
  unfold WordEngine.refresh
  by_cases hu : e.used = 4
  · rw [if_pos hu]
    refine ⟨rfl, h.key, ?_⟩
    show (4 * Counter.value (Counter.advance e.stored.counter) + 0) % 2 ^ 130 = i
    rw [← h.place, hu, Counter.value_advance]
    omega
  · rw [if_neg hu]
    exact h

/-- The next word is the word of the place, and the engine moves past it. -/
theorem On.next (h : e.On k i) :
    e.next.1 = Keystream.word p k i ∧ e.next.2.On k ((i + 1) % 2 ^ 130) := by
  have hr := h.refresh
  have hu := e.used_refresh_lt
  have hv := Counter.value_lt e.refresh.stored.counter
  refine ⟨?_, ?_⟩
  · show e.refresh.block[e.refresh.used] = Keystream.word p k i
    rw [← hr.place, Keystream.word_of_lt p k hv hu]
    simp only [hr.block, Keystream.block_of_state, hr.key]
  · refine ⟨hr.block, hr.key, ?_⟩
    show (4 * Counter.value e.refresh.stored.counter + (e.refresh.used + 1)) % 2 ^ 130 = _
    rw [← hr.place]
    omega

/-- A skip moves by its number of words, whether it leaves the cached block or not. -/
theorem On.skip (h : e.On k i) (n : UInt64) : (e.skip n).On k ((i + n.toNat) % 2 ^ 130) := by
  have hu := e.used_le
  have hn := n.toNat_lt
  have hv := Counter.value_lt e.stored.counter
  have hblocks : (n / 4 + UInt64.ofNat ((e.used + n.toNat % 4) / 4)).toNat =
      n.toNat / 4 + (e.used + n.toNat % 4) / 4 := by
    rw [UInt64.toNat_add, UInt64.toNat_div, UInt64.toNat_ofNat']
    show (n.toNat / 4 + (e.used + n.toNat % 4) / 4 % 2 ^ 64) % 2 ^ 64 = _
    omega
  unfold WordEngine.skip
  by_cases hz : n / 4 + UInt64.ofNat ((e.used + n.toNat % 4) / 4) = 0
  · rw [hz, UInt64.toNat_zero] at hblocks
    simp only [hz, if_true]
    refine ⟨h.block, h.key, ?_⟩
    rw [← h.place]
    show (4 * Counter.value e.stored.counter + (e.used + n.toNat % 4) % 4) % 2 ^ 130 = _
    omega
  · simp only [hz, if_false]
    refine ⟨rfl, h.key, ?_⟩
    rw [← h.place]
    simp only [State.skip, Counter.value_skip, hblocks]
    omega

/-- The state and the position name the place. -/
theorem On.checkpoint (h : e.On k i) : e.checkpoint = Keystream.checkpoint k i := by
  have hu := e.used_le
  have hv := Counter.value_lt e.stored.counter
  have hplace := h.place
  unfold WordEngine.checkpoint WordEngine.state WordEngine.position Keystream.checkpoint
  by_cases hend : e.used = 4
  · have hcounter : Counter.advance e.stored.counter = Counter.ofValue (i / 4) := by
      rw [Counter.advance_eq, Counter.ofValue_eq_iff]
      omega
    have hlane : i % 4 = e.used % 4 := by omega
    rw [if_pos hend, hlane, ← hcounter, ← h.key]
    rfl
  · have hcounter : Counter.ofValue (i / 4) = e.stored.counter := by
      have hdiv : i / 4 = Counter.value e.stored.counter := by omega
      rw [hdiv, Counter.ofValue_value]
    have hlane : i % 4 = e.used % 4 := by omega
    rw [if_neg hend, hlane, hcounter, ← h.key]

theorem On.place_eq (h : e.On k i) : 4 * Counter.value e.state.counter + e.position.toNat = i := by
  have hlt := Nat.mod_lt (4 * Counter.value e.stored.counter + e.used) (Nat.two_pow_pos 130)
  have hcheck := h.checkpoint
  have hstate : e.state.counter = Counter.ofValue (i / 4) := congrArg (fun c => c.1.counter) hcheck
  have hposition : e.position = .ofNat (i % 4) := congrArg Prod.snd hcheck
  rw [hstate, hposition, Counter.value_ofValue, UInt64.toNat_ofNat']
  rw [h.place] at hlt
  omega

theorem On.lt (h : e.On k i) : i < 2 ^ 130 := by
  rw [← h.place]
  exact Nat.mod_lt _ (Nat.two_pow_pos 130)

/-- Places are numbered modulo 2^130. -/
theorem On.wrap (h : e.On k i) : e.On k (i % 2 ^ 130) := by
  rw [Nat.mod_eq_of_lt h.lt]
  exact h

theorem On.state_key (h : e.On k i) : e.state.key = k :=
  congrArg (fun c => c.1.key) h.checkpoint

/-- Where an engine starts: at the word that is left of the offset in its block. -/
theorem on_start (seed subsequence offset : UInt64) :
    (start seed subsequence offset : WordEngine p l).On (State.keyOf seed)
      ((4 * (subsequence.toNat * 2 ^ 64 + (offset / 4).toNat) + offset.toNat % 4) % 2 ^ 130) := by
  have hplaced := State.placed_eq (l := l) seed subsequence (offset / 4)
  refine ⟨rfl, rfl, ?_⟩
  show (4 * Counter.value (State.placed seed subsequence (offset / 4) : State l).counter +
    offset.toNat % 4) % 2 ^ 130 = _
  rw [hplaced, Counter.value_ofValue]
  omega

theorem on_ofStateAt (s : State l) (position : UInt64) :
    (ofStateAt s position : WordEngine p l).On s.key
      ((4 * Counter.value s.counter + position.toNat) % 2 ^ 130) :=
  (on_ofState s).skip position

/-- However it was made, an engine stands somewhere in the stream of a key. -/
theorem Origin.on (o : Origin l) : ∃ k i, (o.engine : WordEngine p l).On k i := by
  cases o with
  | start n subsequence offset => exact ⟨_, _, on_start n subsequence offset⟩
  | seed n => exact ⟨_, _, on_start n 0 0⟩
  | stream s => exact ⟨_, _, on_start s.seed s.subsequence s.offset⟩
  | standard => exact ⟨_, _, on_start 0 0 0⟩
  | state s => exact ⟨_, _, on_ofState s⟩
  | stateAt s position => exact ⟨_, _, on_ofStateAt s position⟩
  | checkpoint c => exact ⟨_, _, on_ofStateAt c.1 c.2⟩

/-! ### Values by number -/

theorem On.after (h : e.On k i) (n : Nat) : (Engine.after n e).On k ((i + n) % 2 ^ 130) := by
  induction n generalizing e i with
  | zero => exact h.wrap
  | succ n ih =>
    have hplace : ((i + 1) % 2 ^ 130 + n) % 2 ^ 130 = (i + (n + 1)) % 2 ^ 130 := by omega
    rw [← hplace]
    exact ih h.next.2

/-- The values of an engine are the words from its place on. -/
theorem On.nth (h : e.On k i) (n : Nat) : Engine.nth e n = Keystream.word p k (i + n) := by
  rw [← Keystream.word_mod]
  exact (h.after n).next.1

/-- The words by number, for a place that is counted past the end of the stream. -/
theorem On.nth_mod (h : e.On k (i % 2 ^ 130)) :
    Engine.nth e = fun n => Keystream.word p k (i + n) := by
  funext n
  rw [h.nth]
  apply Keystream.word_congr
  omega

/-! ### Requests -/

theorem On.nextWide (h : e.On k i) :
    (WordSource.nextWide e).1 =
        Word.join (Keystream.word p k i) (Keystream.word p k (i + 1)) ∧
      (WordSource.nextWide e).2.On k ((i + 2) % 2 ^ 130) := by
  obtain ⟨hlow, hnext⟩ := h.next
  obtain ⟨hhigh, hlast⟩ := hnext.next
  refine ⟨?_, ?_⟩
  · show Word.join e.next.1 e.next.2.next.1 = _
    rw [hlow, hhigh, Keystream.word_mod]
  · have hplace : ((i + 1) % 2 ^ 130 + 1) % 2 ^ 130 = (i + 2) % 2 ^ 130 := by omega
    rw [← hplace]
    exact hlast

theorem On.draw (h : e.On k i) (n : Nat) :
    (WordSource.draw n e).1.toList =
        (List.range n).map (fun j => Keystream.word p k (i + j)) ∧
      (WordSource.draw n e).2.On k ((i + n) % 2 ^ 130) := by
  induction n with
  | zero => exact ⟨rfl, h.wrap⟩
  | succ n ih =>
    obtain ⟨hwords, hmoved⟩ := ih
    obtain ⟨hword, hlast⟩ := hmoved.next
    refine ⟨?_, ?_⟩
    · show ((WordSource.draw n e).1.push (WordSource.draw n e).2.next.1).toList = _
      rw [Vector.toList_push, hwords, hword, Keystream.word_mod, List.range_succ, List.map_append]
      rfl
    · have hplace : ((i + n) % 2 ^ 130 + 1) % 2 ^ 130 = (i + (n + 1)) % 2 ^ 130 := by omega
      rw [← hplace]
      exact hlast

/-- One request: answered from the place, and moving the place by its length. -/
theorem On.respond (h : e.On k i) (r : Request) :
    (e.respond r).1 = r.answer (Keystream.word p k) i ∧
      (e.respond r).2.On k ((i + r.length) % 2 ^ 130) := by
  cases r with
  | word => exact ⟨congrArg Answer.word h.next.1, h.next.2⟩
  | wide => exact ⟨congrArg Answer.wide h.nextWide.1, h.nextWide.2⟩
  | words n => exact ⟨congrArg Answer.words (h.draw n).1, (h.draw n).2⟩
  | skip n => exact ⟨rfl, h.skip n⟩

theorem On.session (h : e.On k i) (requests : List Request) :
    e.session requests = Keystream.session p k i requests := by
  induction requests generalizing e i with
  | nil => rfl
  | cons r rest ih =>
    obtain ⟨hanswer, hmoved⟩ := h.respond r
    have hcheck := hmoved.checkpoint
    have hstate := congrArg Prod.fst hcheck
    have hposition := congrArg Prod.snd hcheck
    rw [WordEngine.session, Keystream.session, ← ih hmoved, ← hanswer, ← hstate, ← hposition]
    rfl

/-- **One place in the stream of one key accounts for a whole session**: it is where the
state and the position say, every answer is read from it, and it moves by the words of
each request, modulo 2^130. -/
theorem session_eq (o : Origin l) (requests : List Request) :
    let e : WordEngine p l := o.engine
    let i := 4 * Counter.value e.state.counter + e.position.toNat
    e.checkpoint = Keystream.checkpoint e.state.key i ∧
      e.session requests = Keystream.session p e.state.key i requests := by
  intro e i
  obtain ⟨k, j, h⟩ : ∃ k j, e.On k j := o.on
  have hi : i = j := h.place_eq
  rw [hi, h.state_key]
  exact ⟨h.checkpoint, h.session requests⟩

end WordEngine
end Philox
