import Philox.Proofs.Engine.Block

/-! Blocks computed directly are the blocks of a run.

An engine moves by a ripple carry or by a 64-bit sum with a carry, and a block computed
directly is not reached by moving at all. `session_eq_direct` says that the three agree on
every run: each call is answered by the network on the counter that lies as far ahead of
the first one as the calls before it moved, modulo 2^128, whichever calls they were. -/
namespace Philox

/-- A block computed directly is a block of the stream of its seed. -/
theorem Direct.blockAt_eq (p : Params) (l : Layout) (seed subsequence index : UInt64) :
    blockAt p l seed subsequence index =
      Keystream.block p (State.keyOf seed : l.Key) (subsequence.toNat * 2 ^ 64 + index.toNat) := by
  rw [blockAt, State.placed_eq]
  rfl

namespace BlockEngine

variable {p : Params} {l : Layout} {e : BlockEngine p l} {k : l.Key} {v : Nat}

/-! ### Runs -/

/-- What may be asked of an engine that hands out blocks. `Engine.next` asks for a block. -/
inductive Call where
  | block
  | output
  | skip (n : UInt64)

/-- A block is words in order, an output is in the engine's own layout. -/
inductive Call.Answer (l : Layout) where
  | block (b : Block)
  | output (c : l.Counter)
  | moved
  deriving DecidableEq

namespace Call

/-- How many blocks a call moves over. -/
def length : Call → Nat
  | block => 1
  | output => 1
  | skip n => n.toNat

/-- How many blocks a list of calls moves over. -/
def total : List Call → Nat
  | [] => 0
  | c :: rest => c.length + total rest

/-- The answer where block `v` of the key `k` comes next. -/
def answer (p : Params) (k : l.Key) (v : Nat) : Call → Answer l
  | block => .block (Direct.block p (Counter.ofValue v : l.Counter) k)
  | output => .output (Round.network p.rounds.toNat (Counter.ofValue v) k)
  | skip _ => .moved

end Call

def respond (e : BlockEngine p l) : Call → Call.Answer l × BlockEngine p l
  | .block =>
    let (b, e) := e.next
    (.block b, e)
  | .output =>
    let (c, e) := e.nextOutput
    (.output c, e)
  | .skip n => (.moved, e.skip n)

/-- What is seen of an engine in a run: every answer, and the state after it. -/
def session (e : BlockEngine p l) : List Call → List (Call.Answer l × State l)
  | [] => []
  | c :: rest =>
    let (a, e) := e.respond c
    (a, e.state) :: e.session rest

/-- One call: answered from the place, and moving the place by its length. -/
theorem On.respond (h : e.On k v) (c : Call) :
    (e.respond c).1 = c.answer p k v ∧ (e.respond c).2.On k (v + c.length) := by
  cases c with
  | block => exact ⟨congrArg Call.Answer.block h.next.1, h.next.2⟩
  | output =>
    refine ⟨?_, h.next.2⟩
    show Call.Answer.output (e.state.output p) = _
    rw [h]
    rfl
  | skip n => exact ⟨rfl, h.skip n⟩

theorem On.session (h : e.On k v) (calls : List Call) :
    e.session calls = calls.mapIdx fun t c =>
      let v := v + Call.total (calls.take t)
      (c.answer p k v, ⟨Counter.ofValue (v + c.length), k⟩) := by
  induction calls generalizing e v with
  | nil => rfl
  | cons c rest ih =>
    obtain ⟨hanswer, hmoved⟩ := h.respond c
    have hrun : e.session (c :: rest) =
        ((e.respond c).1, (e.respond c).2.state) :: (e.respond c).2.session rest := rfl
    -- The rest is seen from the place after `c`, so its sums leave out the length of `c`.
    rw [hrun, List.mapIdx_cons, ih hmoved, hanswer, hmoved]
    simp only [List.take_zero, List.take_succ_cons, Call.total, Nat.add_zero, Nat.add_assoc]

/-- **Every call of every run is answered by the network on the counter that the calls
before it lead to**, under the key of the start. A block of a stream therefore needs no
run: it is computed directly in the subsequence that its number reaches. -/
theorem session_eq_direct (p : Params) (l : Layout) :
    (∀ (s : State l) (calls : List Call),
      (⟨s⟩ : BlockEngine p l).session calls = calls.mapIdx fun t c =>
        let v := Counter.value s.counter + Call.total (calls.take t)
        (c.answer p s.key v, ⟨Counter.ofValue (v + c.length), s.key⟩)) ∧
    ∀ (seed subsequence : UInt64) (m : Nat),
      Engine.nth (start seed subsequence 0 : BlockEngine p l) m =
        Direct.blockAt p l seed (subsequence + .ofNat (m / 2 ^ 64)) (.ofNat m) := by
  refine ⟨?_, ?_⟩
  · intro s calls
    exact (on_state s).session calls
  · intro seed subsequence m
    have hs := subsequence.toNat_lt
    rw [(on_start seed subsequence 0).nth, Direct.blockAt_eq]
    apply Keystream.block_congr
    rw [UInt64.toNat_add, UInt64.toNat_ofNat', UInt64.toNat_ofNat', UInt64.toNat_zero]
    omega

end BlockEngine
end Philox
