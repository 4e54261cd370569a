import Philox.Proofs.Engine.Word
import Philox.Sampler

/-! What a checkpoint keeps.

A checkpoint names a word of the stream by its block and its index in it, so an index of
four or more is never reported (`checkpoint_snd_lt`), and the end of a block is reported as
the beginning of the next. An engine resumed from it stands on the same word and answers
everything as the old one would (`session_ofCheckpoint`). It is the same engine too, unless
the old one still keeps a block that is used up: of the two ways to stand between two
blocks a resumed engine takes the later one (`ofCheckpoint_eq_iff`). -/
namespace Philox

namespace Keystream

variable {l : Layout}

/-- The word `q` words after the first word of block `v`. -/
theorem checkpoint_place (k : l.Key) (v : Nat) (q : UInt64) :
    checkpoint k ((4 * v + q.toNat) % 2 ^ 130) =
      (⟨Counter.ofValue (v + q.toNat / 4), k⟩, q % 4) := by
  have hcounter : (Counter.ofValue ((4 * v + q.toNat) % 2 ^ 130 / 4) : l.Counter) =
      Counter.ofValue (v + q.toNat / 4) := by
    rw [Counter.ofValue_eq_iff]
    omega
  have hposition : UInt64.ofNat ((4 * v + q.toNat) % 2 ^ 130 % 4) = q % 4 := by
    apply UInt64.toNat_inj.1
    rw [UInt64.toNat_ofNat', UInt64.toNat_mod]
    show _ = q.toNat % 4
    omega
  rw [checkpoint, hcounter, hposition]

end Keystream

namespace WordEngine

variable {p : Params} {l : Layout} {e d : WordEngine p l} {k : l.Key} {i : Nat}

/-! ### Reachable engines -/

/-- An engine that some way of making one and some uses of it lead to. -/
inductive Reachable : WordEngine p l → Prop where
  | made (o : Origin l) : Reachable o.engine
  | asked (r : Request) {e : WordEngine p l} : Reachable e → Reachable (e.respond r).2
  | sampled {α : Type} (s : Sampler α) (n : Nat) {e : WordEngine p l} :
      Reachable e → Reachable (s.samples n e).2

theorem On.samples {α : Type} (h : e.On k i) (s : Sampler α) (n : Nat) :
    (s.samples n e).2.On k ((i + n * s.wordsPerValue) % 2 ^ 130) := by
  induction n generalizing e i with
  | zero =>
    rw [Nat.zero_mul]
    exact h.wrap
  | succ n ih =>
    have hplace : ((i + s.wordsPerValue) % 2 ^ 130 + n * s.wordsPerValue) % 2 ^ 130 =
        (i + (n + 1) * s.wordsPerValue) % 2 ^ 130 := by
      rw [Nat.succ_mul]
      omega
    rw [← hplace]
    exact ih (h.draw s.wordsPerValue).2

/-- However an engine is used, it stands somewhere in the stream of a key. -/
theorem Reachable.on (h : e.Reachable) : ∃ k i, e.On k i := by
  induction h with
  | made o => exact o.on
  | asked r _ ih =>
    obtain ⟨k, i, h⟩ := ih
    exact ⟨k, _, (h.respond r).2⟩
  | sampled s n _ ih =>
    obtain ⟨k, i, h⟩ := ih
    exact ⟨k, _, h.samples s n⟩

/-! ### Two engines on one word -/

theorem used_skip_lt (e : WordEngine p l) (n : UInt64) : (e.skip n).used < 4 := by
  have hlt : (e.used + n.toNat % 4) % 4 < 4 := Nat.mod_lt _ (Nat.succ_pos 3)
  unfold WordEngine.skip
  dsimp only
  split
  · exact hlt
  · exact hlt

/-- Engines on the same word differ only where one of them keeps a block that is used up. -/
theorem On.eq_of_used_lt (he : e.On k i) (hd : d.On k i) (hue : e.used < 4) (hud : d.used < 4) :
    e = d := by
  have hplace := he.place.trans hd.place.symm
  have hve := Counter.value_lt e.stored.counter
  have hvd := Counter.value_lt d.stored.counter
  -- With fewer than four words used, a place has one block and one index in it.
  have hcounter : e.stored.counter = d.stored.counter := Counter.value_inj (by omega)
  have hstored : e.stored = d.stored := by
    rw [State.mk.injEq]
    exact ⟨hcounter, he.key.trans hd.key.symm⟩
  have hblock : e.block = d.block := by
    rw [he.block, hd.block, hstored]
  have hused : e.used = d.used := by omega
  cases e
  cases d
  rw [mk.injEq]
  exact ⟨hstored, hblock, hused⟩

/-! ### Resuming -/

theorem checkpoint_snd_lt (e : WordEngine p l) : e.checkpoint.2 < 4 := by
  have hlt := Nat.mod_lt e.used (Nat.succ_pos 3)
  rw [UInt64.lt_iff_toNat_lt]
  show (UInt64.ofNat (e.used % 4)).toNat < 4
  rw [UInt64.toNat_ofNat']
  omega

theorem On.ofCheckpoint (h : e.On k i) : (ofCheckpoint e.checkpoint : WordEngine p l).On k i := by
  have hresumed := on_ofStateAt (p := p) e.state e.position
  rw [h.place_eq, Nat.mod_eq_of_lt h.lt, h.state_key] at hresumed
  exact hresumed

theorem session_ofCheckpoint (h : e.On k i) (requests : List Request) :
    (ofCheckpoint e.checkpoint : WordEngine p l).session requests = e.session requests := by
  rw [h.ofCheckpoint.session, h.session]

theorem ofCheckpoint_eq_iff (h : e.On k i) :
    (ofCheckpoint e.checkpoint : WordEngine p l) = e ↔ e.used ≠ 4 := by
  have hresumed : (ofCheckpoint e.checkpoint : WordEngine p l).used < 4 := used_skip_lt ..
  have hle := e.used_le
  refine ⟨?_, ?_⟩
  · intro heq
    rw [heq] at hresumed
    omega
  · intro hne
    exact h.ofCheckpoint.eq_of_used_lt h hresumed (by omega)

theorem checkpoint_ofCheckpoint (s : State l) (q : UInt64) :
    (ofCheckpoint (s, q) : WordEngine p l).checkpoint =
      (⟨Counter.ofValue (Counter.value s.counter + q.toNat / 4), s.key⟩, q % 4) := by
  rw [← Keystream.checkpoint_place]
  exact (on_ofStateAt s q).checkpoint

/-- A checkpoint whose index lies in its block is given back as it was. -/
theorem checkpoint_ofCheckpoint_of_lt (s : State l) {q : UInt64} (hq : q < 4) :
    (ofCheckpoint (s, q) : WordEngine p l).checkpoint = (s, q) := by
  have hlt : q.toNat < 4 := UInt64.lt_iff_toNat_lt.1 hq
  have hposition : q % 4 = q := by
    apply UInt64.toNat_inj.1
    rw [UInt64.toNat_mod]
    exact Nat.mod_eq_of_lt hlt
  rw [checkpoint_ofCheckpoint, Nat.div_eq_of_lt hlt, Nat.add_zero, Counter.ofValue_value, hposition]

/-- **A checkpoint and a resumed engine give each other back.** A resumed engine answers
whatever the old one would and is the old one unless that keeps a block that is used up;
and its checkpoint is the one it was resumed from, with the index brought into the block. -/
theorem checkpoint_round_trip (e : WordEngine p l) (he : e.Reachable) (s : State l) (q : UInt64) :
    (∀ requests : List Request,
        (ofCheckpoint e.checkpoint : WordEngine p l).session requests = e.session requests) ∧
      ((ofCheckpoint e.checkpoint : WordEngine p l) = e ↔ e.used ≠ 4) ∧
      (ofCheckpoint (s, q) : WordEngine p l).checkpoint =
        (⟨Counter.ofValue (Counter.value s.counter + q.toNat / 4), s.key⟩, q % 4) ∧
      (q < 4 → (ofCheckpoint (s, q) : WordEngine p l).checkpoint = (s, q)) ∧
      e.checkpoint.2 < 4 := by
  obtain ⟨k, i, h⟩ := he.on
  refine ⟨?_, ?_, ?_, ?_, ?_⟩
  · exact session_ofCheckpoint h
  · exact ofCheckpoint_eq_iff h
  · exact checkpoint_ofCheckpoint s q
  · exact checkpoint_ofCheckpoint_of_lt s
  · exact e.checkpoint_snd_lt

/-- The state of the last block of a key. -/
def lastState : State .lanes :=
  .ofParts #v[0xFFFFFFFF, 0xFFFFFFFF, 0xFFFFFFFF, 0xFFFFFFFF] #v[7, 0]

/-- An engine that has just handed out the last word of its key. -/
def usedUp : WordEngine (.ofRounds 10) .lanes := (ofStateAt lastState 3).next.2

theorem checkpoint_round_trip_usedUp :
    usedUp.Reachable ∧ usedUp.checkpoint = (.ofParts #v[0, 0, 0, 0] #v[7, 0], 0) ∧
      (∀ requests : List Request,
        (ofCheckpoint usedUp.checkpoint : WordEngine (.ofRounds 10) .lanes).session requests =
          usedUp.session requests) ∧
      (ofCheckpoint usedUp.checkpoint : WordEngine (.ofRounds 10) .lanes) ≠ usedUp ∧
      (3 : UInt64) < 4 ∧
      (ofCheckpoint (lastState, 3) : WordEngine (.ofRounds 10) .lanes).checkpoint =
        (lastState, 3) := by
  have h : usedUp.Reachable := .asked .word (.made (.stateAt lastState 3))
  have hused : usedUp.used = 4 := by decide
  obtain ⟨hsession, heq, -, hback, -⟩ := usedUp.checkpoint_round_trip h lastState 3
  exact ⟨h, by decide, hsession, fun hsame => heq.1 hsame hused, by decide, hback (by decide)⟩

end WordEngine
end Philox
