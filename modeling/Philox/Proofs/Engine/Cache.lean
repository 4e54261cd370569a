import Philox.Proofs.Engine.Offset

/-! What a word engine keeps in its cache.

An engine writes down a block in three places: when it is made, when the cached one is used
up, and when a skip leaves it; elsewhere it only counts. However it came to be and whatever
was asked of it, the block it keeps is the block of the state it keeps
(`Reachable.block_eq`). So the next word is looked for at an index inside that block, and is
never one of a block left behind (`Reachable.next_eq`); and an engine that was just made or
just skipped has a word left to hand out (`Origin.used_lt`, `used_skip_lt`). -/
namespace Philox.WordEngine
open Storage

variable {p : Params} {l : Layout} {e : WordEngine p l}

theorem Origin.used_lt (o : Origin l) : (o.engine : WordEngine p l).used < 4 := by
  cases o with
  | start n subsequence offset => exact used_start_lt n subsequence offset
  | seed n => exact used_start_lt n 0 0
  | stream s => exact used_start_lt s.seed s.subsequence s.offset
  | standard => exact used_start_lt 0 0 0
  | state s => exact Nat.succ_pos 3
  | stateAt s position => exact used_skip_lt (ofState s) position
  | checkpoint c => exact used_skip_lt (ofState c.1) c.2

/-- The cache is never stale. -/
theorem Reachable.block_eq (h : e.Reachable) : e.block = e.stored.block p := by
  obtain ⟨k, i, h⟩ := h.on
  exact h.block

/-! ### The word that is read -/

/-- The block that a word is read from is that of the state the engine shows. -/
theorem stored_refresh (e : WordEngine p l) : e.refresh.stored = e.state := by
  unfold refresh state
  split
  · rfl
  · rfl

theorem used_refresh (e : WordEngine p l) : e.refresh.used = e.used % 4 := by
  have hle := e.used_le
  unfold refresh
  split
  case isTrue h =>
    rw [h]
    rfl
  case isFalse h => omega

/-- The next word is that of the block of the state that is kept from then on, at an index
inside it, and the words up to it are used. -/
theorem Reachable.next_eq (h : e.Reachable) :
    ∃ i : Fin 4, i = e.used % 4 ∧ e.next.1 = (e.next.2.stored.block p)[i] ∧
      e.next.2.used = i + 1 := by
  obtain ⟨k, i, h⟩ := h.on
  have hlt := e.used_refresh_lt
  refine ⟨⟨e.refresh.used, hlt⟩, e.used_refresh, ?_, rfl⟩
  show e.refresh.block[e.refresh.used] = (e.refresh.stored.block p)[e.refresh.used]
  simp only [h.refresh.block]

/-- **The cache holds the block of the stored counter**, however an engine was made and
whatever it was asked for since, and an index into it is never out of bounds: a word comes
from that block, after the next one has been brought in where the last was used up. An
engine just made or just skipped has not used up its block. -/
theorem cache_current (p : Params) (l : Layout) :
    (∀ o : Origin l, (o.engine : WordEngine p l).used < 4) ∧
    ∀ e : WordEngine p l, e.Reachable →
      e.block = toWords (Round.network p.rounds.toNat e.stored.counter e.stored.key) ∧
      e.used ≤ 4 ∧
      e.next.2.stored = (if e.used = 4 then e.stored.next else e.stored) ∧
      (∃ i : Fin 4, i = (if e.used = 4 then 0 else e.used) ∧
        e.next.1 = (toWords (Round.network p.rounds.toNat e.next.2.stored.counter
          e.next.2.stored.key))[i] ∧
        e.next.2.used = i + 1) ∧
      ∀ n : UInt64, (e.skip n).used < 4 := by
  refine ⟨Origin.used_lt, ?_⟩
  intro e h
  have hle := e.used_le
  refine ⟨h.block_eq, hle, e.stored_refresh, ?_, e.used_skip_lt⟩
  obtain ⟨i, hi, hword, hused⟩ := h.next_eq
  refine ⟨i, ?_, hword, hused⟩
  split <;> omega

/-- The last block of a key is used up: the next word is read from the first block of all. -/
theorem cache_current_usedUp :
    usedUp.Reachable ∧ usedUp.used = 4 ∧ usedUp.stored = lastState ∧
      usedUp.block = toWords (Round.network 10 usedUp.stored.counter usedUp.stored.key) ∧
      usedUp.next.2.stored = .ofParts #v[0, 0, 0, 0] #v[7, 0] ∧
      (∃ i : Fin 4, i = (0 : Nat) ∧
        usedUp.next.1 = (toWords (Round.network 10 usedUp.next.2.stored.counter
          usedUp.next.2.stored.key))[i] ∧
        usedUp.next.2.used = i + 1) ∧
      (usedUp.skip 7).used < 4 := by
  have h : usedUp.Reachable := .asked .word (.made (.stateAt lastState 3))
  obtain ⟨hblock, -, -, hword, hskip⟩ := (cache_current (.ofRounds 10) .lanes).2 usedUp h
  exact ⟨h, by decide, by decide, hblock, by decide, hword, hskip 7⟩

end Philox.WordEngine
