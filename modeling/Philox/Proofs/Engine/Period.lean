import Philox.Proofs.Engine.Block

/-! Streams do not meet, and an engine starts over after 2^128 blocks.

The subsequences of a seed lie apart in the counters of its key, 2^64 of them each, and
different counters have different blocks. So two engines in different subsequences share
no block before one of them leaves its own (`nth_ne_of_subsequence_ne`), and one engine
repeats a block exactly when it has been through all counters (`On.nth_eq_iff`,
`On.state_after_eq_iff`). -/
namespace Philox.BlockEngine

variable {p : Params} {l : Layout} {e : BlockEngine p l} {k : l.Key} {v : Nat}

/-- Engines in different subsequences have no block in common while they stay in them. -/
theorem nth_ne_of_subsequence_ne (seed : UInt64) {s t o q : UInt64} {i j : Nat} (hst : s ≠ t)
    (hi : o.toNat + i < 2 ^ 64) (hj : q.toNat + j < 2 ^ 64) :
    Engine.nth (start seed s o : BlockEngine p l) i ≠
      Engine.nth (start seed t q : BlockEngine p l) j := by
  have hs := s.toNat_lt
  have ht := t.toNat_lt
  rw [(on_start seed s o).nth, (on_start seed t q).nth]
  intro hsame
  have hnumber := (Keystream.block_eq_iff p _ _ _).1 hsame
  apply hst
  apply UInt64.toNat_inj.1
  -- Neither number has left its 2^64, so the subsequences are its upper halves.
  omega

theorem On.nth_eq_iff (h : e.On k v) (m n : Nat) :
    Engine.nth e m = Engine.nth e n ↔ m % 2 ^ 128 = n % 2 ^ 128 := by
  rw [h.nth, h.nth, Keystream.block_eq_iff]
  omega

theorem On.state_after_eq_iff (h : e.On k v) (n : Nat) :
    (Engine.after n e).state = e.state ↔ 2 ^ 128 ∣ n := by
  rw [h.after n, h, State.mk.injEq, and_iff_left rfl, Counter.ofValue_eq_iff]
  omega

/-- **Different subsequences of a seed have no block in common, and one engine has a block
again exactly 2^128 calls later**, or a multiple of that: then its state is back as well. -/
theorem nth_separate_and_periodic (p : Params) (l : Layout) (seed : UInt64) :
    (∀ (s t o q : UInt64) (i j : Nat), s ≠ t → o.toNat + i < 2 ^ 64 → q.toNat + j < 2 ^ 64 →
      Engine.nth (start seed s o : BlockEngine p l) i ≠
        Engine.nth (start seed t q : BlockEngine p l) j) ∧
    ∀ s : State l,
      (∀ m n : Nat, Engine.nth (⟨s⟩ : BlockEngine p l) m = Engine.nth (⟨s⟩ : BlockEngine p l) n ↔
        m % 2 ^ 128 = n % 2 ^ 128) ∧
      ∀ n : Nat, (Engine.after n (⟨s⟩ : BlockEngine p l)).state = s ↔ 2 ^ 128 ∣ n := by
  refine ⟨?_, ?_⟩
  · intro s t o q i j
    exact nth_ne_of_subsequence_ne seed
  · intro s
    exact ⟨(on_state s).nth_eq_iff, (on_state s).state_after_eq_iff⟩

/-- The last block of one subsequence and the first of the next lie on counters that follow
each other. -/
theorem nth_separate_and_periodic_adjacent :
    (0 : UInt64) ≠ 1 ∧ (0xFFFFFFFFFFFFFFFE : UInt64).toNat + 1 < 2 ^ 64 ∧
      (0 : UInt64).toNat + 0 < 2 ^ 64 ∧
      Engine.nth (start 7 0 0xFFFFFFFFFFFFFFFE : BlockEngine (.ofRounds 10) .lanes) 1 ≠
        Engine.nth (start 7 1 0 : BlockEngine (.ofRounds 10) .lanes) 0 := by
  have hapart := (nth_separate_and_periodic (.ofRounds 10) .lanes 7).1
  exact ⟨by decide, by decide, by decide,
    hapart 0 1 0xFFFFFFFFFFFFFFFE 0 1 0 (by decide) (by decide) (by decide)⟩

end Philox.BlockEngine
