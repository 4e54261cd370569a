import Philox.Proofs.Grid.Fill

/-! A launch has room for its work, and would not have it with one block fewer.

A launch for threads is declined for no other reason than that its blocks are empty or that
their number is too large for 32 bits (`exists_forThreads?_iff`, `forThreads?_ne_emptyGrid`). One
that is granted is the least that holds its threads (`pred_gridSize_mul_lt`), and one for values
the least that holds its values (`values_le`, `pred_gridSize_values_lt`), unless it has a single
block: the two roundings do not add up to a block. `sizing_least` has it for the launches of a
grid. -/
namespace Philox.Launch

/-! ### Launches for threads -/

section Threads
variable {threads : Nat} {blockSize : UInt32} {g : Launch}

/-- The threads that are asked for fit into the largest grid of their blocks. -/
theorem exists_forThreads?_iff (threads : Nat) (blockSize : UInt32) :
    (∃ g, forThreads? threads blockSize = .ok g) ↔
      0 < blockSize.toNat ∧ max threads 1 ≤ (2 ^ 32 - 1) * blockSize.toNat := by
  refine ⟨?_, ?_⟩
  · rintro ⟨g, h⟩
    obtain ⟨hb, _, hcount⟩ := (forThreads?_eq_ok_iff ..).1 h
    refine ⟨toNat_pos hb, ?_⟩
    rw [← divUp_le_iff (toNat_pos hb), ← hcount]
    exact Nat.le_sub_one_of_lt g.gridSize.toNat_lt
  · rintro ⟨hpos, hfits⟩
    have hcount : divUp (max threads 1) blockSize.toNat < UInt32.size :=
      Nat.lt_of_le_sub_one (by decide) ((divUp_le_iff hpos).2 hfits)
    exact ⟨⟨.ofNat (divUp (max threads 1) blockSize.toNat), blockSize⟩,
      (forThreads?_eq_ok_iff ..).2
        ⟨ne_zero_of_toNat_pos hpos, rfl, UInt32.toNat_ofNat_of_lt' hcount⟩⟩

/-- No launch is declined for having no blocks. -/
theorem forThreads?_ne_emptyGrid (threads : Nat) (blockSize : UInt32) :
    forThreads? threads blockSize ≠ .error (.config .emptyGrid) := by
  by_cases hb : blockSize = 0
  · simp [forThreads?, hb]
  · rw [forThreads?_eq threads hb]
    by_cases hfits : divUp (max threads 1) blockSize.toNat < UInt32.size
    · simp only [hfits, if_true, ne_eq, reduceCtorEq, not_false_eq_true]
    · simp [hfits]

theorem gridSize_pos (h : forThreads? threads blockSize = .ok g) : 1 ≤ g.gridSize.toNat := by
  obtain ⟨hb, _, hcount⟩ := (forThreads?_eq_ok_iff ..).1 h
  rw [hcount]
  exact (lt_divUp_iff (toNat_pos hb)).2 (by omega)

/-- With one block fewer there is no thread for some piece of work. -/
theorem pred_gridSize_mul_lt (h : forThreads? threads blockSize = .ok g) :
    (g.gridSize.toNat - 1) * g.blockSize.toNat < max threads 1 := by
  obtain ⟨hb, hsize, hcount⟩ := (forThreads?_eq_ok_iff ..).1 h
  have hgrid := gridSize_pos h
  rw [hsize, ← lt_divUp_iff (toNat_pos hb), ← hcount]
  omega

end Threads

/-! ### Launches for values -/

section Values
variable {values perBlock : Nat} {blocksPerThread blockSize : UInt32} {g : Launch}

/-- Where the values of a thread can be counted, only the number of threads is looked at. -/
theorem exists_forValues?_iff (values : Nat) (blockSize : UInt32)
    (hlt : perBlock * blocksPerThread.toNat < UInt64.size)
    (hne : perBlock * blocksPerThread.toNat ≠ 0) :
    (∃ g, forValues? values perBlock blocksPerThread blockSize = .ok g) ↔
      0 < blockSize.toNat ∧
        max (divUp values (perBlock * blocksPerThread.toNat)) 1 ≤ (2 ^ 32 - 1) * blockSize.toNat := by
  rw [← exists_forThreads?_iff]
  refine exists_congr fun g => ?_
  rw [forValues?_eq_ok_iff, and_iff_right hlt, and_iff_right hne]

/-- Every value is one of a thread of the launch. -/
theorem values_le (h : forValues? values perBlock blocksPerThread blockSize = .ok g) :
    values ≤ g.totalThreads * perBlock * blocksPerThread.toNat := by
  obtain ⟨_, hne, hthreads⟩ := (forValues?_eq_ok_iff ..).1 h
  have hwork := threads_le_totalThreads hthreads
  rw [Nat.mul_assoc, ← divUp_le_iff (Nat.pos_of_ne_zero hne)]
  omega

/-- A launch of one block has none to spare. Of two blocks or more, one fewer leaves values
without a thread. -/
theorem pred_gridSize_values_lt (h : forValues? values perBlock blocksPerThread blockSize = .ok g)
    (hgrid : 1 < g.gridSize.toNat) :
    (g.gridSize.toNat - 1) * g.blockSize.toNat * perBlock * blocksPerThread.toNat < values := by
  obtain ⟨_, hne, hthreads⟩ := (forValues?_eq_ok_iff ..).1 h
  obtain ⟨hb, hsize, _⟩ := (forThreads?_eq_ok_iff ..).1 hthreads
  have hless := pred_gridSize_mul_lt hthreads
  -- The other blocks have threads, so the maximum is not the one thread of a launch for nothing.
  have hothers : 0 < (g.gridSize.toNat - 1) * g.blockSize.toNat :=
    Nat.mul_pos (Nat.sub_pos_of_lt hgrid) (hsize ▸ toNat_pos hb)
  rw [Nat.mul_assoc _ perBlock, ← lt_divUp_iff (Nat.pos_of_ne_zero hne)]
  omega

end Values

/-- **A launch is sized for its work and no larger.** One for threads is granted exactly if the
threads fit into a grid; it has a thread for each, and one block fewer would not. One for the
values of a grid holds them all, and one block fewer would not, unless it is the only one. -/
theorem sizing_least :
    (∀ (threads : Nat) (blockSize : UInt32),
        ((∃ g, forThreads? threads blockSize = .ok g) ↔
          0 < blockSize.toNat ∧ max threads 1 ≤ (2 ^ 32 - 1) * blockSize.toNat) ∧
        (∀ g, forThreads? threads blockSize = .ok g →
          g.blockSize = blockSize ∧ 1 ≤ g.gridSize.toNat ∧ max threads 1 ≤ g.totalThreads ∧
            (g.gridSize.toNat - 1) * g.blockSize.toNat < max threads 1) ∧
        forThreads? threads blockSize ≠ .error (.config .emptyGrid)) ∧
      ∀ (p : Params) (l : Layout) (plan : FillPlan) (grid : Grid p l) (values perBlock : Nat),
        Grid.ofPlan? plan = .ok grid → 1 ≤ perBlock →
        perBlock * plan.blocksPerThread.toNat < 2 ^ 64 →
        ((∃ g, grid.launch? values perBlock = .ok g) ↔
          max (divUp values (perBlock * plan.blocksPerThread.toNat)) 1 ≤
            (2 ^ 32 - 1) * plan.blockSize.toNat) ∧
        ∀ g, grid.launch? values perBlock = .ok g →
          values ≤ g.totalThreads * perBlock * plan.blocksPerThread.toNat ∧
            (1 < g.gridSize.toNat →
              (g.gridSize.toNat - 1) * g.blockSize.toNat * perBlock *
                plan.blocksPerThread.toNat < values) := by
  refine ⟨?_, ?_⟩
  · intro threads blockSize
    refine ⟨exists_forThreads?_iff .., ?_, forThreads?_ne_emptyGrid threads blockSize⟩
    intro g h
    obtain ⟨_, hsize, _⟩ := (forThreads?_eq_ok_iff ..).1 h
    exact ⟨hsize, gridSize_pos h, threads_le_totalThreads h, pred_gridSize_mul_lt h⟩
  · intro p l plan grid values perBlock hgrid hpos hlt
    obtain rfl := (Grid.ofPlan?_eq_ok_iff plan grid).1 hgrid
    have hne : perBlock * grid.plan.blocksPerThread.toNat ≠ 0 :=
      Nat.ne_of_gt (Nat.mul_pos hpos grid.blocksPerThread_pos)
    refine ⟨?_, ?_⟩
    · rw [Grid.launch?, exists_forValues?_iff values _ hlt hne,
        and_iff_right (toNat_pos grid.blockSize_ne)]
    · intro g h
      exact ⟨values_le h, pred_gridSize_values_lt h⟩

/-- Seventeen values are one more than two threads of two blocks make, and take a second block
of threads. -/
theorem sizing_least_atEnd :
    forThreads? 5 2 = .ok ⟨3, 2⟩ ∧ (3 - 1) * 2 < max 5 1 ∧
      Grid.atEnd.launch? 17 4 = .ok ⟨2, 2⟩ ∧ 17 ≤ (⟨2, 2⟩ : Launch).totalThreads * 4 * 2 ∧
      (2 - 1) * 2 * 4 * 2 < 17 := by
  obtain ⟨hthreads, hvalues⟩ := sizing_least
  have hfive : forThreads? 5 2 = .ok ⟨3, 2⟩ := by rfl
  have hlaunch : Grid.atEnd.launch? 17 4 = .ok ⟨2, 2⟩ := by rfl
  obtain ⟨_, hgranted, _⟩ := hthreads 5 2
  obtain ⟨_, _, _, hless⟩ := hgranted _ hfive
  obtain ⟨_, hlaunched⟩ := hvalues _ _ Grid.atEnd.plan Grid.atEnd 17 4
    ((Grid.ofPlan?_eq_ok_iff ..).2 rfl) (by decide) (by decide)
  obtain ⟨hall, hspare⟩ := hlaunched _ hlaunch
  exact ⟨hfive, hless, hlaunch, hall, hspare (by decide)⟩

end Philox.Launch
