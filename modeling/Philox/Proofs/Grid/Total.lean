import Philox.Proofs.Grid.Fill

/-! A fill is carried out to its end, or it is declined and nothing has happened.

The numbers that could stop a fill on its way are looked at before it begins: a thread has
values to produce, and as many as can be counted (`chunkSize_pos`, `chunkSize_lt`). So there
is one reason to decline it, a launch of more blocks than a grid can hold
(`launch?_eq_ite`), and a launch that is granted has a thread for every chunk (`chunks_le`).
The chunks and the windows they are cut into are `pieces`, and every store fills its window
to the last place (`extents_tasks`). `fill_total` adds these up. -/
namespace Philox

variable {p : Params} {l : Layout} {α : Type}

/-! ### Cutting a buffer -/

/-- `length` values from `start`, cut into pieces of `size` values, the last perhaps shorter:
where each piece starts, and how many values it has. -/
def pieces (size start length : Nat) : List (Nat × Nat) :=
  (List.range (divUp length size)).map fun i => (start + i * size, min size (length - i * size))

example : pieces 4 8 10 = [(8, 4), (12, 4), (16, 2)] := by decide

/-- No piece is empty, longer than `size`, or outside of what is cut. -/
theorem bounds_of_mem_pieces {size start length : Nat} (hsize : 0 < size) {piece : Nat × Nat}
    (h : piece ∈ pieces size start length) :
    0 < piece.2 ∧ piece.2 ≤ size ∧ start ≤ piece.1 ∧ piece.1 + piece.2 ≤ start + length := by
  obtain ⟨i, hi, rfl⟩ := List.mem_map.1 h
  have hlt := (lt_divUp_iff hsize).1 (List.mem_range.1 hi)
  dsimp only
  omega

/-- Where a store starts, and how many values it puts. -/
def Store.extent (a : Store α) : Nat × Nat := (a.start, a.values.length)

theorem Sampler.length_ofBlock (s : Sampler α) (b : Block) : (s.ofBlock b).length = s.perBlock :=
  List.length_ofFn

/-- The stores of a thread fill the windows of its chunk. -/
theorem FillPlan.extents_task (plan : FillPlan) (s : Sampler α) (length id : Nat) :
    (plan.task p l s length id).map Store.extent =
      let chunk := s.perBlock * plan.blocksPerThread.toNat
      pieces s.perBlock (id * chunk) (min chunk (length - id * chunk)) := by
  rw [FillPlan.task, List.map_map]
  apply List.map_congr_left
  intro b _
  simp only [Function.comp, Store.extent, FillPlan.store, List.length_take, s.length_ofBlock,
    Nat.min_comm]

theorem FillPlan.extents_tasks (plan : FillPlan) (s : Sampler α) (length : Nat) :
    (plan.tasks p l s length).map (List.map Store.extent) =
      (pieces (s.perBlock * plan.blocksPerThread.toNat) 0 length).map fun piece =>
        pieces s.perBlock piece.1 piece.2 := by
  rw [FillPlan.tasks, pieces, List.map_map, List.map_map]
  apply List.map_congr_left
  intro id _
  simp only [Function.comp, plan.extents_task, Nat.zero_add]

theorem FillPlan.length_tasks (plan : FillPlan) (s : Sampler α) (length : Nat) :
    (plan.tasks p l s length).length =
      divUp length (s.perBlock * plan.blocksPerThread.toNat) := by
  simp [FillPlan.tasks]

namespace Grid

/-! ### Fills that are carried out -/

/-- What a fill has done that was granted `launch`, with `tasks` for its threads. -/
structure CarriedOut (g : Grid p l) (workers : Schedule) (s : Sampler α) (buffer : Array α)
    (launch : Launch) (tasks : List (List (Store α))) : Prop where
  granted : g.launch? buffer.size s.perBlock = .ok launch
  assigned : g.tasks? s launch buffer.size = .ok tasks
  result : (g.fillUnder workers s buffer).result = .ok launch
  contents : (g.fillUnder workers s buffer).contents =
    Store.applyAll buffer (g.order workers launch tasks)
  /-- Two events are reported, the launch before the identity. -/
  levels : (g.fillUnder workers s buffer).events.map Event.level = [.debug, .trace]
  chunks : tasks.length = divUp buffer.size (s.perBlock * g.plan.blocksPerThread.toNat)
  chunks_le : tasks.length ≤ launch.totalThreads
  /-- The thread of each chunk is found, and has the number of the chunk for its id. -/
  threads : ∀ id < tasks.length, ∃ t, launch.thread? (.ofNat id) = .ok t ∧ t.globalId.toNat = id
  /-- The buffer is cut into chunks, and each chunk into windows, one for each store. -/
  windows : tasks.map (List.map Store.extent) =
    (pieces (s.perBlock * g.plan.blocksPerThread.toNat) 0 buffer.size).map fun piece =>
      pieces s.perBlock piece.1 piece.2
  /-- No store is empty, asks for more values than a block has, or leaves the buffer. -/
  bounds : ∀ task ∈ tasks, ∀ a ∈ task, 0 < a.values.length ∧ a.values.length ≤ s.perBlock ∧
    a.start + a.values.length ≤ buffer.size

theorem bounds_of_mem_tasks (g : Grid p l) (s : Sampler α) {length : Nat}
    {task : List (Store α)} (htask : task ∈ g.plan.tasks p l s length) {a : Store α}
    (ha : a ∈ task) :
    0 < a.values.length ∧ a.values.length ≤ s.perBlock ∧ a.start + a.values.length ≤ length := by
  -- The extent is one of the windows of a chunk, and the chunk is a piece of the buffer.
  have hextents := List.mem_map_of_mem (f := List.map Store.extent) htask
  rw [g.plan.extents_tasks s length] at hextents
  obtain ⟨chunk, hchunk, hwindows⟩ := List.mem_map.1 hextents
  have hwindow : a.extent ∈ pieces s.perBlock chunk.1 chunk.2 := by
    rw [hwindows]
    exact List.mem_map_of_mem ha
  have hinner : 0 < a.values.length ∧ a.values.length ≤ s.perBlock ∧ chunk.1 ≤ a.start ∧
      a.start + a.values.length ≤ chunk.1 + chunk.2 :=
    bounds_of_mem_pieces s.perBlock_pos hwindow
  have houter := bounds_of_mem_pieces (g.chunkSize_pos s) hchunk
  omega

theorem carriedOut (g : Grid p l) (workers : Schedule) (s : Sampler α) (buffer : Array α)
    {launch : Launch} (h : g.launch? buffer.size s.perBlock = .ok launch) :
    g.CarriedOut workers s buffer launch (g.plan.tasks p l s buffer.size) where
  granted := h
  assigned := g.tasks?_eq s h
  result := (g.result_eq workers s buffer).trans h
  contents := by
    rw [g.fillUnder_of_ok workers s buffer h]
  levels := by
    rw [g.fillUnder_of_ok workers s buffer h]
    rfl
  chunks := g.plan.length_tasks s buffer.size
  chunks_le := by
    rw [g.plan.length_tasks]
    exact g.chunks_le s h
  threads := by
    intro id hid
    rw [g.plan.length_tasks] at hid
    have hlt := g.chunk_lt s h hid
    exact ⟨launch.place id, Launch.thread?_eq hlt, Launch.toNat_globalId_place hlt⟩
  windows := g.plan.extents_tasks s buffer.size
  bounds _ htask _ ha := g.bounds_of_mem_tasks s htask ha

/-! ### Every fill -/

/-- A launch is declined for one reason. -/
theorem launch?_eq_ite (g : Grid p l) (s : Sampler α) (length : Nat) :
    g.launch? length s.perBlock =
      let threads := divUp length (s.perBlock * g.plan.blocksPerThread.toNat)
      let blocks := divUp (max threads 1) g.plan.blockSize.toNat
      if blocks < UInt32.size then .ok ⟨.ofNat blocks, g.plan.blockSize⟩
      else refuse (.config (.oversizedGrid threads blocks g.plan.blockSize)) := by
  rw [g.launch?_eq, Launch.forThreads?_eq _ g.blockSize_ne]
  dsimp only
  split
  · rfl
  · rfl

/-- **A fill is carried out, or declined for a launch that no grid can hold**: then the
buffer is as it was, and nothing is reported. The values of a thread are a number that is
not zero and does not overflow, so neither a fault nor an empty chunk comes between. -/
theorem fill_total (g : Grid p l) (workers : Schedule) :
    (Sampler.words.perBlock = 4 ∧ Sampler.single.perBlock = 4 ∧ Sampler.double.perBlock = 2) ∧
    ∀ {α : Type} (s : Sampler α) (buffer : Array α),
      let chunk := s.perBlock * g.plan.blocksPerThread.toNat
      let threads := divUp buffer.size chunk
      let blocks := divUp (max threads 1) g.plan.blockSize.toNat
      (Launch.perThread? s.perBlock g.plan.blocksPerThread = .ok chunk ∧ 0 < chunk) ∧
      (2 ^ 32 - 1 < blocks ∧
          g.fillUnder workers s buffer =
            ⟨refuse (.config (.oversizedGrid threads blocks g.plan.blockSize)), buffer, []⟩ ∨
        blocks ≤ 2 ^ 32 - 1 ∧
          ∃ tasks, g.CarriedOut workers s buffer ⟨.ofNat blocks, g.plan.blockSize⟩ tasks) := by
  refine ⟨by decide, ?_⟩
  intro α s buffer chunk threads blocks
  refine ⟨⟨if_pos (g.chunkSize_lt s), g.chunkSize_pos s⟩, ?_⟩
  have hlaunch : g.launch? buffer.size s.perBlock =
      if blocks < UInt32.size then .ok ⟨.ofNat blocks, g.plan.blockSize⟩
      else refuse (.config (.oversizedGrid threads blocks g.plan.blockSize)) :=
    g.launch?_eq_ite s buffer.size
  by_cases hfits : blocks < UInt32.size
  · rw [if_pos hfits] at hlaunch
    exact .inr ⟨Nat.le_of_lt_succ hfits, _, g.carriedOut workers s buffer hlaunch⟩
  · rw [if_neg hfits] at hlaunch
    exact .inl ⟨Nat.not_lt.1 hfits, g.fillUnder_of_error workers s buffer hlaunch⟩

/-- With blocks of one thread, the longest buffer that is filled has four words for each block
that a grid can hold. -/
example :
    let g : Grid (.ofRounds 10) .array := ⟨{blockSize := 1}, rfl, by decide, by decide⟩
    g.launch? (4 * (2 ^ 32 - 1)) 4 = .ok ⟨0xFFFFFFFF, 1⟩ ∧
      g.launch? (4 * (2 ^ 32 - 1) + 1) 4 = refuse (.config (.oversizedGrid (2 ^ 32) (2 ^ 32) 1)) :=
  ⟨rfl, rfl⟩

end Grid
end Philox
