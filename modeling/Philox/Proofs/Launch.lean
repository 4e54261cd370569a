import Mathlib.Algebra.Group.Nat.Defs
import Philox.Launch

/-! How launches are sized, and which thread has which id.

`forThreads?_eq_ok_iff` and `forValues?_eq_ok_iff` say when a launch is granted and
what its shape is. A granted launch has a thread for every piece of work
(`threads_le_totalThreads`), and its threads are found again by their ids
(`globalId_ofGlobal?`), because no block index of theirs is cut short. Every id below the
number of threads has its `place` in the grid, and is that of one thread in it (`exists_has`,
`Has.globalId_inj`). -/
namespace Philox

/-! ### Rounding up -/

theorem lt_divUp_iff {a b n : Nat} (hb : 0 < b) : n < divUp a b ↔ n * b < a := by
  rw [divUp, Nat.lt_iff_add_one_le, Nat.le_div_iff_mul_le hb, Nat.succ_mul]
  omega

theorem divUp_le_iff {a b n : Nat} (hb : 0 < b) : divUp a b ≤ n ↔ a ≤ n * b := by
  rw [← Nat.not_lt, lt_divUp_iff hb, Nat.not_lt]

theorem le_divUp_mul {a b : Nat} (hb : 0 < b) : a ≤ divUp a b * b :=
  (divUp_le_iff hb).1 (Nat.le_refl _)

/-- Work and workers may be counted in a smaller unit. -/
theorem divUp_mul_mul (a : Nat) {b w : Nat} (hb : 0 < b) (hw : 0 < w) :
    divUp (a * w) (b * w) = divUp a b := by
  have hle (n : Nat) : divUp (a * w) (b * w) ≤ n ↔ divUp a b ≤ n := by
    rw [divUp_le_iff (Nat.mul_pos hb hw), divUp_le_iff hb, ← Nat.mul_assoc,
      Nat.mul_le_mul_right_iff hw]
  exact Nat.le_antisymm ((hle _).2 (Nat.le_refl _)) ((hle _).1 (Nat.le_refl _))

theorem divUp_mul_lt {a b : Nat} (hb : 0 < b) : divUp a b * b < a + b := by
  have h : divUp a b * b ≤ a + b - 1 := Nat.div_mul_le_self ..
  omega

/-- The numbers below a product, in runs of one length. -/
theorem range_mul (m n : Nat) :
    List.range (m * n) = (List.range m).flatMap fun b => (List.range n).map (b * n + ·) := by
  induction m with
  | zero => rw [Nat.zero_mul, List.range_zero, List.flatMap_nil]
  | succ m ih =>
    rw [Nat.succ_mul, List.range_add, ih, List.range_succ, List.flatMap_append,
      List.flatMap_singleton]

/-! ### Threads and ids -/

theorem toNat_pos {x : UInt32} (h : x ≠ 0) : 0 < x.toNat :=
  Nat.pos_of_ne_zero fun h0 => h (UInt32.toNat_inj.1 h0)

theorem ne_zero_of_toNat_pos {x : UInt32} (h : 0 < x.toNat) : x ≠ 0 := by
  rintro rfl
  exact Nat.lt_irrefl 0 h

namespace Thread

theorem ofGlobal?_eq_ok_iff (id : UInt64) (d : UInt32) (t : Thread) :
    ofGlobal? id d = .ok t ↔
      d ≠ 0 ∧ t = ⟨(id / d.toUInt64).toUInt32, (id % d.toUInt64).toUInt32, d⟩ := by
  unfold ofGlobal?
  split
  case isTrue h => simp [h, fault]
  case isFalse h => simp [h, eq_comm]

/-- The id of a thread is the number of its place, and has no carry to lose. -/
theorem toNat_globalId (t : Thread) :
    t.globalId.toNat = t.blockIdx.toNat * t.blockDim.toNat + t.threadIdx.toNat := by
  have hb : t.blockIdx.toNat * t.blockDim.toNat ≤ (2 ^ 32 - 1) * (2 ^ 32 - 1) :=
    Nat.mul_le_mul (Nat.le_sub_one_of_lt t.blockIdx.toNat_lt)
      (Nat.le_sub_one_of_lt t.blockDim.toNat_lt)
  have ht := t.threadIdx.toNat_lt
  simp only [globalId, UInt64.toNat_add, UInt64.toNat_mul, UInt32.toNat_toUInt64]
  omega

/-- Going to the thread of an id and back keeps as much of the id as a grid can hold. -/
theorem globalId_ofGlobal? {id : UInt64} {d : UInt32} {t : Thread} (h : ofGlobal? id d = .ok t) :
    t.globalId.toNat = id.toNat % (2 ^ 32 * d.toNat) := by
  obtain ⟨hd, rfl⟩ := (ofGlobal?_eq_ok_iff id d t).1 h
  have hpos : 0 < d.toNat := toNat_pos hd
  have hlt := d.toNat_lt
  have hmod := Nat.mod_lt id.toNat hpos
  simp only [toNat_globalId, UInt64.toNat_toUInt32, UInt64.toNat_div, UInt64.toNat_mod,
    UInt32.toNat_toUInt64]
  rw [Nat.mul_comm (2 ^ 32), Nat.mod_mul, Nat.mod_eq_of_lt (Nat.lt_trans hmod hlt), Nat.add_comm,
    Nat.mul_comm]

end Thread

/-! ### Launches -/

theorem mapError_error {ε δ α : Type} (f : ε → δ) (e : ε) :
    (Except.error e : Except ε α).mapError f = .error (f e) :=
  rfl

theorem mapError_ok {ε δ α : Type} (f : ε → δ) (a : α) :
    (Except.ok a : Except ε α).mapError f = .ok a :=
  rfl

/-- Naming an error differently does not touch a result. -/
theorem mapError_eq_ok_iff {ε δ α : Type} (f : ε → δ) (x : Except ε α) (a : α) :
    x.mapError f = .ok a ↔ x = .ok a := by
  cases x with
  | error e => simp only [mapError_error, reduceCtorEq]
  | ok b => simp only [mapError_ok, Except.ok.injEq]

/-- What fails at no item goes through all of them. -/
theorem mapM_ok {β γ ε : Type} (f : β → Except ε γ) (g : β → γ) (items : List β)
    (h : ∀ b ∈ items, f b = .ok (g b)) : items.mapM f = .ok (items.map g) := by
  induction items with
  | nil => rfl
  | cons b rest ih =>
    rw [List.mapM_cons, h b (List.mem_cons_self ..), ih fun c hc => h c (List.mem_cons_of_mem b hc)]
    rfl

namespace Launch

theorem ofSizes?_eq_ok_iff (gridSize blockSize : UInt32) (g : Launch) :
    ofSizes? gridSize blockSize = .ok g ↔
      blockSize ≠ 0 ∧ gridSize ≠ 0 ∧ g = ⟨gridSize, blockSize⟩ := by
  unfold ofSizes?
  split
  case isTrue h => simp [h]
  case isFalse h =>
    split
    case isTrue h' => simp [h']
    case isFalse h' => simp [h, h', eq_comm]

/-- A launch in blocks of threads is sized, and declined only for the number of its blocks. -/
theorem forThreads?_eq (threads : Nat) {blockSize : UInt32} (hb : blockSize ≠ 0) :
    forThreads? threads blockSize =
      let blocks := divUp (max threads 1) blockSize.toNat
      if blocks < UInt32.size then .ok ⟨.ofNat blocks, blockSize⟩
      else .error (.config (.oversizedGrid threads blocks blockSize)) := by
  have hblocks : 0 < divUp (max threads 1) blockSize.toNat := by
    rw [lt_divUp_iff (toNat_pos hb)]
    omega
  unfold forThreads?
  rw [if_neg hb]
  by_cases hfits : divUp (max threads 1) blockSize.toNat < UInt32.size
  · have hne : UInt32.ofNat (divUp (max threads 1) blockSize.toNat) ≠ 0 := by
      intro h0
      have hgrid := UInt32.toNat_ofNat_of_lt' hfits
      rw [h0, UInt32.toNat_zero] at hgrid
      omega
    simp only [hfits, if_true]
    exact (ofSizes?_eq_ok_iff ..).2 ⟨hb, hne, rfl⟩
  · simp only [hfits, if_false]

theorem forThreads?_eq_ok_iff (threads : Nat) (blockSize : UInt32) (g : Launch) :
    forThreads? threads blockSize = .ok g ↔
      blockSize ≠ 0 ∧ g.blockSize = blockSize ∧
        g.gridSize.toNat = divUp (max threads 1) blockSize.toNat := by
  by_cases hb : blockSize = 0
  · simp [forThreads?, hb]
  · rw [forThreads?_eq threads hb, and_iff_right hb]
    by_cases hfits : divUp (max threads 1) blockSize.toNat < UInt32.size
    · simp only [hfits, if_true, Except.ok.injEq]
      refine ⟨?_, ?_⟩
      · rintro rfl
        exact ⟨rfl, UInt32.toNat_ofNat_of_lt' hfits⟩
      · rintro ⟨hsize, hcount⟩
        rw [← hcount, UInt32.ofNat_toNat, ← hsize]
    · simp only [hfits, if_false, reduceCtorEq, false_iff]
      rintro ⟨_, hcount⟩
      exact hfits (hcount ▸ g.gridSize.toNat_lt)

/-- Where the values of one thread are a number that is not zero, only the threads count. -/
theorem forValues?_eq (values : Nat) {perBlock : Nat} {blocksPerThread : UInt32}
    (blockSize : UInt32) (hlt : perBlock * blocksPerThread.toNat < UInt64.size)
    (hne : perBlock * blocksPerThread.toNat ≠ 0) :
    forValues? values perBlock blocksPerThread blockSize =
      (forThreads? (divUp values (perBlock * blocksPerThread.toNat)) blockSize).mapError
        .error := by
  unfold forValues? perThread?
  simp only [hlt, hne, if_true, if_false, bind, Except.bind]

/-- What a granted launch of `values` values is. -/
theorem forValues?_eq_ok_iff (values perBlock : Nat) (blocksPerThread blockSize : UInt32)
    (g : Launch) :
    forValues? values perBlock blocksPerThread blockSize = .ok g ↔
      perBlock * blocksPerThread.toNat < UInt64.size ∧ perBlock * blocksPerThread.toNat ≠ 0 ∧
        forThreads? (divUp values (perBlock * blocksPerThread.toNat)) blockSize = .ok g := by
  by_cases hlt : perBlock * blocksPerThread.toNat < UInt64.size
  · by_cases hz : perBlock * blocksPerThread.toNat = 0
    · simp [forValues?, perThread?, hz, fault, bind, Except.bind]
    · rw [forValues?_eq values blockSize hlt hz, mapError_eq_ok_iff, and_iff_right hlt,
        and_iff_right hz]
  · simp only [forValues?, perThread?, hlt, if_false, fault, bind, Except.bind, false_and,
      reduceCtorEq]

/-- A granted launch has a thread for each that was asked for. -/
theorem threads_le_totalThreads {threads : Nat} {blockSize : UInt32} {g : Launch}
    (h : forThreads? threads blockSize = .ok g) : max threads 1 ≤ g.totalThreads := by
  obtain ⟨hb, hsize, hcount⟩ := (forThreads?_eq_ok_iff ..).1 h
  have hpos : 0 < blockSize.toNat := toNat_pos hb
  rw [totalThreads, hcount, hsize]
  exact le_divUp_mul hpos

/-- A granted launch is one block of threads, or has fewer than twice the threads it was
asked for. -/
theorem totalThreads_lt_or {threads : Nat} {blockSize : UInt32} {g : Launch}
    (h : forThreads? threads blockSize = .ok g) :
    g.totalThreads < 2 ^ 32 ∨ g.totalThreads < 2 * threads := by
  obtain ⟨hb, hsize, hcount⟩ := (forThreads?_eq_ok_iff ..).1 h
  have hpos := toNat_pos hb
  rw [totalThreads, hcount, hsize]
  by_cases hone : max threads 1 ≤ blockSize.toNat
  · have hgrid : divUp (max threads 1) blockSize.toNat ≤ 1 := by
      rw [divUp_le_iff hpos, Nat.one_mul]
      exact hone
    have hblock := Nat.mul_le_mul_right blockSize.toNat hgrid
    have hlt := blockSize.toNat_lt
    left
    omega
  · have hspare := divUp_mul_lt (a := max threads 1) hpos
    right
    omega

theorem totalThreads_lt (g : Launch) : g.totalThreads < 2 ^ 64 := by
  have h : g.totalThreads ≤ (2 ^ 32 - 1) * (2 ^ 32 - 1) :=
    Nat.mul_le_mul (Nat.le_sub_one_of_lt g.gridSize.toNat_lt)
      (Nat.le_sub_one_of_lt g.blockSize.toNat_lt)
  omega

/-! ### The place of an id -/

/-- The thread that stands at an id. -/
def place (g : Launch) (id : Nat) : Thread :=
  ⟨.ofNat (id / g.blockSize.toNat), .ofNat (id % g.blockSize.toNat), g.blockSize⟩

/-- Thread `i` of block `b` stands at the id that its indices come to. -/
theorem place_mul_add (g : Launch) (b : Nat) {i : Nat} (h : i < g.blockSize.toNat) :
    g.place (b * g.blockSize.toNat + i) = ⟨.ofNat b, .ofNat i, g.blockSize⟩ := by
  have hpos : 0 < g.blockSize.toNat := Nat.lt_of_le_of_lt (Nat.zero_le i) h
  rw [place, Nat.add_comm, Nat.add_mul_div_right _ _ hpos, Nat.div_eq_of_lt h, Nat.zero_add,
    Nat.add_mul_mod_self_right, Nat.mod_eq_of_lt h]

section Place
variable {g : Launch} {id : Nat}

/-- An id has 64 bits. -/
theorem toNat_id (h : id < g.totalThreads) : (UInt64.ofNat id).toNat = id :=
  UInt64.toNat_ofNat_of_lt' (Nat.lt_trans h g.totalThreads_lt)

theorem toNat_blockSize_pos (h : id < g.totalThreads) : 0 < g.blockSize.toNat := by
  apply Nat.pos_of_ne_zero
  intro h0
  rw [totalThreads, h0, Nat.mul_zero] at h
  exact Nat.not_lt_zero _ h

/-- The block of a thread in the grid is a block of the grid, so its index has 32 bits. -/
theorem div_blockSize_lt (h : id < g.totalThreads) :
    id / g.blockSize.toNat < g.gridSize.toNat :=
  (Nat.div_lt_iff_lt_mul (toNat_blockSize_pos h)).2 h

theorem toNat_place_blockIdx (h : id < g.totalThreads) :
    (g.place id).blockIdx.toNat = id / g.blockSize.toNat :=
  UInt32.toNat_ofNat_of_lt' (Nat.lt_trans (div_blockSize_lt h) g.gridSize.toNat_lt)

theorem toNat_place_threadIdx (h : id < g.totalThreads) :
    (g.place id).threadIdx.toNat = id % g.blockSize.toNat :=
  UInt32.toNat_ofNat_of_lt'
    (Nat.lt_trans (Nat.mod_lt id (toNat_blockSize_pos h)) g.blockSize.toNat_lt)

theorem toNat_globalId_place (h : id < g.totalThreads) : (g.place id).globalId.toNat = id := by
  rw [Thread.toNat_globalId, toNat_place_blockIdx h, toNat_place_threadIdx h]
  exact Nat.div_add_mod' id g.blockSize.toNat

theorem thread?_eq (h : id < g.totalThreads) : g.thread? (.ofNat id) = .ok (g.place id) := by
  refine (Thread.ofGlobal?_eq_ok_iff ..).2 ⟨ne_zero_of_toNat_pos (toNat_blockSize_pos h), ?_⟩
  rw [place, Thread.mk.injEq]
  refine ⟨UInt32.toNat_inj.1 ?_, UInt32.toNat_inj.1 ?_, rfl⟩
  · rw [UInt64.toNat_toUInt32, UInt64.toNat_div, UInt32.toNat_toUInt64, toNat_id h,
      UInt32.toNat_ofNat']
  · rw [UInt64.toNat_toUInt32, UInt64.toNat_mod, UInt32.toNat_toUInt64, toNat_id h,
      UInt32.toNat_ofNat']

end Place

/-- Every id below the number of threads names a thread, and is its id. -/
theorem thread?_of_lt (g : Launch) {id : Nat} (h : id < g.totalThreads) :
    ∃ t, g.thread? (.ofNat id) = .ok t ∧ t.globalId = .ofNat id := by
  refine ⟨g.place id, thread?_eq h, UInt64.toNat_inj.1 ?_⟩
  rw [toNat_globalId_place h, toNat_id h]

/-! ### The threads of a grid -/

/-- The thread has its place in the grid. -/
def Has (g : Launch) (t : Thread) : Prop :=
  t.blockIdx < g.gridSize ∧ t.threadIdx < g.blockSize ∧ t.blockDim = g.blockSize

theorem has_place {g : Launch} {id : Nat} (h : id < g.totalThreads) : g.Has (g.place id) := by
  refine ⟨UInt32.lt_iff_toNat_lt.2 ?_, UInt32.lt_iff_toNat_lt.2 ?_, rfl⟩
  · rw [toNat_place_blockIdx h]
    exact div_blockSize_lt h
  · rw [toNat_place_threadIdx h]
    exact Nat.mod_lt id (toNat_blockSize_pos h)

theorem Has.globalId_lt {g : Launch} {t : Thread} (h : g.Has t) :
    t.globalId.toNat < g.totalThreads := by
  obtain ⟨hb, hi, hdim⟩ := h
  have hblock : (t.blockIdx.toNat + 1) * g.blockSize.toNat ≤ g.totalThreads :=
    Nat.mul_le_mul_right _ hb
  have hthread : t.threadIdx.toNat < g.blockSize.toNat := hi
  rw [Nat.succ_mul] at hblock
  rw [Thread.toNat_globalId, hdim]
  omega

/-- A thread of a grid stands at its id. -/
theorem Has.place_eq {g : Launch} {t : Thread} (h : g.Has t) :
    g.place t.globalId.toNat = t := by
  obtain ⟨_, hi, hdim⟩ := h
  have hthread : t.threadIdx.toNat < g.blockSize.toNat := hi
  rw [Thread.toNat_globalId, hdim, g.place_mul_add _ hthread, UInt32.ofNat_toNat,
    UInt32.ofNat_toNat, ← hdim]

/-- No two threads of a grid have one id. -/
theorem Has.globalId_inj {g : Launch} {s t : Thread} (hs : g.Has s) (ht : g.Has t)
    (h : s.globalId = t.globalId) : s = t := by
  rw [← hs.place_eq, h, ht.place_eq]

/-- Every id below the number of threads is that of a thread in the grid. -/
theorem exists_has (g : Launch) {id : Nat} (h : id < g.totalThreads) :
    ∃ t, g.Has t ∧ t.globalId.toNat = id :=
  ⟨g.place id, has_place h, toNat_globalId_place h⟩

/-- Every thread of the grid, block by block. -/
def threads (g : Launch) : List Thread :=
  (List.range g.gridSize.toNat).flatMap fun b =>
    (List.range g.blockSize.toNat).map fun t => ⟨.ofNat b, .ofNat t, g.blockSize⟩

/-- The threads of a grid stand at its ids, in their order. -/
theorem map_place (g : Launch) : (List.range g.totalThreads).map g.place = g.threads := by
  rw [totalThreads, range_mul, List.map_flatMap, threads]
  refine congrArg (List.flatMap · (List.range g.gridSize.toNat)) (funext fun b => ?_)
  rw [List.map_map]
  exact List.map_congr_left fun i hi => g.place_mul_add b (List.mem_range.1 hi)

theorem mem_threads (g : Launch) (t : Thread) : t ∈ g.threads ↔ g.Has t := by
  rw [← map_place, List.mem_map]
  refine ⟨?_, ?_⟩
  · rintro ⟨id, hid, rfl⟩
    exact has_place (List.mem_range.1 hid)
  · intro h
    exact ⟨t.globalId.toNat, List.mem_range.2 h.globalId_lt, h.place_eq⟩

end Launch
end Philox
