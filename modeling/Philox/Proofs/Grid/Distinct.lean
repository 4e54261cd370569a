import Philox.Proofs.Grid.Fill

/-! No block is filled in twice.

The blocks of a fill have different counters, even where the subsequence of a thread
wraps or its position carries into the subsequence (`FillPlan.counterAt_inj`), and so
they are different blocks. -/
namespace Philox

variable {p : Params} {l : Layout}

/-- A thread and the number of a block within it are not lost in the 128 bits of a
counter, wherever the threads and the blocks begin. -/
theorem halves_inj {base offset s t b c : Nat} (hs : s < 2 ^ 64) (ht : t < 2 ^ 64)
    (hb : b < 2 ^ 64) (hc : c < 2 ^ 64)
    (h : ((base + s) % 2 ^ 64 * 2 ^ 64 + offset + b) % 2 ^ 128 =
      ((base + t) % 2 ^ 64 * 2 ^ 64 + offset + c) % 2 ^ 128) :
    s = t ∧ b = c := by
  have hsum : (base + s) % 2 ^ 64 * 2 ^ 64 + b = (base + t) % 2 ^ 64 * 2 ^ 64 + c := by omega
  omega

/-- Two blocks of threads that a launch may have are not on one counter. -/
theorem FillPlan.counterAt_inj (plan : FillPlan) (hn : 0 < plan.blocksPerThread.toNat) {i j : Nat}
    (hi : i / plan.blocksPerThread.toNat < 2 ^ 64) (hj : j / plan.blocksPerThread.toNat < 2 ^ 64)
    (h : plan.counterAt i % 2 ^ 128 = plan.counterAt j % 2 ^ 128) : i = j := by
  have hlt : ∀ k, k % plan.blocksPerThread.toNat < 2 ^ 64 := fun k =>
    Nat.lt_trans (Nat.lt_trans (Nat.mod_lt k hn) plan.blocksPerThread.toNat_lt) (by decide)
  obtain ⟨hthread, hblock⟩ := halves_inj hi hj (hlt i) (hlt j) h
  rw [← Nat.div_add_mod i plan.blocksPerThread.toNat, hthread, hblock, Nat.div_add_mod]

namespace Grid

/-- The whole blocks in the buffer are the blocks of the fill. -/
theorem extract_fill (g : Grid p l) (workers : Schedule) (buffer : Array UInt32) {launch : Launch}
    (h : (g.fillUnder workers .words buffer).result = .ok launch) {j : Nat}
    (hj : 4 * j + 4 ≤ buffer.size) :
    (g.fillUnder workers .words buffer).contents.extract (4 * j) (4 * j + 4) =
      (g.plan.block p l j).toArray := by
  rw [g.contents_words workers buffer h]
  apply Array.ext
  · rw [Array.size_extract, Array.size_ofFn, Vector.size_toArray]
    omega
  · intro i hi hi4
    rw [Vector.size_toArray] at hi4
    have hblock : (4 * j + i) / 4 = j := by omega
    have hlane : (4 * j + i) % 4 = i := by omega
    rw [Array.getElem_extract, Array.getElem_ofFn]
    simp only [hblock, hlane, Vector.getElem_toArray]

/-- Every block in the buffer belongs to a thread of the launch. -/
theorem thread_lt (g : Grid p l) {length : Nat} {launch : Launch}
    (h : g.launch? length 4 = .ok launch) {j : Nat} (hj : 4 * j < length) :
    j / g.plan.blocksPerThread.toNat < launch.totalThreads := by
  have hchunk : 0 < 4 * g.plan.blocksPerThread.toNat := g.chunkSize_pos .words
  have hbegin := Nat.div_mul_le_self j g.plan.blocksPerThread.toNat
  apply g.chunk_lt .words h
  show _ < divUp length (4 * g.plan.blocksPerThread.toNat)
  rw [lt_divUp_iff hchunk, Nat.mul_left_comm]
  omega

/-- **Two whole blocks in a filled buffer are never the same**, whether one thread made
them or two. -/
theorem fill_blocks_ne (g : Grid p l) (workers : Schedule) (buffer : Array UInt32)
    (launch : Launch) (h : (g.fillUnder workers .words buffer).result = .ok launch) (i j : Nat)
    (hi : 4 * i + 4 ≤ buffer.size) (hj : 4 * j + 4 ≤ buffer.size) (hij : i ≠ j) :
    (g.fillUnder workers .words buffer).contents.extract (4 * i) (4 * i + 4) ≠
      (g.fillUnder workers .words buffer).contents.extract (4 * j) (4 * j + 4) := by
  have hlaunch := (g.result_eq_ok_iff ..).1 h
  have hlt : ∀ k, 4 * k + 4 ≤ buffer.size → k / g.plan.blocksPerThread.toNat < 2 ^ 64 :=
    fun k hk => Nat.lt_trans (g.thread_lt hlaunch (by omega)) launch.totalThreads_lt
  rw [g.extract_fill workers buffer h hi, g.extract_fill workers buffer h hj]
  intro hsame
  apply hij
  apply g.plan.counterAt_inj g.blocksPerThread_pos (hlt i hi) (hlt j hj)
  exact (Keystream.block_eq_iff ..).1 (Vector.toArray_inj.1 hsame)

theorem fill_blocks_ne_atEnd :
    (atEnd.fillUnder .sequential .words (.replicate 16 0)).result = .ok ⟨1, 2⟩ ∧
      (atEnd.fillUnder .sequential .words (.replicate 16 0)).contents.extract (4 * 0) (4 * 0 + 4) ≠
        (atEnd.fillUnder .sequential .words (.replicate 16 0)).contents.extract
          (4 * 3) (4 * 3 + 4) := by
  have h : (atEnd.fillUnder .sequential .words (.replicate 16 0)).result = .ok ⟨1, 2⟩ :=
    (atEnd.result_eq_ok_iff ..).2 (by rfl)
  exact ⟨h, atEnd.fill_blocks_ne .sequential (.replicate 16 0) ⟨1, 2⟩ h 0 3
    (by decide) (by decide) (by decide)⟩

end Grid
end Philox
