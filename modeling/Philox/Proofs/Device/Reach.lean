import Philox.Device.Invocation
import Philox.Proofs.Launch

/-! Which thread of the word kernel reaches which index.

The kernel counts what a thread stores in a word, and indices in 64 bits. `Fits` says when
neither count is cut short where it matters: then each index belongs to the thread in
whose chunk it lies (`reaches_iff`). Otherwise some thread stores where thread 0 does
(`exists_overlap`). -/
namespace Philox.Device.Invocation

/-! ### Chunks and strides -/

/-- The values that a thread of the word kernel makes. -/
def chunk (v : Invocation) : Nat := 4 * v.blocksPerThread.toNat

/-- How far the kernel puts its threads apart. -/
def stride (v : Invocation) : Nat := v.chunk % 2 ^ 32

/-- Thread `id` stores at index `i`. -/
def Reaches (v : Invocation) (id i : Nat) : Prop :=
  id * v.stride % 2 ^ 64 < v.length.toNat ∧ i < v.length.toNat ∧
    ∃ r < v.chunk, (id * v.stride % 2 ^ 64 + r) % 2 ^ 64 = i

/-- What the kernel can count: a buffer that thread 0 fills before the next thread begins, a
launch of one thread, or threads apart by as much as they make, of which the last to store
does not reach past 2^64 and the last of the launch does not begin past it. -/
def Fits (v : Invocation) : Prop :=
  v.length.toNat ≤ v.stride ∨ v.launch.totalThreads = 1 ∨
    v.chunk < 2 ^ 32 ∧ divUp v.length.toNat v.chunk * v.chunk ≤ 2 ^ 64 ∧
      (v.launch.totalThreads - 1) * v.chunk < 2 ^ 64

instance (v : Invocation) : Decidable v.Fits := inferInstanceAs (Decidable (_ ∨ _ ∨ _ ∧ _ ∧ _))

/-- What is known of the shape of a launch that was prepared. -/
structure Sized (v : Invocation) : Prop where
  chunk_pos : 0 < v.chunk
  enough : max (divUp v.length.toNat v.chunk) 1 ≤ v.launch.totalThreads
  spare : v.launch.totalThreads < 2 ^ 32 ∨
    v.launch.totalThreads < 2 * divUp v.length.toNat v.chunk

variable {v : Invocation}

theorem chunk_lt (v : Invocation) : v.chunk < 2 ^ 34 := by
  have h := v.blocksPerThread.toNat_lt
  unfold chunk
  omega

theorem stride_le (v : Invocation) : v.stride ≤ v.chunk := Nat.mod_le ..

theorem stride_lt (v : Invocation) : v.stride < 2 ^ 32 := Nat.mod_lt _ (by decide)

theorem stride_eq (h : v.chunk < 2 ^ 32) : v.stride = v.chunk := Nat.mod_eq_of_lt h

/-! ### A launch that fits -/

/-- In a buffer for one thread, only thread 0 begins inside it. -/
theorem Sized.base_of_le (hs : v.Sized) (hn : v.length.toNat ≤ v.stride) {id : Nat}
    (hid : id < v.launch.totalThreads)
    (h : id * v.stride % 2 ^ 64 < v.length.toNat ∨ id * v.chunk < v.length.toNat) : id = 0 := by
  have hone : divUp v.length.toNat v.chunk ≤ 1 := by
    rw [divUp_le_iff hs.chunk_pos, Nat.one_mul]
    exact Nat.le_trans hn v.stride_le
  have hthreads : v.launch.totalThreads < 2 ^ 32 := by
    have := hs.spare
    omega
  have hbase : id * v.stride ≤ (2 ^ 32 - 1) * (2 ^ 32 - 1) :=
    Nat.mul_le_mul (by omega) (Nat.le_sub_one_of_lt v.stride_lt)
  have hstep := Nat.mul_le_mul_left id v.stride_le
  rw [Nat.mod_eq_of_lt (Nat.lt_of_le_of_lt hbase (by decide))] at h
  have hlt : id * v.stride < 1 * v.stride := by omega
  exact Nat.lt_one_iff.1 (Nat.lt_of_mul_lt_mul_right hlt)

/-- A thread that stores begins where its chunk does, and ends before 2^64. -/
theorem Sized.base_eq (hs : v.Sized) (hf : v.Fits) {id : Nat} (hid : id < v.launch.totalThreads)
    (h : id * v.stride % 2 ^ 64 < v.length.toNat ∨ id * v.chunk < v.length.toNat) :
    id * v.stride % 2 ^ 64 = id * v.chunk ∧ (id + 1) * v.chunk ≤ 2 ^ 64 := by
  have hchunk := v.chunk_lt
  have hfirst : id = 0 → id * v.stride % 2 ^ 64 = id * v.chunk ∧ (id + 1) * v.chunk ≤ 2 ^ 64 := by
    intro h
    subst h
    rw [Nat.zero_mul, Nat.zero_mul, Nat.zero_add, Nat.one_mul]
    exact ⟨rfl, by omega⟩
  rcases hf with hn | hone | ⟨hword, hlast, hspare⟩
  · exact hfirst (hs.base_of_le hn hid h)
  · exact hfirst (by omega)
  · have hbegin : id * v.chunk ≤ (v.launch.totalThreads - 1) * v.chunk :=
      Nat.mul_le_mul_right _ (by omega)
    have hbase : id * v.chunk % 2 ^ 64 = id * v.chunk := Nat.mod_eq_of_lt (by omega)
    rw [stride_eq hword, hbase, or_self] at h
    have hactive : id + 1 ≤ divUp v.length.toNat v.chunk := (lt_divUp_iff hs.chunk_pos).2 h
    rw [stride_eq hword]
    exact ⟨hbase, Nat.le_trans (Nat.mul_le_mul_right _ hactive) hlast⟩

/-- The thread in whose chunk an index lies is in the launch. -/
theorem Sized.thread_lt (hs : v.Sized) {i : Nat} (hi : i < v.length.toNat) :
    i / v.chunk < v.launch.totalThreads := by
  have hbegin := Nat.div_mul_le_self i v.chunk
  have hactive := (lt_divUp_iff hs.chunk_pos).2 (Nat.lt_of_le_of_lt hbegin hi)
  exact Nat.lt_of_lt_of_le hactive (Nat.le_trans (Nat.le_max_left ..) hs.enough)

/-- The place of an index after the beginning of its thread. -/
theorem Sized.place_eq (hs : v.Sized) (hf : v.Fits) {id r : Nat}
    (hid : id < v.launch.totalThreads) (hbase : id * v.stride % 2 ^ 64 < v.length.toNat)
    (hr : r < v.chunk) :
    (id * v.stride % 2 ^ 64 + r) % 2 ^ 64 / v.chunk = id ∧
      (id * v.stride % 2 ^ 64 + r) % 2 ^ 64 % v.chunk = r := by
  obtain ⟨hbegin, hend⟩ := hs.base_eq hf hid (.inl hbase)
  rw [Nat.succ_mul] at hend
  rw [hbegin, Nat.mod_eq_of_lt (by omega), Nat.mul_comm id, Nat.mul_add_div hs.chunk_pos,
    Nat.mul_add_mod, Nat.div_eq_of_lt hr, Nat.mod_eq_of_lt hr]
  exact ⟨rfl, rfl⟩

/-- **In a launch that fits, an index belongs to the thread in whose chunk it lies.** -/
theorem Sized.reaches_iff (hs : v.Sized) (hf : v.Fits) {id i : Nat}
    (hid : id < v.launch.totalThreads) :
    v.Reaches id i ↔ i < v.length.toNat ∧ i / v.chunk = id := by
  refine ⟨?_, ?_⟩
  · intro h
    obtain ⟨hbase, hi, r, hr, rfl⟩ := h
    exact ⟨hi, (hs.place_eq hf hid hbase hr).1⟩
  · intro h
    obtain ⟨hi, rfl⟩ := h
    have hchunk : i / v.chunk * v.chunk < v.length.toNat :=
      Nat.lt_of_le_of_lt (Nat.div_mul_le_self ..) hi
    obtain ⟨hbegin, _⟩ := hs.base_eq hf hid (.inr hchunk)
    have hlength := v.length.toNat_lt
    refine ⟨by rw [hbegin]; exact hchunk, hi, i % v.chunk, Nat.mod_lt i hs.chunk_pos, ?_⟩
    rw [hbegin, Nat.mul_comm, Nat.div_add_mod, Nat.mod_eq_of_lt (Nat.lt_trans hi hlength)]

/-- With fewer than 2^30 blocks to a thread, every buffer of up to 2^63 values fits. -/
theorem Sized.fits_of_lt (hs : v.Sized) (hb : v.blocksPerThread.toNat < 2 ^ 30)
    (hn : v.length.toNat ≤ 2 ^ 63) : v.Fits := by
  have hword : v.chunk < 2 ^ 32 := by
    unfold chunk
    omega
  have hlast := divUp_mul_lt (a := v.length.toNat) hs.chunk_pos
  refine .inr (.inr ⟨hword, by omega, ?_⟩)
  rcases hs.spare with hblock | htwice
  · have hbegin : (v.launch.totalThreads - 1) * v.chunk ≤ (2 ^ 32 - 1) * (2 ^ 32 - 1) :=
      Nat.mul_le_mul (by omega) (by omega)
    omega
  · have hbegin : (v.launch.totalThreads - 1) * v.chunk ≤
        2 * ((divUp v.length.toNat v.chunk - 1) * v.chunk) := by
      rw [← Nat.mul_assoc]
      exact Nat.mul_le_mul_right _ (by omega)
    have hinside : (divUp v.length.toNat v.chunk - 1) * v.chunk < v.length.toNat :=
      (lt_divUp_iff hs.chunk_pos).1 (by omega)
    omega

/-! ### A launch that does not fit -/

/-- Thread 0 reaches the whole front of the buffer. -/
theorem reaches_zero {i : Nat} (hi : i < v.length.toNat) (hr : i < v.chunk) : v.Reaches 0 i := by
  have hlength := v.length.toNat_lt
  refine ⟨?_, hi, i, hr, ?_⟩
  · rw [Nat.zero_mul, Nat.zero_mod]
    omega
  · rw [Nat.zero_mul, Nat.zero_mod, Nat.zero_add, Nat.mod_eq_of_lt (by omega)]

/-- A thread reaches the index it begins at. -/
theorem reaches_base (hs : v.Sized) {id : Nat} (h : id * v.stride % 2 ^ 64 < v.length.toNat) :
    v.Reaches id (id * v.stride % 2 ^ 64) :=
  ⟨h, h, 0, hs.chunk_pos, by rw [Nat.add_zero, Nat.mod_mod]⟩

/-- A stride that is cut short puts thread 1 into the chunk of thread 0. -/
theorem Sized.overlap_of_stride (hs : v.Sized) (hn : v.stride < v.length.toNat)
    (hword : 2 ^ 32 ≤ v.chunk) : ∃ i, v.Reaches 0 i ∧ v.Reaches 1 i := by
  have hlt := v.stride_lt
  have hbase : 1 * v.stride % 2 ^ 64 = v.stride := by omega
  exact ⟨1 * v.stride % 2 ^ 64, reaches_zero (by omega) (by omega), reaches_base hs (by omega)⟩

/-- If the last thread that stores reaches past 2^64, it reaches index 0. -/
theorem Sized.overlap_of_last (hs : v.Sized) (hword : v.chunk < 2 ^ 32) {id : Nat}
    (hid : divUp v.length.toNat v.chunk = id + 1) (hlast : 2 ^ 64 < (id + 1) * v.chunk) :
    ∃ i, v.Reaches 0 i ∧ v.Reaches id i := by
  have hlt := divUp_mul_lt (a := v.length.toNat) hs.chunk_pos
  have hlength := v.length.toNat_lt
  rw [hid] at hlt
  rw [Nat.succ_mul] at hlast hlt
  have hbase : id * v.stride % 2 ^ 64 = id * v.chunk := by
    rw [stride_eq hword]
    exact Nat.mod_eq_of_lt (by omega)
  refine ⟨0, reaches_zero (by omega) hs.chunk_pos, by omega, by omega, 2 ^ 64 - id * v.chunk,
    by omega, ?_⟩
  rw [hbase]
  omega

/-- The first thread that begins past 2^64 begins in the chunk of thread 0. -/
theorem Sized.overlap_of_spare (hs : v.Sized) (hn : v.stride < v.length.toNat)
    (hword : v.chunk < 2 ^ 32) : ∃ i, v.Reaches 0 i ∧ v.Reaches (divUp (2 ^ 64) v.chunk) i := by
  have hstride := stride_eq hword
  have hpast := le_divUp_mul (a := 2 ^ 64) hs.chunk_pos
  have hbefore := divUp_mul_lt (a := 2 ^ 64) hs.chunk_pos
  have hbase : divUp (2 ^ 64) v.chunk * v.stride % 2 ^ 64 < v.chunk := by
    rw [hstride]
    omega
  have hinside : divUp (2 ^ 64) v.chunk * v.stride % 2 ^ 64 < v.length.toNat := by omega
  exact ⟨_, reaches_zero hinside hbase, reaches_base hs hinside⟩

/-- **In a launch that does not fit, some thread stores where thread 0 does.** -/
theorem Sized.exists_overlap (hs : v.Sized) (hf : ¬v.Fits) :
    ∃ id, id ≠ 0 ∧ id < v.launch.totalThreads ∧ ∃ i, v.Reaches 0 i ∧ v.Reaches id i := by
  simp only [Fits, not_or, not_and, Nat.not_le, Nat.not_lt] at hf
  obtain ⟨hn, hone, hcounts⟩ := hf
  have henough := hs.enough
  by_cases hword : v.chunk < 2 ^ 32
  · by_cases hlast : divUp v.length.toNat v.chunk * v.chunk ≤ 2 ^ 64
    · have hspare : divUp (2 ^ 64) v.chunk ≤ v.launch.totalThreads - 1 :=
        (divUp_le_iff hs.chunk_pos).2 (hcounts hword hlast)
      have hpos : 0 < divUp (2 ^ 64) v.chunk := (lt_divUp_iff hs.chunk_pos).2 (by omega)
      exact ⟨_, by omega, by omega, hs.overlap_of_spare hn hword⟩
    · have hmany : 1 < divUp v.length.toNat v.chunk := by
        rw [lt_divUp_iff hs.chunk_pos, Nat.one_mul, ← stride_eq hword]
        exact hn
      obtain ⟨id, hid⟩ := Nat.exists_eq_add_one.2 (Nat.lt_of_succ_lt hmany)
      rw [hid] at hlast
      exact ⟨id, by omega, by omega, hs.overlap_of_last hword hid (Nat.not_le.1 hlast)⟩
  · exact ⟨1, by decide, by omega, hs.overlap_of_stride hn (Nat.not_lt.1 hword)⟩

end Philox.Device.Invocation
