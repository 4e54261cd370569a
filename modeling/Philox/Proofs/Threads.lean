import Mathlib.Data.List.Nodup
import Philox.Proofs.Launch

/-! A grid visits each of its threads once.

The ids of a grid run through its blocks one after the other (`map_place`), so the threads that
are visited by their ids are the threads of the blocks, block by block (`threads?_eq`), and
their ids are `0`, `1` and so on (`map_globalId_threads`). A grid without threads has nothing to
visit, and does not divide by the zero among its sizes. Outside a grid an id comes back cut to
what 32 bits of block index can hold (`Thread.globalId_eq_iff`). -/
namespace Philox

namespace Thread

/-- No sum or product of an id has a carry to lose, whatever the indices are. -/
theorem blockIdx_mul_add_lt (t : Thread) :
    t.blockIdx.toNat * t.blockDim.toNat + t.threadIdx.toNat < 2 ^ 64 := by
  rw [← toNat_globalId]
  exact t.globalId.toNat_lt

theorem globalId_eq_iff {id : UInt64} {d : UInt32} {t : Thread} (h : ofGlobal? id d = .ok t) :
    t.globalId = id ↔ id.toNat / d.toNat < 2 ^ 32 := by
  obtain ⟨hd, _⟩ := (ofGlobal?_eq_ok_iff id d t).1 h
  have hpos : 0 < d.toNat := toNat_pos hd
  have hmax : 2 ^ 32 * d.toNat ≠ 0 := Nat.ne_of_gt (Nat.mul_pos (by decide) hpos)
  rw [← UInt64.toNat_inj, globalId_ofGlobal? h, Nat.mod_eq_iff_lt hmax,
    Nat.div_lt_iff_lt_mul hpos]

end Thread

namespace Launch

/-- The visit of a grid goes through its blocks, and fails at no thread. -/
theorem threads?_eq (g : Launch) : g.threads? = .ok g.threads := by
  rw [threads?, mapM_ok _ g.place, map_place]
  intro id hid
  exact thread?_eq (List.mem_range.1 hid)

theorem map_globalId_threads (g : Launch) :
    g.threads.map (·.globalId.toNat) = List.range g.totalThreads := by
  rw [← map_place, List.map_map]
  refine (List.map_congr_left ?_).trans (List.map_id _)
  intro id hid
  exact toNat_globalId_place (List.mem_range.1 hid)

/-- A thread that stood at two places of the visit would have two ids. -/
theorem nodup_threads (g : Launch) : g.threads.Nodup := by
  apply List.Nodup.of_map (·.globalId.toNat)
  rw [map_globalId_threads]
  exact List.nodup_range

/-- **A grid visits every thread once, and each at its own id**, for all sizes, zero included.
Any id, in blocks of any size, comes back modulo the threads of the largest grid, and the id of
a thread is what its indices come to. -/
theorem threads_visited_once :
    (∀ g : Launch, ∃ visited, g.threads? = .ok visited ∧ visited.Nodup ∧
        (∀ t, t ∈ visited ↔ g.Has t) ∧
        visited.map (·.globalId.toNat) = List.range g.totalThreads ∧ g.totalThreads < 2 ^ 64 ∧
        ∀ id < g.totalThreads, ∃ t, g.thread? (.ofNat id) = .ok t ∧ t.globalId.toNat = id) ∧
      (∀ (id : UInt64) (d : UInt32), 0 < d.toNat →
        ∃ t, Thread.ofGlobal? id d = .ok t ∧
          t.globalId.toNat = id.toNat % (2 ^ 32 * d.toNat) ∧
          (t.globalId = id ↔ id.toNat / d.toNat < 2 ^ 32)) ∧
      ∀ t : Thread, t.blockIdx.toNat * t.blockDim.toNat + t.threadIdx.toNat < 2 ^ 64 ∧
        t.globalId.toNat = t.blockIdx.toNat * t.blockDim.toNat + t.threadIdx.toNat := by
  refine ⟨?_, ?_, fun t => ⟨t.blockIdx_mul_add_lt, t.toNat_globalId⟩⟩
  · intro g
    refine ⟨g.threads, g.threads?_eq, g.nodup_threads, g.mem_threads, g.map_globalId_threads,
      g.totalThreads_lt, ?_⟩
    intro id hid
    exact ⟨g.place id, thread?_eq hid, toNat_globalId_place hid⟩
  · intro id d hpos
    have ht := (Thread.ofGlobal?_eq_ok_iff id d _).2 ⟨ne_zero_of_toNat_pos hpos, rfl⟩
    exact ⟨_, ht, Thread.globalId_ofGlobal? ht, Thread.globalId_eq_iff ht⟩

/-- The last thread of two blocks of three, and the first id that has no block of three. -/
theorem threads_visited_once_two_by_three :
    (∃ t, (⟨2, 3⟩ : Launch).thread? 5 = .ok t ∧ t.globalId.toNat = 5) ∧
      ∃ t, Thread.ofGlobal? 0x300000000 3 = .ok t ∧ t.globalId.toNat = 0 ∧
        t.globalId ≠ 0x300000000 := by
  obtain ⟨hgrid, hglobal, _⟩ := threads_visited_once
  obtain ⟨_, _, _, _, _, _, hids⟩ := hgrid ⟨2, 3⟩
  obtain ⟨t, ht, hmod, heq⟩ := hglobal 0x300000000 3 (by decide)
  refine ⟨hids 5 (by decide), t, ht, hmod, ?_⟩
  rw [ne_eq, heq]
  decide

end Launch
end Philox
