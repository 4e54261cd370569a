import Philox.Proofs.Device.Fill
import Philox.Proofs.Device.Invocation

/-! A fill on a device and a fill on the host.

`Matches` says what a launch of the word kernel owes: every index is stored to by exactly
one thread, none past the end, and the buffer ends up as a fill of the grid leaves it. A
prepared launch owes it and keeps it exactly if it `Fits` (`matches_iff_fits`). A buffer
that a host can hold fits with fewer than 2^30 blocks to a thread
(`fits_of_lt`); with 2^30 of them two threads share one index. -/
namespace Philox.Device.Invocation
open Kernels

/-! ### Runs -/

/-- The thread stores something at an index. -/
def StoresAt (v : Invocation) (kernel : String) (t : Thread) (i : UInt64) : Prop :=
  ∃ stores x, v.stores kernel t = some stores ∧ (i, x) ∈ stores

/-- A buffer after every thread of the launch has run a kernel, their stores made in the
order of a schedule. -/
def run? (v : Invocation) (kernel : String) (workers : Schedule) (buffer : Array Value) :
    Option (Array Value) := do
  let tasks ← v.launch.threads.mapM (v.stores kernel)
  return Store.applyAll buffer ((workers.order tasks).map fun (i, x) => ⟨i.toNat, [x]⟩)

/-- A launch of the word kernel does what a fill of the grid does. -/
structure Matches {p : Params} {l : Layout} (v : Invocation) (g : Grid p l) : Prop where
  once : ∀ i < v.length, ∃ t, v.launch.Has t ∧ v.StoresAt fillWordsKernel t i ∧
    ∀ s, v.launch.Has s → v.StoresAt fillWordsKernel s i → s = t
  inside : ∀ t i, v.launch.Has t → v.StoresAt fillWordsKernel t i → i < v.length
  contents : ∀ (workers hostWorkers : Schedule) (buffer dest : Array UInt32),
    buffer.size = v.length.toNat → dest.size = v.length.toNat →
      v.run? fillWordsKernel workers (buffer.map .word) =
        some ((g.fillUnder hostWorkers .words dest).contents.map .word)

theorem run?_eq {v : Invocation} {kernel : String} {tasks : Thread → List (UInt64 × Value)}
    (h : ∀ t, v.stores kernel t = some (tasks t)) (workers : Schedule) (buffer : Array Value) :
    v.run? kernel workers buffer =
      some (Store.applyAll buffer ((workers.order (v.launch.threads.map tasks)).map
        fun (i, x) => ⟨i.toNat, [x]⟩)) := by
  have hstores : v.stores kernel = fun t => pure (tasks t) := funext h
  rw [run?, hstores, List.mapM_pure]
  rfl

/-! ### Stores -/

theorem toNat_base (v : Invocation) (t : Thread) :
    (v.base 4 t).toNat = t.globalId.toNat * v.stride % 2 ^ 64 := by
  have hstride : (UInt32.ofNat 4 * v.blocksPerThread).toUInt64.toNat = v.stride := by
    rw [UInt32.toNat_toUInt64, UInt32.toNat_mul]
    rfl
  rw [base, UInt64.toNat_mul, hstride]

/-- What the word kernel stores, and where, in numbers. -/
theorem mem_stores_iff {v : Invocation} {t : Thread} {stores : List (UInt64 × Value)}
    (h : v.stores fillWordsKernel t = some stores) (i : UInt64) (x : Value) :
    (i, x) ∈ stores ↔
      t.globalId.toNat * v.stride % 2 ^ 64 < v.length.toNat ∧ i.toNat < v.length.toNat ∧
        ∃ r < v.chunk, (t.globalId.toNat * v.stride % 2 ^ 64 + r) % 2 ^ 64 = i.toNat ∧
          x = .word (v.word t r) := by
  rw [mem_fillWords v t h, UInt64.lt_iff_toNat_lt, UInt64.lt_iff_toNat_lt, toNat_base]
  rfl

theorem storesAt_iff (v : Invocation) (t : Thread) (i : UInt64) :
    v.StoresAt fillWordsKernel t i ↔ v.Reaches t.globalId.toNat i.toNat := by
  refine ⟨?_, ?_⟩
  · intro h
    obtain ⟨stores, x, hstores, hx⟩ := h
    obtain ⟨hbase, hi, r, hr, hplace, _⟩ := (mem_stores_iff hstores i x).1 hx
    exact ⟨hbase, hi, r, hr, hplace⟩
  · intro h
    obtain ⟨hbase, hi, r, hr, hplace⟩ := h
    exact ⟨_, _, fillWords_stores v t,
      (mem_stores_iff (fillWords_stores v t) i _).2 ⟨hbase, hi, r, hr, hplace, rfl⟩⟩

section Prepared

variable {plan : FillPlan} {p : Params} {l : Layout} {length : UInt64} {v : Invocation}

/-- The blocks of a device thread are those of the host thread with its id. -/
theorem toWords_output (h : prepare? plan p length 4 = .ok v) (t : Thread) {b : Nat}
    (hb : b < plan.blocksPerThread.toNat) :
    Storage.toWords (v.output t b) =
      plan.block p l (t.globalId.toNat * plan.blocksPerThread.toNat + b) := by
  rw [eq_of_prepare h]
  have hstart : (of plan p length v.launch).start t =
      (plan.baseSubsequence.toNat + t.globalId.toNat) % 2 ^ 64 * 2 ^ 64 + plan.offset.toNat := by
    rw [start, UInt64.toNat_add]
    rfl
  have hsame : plan.SameStreams plan := rfl
  rw [← hsame.block_eq p l .lanes, FillPlan.block, FillPlan.counterAt_block _ _ hb, output, hstart]
  rfl

/-- A launch that fits stores at each index the word that a fill puts there. -/
theorem word_of_fits (h : prepare? plan p length 4 = .ok v) (hf : v.Fits) {t : Thread}
    (ht : v.launch.Has t) {stores : List (UInt64 × Value)}
    (hstores : v.stores fillWordsKernel t = some stores) {i : UInt64} {x : Value}
    (hx : (i, x) ∈ stores) :
    x = .word (plan.block p l (i.toNat / 4))[i.toNat % 4] := by
  obtain ⟨hbase, _, r, hr, hplace, hvalue⟩ := (mem_stores_iff hstores i x).1 hx
  obtain ⟨hthread, hrest⟩ := (sized_of_prepare h).place_eq hf ht.globalId_lt hbase hr
  have hchunk : v.chunk = 4 * plan.blocksPerThread.toNat := by
    rw [eq_of_prepare h]
    rfl
  rw [hplace, hchunk] at hthread hrest
  have hblock : r / 4 = i.toNat / 4 % plan.blocksPerThread.toNat := by
    rw [← hrest, Nat.mod_mul_right_div_self]
  have hlane : r % 4 = i.toNat % 4 := by
    rw [← hrest, Nat.mod_mul_right_mod]
  have hlt : r / 4 < plan.blocksPerThread.toNat := by
    have : r < 4 * plan.blocksPerThread.toNat := hchunk ▸ hr
    omega
  have hindex : t.globalId.toNat * plan.blocksPerThread.toNat + r / 4 = i.toNat / 4 := by
    rw [hblock, ← hthread, ← Nat.div_div_eq_div_mul, Nat.div_add_mod']
  rw [hvalue]
  simp only [word, toWords_output (l := l) h t hlt, Fin.getElem_fin, Fin.val_ofNat, hindex,
    hlane]

/-- In a launch that fits, the thread in whose chunk an index lies stores there. -/
theorem storesAt_of_fits (h : prepare? plan p length 4 = .ok v) (hf : v.Fits) {t : Thread}
    (ht : v.launch.Has t) (i : UInt64) :
    v.StoresAt fillWordsKernel t i ↔ i < v.length ∧ i.toNat / v.chunk = t.globalId.toNat := by
  rw [storesAt_iff, (sized_of_prepare h).reaches_iff hf ht.globalId_lt, UInt64.lt_iff_toNat_lt]

/-- **In a launch that fits, every index is stored to by one thread and no other.** -/
theorem once_of_fits (h : prepare? plan p length 4 = .ok v) (hf : v.Fits) {i : UInt64}
    (hi : i < v.length) :
    ∃ t, v.launch.Has t ∧ v.StoresAt fillWordsKernel t i ∧
      ∀ s, v.launch.Has s → v.StoresAt fillWordsKernel s i → s = t := by
  obtain ⟨t, ht, hid⟩ := v.launch.exists_has
    ((sized_of_prepare h).thread_lt (UInt64.lt_iff_toNat_lt.1 hi))
  refine ⟨t, ht, (storesAt_of_fits h hf ht i).2 ⟨hi, hid.symm⟩, ?_⟩
  intro s hs hstore
  obtain ⟨_, hsid⟩ := (storesAt_of_fits h hf hs i).1 hstore
  apply hs.globalId_inj ht
  apply UInt64.toNat_inj.1
  rw [← hsid, hid]

/-- **A launch that fits leaves the words of the fill in its buffer**, in whatever order its
threads store. -/
theorem run?_of_fits (h : prepare? plan p length 4 = .ok v) (hf : v.Fits) (workers : Schedule)
    (buffer : Array Value) (hsize : buffer.size = v.length.toNat) :
    v.run? fillWordsKernel workers buffer =
      some (.ofFn fun i : Fin buffer.size => .word (plan.block p l (i / 4))[i.val % 4]) := by
  rw [run?_eq (fillWords_stores v), Option.some_inj]
  apply Store.applyAll_eq_ofFn (f := fun i => Value.word (plan.block p l (i / 4))[i % 4])
  · intro s hs j a _ hat
    obtain ⟨⟨i, x⟩, hmem, rfl⟩ := List.mem_map.1 hs
    obtain ⟨task, htask, hx⟩ := (workers.mem_order ..).1 hmem
    obtain ⟨t, ht, rfl⟩ := List.mem_map.1 htask
    have hword := word_of_fits (l := l) h hf ((v.launch.mem_threads t).1 ht)
      (fillWords_stores v t) hx
    rw [Store.at?_single] at hat
    split at hat
    case isFalse => contradiction
    case isTrue hj =>
      cases hat
      rw [hword, hj]
  · intro j hj
    rw [hsize] at hj
    have hindex : (UInt64.ofNat j).toNat = j :=
      UInt64.toNat_ofNat_of_lt' (Nat.lt_trans hj v.length.toNat_lt)
    have hi : UInt64.ofNat j < v.length := by
      rw [UInt64.lt_iff_toNat_lt, hindex]
      exact hj
    obtain ⟨t, ht, ⟨stores, x, hstores, hx⟩, _⟩ := once_of_fits h hf hi
    rw [fillWords_stores, Option.some_inj] at hstores
    rw [← hstores] at hx
    refine ⟨_, List.mem_map.2 ⟨_, (workers.mem_order ..).2
      ⟨_, List.mem_map.2 ⟨t, (v.launch.mem_threads t).2 ht, rfl⟩, hx⟩, rfl⟩, ?_⟩
    rw [Store.at?_single, hindex, if_pos rfl]
    rfl

theorem matches_of_fits (h : prepare? plan p length 4 = .ok v) (hf : v.Fits) {g : Grid p l}
    (hg : g.plan = plan) (hlaunch : g.launch? v.length.toNat 4 = .ok v.launch) : v.Matches g := by
  refine ⟨fun i hi => once_of_fits h hf hi, ?_, ?_⟩
  · intro t i ht hstore
    exact ((storesAt_of_fits h hf ht i).1 hstore).1
  · intro workers hostWorkers buffer dest hbuffer hdest
    have hresult : (g.fillUnder hostWorkers .words dest).result = .ok v.launch := by
      rw [Grid.result_eq_ok_iff, hdest]
      exact hlaunch
    rw [g.contents_words hostWorkers dest hresult, hg,
      run?_of_fits (l := l) h hf workers _ (by rw [Array.size_map, hbuffer])]
    congr 1
    apply Array.ext
    · rw [Array.size_ofFn, Array.size_map, Array.size_map, Array.size_ofFn, hbuffer, hdest]
    · intro i _ _
      rw [Array.getElem_map, Array.getElem_ofFn, Array.getElem_ofFn]

/-- Two threads that store at one index are too many. -/
theorem not_matches_of_not_fits (h : prepare? plan p length 4 = .ok v) (hf : ¬v.Fits)
    (g : Grid p l) : ¬v.Matches g := by
  intro hmatches
  obtain ⟨id, hne, hlt, i, hzero, hid⟩ := (sized_of_prepare h).exists_overlap hf
  obtain ⟨s, hs, hsid⟩ := v.launch.exists_has (Nat.lt_of_le_of_lt (Nat.zero_le id) hlt)
  obtain ⟨t, ht, htid⟩ := v.launch.exists_has hlt
  have hindex : (UInt64.ofNat i).toNat = i :=
    UInt64.toNat_ofNat_of_lt' (Nat.lt_trans hzero.2.1 v.length.toNat_lt)
  have hi : UInt64.ofNat i < v.length := by
    rw [UInt64.lt_iff_toNat_lt, hindex]
    exact hzero.2.1
  have hstore : v.StoresAt fillWordsKernel s (.ofNat i) := by
    rw [storesAt_iff, hsid, hindex]
    exact hzero
  have hother : v.StoresAt fillWordsKernel t (.ofNat i) := by
    rw [storesAt_iff, htid, hindex]
    exact hid
  obtain ⟨owner, _, _, hunique⟩ := hmatches.once _ hi
  apply hne
  rw [← htid, hunique t ht hother, ← hunique s hs hstore, hsid]

end Prepared

/-- **A prepared launch of the word kernel does what the host does exactly if it fits.** The
host accepts the plan, and grants its fill the same launch. -/
theorem matches_iff_fits (l : Layout) (plan : FillPlan) (p : Params) (length : UInt64)
    (v : Invocation) (h : prepare? plan p length 4 = .ok v) :
    ∃ g : Grid p l, Grid.ofPlan? plan = .ok g ∧
      (∀ (workers : Schedule) (dest : Array UInt32), dest.size = length.toNat →
        (g.fillUnder workers .words dest).result = .ok v.launch) ∧
      (v.Matches g ↔ v.Fits) := by
  obtain ⟨g, hg, hplan, hlaunch⟩ := exists_grid h l
  have hlength : v.length = length := by
    rw [eq_of_prepare h]
    rfl
  refine ⟨g, hg, ?_, ?_, ?_⟩
  · intro workers dest hdest
    rw [Grid.result_eq_ok_iff, hdest]
    exact hlaunch
  · intro hmatches
    by_cases hf : v.Fits
    · exact hf
    · exact absurd hmatches (not_matches_of_not_fits h hf g)
  · intro hf
    rw [← hlength] at hlaunch
    exact matches_of_fits h hf hplan hlaunch

/-- Two threads of 2^30 blocks: four times as many is 0 in a word. -/
def wrapped : FillPlan := {seed := 7, blockSize := 2, blocksPerThread := 0x40000000}

/-- Both threads of a launch for four values store at index 0. -/
theorem matches_iff_fits_wrapped :
    prepare? wrapped (.ofRounds 10) 4 4 = .ok (of wrapped (.ofRounds 10) 4 ⟨1, 2⟩) ∧
      ∃ g : Grid (.ofRounds 10) .array, Grid.ofPlan? wrapped = .ok g ∧
        (∀ (workers : Schedule) (dest : Array UInt32), dest.size = 4 →
          (g.fillUnder workers .words dest).result = .ok ⟨1, 2⟩) ∧
        ¬(of wrapped (.ofRounds 10) 4 ⟨1, 2⟩).Matches g := by
  have h : prepare? wrapped (.ofRounds 10) 4 4 =
      .ok (of wrapped (.ofRounds 10) 4 ⟨1, 2⟩) := by rfl
  obtain ⟨g, hg, hhost, hiff⟩ := matches_iff_fits .array wrapped (.ofRounds 10) 4 _ h
  refine ⟨h, g, hg, hhost, ?_⟩
  rw [hiff]
  decide

end Philox.Device.Invocation
