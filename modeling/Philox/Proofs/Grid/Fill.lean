import Philox.Grid.Fill
import Philox.Proofs.Engine.Block
import Philox.Proofs.Launch
import Philox.Proofs.Store

/-! What a fill leaves in its buffer.

Block number `j` of a fill is the block of thread `j / blocksPerThread` that has
`j % blocksPerThread` of the thread's blocks before it (`FillPlan.block`). `fillUnder_eq`:
a fill that is granted its launch puts the values of block 0, block 1 and so on into the
buffer, up to its end, under every schedule; `fill_words` says so of the words alone. -/
namespace Philox

/-! ### The blocks and the values of a fill -/

namespace Sampler

variable {α : Type}

theorem perBlock_pos (s : Sampler α) : 0 < s.perBlock :=
  Nat.pos_of_ne_zero fun h => by
    have := s.perBlock_mul
    rw [h, Nat.zero_mul] at this
    contradiction

/-- The `i`-th value of a block. -/
def value (s : Sampler α) (b : Block) (i : Fin s.perBlock) : α := s.ofWords (s.wordsAt b i)

theorem getElem?_ofBlock (s : Sampler α) (b : Block) (i : Nat) :
    (s.ofBlock b)[i]? = if h : i < s.perBlock then some (s.value b ⟨i, h⟩) else none := by
  rw [ofBlock, List.getElem?_ofFn]
  rfl

theorem words_value (b : Block) (i : Fin words.perBlock) : words.value b i = b[i.val] := by
  simp [value, words, wordsAt]

end Sampler

namespace FillPlan

variable {α : Type}

/-- The value of the counter of block `j` of a fill. -/
def counterAt (plan : FillPlan) (j : Nat) : Nat :=
  (plan.baseSubsequence.toNat + j / plan.blocksPerThread.toNat) % 2 ^ 64 * 2 ^ 64 +
    plan.offset.toNat + j % plan.blocksPerThread.toNat

/-- Block `j` of a fill. -/
def block (plan : FillPlan) (p : Params) (l : Layout) (j : Nat) : Block :=
  Keystream.block p (State.keyOf plan.seed : l.Key) (plan.counterAt j)

/-- The value at index `i` of a fill. -/
def value (plan : FillPlan) (p : Params) (l : Layout) (s : Sampler α) (i : Nat) : α :=
  s.value (plan.block p l (i / s.perBlock)) ⟨i % s.perBlock, Nat.mod_lt _ s.perBlock_pos⟩

/-- What thread `id` stores of its `b`-th block, in a buffer of `length` values. -/
def store (plan : FillPlan) (p : Params) (l : Layout) (s : Sampler α) (length id b : Nat) :
    Store α :=
  let chunk := s.perBlock * plan.blocksPerThread.toNat
  ⟨id * chunk + b * s.perBlock,
    (s.ofBlock (plan.block p l (id * plan.blocksPerThread.toNat + b))).take
      (min chunk (length - id * chunk) - b * s.perBlock)⟩

/-- The stores of thread `id`, one for each block that it has room for. -/
def task (plan : FillPlan) (p : Params) (l : Layout) (s : Sampler α) (length id : Nat) :
    List (Store α) :=
  let chunk := s.perBlock * plan.blocksPerThread.toNat
  (List.range (divUp (min chunk (length - id * chunk)) s.perBlock)).map
    (plan.store p l s length id)

/-- The tasks of the threads that have a part of the buffer. -/
def tasks (plan : FillPlan) (p : Params) (l : Layout) (s : Sampler α) (length : Nat) :
    List (List (Store α)) :=
  (List.range (divUp length (s.perBlock * plan.blocksPerThread.toNat))).map
    (plan.task p l s length)

/-- The plan `other` gives its threads the same blocks. How many threads are in a block, and
from how many on they are spread, is left open. -/
def SameStreams (plan other : FillPlan) : Prop :=
  other = {plan with
    blockSize := other.blockSize, parallelThreshold := other.parallelThreshold}

theorem SameStreams.block_eq {plan other : FillPlan} (h : plan.SameStreams other) (p : Params)
    (l m : Layout) (j : Nat) : other.block p m j = plan.block p l j := by
  have hkey : (State.keyOf plan.seed : m.Key) =
      Storage.convert (State.keyOf plan.seed : l.Key) := (Storage.convert_ofWords _).symm
  rw [h]
  show Keystream.block p (State.keyOf plan.seed : m.Key) (plan.counterAt j) = _
  rw [hkey, Keystream.block_convert]
  rfl

theorem counterAt_block (plan : FillPlan) (id : Nat) {b : Nat}
    (hb : b < plan.blocksPerThread.toNat) :
    plan.counterAt (id * plan.blocksPerThread.toNat + b) =
      (plan.baseSubsequence.toNat + id) % 2 ^ 64 * 2 ^ 64 + plan.offset.toNat + b := by
  have hpos : 0 < plan.blocksPerThread.toNat := Nat.lt_of_le_of_lt (Nat.zero_le b) hb
  rw [counterAt, Nat.mul_comm id, Nat.mul_add_div hpos, Nat.mul_add_mod, Nat.div_eq_of_lt hb,
    Nat.mod_eq_of_lt hb, Nat.add_zero]

/-- What an index is made of: a thread, a block of it, and a place in the block. -/
theorem index_split (i q n : Nat) : i = i / q / n * (q * n) + i / q % n * q + i % q := by
  have hblock := Nat.div_add_mod i q
  have hthread := Nat.div_add_mod (i / q) n
  calc i = q * (n * (i / q / n) + i / q % n) + i % q := by rw [hthread, hblock]
    _ = i / q / n * (q * n) + i / q % n * q + i % q := by
      rw [Nat.mul_add, ← Nat.mul_assoc, Nat.mul_comm (q * n), Nat.mul_comm q (i / q % n)]

theorem value_at (plan : FillPlan) (p : Params) (l : Layout) (s : Sampler α) (j : Nat)
    (c : Fin s.perBlock) :
    plan.value p l s (s.perBlock * j + c) = s.value (plan.block p l j) c := by
  have hblock : (s.perBlock * j + c) / s.perBlock = j := by
    rw [Nat.mul_add_div s.perBlock_pos, Nat.div_eq_of_lt c.isLt, Nat.add_zero]
  have hplace : (s.perBlock * j + c) % s.perBlock = c := by
    rw [Nat.mul_add_mod, Nat.mod_eq_of_lt c.isLt]
  simp only [value, hblock, hplace]

/-- An index lies in the part of the chunk that its block takes. -/
theorem room_of_index (i : Nat) {q n : Nat} (hq : 0 < q) (hn : 0 < n) :
    i / q % n * q + i % q < q * n := by
  have hblock := Nat.mod_lt (i / q) hn
  have hplace := Nat.mod_lt i hq
  calc i / q % n * q + i % q < i / q % n * q + q := Nat.add_lt_add_left hplace _
    _ = (i / q % n + 1) * q := (Nat.succ_mul ..).symm
    _ ≤ n * q := Nat.mul_le_mul_right q hblock
    _ = q * n := Nat.mul_comm ..

/-- Every store puts the values of the fill. -/
theorem store_agrees (plan : FillPlan) (p : Params) (l : Layout) (s : Sampler α)
    (length id b : Nat) : (plan.store p l s length id b).Agrees (plan.value p l s) length := by
  intro i a _ hat
  unfold Store.at? store at hat
  split at hat
  case isFalse => contradiction
  case isTrue hstart =>
    rw [List.getElem?_take, Sampler.getElem?_ofBlock] at hat
    split at hat
    case isFalse => contradiction
    case isTrue =>
      split at hat
      case isFalse => contradiction
      case isTrue hplace =>
        rw [← Option.some_inj.1 hat, ← value_at]
        congr 1
        have hj : s.perBlock * (id * plan.blocksPerThread.toNat + b) =
            id * (s.perBlock * plan.blocksPerThread.toNat) + b * s.perBlock := by
          rw [Nat.mul_add, Nat.mul_left_comm, Nat.mul_comm b]
        rw [hj]
        exact Nat.add_sub_of_le hstart

/-- Every index is put by the store of its thread and block. -/
theorem store_covers (plan : FillPlan) (p : Params) (l : Layout) (s : Sampler α) {length i : Nat}
    (hi : i < length) (hn : 0 < plan.blocksPerThread.toNat) :
    ((plan.store p l s length (i / s.perBlock / plan.blocksPerThread.toNat)
      (i / s.perBlock % plan.blocksPerThread.toNat)).at? i).isSome := by
  have hsplit := index_split i s.perBlock plan.blocksPerThread.toNat
  have hplace := Nat.mod_lt i s.perBlock_pos
  have hchunk := room_of_index i s.perBlock_pos hn
  have hstart : (plan.store p l s length (i / s.perBlock / plan.blocksPerThread.toNat)
      (i / s.perBlock % plan.blocksPerThread.toNat)).start ≤ i := by
    simp only [store]
    omega
  rw [Store.at?, if_pos hstart]
  simp only [store]
  rw [List.getElem?_take, if_pos (by omega), Sampler.getElem?_ofBlock, dif_pos (by omega)]
  rfl

/-- The stores of all tasks, in any order, make the buffer hold the values of the fill. -/
theorem applyAll_tasks (plan : FillPlan) (p : Params) (l : Layout) (s : Sampler α)
    (hn : 0 < plan.blocksPerThread.toNat) (buffer : Array α) {stores : List (Store α)}
    (hmem : ∀ a, a ∈ stores ↔ ∃ t ∈ plan.tasks p l s buffer.size, a ∈ t) :
    Store.applyAll buffer stores = .ofFn fun i : Fin buffer.size => plan.value p l s i := by
  have hchunk : 0 < s.perBlock * plan.blocksPerThread.toNat := Nat.mul_pos s.perBlock_pos hn
  apply Store.applyAll_eq_ofFn
  · intro a ha
    obtain ⟨task, htask, ha⟩ := (hmem a).1 ha
    obtain ⟨id, _, rfl⟩ := List.mem_map.1 htask
    obtain ⟨b, _, rfl⟩ := List.mem_map.1 ha
    exact plan.store_agrees p l s buffer.size id b
  · intro i hi
    have hsplit := index_split i s.perBlock plan.blocksPerThread.toNat
    have hroom := room_of_index i s.perBlock_pos hn
    refine ⟨_, (hmem _).2
      ⟨_, List.mem_map.2 ⟨i / s.perBlock / plan.blocksPerThread.toNat, ?_, rfl⟩,
        List.mem_map.2 ⟨i / s.perBlock % plan.blocksPerThread.toNat, ?_, rfl⟩⟩,
      plan.store_covers p l s hi hn⟩
    · rw [List.mem_range, lt_divUp_iff hchunk]
      omega
    · rw [List.mem_range, lt_divUp_iff s.perBlock_pos]
      omega

end FillPlan

/-! ### Grids -/

namespace Grid

variable {p : Params} {l : Layout} {α : Type}

/-- Parameters that are refused are refused whatever the plan is. -/
theorem ofPlan?_of_check_error (plan : FillPlan) {e : Error} (hp : p.check = .error e) :
    (ofPlan? plan : Except Error (Grid p l)) = .error e := by
  unfold ofPlan?
  split
  case h_1 e' he =>
    rw [hp] at he
    rw [Except.error.inj he]
  case h_2 hok =>
    rw [hp] at hok
    contradiction

/-- With parameters that a generator may have, the plan decides. -/
theorem ofPlan?_of_check_ok (plan : FillPlan) (hp : p.check = .ok ()) :
    (ofPlan? plan : Except Error (Grid p l)) =
      if hb : plan.blockSize = 0 then .error (.config .emptyBlock)
      else if ht : plan.blocksPerThread = 0 then .error (.config .idleThreads)
      else .ok ⟨plan, hp, hb, ht⟩ := by
  unfold ofPlan?
  split
  case h_1 e he =>
    rw [hp] at he
    contradiction
  case h_2 => rfl

/-- Every plan with threads and blocks has its grid, if a generator may have the parameters. -/
theorem ofPlan?_eq_ok (plan : FillPlan) (hp : p.check = .ok ()) (hb : plan.blockSize ≠ 0)
    (ht : plan.blocksPerThread ≠ 0) :
    (ofPlan? plan : Except Error (Grid p l)) = .ok ⟨plan, hp, hb, ht⟩ := by
  rw [ofPlan?_of_check_ok plan hp, dif_neg hb, dif_neg ht]

/-- A grid is accepted for its plan and for no other. -/
theorem ofPlan?_eq_ok_iff (plan : FillPlan) (g : Grid p l) :
    ofPlan? plan = .ok g ↔ g.plan = plan := by
  refine ⟨?_, ?_⟩
  · intro h
    unfold ofPlan? at h
    split at h
    case h_1 => contradiction
    case h_2 =>
      split at h
      case isTrue => contradiction
      case isFalse =>
        split at h
        case isTrue => contradiction
        case isFalse =>
          cases h
          rfl
  · intro h
    subst h
    exact ofPlan?_eq_ok g.plan g.params_ok g.blockSize_ne g.blocksPerThread_ne

/-! ### Tasks -/

theorem blocksPerThread_pos (g : Grid p l) : 0 < g.plan.blocksPerThread.toNat :=
  toNat_pos g.blocksPerThread_ne

/-- A thread has values to produce. -/
theorem chunkSize_pos (g : Grid p l) (s : Sampler α) :
    0 < s.perBlock * g.plan.blocksPerThread.toNat :=
  Nat.mul_pos s.perBlock_pos g.blocksPerThread_pos

/-- The values of a thread can be counted. -/
theorem chunkSize_lt (g : Grid p l) (s : Sampler α) :
    s.perBlock * g.plan.blocksPerThread.toNat < UInt64.size := by
  have hblock : s.perBlock ≤ 4 := Nat.div_le_self ..
  have hblocks := g.plan.blocksPerThread.toNat_lt
  calc s.perBlock * g.plan.blocksPerThread.toNat ≤ 4 * g.plan.blocksPerThread.toNat :=
        Nat.mul_le_mul_right _ hblock
    _ < 2 ^ 64 := by omega

/-- The launch of a fill depends on nothing but the number of its threads. -/
theorem launch?_eq (g : Grid p l) (s : Sampler α) (length : Nat) :
    g.launch? length s.perBlock =
      (Launch.forThreads? (divUp length (s.perBlock * g.plan.blocksPerThread.toNat))
        g.plan.blockSize).mapError .error :=
  Launch.forValues?_eq _ _ (g.chunkSize_lt s) (Nat.ne_of_gt (g.chunkSize_pos s))

theorem stores_eq (s : Sampler α) (blocks : Nat) {e : BlockEngine p l} {k : l.Key} {v : Nat}
    (h : e.On k v) (start room : Nat) :
    stores s blocks e start room = (List.range blocks).map fun b =>
      ⟨start + b * s.perBlock,
        (s.ofBlock (Keystream.block p k (v + b))).take (room - b * s.perBlock)⟩ := by
  induction blocks generalizing e v start room with
  | zero => rfl
  | succ blocks ih =>
    obtain ⟨hblock, hnext⟩ := h.next
    show ⟨start, (s.ofBlock e.next.1).take room⟩ ::
      stores s blocks e.next.2 (start + s.perBlock) (room - s.perBlock) = _
    rw [ih hnext, hblock, List.range_succ_eq_map, List.map_cons, List.map_map, Nat.zero_mul]
    congr 1
    apply List.map_congr_left
    intro b _
    have hstep : (b + 1) * s.perBlock = s.perBlock + b * s.perBlock := by
      rw [Nat.succ_mul, Nat.add_comm]
    simp only [Function.comp, Nat.succ_eq_add_one, hstep, Nat.add_assoc, Nat.sub_sub,
      Nat.add_comm 1 b]

/-- A thread with the id `id` starts at its own subsequence. -/
theorem on_engine (g : Grid p l) {t : Thread} {id : Nat} (h : t.globalId = .ofNat id) :
    (g.engine t).On (State.keyOf g.plan.seed)
      ((g.plan.baseSubsequence.toNat + id) % 2 ^ 64 * 2 ^ 64 + g.plan.offset.toNat) := by
  have hengine : g.engine t =
      .start g.plan.seed (g.plan.baseSubsequence + t.globalId) g.plan.offset := rfl
  have hsum : (g.plan.baseSubsequence + t.globalId).toNat =
      (g.plan.baseSubsequence.toNat + id) % 2 ^ 64 := by
    rw [h, UInt64.toNat_add, UInt64.toNat_ofNat', Nat.add_mod_mod]
  rw [hengine, ← hsum]
  exact BlockEngine.on_start ..

/-- The task of the thread with the id `id` is that of the plan. -/
theorem task_eq (g : Grid p l) (s : Sampler α) {t : Thread} {id : Nat} (length : Nat)
    (h : t.globalId = .ofNat id) :
    let chunk := s.perBlock * g.plan.blocksPerThread.toNat
    g.task s t (id * chunk) (min chunk (length - id * chunk)) = g.plan.task p l s length id := by
  intro chunk
  rw [task, stores_eq s _ (g.on_engine h)]
  apply List.map_congr_left
  intro b hb
  have hroom : b * s.perBlock < min chunk (length - id * chunk) :=
    (lt_divUp_iff s.perBlock_pos).1 (List.mem_range.1 hb)
  have hlt : b < g.plan.blocksPerThread.toNat := by
    apply Nat.lt_of_mul_lt_mul_right (a := s.perBlock)
    rw [Nat.mul_comm g.plan.blocksPerThread.toNat]
    exact Nat.lt_of_lt_of_le hroom (Nat.min_le_left ..)
  rw [FillPlan.store, FillPlan.block, FillPlan.counterAt_block _ _ hlt]

/-- A granted launch has a thread for every chunk. -/
theorem chunks_le (g : Grid p l) (s : Sampler α) {length : Nat} {launch : Launch}
    (h : g.launch? length s.perBlock = .ok launch) :
    divUp length (s.perBlock * g.plan.blocksPerThread.toNat) ≤ launch.totalThreads := by
  obtain ⟨_, _, hthreads⟩ := (Launch.forValues?_eq_ok_iff ..).1 h
  exact Nat.le_trans (Nat.le_max_left ..) (Launch.threads_le_totalThreads hthreads)

theorem chunk_lt (g : Grid p l) (s : Sampler α) {length : Nat} {launch : Launch}
    (h : g.launch? length s.perBlock = .ok launch) {id : Nat}
    (hid : id < divUp length (s.perBlock * g.plan.blocksPerThread.toNat)) :
    id < launch.totalThreads :=
  Nat.lt_of_lt_of_le hid (g.chunks_le s h)

/-- No task of a granted launch is missing. -/
theorem tasks?_eq (g : Grid p l) (s : Sampler α) {length : Nat} {launch : Launch}
    (h : g.launch? length s.perBlock = .ok launch) :
    g.tasks? s launch length = .ok (g.plan.tasks p l s length) := by
  obtain ⟨hproduct, _, _⟩ := (Launch.forValues?_eq_ok_iff ..).1 h
  rw [tasks?, Launch.perThread?, if_pos hproduct]
  apply mapM_ok
  intro id hid
  obtain ⟨t, ht, hglobal⟩ := launch.thread?_of_lt (g.chunk_lt s h (List.mem_range.1 hid))
  rw [ht]
  exact congrArg Except.ok (g.task_eq s length hglobal)

/-! ### Fills -/

theorem mem_order (g : Grid p l) (workers : Schedule) (launch : Launch)
    (tasks : List (List (Store α))) (a : Store α) :
    a ∈ g.order workers launch tasks ↔ ∃ t ∈ tasks, a ∈ t := by
  unfold order
  split
  case isTrue => exact workers.mem_order tasks a
  case isFalse => exact List.mem_flatten

/-- A fill that is granted its launch makes the stores of all tasks. -/
theorem fillUnder_of_ok (g : Grid p l) (workers : Schedule) (s : Sampler α) (buffer : Array α)
    {launch : Launch} (h : g.launch? buffer.size s.perBlock = .ok launch) :
    g.fillUnder workers s buffer =
      ⟨.ok launch,
        Store.applyAll buffer (g.order workers launch (g.plan.tasks p l s buffer.size)),
        g.events s launch buffer.size⟩ := by
  unfold fillUnder
  rw [h]
  simp only [g.tasks?_eq s h]

/-- **A granted fill puts its values from block 0 on**, up to the end of the buffer, under
every schedule and whatever the buffer held. -/
theorem fillUnder_eq (g : Grid p l) (workers : Schedule) (s : Sampler α) (buffer : Array α)
    {launch : Launch} (h : g.launch? buffer.size s.perBlock = .ok launch) :
    g.fillUnder workers s buffer =
      ⟨.ok launch, .ofFn fun i : Fin buffer.size => g.plan.value p l s i,
        g.events s launch buffer.size⟩ := by
  rw [g.fillUnder_of_ok workers s buffer h,
    g.plan.applyAll_tasks p l s g.blocksPerThread_pos buffer (g.mem_order workers launch _)]

/-- A fill that is not granted its launch leaves the buffer as it was. -/
theorem fillUnder_of_error (g : Grid p l) (workers : Schedule) (s : Sampler α) (buffer : Array α)
    {e : Failure} (h : g.launch? buffer.size s.perBlock = .error e) :
    g.fillUnder workers s buffer = ⟨.error e, buffer, []⟩ := by
  unfold fillUnder
  rw [h]

/-- A fill ends as its launch is answered: no task fails on the way. -/
theorem result_eq (g : Grid p l) (workers : Schedule) (s : Sampler α) (buffer : Array α) :
    (g.fillUnder workers s buffer).result = g.launch? buffer.size s.perBlock := by
  cases h : g.launch? buffer.size s.perBlock with
  | error e => rw [g.fillUnder_of_error workers s buffer h]
  | ok launch => rw [g.fillUnder_eq workers s buffer h]

theorem result_eq_ok_iff (g : Grid p l) (workers : Schedule) (s : Sampler α) (buffer : Array α)
    (launch : Launch) :
    (g.fillUnder workers s buffer).result = .ok launch ↔
      g.launch? buffer.size s.perBlock = .ok launch := by
  rw [g.result_eq]

theorem contents_words (g : Grid p l) (workers : Schedule) (buffer : Array UInt32)
    {launch : Launch} (h : (g.fillUnder workers .words buffer).result = .ok launch) :
    (g.fillUnder workers .words buffer).contents =
      .ofFn fun i : Fin buffer.size => (g.plan.block p l (i / 4))[i.val % 4] := by
  rw [g.fillUnder_eq workers .words buffer ((g.result_eq_ok_iff ..).1 h)]
  refine congrArg Array.ofFn ?_
  funext i
  exact Sampler.words_value ..

/-- **Word `i` of a fill is word `i % 4` of its block `i / 4`**, and neither the size of
the thread blocks, nor how the work is spread, nor the layout, nor what the buffer held has
a part in it. -/
theorem fill_words (g : Grid p l) (workers : Schedule) (buffer : Array UInt32) (launch : Launch)
    (h : (g.fillUnder workers .words buffer).result = .ok launch) :
    (g.fillUnder workers .words buffer).contents =
        .ofFn (fun i : Fin buffer.size => (g.plan.block p l (i / 4))[i.val % 4]) ∧
      ∀ (m : Layout) (g' : Grid p m) (workers' : Schedule) (buffer' : Array UInt32)
        (launch' : Launch), g.plan.SameStreams g'.plan → buffer'.size = buffer.size →
        (g'.fillUnder workers' .words buffer').result = .ok launch' →
        (g'.fillUnder workers' .words buffer').contents =
          (g.fillUnder workers .words buffer).contents := by
  refine ⟨g.contents_words workers buffer h, ?_⟩
  intro m g' workers' buffer' launch' hplan hsize h'
  rw [g.contents_words workers buffer h, g'.contents_words workers' buffer' h']
  apply Array.ext
  · rw [Array.size_ofFn, Array.size_ofFn, hsize]
  · intro i _ _
    rw [Array.getElem_ofFn, Array.getElem_ofFn]
    simp only [hplan.block_eq p l m]

/-- Two threads of two blocks each. The second subsequence is 0 again, and the second block
of each thread has carried out of its position. -/
def atEnd : Grid (.ofRounds 10) .array where
  plan :=
    { seed := 7, baseSubsequence := 0xFFFFFFFFFFFFFFFF, offset := 0xFFFFFFFFFFFFFFFF
      blockSize := 2, blocksPerThread := 2 }
  params_ok := by rfl
  blockSize_ne := by decide
  blocksPerThread_ne := by decide

/-- The same streams in another layout, with other blocks of threads and more workers. -/
def atEndSpread : Grid (.ofRounds 10) .lanes where
  plan := {atEnd.plan with blockSize := 3, parallelThreshold := 0}
  params_ok := by rfl
  blockSize_ne := by decide
  blocksPerThread_ne := by decide

theorem fill_words_atEnd :
    (atEnd.fillUnder .sequential .words (.replicate 13 0)).result = .ok ⟨1, 2⟩ ∧
      (atEnd.fillUnder .sequential .words (.replicate 13 0)).contents =
        .ofFn (fun i : Fin (Array.replicate 13 (0 : UInt32)).size =>
          (atEnd.plan.block (.ofRounds 10) .array (i / 4))[i.val % 4]) ∧
      (atEndSpread.fillUnder .sequential .words (.replicate 13 1)).result = .ok ⟨1, 3⟩ ∧
      (atEndSpread.fillUnder .sequential .words (.replicate 13 1)).contents =
        (atEnd.fillUnder .sequential .words (.replicate 13 0)).contents := by
  have h : (atEnd.fillUnder .sequential .words (.replicate 13 0)).result = .ok ⟨1, 2⟩ :=
    (atEnd.result_eq_ok_iff ..).2 (by rfl)
  have h' : (atEndSpread.fillUnder .sequential .words (.replicate 13 1)).result = .ok ⟨1, 3⟩ :=
    (atEndSpread.result_eq_ok_iff ..).2 (by rfl)
  obtain ⟨hcontents, hsame⟩ := atEnd.fill_words .sequential (.replicate 13 0) ⟨1, 2⟩ h
  exact ⟨h, hcontents, h', hsame .lanes atEndSpread .sequential (.replicate 13 1) ⟨1, 3⟩ (by rfl)
    (by rfl) h'⟩

end Grid
end Philox
