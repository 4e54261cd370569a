import Mathlib.Algebra.GroupWithZero.Nat
import Mathlib.Logic.Relation
import Philox.Proofs.Grid.Fill

/-! Fills do not depend on how their work is spread.

While a fill is under way it has a *job* for each chunk. A worker's step is to build the
engine of a chunk's thread, or to put the next block of an engine that is built, and any
worker may be the next to take one (`Step`). A step leaves the stores to come as they were,
but for those it makes (`Job.Step.stores_eq`), so a finished run has made the stores of all
tasks in one of their interleavings (`Step.interleaving`), and every interleaving fills the
same buffer. `fill_of_workers` puts this beside the fill of a single worker. -/
namespace Philox.Grid

variable {p : Params} {l : Layout} {α : Type}

/-! ### Workers -/

/-- The task of a chunk, as far as a worker has come with it. -/
inductive Job (p : Params) (l : Layout) where
  /-- The engine of the thread with this id is still to be built. -/
  | waiting (id : Nat)
  /-- The engine has `blocks` blocks to go, from index `start`, where `room` values still fit. -/
  | running (e : BlockEngine p l) (blocks start room : Nat)

/-- A fill under way: the buffer, and the job of every chunk. -/
structure Progress (p : Params) (l : Layout) (α : Type) where
  buffer : Array α
  jobs : List (Job p l)

namespace Progress

/-- Nothing is done yet. -/
def start (g : Grid p l) (s : Sampler α) (buffer : Array α) : Progress p l α where
  buffer := buffer
  jobs := (List.range (divUp buffer.size (s.perBlock * g.plan.blocksPerThread.toNat))).map .waiting

/-- No block is left to put. -/
def Done (now : Progress p l α) : Prop :=
  ∀ j ∈ now.jobs, ∃ e start room, j = .running e 0 start room

end Progress

namespace Job

/-- The job of a chunk once a thread has its engine. -/
def begun (g : Grid p l) (s : Sampler α) (length id : Nat) (t : Thread) : Job p l :=
  let chunk := s.perBlock * g.plan.blocksPerThread.toNat
  let room := min chunk (length - id * chunk)
  .running (g.engine t) (divUp room s.perBlock) (id * chunk) room

/-- A worker's next step at a job: which stores it makes, and the job after it. -/
inductive Step (g : Grid p l) (s : Sampler α) (launch : Launch) (length : Nat) :
    Job p l → List (Store α) → Job p l → Prop where
  | engine {id : Nat} {t : Thread} (ht : launch.thread? (.ofNat id) = .ok t) :
    Step g s launch length (.waiting id) [] (begun g s length id t)
  | block {e : BlockEngine p l} {blocks start room : Nat} :
    Step g s launch length (.running e (blocks + 1) start room)
      [⟨start, (s.ofBlock e.next.1).take room⟩]
      (.running e.next.2 blocks (start + s.perBlock) (room - s.perBlock))

/-- The stores that are still to be made. -/
def stores (g : Grid p l) (s : Sampler α) (length : Nat) : Job p l → List (Store α)
  | waiting id => g.plan.task p l s length id
  | running e blocks start room => Grid.stores s blocks e start room

/-- How many steps are still to be taken. -/
def left (g : Grid p l) (s : Sampler α) (length : Nat) : Job p l → Nat
  | waiting id => (g.plan.task p l s length id).length + 1
  | running _ blocks _ _ => blocks

end Job

/-- Some worker takes a step at its job. -/
inductive Step (g : Grid p l) (s : Sampler α) (launch : Launch) (length : Nat) :
    Progress p l α → Progress p l α → Prop where
  | job {buffer : Array α} {before after : List (Job p l)} {j j' : Job p l} {put : List (Store α)}
    (h : j.Step g s launch length put j') :
    Step g s launch length ⟨buffer, before ++ j :: after⟩
      ⟨Store.applyAll buffer put, before ++ j' :: after⟩

variable {g : Grid p l} {s : Sampler α} {launch : Launch} {length : Nat}

/-! ### One step -/

/-- The launch has a thread for every chunk that is waiting. -/
def Job.Within (launch : Launch) : Job p l → Prop
  | waiting id => id < launch.totalThreads
  | running .. => True

/-- A step makes the next of the stores to come, and no other. -/
theorem Job.Step.stores_eq {j j' : Job p l} {put : List (Store α)}
    (h : j.Step g s launch length put j') (hj : j.Within launch) :
    j.stores g s length = put ++ j'.stores g s length := by
  cases h with
  | @engine id t ht =>
    obtain ⟨t', ht', hglobal⟩ := launch.thread?_of_lt hj
    rw [ht] at ht'
    rw [← Except.ok.inj ht'] at hglobal
    exact (g.task_eq s length hglobal).symm
  | block => rfl

theorem Job.Step.left_eq {j j' : Job p l} {put : List (Store α)}
    (h : j.Step g s launch length put j') : j.left g s length = j'.left g s length + 1 := by
  cases h with
  | engine ht =>
    simp only [left, begun, FillPlan.task, List.length_map, List.length_range]
  | block => rfl

theorem Job.Step.within {j j' : Job p l} {put : List (Store α)}
    (h : j.Step g s launch length put j') : j'.Within launch := by
  cases h with
  | engine ht => trivial
  | block => trivial

/-- A job that is not finished can go on. -/
theorem Job.exists_step (g : Grid p l) (s : Sampler α) (length : Nat) {j : Job p l}
    (hj : j.Within launch) (hleft : ∀ e start room, j ≠ .running e 0 start room) :
    ∃ put j', j.Step g s launch length put j' := by
  cases j with
  | waiting id =>
    obtain ⟨t, ht, _⟩ := launch.thread?_of_lt hj
    exact ⟨_, _, .engine ht⟩
  | running e blocks start room =>
    cases blocks with
    | zero => exact absurd rfl (hleft e start room)
    | succ blocks => exact ⟨_, _, .block⟩

/-! ### Runs -/

namespace Progress

/-- The stores that are still to be made, job by job. -/
def pending (g : Grid p l) (s : Sampler α) (length : Nat) (now : Progress p l α) :
    List (List (Store α)) :=
  now.jobs.map (Job.stores g s length)

/-- How many steps are still to be taken. -/
def left (g : Grid p l) (s : Sampler α) (length : Nat) (now : Progress p l α) : Nat :=
  (now.jobs.map (Job.left g s length)).sum

def Within (launch : Launch) (now : Progress p l α) : Prop := ∀ j ∈ now.jobs, j.Within launch

theorem within_start (g : Grid p l) (s : Sampler α) (buffer : Array α) {launch : Launch}
    (h : g.launch? buffer.size s.perBlock = .ok launch) : (start g s buffer).Within launch := by
  intro j hj
  obtain ⟨id, hid, rfl⟩ := List.mem_map.1 hj
  exact g.chunk_lt s h (List.mem_range.1 hid)

theorem pending_start (g : Grid p l) (s : Sampler α) (buffer : Array α) :
    (start g s buffer).pending g s buffer.size = g.plan.tasks p l s buffer.size :=
  List.map_map

end Progress

variable {now next final : Progress p l α}

theorem Step.within (h : Step g s launch length now next) (hnow : now.Within launch) :
    next.Within launch := by
  cases h with
  | @job buffer before after j j' put h =>
    intro i hi
    rcases List.mem_append.1 hi with hi | hi
    · exact hnow i (List.mem_append_left _ hi)
    · rcases List.mem_cons.1 hi with rfl | hi
      · exact h.within
      · exact hnow i (List.mem_append_right _ (List.mem_cons_of_mem _ hi))

theorem Step.left_lt (h : Step g s launch length now next) :
    next.left g s length < now.left g s length := by
  cases h with
  | job h =>
    simp only [Progress.left, List.map_append, List.map_cons, List.sum_append, List.sum_cons,
      h.left_eq]
    omega

/-- Work that is not done can go on. -/
theorem Progress.exists_step (g : Grid p l) (s : Sampler α) (length : Nat)
    (hnow : now.Within launch) (hdone : ¬ now.Done) :
    ∃ next, Step g s launch length now next := by
  simp only [Done, Classical.not_forall, not_exists] at hdone
  obtain ⟨j, hj, hleft⟩ := hdone
  obtain ⟨before, after, hjobs⟩ := List.append_of_mem hj
  obtain ⟨put, j', h⟩ := j.exists_step g s length (hnow j hj) hleft
  cases now
  subst hjobs
  exact ⟨_, .job h⟩

/-- No run goes on for ever. -/
theorem wellFounded_step (g : Grid p l) (s : Sampler α) (launch : Launch) (length : Nat) :
    WellFounded fun next now : Progress p l α => Step g s launch length now next :=
  Subrelation.wf Step.left_lt (measure (Progress.left g s length)).wf

/-- Every run can be brought to its end. -/
theorem Progress.exists_done (hnow : now.Within launch) :
    ∃ final, Relation.ReflTransGen (Step g s launch length) now final ∧ final.Done := by
  induction now using (wellFounded_step g s launch length).induction with
  | _ now ih =>
    by_cases hdone : now.Done
    · exact ⟨now, .refl, hdone⟩
    · obtain ⟨next, h⟩ := exists_step g s length hnow hdone
      obtain ⟨final, hrun, hfinal⟩ := ih next h (h.within hnow)
      exact ⟨final, .head h hrun, hfinal⟩

theorem within_of_run (h : Relation.ReflTransGen (Step g s launch length) now final)
    (hnow : now.Within launch) : final.Within launch := by
  induction h with
  | refl => exact hnow
  | tail _ h ih => exact h.within ih

/-- A run to the end makes the stores to come, in one of their interleavings. -/
theorem Step.interleaving (h : Relation.ReflTransGen (Step g s launch length) now final)
    (hnow : now.Within launch) (hfinal : final.Done) :
    ∃ steps, Interleaving (now.pending g s length) steps ∧
      final.buffer = Store.applyAll now.buffer steps := by
  induction h using Relation.ReflTransGen.head_induction_on with
  | refl =>
    refine ⟨[], .done fun t ht => ?_, rfl⟩
    obtain ⟨j, hj, rfl⟩ := List.mem_map.1 ht
    obtain ⟨e, start, room, rfl⟩ := hfinal j hj
    rfl
  | head h _ ih =>
    obtain ⟨steps, hsteps, hbuffer⟩ := ih (h.within hnow)
    cases h with
    | @job buffer before after j j' put h =>
      have hj := h.stores_eq (hnow j (List.mem_append_right _ (List.mem_cons_self ..)))
      refine ⟨put ++ steps, ?_, ?_⟩
      · rw [Progress.pending, List.map_append, List.map_cons] at hsteps ⊢
        rw [hj]
        exact hsteps.prepend put
      · rw [hbuffer, Store.applyAll, Store.applyAll, Store.applyAll, List.foldl_append]

/-! ### Fills -/

/-- The same grid, whose work is spread from another number of threads on. -/
def withParallelThreshold (g : Grid p l) (threads : Nat) : Grid p l :=
  ⟨g.plan.withParallelThreshold threads, g.params_ok, g.blockSize_ne, g.blocksPerThread_ne⟩

/-- Neither the threshold nor the schedule is seen in what a fill leaves behind. -/
theorem fillUnder_withParallelThreshold (g : Grid p l) (threads : Nat) (workers : Schedule)
    (s : Sampler α) (buffer : Array α) :
    (g.withParallelThreshold threads).fillUnder workers s buffer = g.fill s buffer := by
  cases h : g.launch? buffer.size s.perBlock with
  | error e =>
    rw [fill, g.fillUnder_of_error _ s buffer h,
      (g.withParallelThreshold threads).fillUnder_of_error _ s buffer h]
  | ok launch =>
    rw [fill, g.fillUnder_eq _ s buffer h,
      (g.withParallelThreshold threads).fillUnder_eq _ s buffer h]
    rfl

/-- Work that is done has filled the buffer as a single worker does. -/
theorem buffer_of_done (buffer : Array α) (h : g.launch? buffer.size s.perBlock = .ok launch)
    (hrun : Relation.ReflTransGen (Step g s launch buffer.size) (.start g s buffer) final)
    (hdone : final.Done) : final.buffer = (g.fill s buffer).contents := by
  obtain ⟨steps, hsteps, hbuffer⟩ :=
    Step.interleaving hrun (Progress.within_start g s buffer h) hdone
  rw [Progress.pending_start] at hsteps
  rw [hbuffer, fill, g.fillUnder_eq _ s buffer h]
  refine g.plan.applyAll_tasks p l s g.blocksPerThread_pos buffer fun a => ?_
  rw [hsteps.perm.mem_iff, List.mem_flatten]

/-- **However the workers take turns, they come to an end and leave the buffer of the fill
that does one chunk after another**; and from how many threads on the work is spread is
seen neither in the buffer nor in the launch. -/
theorem fill_of_workers (g : Grid p l) (s : Sampler α) (buffer : Array α) :
    (∀ launch, g.launch? buffer.size s.perBlock = .ok launch →
      (WellFounded fun next now : Progress p l α => Step g s launch buffer.size now next) ∧
      ∀ now, Relation.ReflTransGen (Step g s launch buffer.size) (.start g s buffer) now →
        (∃ final, Relation.ReflTransGen (Step g s launch buffer.size) now final ∧ final.Done) ∧
        (now.Done → now.buffer = (g.fill s buffer).contents)) ∧
    (∀ workers : Schedule, g.fillUnder workers s buffer = g.fill s buffer) ∧
    ∀ (threads : Nat) (workers : Schedule),
      ofPlan? (g.plan.withParallelThreshold threads) = .ok (g.withParallelThreshold threads) ∧
      (g.withParallelThreshold threads).fillUnder workers s buffer = g.fill s buffer := by
  refine ⟨?_, ?_, ?_⟩
  · intro launch h
    refine ⟨wellFounded_step g s launch buffer.size, fun now hrun => ⟨?_, ?_⟩⟩
    · exact Progress.exists_done (within_of_run hrun (Progress.within_start g s buffer h))
    · exact buffer_of_done buffer h hrun
  · intro workers
    -- A grid whose threshold is replaced by its own is the grid itself.
    exact g.fillUnder_withParallelThreshold g.plan.parallelThreshold workers s buffer
  · intro threads workers
    exact ⟨(ofPlan?_eq_ok_iff ..).2 rfl,
      g.fillUnder_withParallelThreshold threads workers s buffer⟩

theorem fill_of_workers_atEnd :
    atEnd.launch? (Array.replicate 13 (0 : UInt32)).size Sampler.words.perBlock = .ok ⟨1, 2⟩ ∧
      ∃ final, Relation.ReflTransGen (Step atEnd .words ⟨1, 2⟩ 13)
          (.start atEnd .words (.replicate 13 0)) final ∧ final.Done ∧
        final.buffer = (atEnd.fill .words (.replicate 13 0)).contents := by
  have h : atEnd.launch? (Array.replicate 13 (0 : UInt32)).size Sampler.words.perBlock =
      .ok ⟨1, 2⟩ := by rfl
  obtain ⟨-, hruns⟩ := (atEnd.fill_of_workers .words (.replicate 13 0)).1 ⟨1, 2⟩ h
  obtain ⟨⟨final, hrun, hdone⟩, -⟩ := hruns _ .refl
  exact ⟨h, final, hrun, hdone, (hruns final hrun).2 hdone⟩

end Philox.Grid
