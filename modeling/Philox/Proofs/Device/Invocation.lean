import Philox.Proofs.Device.Reach
import Philox.Proofs.Grid.Fill

/-! Which invocations are prepared.

`prepare?_eq_ok_iff` says which they are. A prepared one has the shape that
`Sized` asks for, and its plan has a grid on the host, whose fill is granted the same
launch (`exists_grid`). -/
namespace Philox.Device.Invocation

/-- The invocation of a plan in a launch. -/
def of (plan : FillPlan) (p : Params) (length : UInt64) (launch : Launch) : Invocation where
  launch := launch
  length := length
  seedLow := Word.low plan.seed
  seedHigh := Word.high plan.seed
  baseSubsequence := plan.baseSubsequence
  offset := plan.offset
  blocksPerThread := plan.blocksPerThread
  rounds := p.rounds

variable {plan : FillPlan} {p : Params} {length : UInt64} {perBlock : Nat} {v : Invocation}

/-- Parameters that are refused are refused whatever the plan is. -/
theorem prepare?_of_check_error (plan : FillPlan) (length : UInt64) (perBlock : Nat) {e : Error}
    (hp : p.check = .error e) : prepare? plan p length perBlock = refuse e := by
  unfold prepare?
  rw [hp]
  rfl

/-- With parameters that a generator may have, the size of the counter and the plan decide. -/
theorem prepare?_of_check_ok (plan : FillPlan) (length : UInt64) (perBlock : Nat)
    (hp : p.check = .ok ()) :
    prepare? plan p length perBlock =
      if p.counterSize ≠ blockWords then refuse (.params (.deviceCounter p.counterSize))
      else if plan.blocksPerThread = 0 then refuse (.config .idleThreads)
      else (Launch.forValues? length.toNat perBlock plan.blocksPerThread plan.blockSize).map
        (of plan p length) := by
  unfold prepare?
  rw [hp]
  by_cases hsize : p.counterSize = blockWords
  · by_cases hblocks : plan.blocksPerThread = 0
    · simp [mapError_ok, bind, Except.bind, hsize, hblocks, refuse]
    · cases hlaunch : Launch.forValues? length.toNat perBlock plan.blocksPerThread
          plan.blockSize with
      | error e => simp [mapError_ok, bind, Except.bind, hsize, hblocks, Except.map]
      | ok launch =>
        simp [mapError_ok, bind, Except.bind, hsize, hblocks, pure, Except.pure, Except.map, of]
  · simp [mapError_ok, bind, Except.bind, hsize, refuse]

/-- An invocation is prepared for the parameters that a generator may have, once there are
blocks to make and a launch that holds their threads. -/
theorem prepare?_eq_ok_iff (plan : FillPlan) (p : Params) (length : UInt64) (perBlock : Nat)
    (v : Invocation) :
    prepare? plan p length perBlock = .ok v ↔
      p.Legal ∧ plan.blocksPerThread ≠ 0 ∧
        ∃ launch, Launch.forValues? length.toNat perBlock plan.blocksPerThread plan.blockSize =
          .ok launch ∧ v = of plan p length launch := by
  rw [p.legal_iff]
  cases hcheck : p.check with
  | error e => simp [prepare?_of_check_error plan length perBlock hcheck, refuse]
  | ok u =>
    rw [prepare?_of_check_ok plan length perBlock hcheck]
    by_cases hsize : p.counterSize = blockWords
    · by_cases hblocks : plan.blocksPerThread = 0
      · simp [hsize, hblocks, refuse]
      · cases hlaunch : Launch.forValues? length.toNat perBlock plan.blocksPerThread
            plan.blockSize with
        | error e => simp [hsize, hblocks, Except.map]
        | ok launch => simp [hsize, hblocks, Except.map, eq_comm]
    · simp [hsize, refuse]

/-- A prepared invocation is that of its plan. -/
theorem eq_of_prepare (h : prepare? plan p length perBlock = .ok v) :
    v = of plan p length v.launch := by
  obtain ⟨_, _, launch, _, rfl⟩ := (prepare?_eq_ok_iff ..).1 h
  rfl

theorem sized_of_prepare (h : prepare? plan p length 4 = .ok v) : v.Sized := by
  obtain ⟨_, _, launch, hlaunch, rfl⟩ := (prepare?_eq_ok_iff ..).1 h
  obtain ⟨_, hne, hthreads⟩ := (Launch.forValues?_eq_ok_iff ..).1 hlaunch
  exact ⟨Nat.pos_of_ne_zero hne, Launch.threads_le_totalThreads hthreads,
    Launch.totalThreads_lt_or hthreads⟩

/-- The plan of a prepared invocation has a grid, and a fill of as many values is granted the
same launch. -/
theorem exists_grid (h : prepare? plan p length perBlock = .ok v) (l : Layout) :
    ∃ g : Grid p l, Grid.ofPlan? plan = .ok g ∧ g.plan = plan ∧
      g.launch? length.toNat perBlock = .ok v.launch := by
  obtain ⟨hlegal, hblocks, launch, hlaunch, rfl⟩ := (prepare?_eq_ok_iff ..).1 h
  obtain ⟨_, _, hthreads⟩ := (Launch.forValues?_eq_ok_iff ..).1 hlaunch
  obtain ⟨hsize, _⟩ := (Launch.forThreads?_eq_ok_iff ..).1 hthreads
  exact ⟨_, Grid.ofPlan?_eq_ok plan hlegal.check_eq_ok hsize hblocks, rfl, hlaunch⟩

end Philox.Device.Invocation
