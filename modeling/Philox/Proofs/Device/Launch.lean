import Philox.Proofs.Device.Invocation

/-! The host and the device launch a plan alike.

The host looks at a plan when it makes a grid of it, and sizes a launch for each fill; an
invocation of the device is prepared at once, and looks at the plan in another order. As
long as the values of a thread can be counted, the two give one answer (`agree`): the same
launch, or two refusals of one kind, in the same words unless the plan has neither threads
in a block nor blocks in a thread. A prepared invocation starts each thread of its launch in
the state of the engine that the thread has on the host (`exists_engines`). Together they
are `prepare_agrees`. -/
namespace Philox.Device.Invocation

/-! ### The two answers -/

/-- What the host answers: the launch of the grid that the plan has. -/
def hostLaunch? (plan : FillPlan) (p : Params) (l : Layout) (values perBlock : Nat) :
    Except Failure Launch := do
  let g : Grid p l ← (Grid.ofPlan? plan).mapError .error
  g.launch? values perBlock

/-- What the device answers: the launch of the invocation. -/
def deviceLaunch? (plan : FillPlan) (p : Params) (length : UInt64) (perBlock : Nat) :
    Except Failure Launch :=
  (prepare? plan p length perBlock).map launch

/-- Two answers to one request: the same launch, or two refusals of one kind, which are worded
alike if `alike`. A fault agrees with no answer. -/
inductive Agree (alike : Prop) : Except Failure Launch → Except Failure Launch → Prop
  | granted (launch : Launch) : Agree alike (.ok launch) (.ok launch)
  | refused {d h : Error} (kind : d.kind = h.kind) (message : alike → d.message = h.message) :
    Agree alike (refuse d) (refuse h)

namespace Agree

variable {alike : Prop} {d h : Except Failure Launch}

/-- An answer that is no fault agrees with itself. -/
theorem refl (x : Except Error Launch) : Agree alike (x.mapError .error) (x.mapError .error) := by
  cases x with
  | error e => exact .refused rfl fun _ => rfl
  | ok launch => exact .granted launch

/-- A launch is granted by both or by neither. -/
theorem eq_ok_iff (ha : Agree alike d h) (launch : Launch) : d = .ok launch ↔ h = .ok launch := by
  cases ha with
  | granted => exact Iff.rfl
  | refused => simp only [refuse, reduceCtorEq]

end Agree

variable {plan : FillPlan} {p : Params} {length : UInt64} {perBlock : Nat} {v : Invocation}

theorem hostLaunch?_of_check_error (plan : FillPlan) (l : Layout) (values perBlock : Nat)
    {e : Error} (hp : p.check = .error e) : hostLaunch? plan p l values perBlock = refuse e := by
  rw [hostLaunch?, Grid.ofPlan?_of_check_error plan hp]
  rfl

/-- The host looks at the threads of a block first. -/
theorem hostLaunch?_of_check_ok (plan : FillPlan) (l : Layout) (values perBlock : Nat)
    (hp : p.check = .ok ()) :
    hostLaunch? plan p l values perBlock =
      if plan.blockSize = 0 then refuse (.config .emptyBlock)
      else if plan.blocksPerThread = 0 then refuse (.config .idleThreads)
      else Launch.forValues? values perBlock plan.blocksPerThread plan.blockSize := by
  rw [hostLaunch?, Grid.ofPlan?_of_check_ok plan hp]
  by_cases hb : plan.blockSize = 0
  · rw [dif_pos hb, if_pos hb]
    rfl
  · by_cases ht : plan.blocksPerThread = 0
    · rw [dif_neg hb, dif_pos ht, if_neg hb, if_pos ht]
      rfl
    · rw [dif_neg hb, dif_neg ht, if_neg hb, if_neg ht]
      rfl

theorem deviceLaunch?_of_check_error (plan : FillPlan) (length : UInt64) (perBlock : Nat)
    {e : Error} (hp : p.check = .error e) :
    deviceLaunch? plan p length perBlock = refuse e := by
  rw [deviceLaunch?, prepare?_of_check_error plan length perBlock hp]
  rfl

/-- The device looks at the blocks of a thread first, and at the threads of a block when it
sizes the launch. -/
theorem deviceLaunch?_of_check_ok (plan : FillPlan) (length : UInt64) (perBlock : Nat)
    (hp : p.check = .ok ()) (hsize : p.counterSize = blockWords) :
    deviceLaunch? plan p length perBlock =
      if plan.blocksPerThread = 0 then refuse (.config .idleThreads)
      else Launch.forValues? length.toNat perBlock plan.blocksPerThread plan.blockSize := by
  rw [deviceLaunch?, prepare?_of_check_ok plan length perBlock hp, if_neg fun h => h hsize]
  by_cases ht : plan.blocksPerThread = 0
  · rw [if_pos ht, if_pos ht]
    rfl
  · rw [if_neg ht, if_neg ht]
    cases Launch.forValues? length.toNat perBlock plan.blocksPerThread plan.blockSize <;> rfl

/-! ### The answers agree -/

/-- **The host and the device give one answer to a plan**, whatever its parameters are. -/
theorem agree (plan : FillPlan) (l : Layout) (length : UInt64) (hsize : p.counterSize = blockWords)
    (hpos : 0 < perBlock) (hlt : perBlock * plan.blocksPerThread.toNat < 2 ^ 64) :
    Agree (¬(plan.blockSize = 0 ∧ plan.blocksPerThread = 0))
      (deviceLaunch? plan p length perBlock) (hostLaunch? plan p l length.toNat perBlock) := by
  cases hp : p.check with
  | error e =>
    rw [deviceLaunch?_of_check_error plan length perBlock hp,
      hostLaunch?_of_check_error plan l length.toNat perBlock hp]
    exact .refused rfl fun _ => rfl
  | ok =>
    rw [deviceLaunch?_of_check_ok plan length perBlock hp hsize,
      hostLaunch?_of_check_ok plan l length.toNat perBlock hp]
    by_cases ht : plan.blocksPerThread = 0
    · rw [if_pos ht]
      by_cases hb : plan.blockSize = 0
      · -- Each side names the number that it looked at first.
        rw [if_pos hb]
        exact .refused rfl fun h => absurd ⟨hb, ht⟩ h
      · rw [if_neg hb]
        exact .refused rfl fun _ => rfl
    · have hne : perBlock * plan.blocksPerThread.toNat ≠ 0 :=
        Nat.ne_of_gt (Nat.mul_pos hpos (toNat_pos ht))
      rw [if_neg ht, Launch.forValues?_eq length.toNat plan.blockSize hlt hne]
      by_cases hb : plan.blockSize = 0
      · -- No launch is sized in blocks of no threads.
        rw [if_pos hb, hb]
        exact .refused rfl fun _ => rfl
      · rw [if_neg hb]
        exact .refl _

/-- Of a plan with neither threads nor blocks each side reports what it looked at first. -/
example :
    deviceLaunch? {blockSize := 0, blocksPerThread := 0} (.ofRounds 10) 1 4 =
        refuse (.config .idleThreads) ∧
      hostLaunch? {blockSize := 0, blocksPerThread := 0} (.ofRounds 10) .array 1 4 =
        refuse (.config .emptyBlock) :=
  ⟨rfl, rfl⟩

/-! ### Where the threads start -/

/-- The counter and the key that the thread `id` starts with, in words. -/
def startParts (v : Invocation) (id : UInt64) : Vector UInt32 4 × Vector UInt32 2 :=
  let subsequence := v.baseSubsequence + id
  (#v[Word.low v.offset, Word.high v.offset, Word.low subsequence, Word.high subsequence],
    #v[v.seedLow, v.seedHigh])

/-- The engine of a thread is in the state of the thread's id. -/
theorem toParts_engine {l : Layout} (g : Grid p l) (length : UInt64) (launch : Launch)
    (t : Thread) :
    (g.engine t).state.toParts = (of g.plan p length launch).startParts t.globalId :=
  State.toParts_placed ..

/-- Every thread of a prepared launch has an engine on the host, and starts where it does. -/
theorem exists_engines (h : prepare? plan p length perBlock = .ok v) (l : Layout) :
    ∃ g : Grid p l, Grid.ofPlan? plan = .ok g ∧ ∀ id < v.launch.totalThreads,
      ∃ t, v.launch.thread? (.ofNat id) = .ok t ∧
        (g.engine t).state.toParts = v.startParts (.ofNat id) := by
  obtain ⟨g, hg, hplan, _⟩ := exists_grid h l
  refine ⟨g, hg, ?_⟩
  intro id hid
  obtain ⟨t, ht, hglobal⟩ := v.launch.thread?_of_lt hid
  refine ⟨t, ht, ?_⟩
  rw [eq_of_prepare h, ← hglobal, ← hplan]
  exact toParts_engine g length v.launch t

/-- **The host and the device describe the same launch.** Neither answer is a fault; they are
the same launch, or refusals of one kind; and each thread of a prepared launch starts in the
state of its engine on the host, with the rounds of the parameters. -/
theorem prepare_agrees (plan : FillPlan) (p : Params) (l : Layout) (length : UInt64)
    (perBlock : Nat) (hsize : p.counterSize = blockWords) (hpos : 0 < perBlock)
    (hlt : perBlock * plan.blocksPerThread.toNat < 2 ^ 64) :
    Agree (¬(plan.blockSize = 0 ∧ plan.blocksPerThread = 0))
        (deviceLaunch? plan p length perBlock) (hostLaunch? plan p l length.toNat perBlock) ∧
      ∀ v, prepare? plan p length perBlock = .ok v →
        v.rounds = p.rounds ∧
          ∃ g : Grid p l, Grid.ofPlan? plan = .ok g ∧ ∀ id < v.launch.totalThreads,
            ∃ t, v.launch.thread? (.ofNat id) = .ok t ∧
              (g.engine t).state.toParts = v.startParts (.ofNat id) := by
  refine ⟨agree plan l length hsize hpos hlt, ?_⟩
  intro v h
  refine ⟨?_, exists_engines h l⟩
  rw [eq_of_prepare h]
  rfl

/-- Two threads of two blocks each; the subsequence of the second is 0 again. -/
theorem prepare_agrees_atEnd :
    hostLaunch? Grid.atEnd.plan (.ofRounds 10) .array 13 4 = .ok ⟨1, 2⟩ ∧
      ∃ g : Grid (.ofRounds 10) .array, Grid.ofPlan? Grid.atEnd.plan = .ok g ∧
        ∃ t, (⟨1, 2⟩ : Launch).thread? 1 = .ok t ∧
          (g.engine t).state.toParts = (#v[0xFFFFFFFF, 0xFFFFFFFF, 0, 0], #v[7, 0]) := by
  obtain ⟨hagree, hstart⟩ := prepare_agrees Grid.atEnd.plan (.ofRounds 10) .array 13 4 rfl
    (by decide) (by decide)
  obtain ⟨_, g, hg, hengine⟩ := hstart (of Grid.atEnd.plan (.ofRounds 10) 13 ⟨1, 2⟩) (by rfl)
  exact ⟨(hagree.eq_ok_iff ⟨1, 2⟩).1 (by rfl), g, hg, hengine 1 (by decide)⟩

end Philox.Device.Invocation
