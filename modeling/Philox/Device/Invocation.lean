import Philox.Device.Kernels
import Philox.Device.Meaning
import Philox.Params
import Philox.Plan

/-! Launching a fill on a device.

An `Invocation` holds the shape of the launch and every argument of a kernel besides
its buffer. `prepare?` derives it from a plan, after the checks that a host fill
makes; the kernels have a counter of four words and no other. -/
namespace Philox.Device
open Text

structure Invocation where
  launch : Launch
  length : UInt64
  seedLow : UInt32
  seedHigh : UInt32
  baseSubsequence : UInt64
  offset : UInt64
  blocksPerThread : UInt32
  rounds : UInt32
  deriving DecidableEq

namespace Invocation

/-- The invocation that fills `length` values, `perBlock` of them from a block. -/
def prepare? (plan : FillPlan) (p : Params) (length : UInt64) (perBlock : Nat) :
    Except Failure Invocation := do
  p.check.mapError .error
  if p.counterSize ≠ blockWords then refuse (.params (.deviceCounter p.counterSize))
  if plan.blocksPerThread = 0 then refuse (.config .idleThreads)
  let launch ← Launch.forValues? length.toNat perBlock plan.blocksPerThread plan.blockSize
  return {
    launch := launch
    length := length
    seedLow := Word.low plan.seed
    seedHigh := Word.high plan.seed
    baseSubsequence := plan.baseSubsequence
    offset := plan.offset
    blocksPerThread := plan.blocksPerThread
    rounds := p.rounds }

/-- The arguments of a kernel, in the order of its parameters. -/
def args (v : Invocation) : List Value :=
  [.wide v.length, .word v.seedLow, .word v.seedHigh, .wide v.baseSubsequence, .wide v.offset,
    .word v.blocksPerThread, .word v.rounds]

/-- The stores that a thread of the launch makes. -/
def stores (v : Invocation) (kernel : String) (t : Thread) : Option (List (UInt64 × Value)) :=
  program.stores t kernel v.args

instance : Readable Invocation where
  term v := .record "KernelLaunch"
    [("grid", term v.launch), ("len", term v.length), ("seed_lo", term v.seedLow),
      ("seed_hi", term v.seedHigh), ("base_subsequence", term v.baseSubsequence),
      ("offset", term v.offset), ("blocks_per_thread", term v.blocksPerThread),
      ("rounds", term v.rounds)]

end Invocation
end Philox.Device
