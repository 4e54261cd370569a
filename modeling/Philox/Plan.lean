import Philox.Text

/-! What a generator is asked for.

A `Stream` says which numbers a generator hands out: a seed names 2^64 subsequences, and
an offset says where in its subsequence a generator starts. A `FillPlan` says how a
buffer is filled: thread `t` of a fill runs on subsequence `baseSubsequence + t` of one
seed and produces `blocksPerThread` blocks. Once a launch has `parallelThreshold`
threads, their work may be spread over several workers. -/
namespace Philox
open Text

/-! ### Streams -/

structure Stream where
  seed : UInt64 := 0
  subsequence : UInt64 := 0
  offset : UInt64 := 0
  deriving DecidableEq

namespace Stream

def ofSeed (seed : UInt64) : Stream := {seed := seed}

def withSubsequence (s : Stream) (subsequence : UInt64) : Stream :=
  {s with subsequence := subsequence}

def withOffset (s : Stream) (offset : UInt64) : Stream := {s with offset := offset}

instance : Readable Stream where
  term s := .record "EngineConfig"
    [("seed", term s.seed), ("subsequence", term s.subsequence), ("offset", term s.offset)]

end Stream

/-! ### Fills -/

structure FillPlan where
  seed : UInt64 := 0
  baseSubsequence : UInt64 := 0
  offset : UInt64 := 0
  blockSize : UInt32 := 256
  blocksPerThread : UInt32 := 1
  parallelThreshold : Nat := 1024
  deriving DecidableEq

namespace FillPlan

def ofSeed (seed : UInt64) : FillPlan := {seed := seed}

def withBaseSubsequence (plan : FillPlan) (subsequence : UInt64) : FillPlan :=
  {plan with baseSubsequence := subsequence}

def withOffset (plan : FillPlan) (offset : UInt64) : FillPlan := {plan with offset := offset}

def withBlockSize (plan : FillPlan) (threads : UInt32) : FillPlan :=
  {plan with blockSize := threads}

def withBlocksPerThread (plan : FillPlan) (blocks : UInt32) : FillPlan :=
  {plan with blocksPerThread := blocks}

def withParallelThreshold (plan : FillPlan) (threads : Nat) : FillPlan :=
  {plan with parallelThreshold := threads}

/-- The stream of the thread with a global id. -/
def stream (plan : FillPlan) (id : UInt64) : Stream :=
  ((Stream.ofSeed plan.seed).withSubsequence (plan.baseSubsequence + id)).withOffset plan.offset

instance : Readable FillPlan where
  term plan := .record "FillConfig"
    [("seed", term plan.seed), ("base_subsequence", term plan.baseSubsequence),
      ("offset", term plan.offset), ("block_size", term plan.blockSize),
      ("blocks_per_thread", term plan.blocksPerThread),
      ("parallel_threshold", term plan.parallelThreshold)]

end FillPlan
end Philox
