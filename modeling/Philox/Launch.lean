import Philox.Error

/-! Logical threads and the grids they are launched in.

A thread stands at an index within its block, and its block at an index within the
grid; the two make its global id. A `Launch` is the shape of a grid: so many blocks
of so many threads. `forThreads?` and `forValues?` size a launch for its work, and
decline one that no grid can hold. -/
namespace Philox
open Text

/-- `a / b`, rounded up. -/
def divUp (a b : Nat) : Nat := (a + b - 1) / b

structure Thread where
  blockIdx : UInt32
  threadIdx : UInt32
  blockDim : UInt32
  deriving DecidableEq

namespace Thread

/-- The thread with a global id, in blocks of `blockDim`. A block index has 32 bits. -/
def ofGlobal? (id : UInt64) (blockDim : UInt32) : Except Failure Thread :=
  if blockDim = 0 then fault .divisionByZero
  else .ok ⟨(id / blockDim.toUInt64).toUInt32, (id % blockDim.toUInt64).toUInt32, blockDim⟩

def globalId (t : Thread) : UInt64 :=
  t.blockIdx.toUInt64 * t.blockDim.toUInt64 + t.threadIdx.toUInt64

/-- The subsequence of the thread, if thread 0 has subsequence `base`. -/
def subsequence (t : Thread) (base : UInt64) : UInt64 := base + t.globalId

instance : Readable Thread where
  term t := .record "ThreadIndex"
    [("block_idx", term t.blockIdx), ("thread_idx", term t.threadIdx), ("block_dim", term t.blockDim)]

end Thread

structure Launch where
  gridSize : UInt32
  blockSize : UInt32
  deriving DecidableEq

namespace Launch

def ofSizes? (gridSize blockSize : UInt32) : Except Error Launch :=
  if blockSize = 0 then .error (.config .emptyBlock)
  else if gridSize = 0 then .error (.config .emptyGrid)
  else .ok ⟨gridSize, blockSize⟩

/-- The fewest whole blocks that hold `threads` threads, and at least one. -/
def forThreads? (threads : Nat) (blockSize : UInt32) : Except Error Launch :=
  if blockSize = 0 then .error (.config .emptyBlock)
  else
    let blocks := divUp (max threads 1) blockSize.toNat
    if blocks < UInt32.size then ofSizes? (.ofNat blocks) blockSize
    else .error (.config (.oversizedGrid threads blocks blockSize))

/-- The values of one thread. The product has 64 bits. -/
def perThread? (perBlock : Nat) (blocksPerThread : UInt32) : Except Failure Nat :=
  let product := perBlock * blocksPerThread.toNat
  if product < UInt64.size then .ok product else fault .productOverflow

/-- The launch in which threads of `blocksPerThread` blocks produce `values` values. -/
def forValues? (values perBlock : Nat) (blocksPerThread blockSize : UInt32) :
    Except Failure Launch := do
  let perThread ← perThread? perBlock blocksPerThread
  if perThread = 0 then fault .divisionByZero
  else (forThreads? (divUp values perThread) blockSize).mapError .error

def totalThreads (g : Launch) : Nat := g.gridSize.toNat * g.blockSize.toNat

def thread? (g : Launch) (id : UInt64) : Except Failure Thread :=
  Thread.ofGlobal? id g.blockSize

/-- Every thread of the grid, by global id. -/
def threads? (g : Launch) : Except Failure (List Thread) :=
  (List.range g.totalThreads).mapM fun id => g.thread? (.ofNat id)

instance : Readable Launch where
  term g := .record "LaunchGrid"
    [("grid_size", term g.gridSize), ("block_size", term g.blockSize)]

end Launch
end Philox
