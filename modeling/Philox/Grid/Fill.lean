import Philox.Engine.Direct
import Philox.Launch
import Philox.Plan
import Philox.Sampler

/-! A grid of logical threads, and how it fills a buffer.

A `Grid` exists only for parameters that a generator may have and a plan whose
blocks and threads are not empty; `ofPlan?` checks both, the parameters first. Each of
its threads has an engine of its own.

A fill cuts the buffer into chunks of what one thread produces, the last one perhaps
shorter. The task of a thread is the list of stores it makes in its own chunk, block
by block; the last block gives only what there is room for. `fillUnder` sizes the launch,
reports it and then which numbers it hands out, and carries out the tasks: in turn, or
under the schedule of its workers once the launch has as many threads as the plan's
threshold. A fill that is declined leaves the buffer alone and reports nothing. -/
namespace Philox

/-! ### Grids -/

structure Grid (p : Params) (l : Layout) where
  plan : FillPlan
  params_ok : p.check = .ok ()
  blockSize_ne : plan.blockSize ≠ 0
  blocksPerThread_ne : plan.blocksPerThread ≠ 0

namespace Grid

variable {p : Params} {l : Layout}

def ofPlan? (plan : FillPlan) : Except Error (Grid p l) :=
  match h : p.check with
  | .error e => .error e
  | .ok () =>
    if hb : plan.blockSize = 0 then .error (.config .emptyBlock)
    else if ht : plan.blocksPerThread = 0 then .error (.config .idleThreads)
    else .ok ⟨plan, h, hb, ht⟩

/-- The engine of a thread, at its first block. -/
def engine (g : Grid p l) (t : Thread) : BlockEngine p l := .ofStream (g.plan.stream t.globalId)

/-- The launch that produces `values` values, `perBlock` of them from a block. -/
def launch? (g : Grid p l) (values perBlock : Nat) : Except Failure Launch :=
  Launch.forValues? values perBlock g.plan.blocksPerThread g.plan.blockSize

end Grid

/-! ### Reports -/

inductive Level where
  | debug
  | trace
  deriving DecidableEq

def Level.name : Level → String
  | debug => "DEBUG"
  | trace => "TRACE"

inductive Event where
  | launching (params : Params) (layout : Layout) (kind : String) (length : Nat) (launch : Launch)
  | identity (seed baseSubsequence offset : UInt64)
  deriving DecidableEq

namespace Event

def level : Event → Level
  | launching .. => .debug
  | identity .. => .trace

def message : Event → String
  | launching .. => "Launching Philox grid fill"
  | identity .. => "Grid fill engine identity"

/-- The details of an event, each under its name. -/
def fields : Event → List (String × String)
  | launching params layout kind length launch =>
    [("params", params.name), ("backend", layout.name), ("kind", kind), ("len", toString length),
      ("grid_size", toString launch.gridSize), ("block_size", toString launch.blockSize)]
  | identity seed baseSubsequence offset =>
    [("seed", toString seed), ("base_subsequence", toString baseSubsequence),
      ("offset", toString offset)]

end Event

/-! ### Tasks -/

namespace Grid

variable {p : Params} {l : Layout} {α : Type}

/-- The stores of the next `blocks` blocks of an engine, from index `start`, where
`room` values still fit. -/
def stores (s : Sampler α) : (blocks : Nat) → BlockEngine p l → (start room : Nat) → List (Store α)
  | 0, _, _, _ => []
  | blocks + 1, e, start, room =>
    let (block, e) := e.next
    ⟨start, (s.ofBlock block).take room⟩ ::
      stores s blocks e (start + s.perBlock) (room - s.perBlock)

/-- The task of a thread whose chunk has `room` values from index `start`. -/
def task (g : Grid p l) (s : Sampler α) (t : Thread) (start room : Nat) : List (Store α) :=
  stores s (divUp room s.perBlock) (g.engine t) start room

/-- The tasks of a launch that fills `length` values, by the id of their thread. -/
def tasks? (g : Grid p l) (s : Sampler α) (launch : Launch) (length : Nat) :
    Except Failure (List (List (Store α))) := do
  let chunk ← Launch.perThread? s.perBlock g.plan.blocksPerThread
  (List.range (divUp length chunk)).mapM fun id => do
    let thread ← launch.thread? (.ofNat id)
    return g.task s thread (id * chunk) (min chunk (length - id * chunk))

end Grid

/-! ### Fills -/

/-- What a fill leaves behind. -/
structure Filling (α : Type) where
  result : Except Failure Launch
  contents : Array α
  events : List Event

namespace Grid

variable {p : Params} {l : Layout} {α : Type}

def events (g : Grid p l) (s : Sampler α) (launch : Launch) (length : Nat) : List Event :=
  [.launching p l s.name length launch,
    .identity g.plan.seed g.plan.baseSubsequence g.plan.offset]

/-- The order in which the stores of a launch are made. -/
def order (g : Grid p l) (workers : Schedule) (launch : Launch) (tasks : List (List (Store α))) :
    List (Store α) :=
  if g.plan.parallelThreshold ≤ launch.totalThreads then workers.order tasks else tasks.flatten

def fillUnder (g : Grid p l) (workers : Schedule) (s : Sampler α) (buffer : Array α) :
    Filling α :=
  match g.launch? buffer.size s.perBlock with
  | .error e => ⟨.error e, buffer, []⟩
  | .ok launch =>
    let events := g.events s launch buffer.size
    match g.tasks? s launch buffer.size with
    | .error e => ⟨.error e, buffer, events⟩
    | .ok tasks => ⟨.ok launch, Store.applyAll buffer (g.order workers launch tasks), events⟩

/-- The fill of a single worker. -/
def fill (g : Grid p l) (s : Sampler α) (buffer : Array α) : Filling α :=
  g.fillUnder .sequential s buffer

end Grid
end Philox
