import Philox.Text

/-! What can go wrong.

An *error* is a request the library declines: parameters no generator has, or a
launch no grid can hold. A *fault* is a step that has no result at all, such as a
division by zero or an index past the end. `message` words each of them. -/
namespace Philox
open Text

/-- Why a set of parameters is refused. -/
inductive ParamsError where
  | noRounds
  | oddCounter (size : Nat)
  | longCounter (size : Nat)
  | unalignedWidth (bits : UInt32)
  | unsupportedWidth (bits : UInt32)
  | deviceCounter (size : Nat)
  deriving DecidableEq

/-- Why a launch is refused. -/
inductive ConfigError where
  | emptyBlock
  | emptyGrid
  | idleThreads
  | oversizedGrid (threads blocks : Nat) (blockSize : UInt32)
  deriving DecidableEq

inductive Error where
  | params (cause : ParamsError)
  | config (cause : ConfigError)
  deriving DecidableEq

/-- What kind of request is refused. -/
inductive Error.Kind where
  | params
  | config
  deriving DecidableEq

def Error.kind : Error → Error.Kind
  | .params _ => .params
  | .config _ => .config

/-- Why a step has no result. -/
inductive Fault where
  | divisionByZero
  | productOverflow
  | outOfBounds (length index : Nat)
  | noLane (lanes index : Nat)
  deriving DecidableEq

inductive Failure where
  | error (cause : Error)
  | fault (cause : Fault)
  deriving DecidableEq

def ParamsError.message : ParamsError → String
  | .noRounds => "number of Philox rounds must be > 0"
  | .oddCounter size => "counter size must be even, got " ++ toString size
  | .longCounter size => "counter size " ++ toString size ++ " exceeds 16"
  | .unalignedWidth bits => "word width " ++ toString bits ++ " is not a multiple of 8"
  | .unsupportedWidth bits => "only 32-bit words are implemented, got " ++ toString bits
  | .deviceCounter size => "device kernels support a counter of 4 words, got " ++ toString size

def ConfigError.message : ConfigError → String
  | .emptyBlock => "block size must be > 0"
  | .emptyGrid => "grid size must be > 0"
  | .idleThreads => "each thread must produce at least one block"
  | .oversizedGrid threads blocks blockSize =>
    toString threads ++ " threads need " ++ toString blocks ++ " blocks of " ++
      toString blockSize ++ ", more than a grid can hold"

/-- The cause in words, after what kind of request it was. -/
def Error.message : Error → String
  | .params cause => "Invalid parameter: " ++ cause.message
  | .config cause => "Invalid configuration: " ++ cause.message

def Fault.message : Fault → String
  | .divisionByZero => "attempt to divide by zero"
  | .productOverflow => "attempt to multiply with overflow"
  | .outOfBounds length index =>
    "index out of bounds: the len is " ++ toString length ++ " but the index is " ++ toString index
  | .noLane lanes index =>
    "Uint" ++ toString lanes ++ " index " ++ toString index ++ " out of range"

def Failure.message : Failure → String
  | .error cause => cause.message
  | .fault cause => cause.message

instance : Readable Error where
  term
    | .params cause => .applied "InvalidParameter" (.quoted cause.message)
    | .config cause => .applied "InvalidConfig" (.quoted cause.message)

/-- Lifts a refusal into the failures of a step that may also fault. -/
def refuse (e : Error) : Except Failure α := .error (.error e)

def fault (f : Fault) : Except Failure α := .error (.fault f)

end Philox
