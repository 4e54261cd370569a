import Philox.Counter
import Philox.Device.Syntax
import Philox.Launch

/-! What a device program computes.

Arithmetic on words and on 64-bit numbers wraps, a word beside a 64-bit number is
widened, and a shift by the width or more has no result; nor has any other step that
the language leaves open, such as reading a name that was never declared. Running a
kernel on one thread yields the stores that the thread makes, in order. -/
namespace Philox.Device

inductive Value where
  | word (x : UInt32)
  | wide (x : UInt64)
  | single (x : Float32)
  | double (x : Float)
  | vec2 (v : Lanes2)
  | vec4 (v : Lanes4)

namespace Value

/-- A value brought to a type. Narrowing keeps the low word. -/
def convert : Ty → Value → Option Value
  | .word, word x => some (word x)
  | .word, wide x => some (word x.toUInt32)
  | .wide, word x => some (wide x.toUInt64)
  | .wide, wide x => some (wide x)
  | .single, word x => some (single x.toFloat32)
  | .single, single x => some (single x)
  | .double, wide x => some (double x.toFloat)
  | .double, double x => some (double x)
  | .vec2, vec2 v => some (vec2 v)
  | .vec4, vec4 v => some (vec4 v)
  | _, _ => none

def lane : Value → Lane → Option UInt32
  | vec2 v, .x => some v.x
  | vec2 v, .y => some v.y
  | vec4 v, .x => some v.x
  | vec4 v, .y => some v.y
  | vec4 v, .z => some v.z
  | vec4 v, .w => some v.w
  | _, _ => none

def setLane : Value → Lane → UInt32 → Option Value
  | vec2 v, .x, a => some (vec2 {v with x := a})
  | vec2 v, .y, a => some (vec2 {v with y := a})
  | vec4 v, .x, a => some (vec4 {v with x := a})
  | vec4 v, .y, a => some (vec4 {v with y := a})
  | vec4 v, .z, a => some (vec4 {v with z := a})
  | vec4 v, .w, a => some (vec4 {v with w := a})
  | _, _, _ => none

end Value

namespace Op

def onWords (op : Op) (a b : UInt32) : Option UInt32 :=
  match op with
  | mul => some (a * b)
  | div => if b = 0 then none else some (a / b)
  | add => some (a + b)
  | shl => if b < 32 then some (a <<< b) else none
  | shr => if b < 32 then some (a >>> b) else none
  | xor => some (a ^^^ b)
  | or => some (a ||| b)

def onWides (op : Op) (a b : UInt64) : Option UInt64 :=
  match op with
  | mul => some (a * b)
  | div => if b = 0 then none else some (a / b)
  | add => some (a + b)
  | shl => if b < 64 then some (a <<< b) else none
  | shr => if b < 64 then some (a >>> b) else none
  | xor => some (a ^^^ b)
  | or => some (a ||| b)

def onSingles (op : Op) (a b : Float32) : Option Float32 :=
  match op with
  | mul => some (a * b)
  | div => some (a / b)
  | add => some (a + b)
  | _ => none

def onDoubles (op : Op) (a b : Float) : Option Float :=
  match op with
  | mul => some (a * b)
  | div => some (a / b)
  | add => some (a + b)
  | _ => none

/-- The type of a shift is that of its left operand. -/
def widensLeft : Op → Bool
  | shl | shr => false
  | _ => true

def eval (op : Op) : Value → Value → Option Value
  | .word a, .word b => (op.onWords a b).map .word
  | .wide a, .wide b => (op.onWides a b).map .wide
  | .wide a, .word b => (op.onWides a b.toUInt64).map .wide
  | .word a, .wide b => if op.widensLeft then (op.onWides a.toUInt64 b).map .wide else none
  | .single a, .single b => (op.onSingles a b).map .single
  | .double a, .double b => (op.onDoubles a b).map .double
  | _, _ => none

end Op

/-- What a call returns for its arguments. -/
abbrev Functions := String → List Value → Option Value

/-- The functions every program may call. -/
def builtins : Functions
  | "__umulhi", [.word a, .word b] => some (.word (Word.mul a b).high)
  | "make_uint2", [.word x, .word y] => some (.vec2 ⟨x, y⟩)
  | "make_uint4", [.word x, .word y, .word z, .word w] => some (.vec4 ⟨x, y, z, w⟩)
  | _, _ => none

/-- What a running thread can see besides its own variables. -/
structure Context where
  thread : Thread
  constants : List (String × UInt32)
  functions : Functions

def Context.coordinate (c : Context) : Coordinate → UInt32
  | .blockIdx => c.thread.blockIdx
  | .blockDim => c.thread.blockDim
  | .threadIdx => c.thread.threadIdx

/-- Variables, the innermost first. -/
abbrev Vars := List (String × Value)

namespace Vars

/-- Gives a declared variable a new value. -/
def assign (name : String) (v : Value) : Vars → Option Vars
  | [] => none
  | (other, old) :: rest =>
    if other = name then some ((other, v) :: rest)
    else (assign name v rest).map ((other, old) :: ·)

def lane (vars : Vars) (name : String) (i : Lane) : Option UInt32 :=
  (vars.lookup name).bind (·.lane i)

/-- Adds one to a lane, and tells what it has become. -/
def bump (vars : Vars) (name : String) (i : Lane) : Option (UInt32 × Vars) := do
  let v ← vars.lookup name
  let word ← v.lane i
  let v ← v.setLane i (word + 1)
  let vars ← vars.assign name v
  return (word + 1, vars)

end Vars

namespace Expr

mutual

/-- A literal without a type is read as a word, which every number it stands beside
either is or widens to. -/
def eval (c : Context) (vars : Vars) : Expr → Option Value
  | int n => some (.word (.ofNat n))
  | word n => some (.word (.ofNat n))
  | wide n => some (.wide (.ofNat n))
  | single n => some (.single (UInt32.ofNat n).toFloat32)
  | double n => some (.double (UInt64.ofNat n).toFloat)
  | constant name => (c.constants.lookup name).map .word
  | var name => vars.lookup name
  | lane name i => (vars.lane name i).map .word
  | coordinate i => some (.word (c.coordinate i))
  | binary op a b => do
    let x ← a.eval c vars
    let y ← b.eval c vars
    op.eval x y
  | cast ty e => do
    let v ← e.eval c vars
    v.convert ty
  | call name args => do
    let values ← evalAll c vars args
    c.functions name values

def evalAll (c : Context) (vars : Vars) : List Expr → Option (List Value)
  | [] => some []
  | e :: rest => do
    let v ← e.eval c vars
    let values ← evalAll c vars rest
    return v :: values

end

end Expr

def Relation.eval : Relation → Value → Value → Option Bool
  | lt, .wide a, .wide b => some (decide (a < b))
  | lt, .word a, .word b => some (decide (a < b))
  | ge, .wide a, .wide b => some (decide (b ≤ a))
  | ge, .word a, .word b => some (decide (b ≤ a))
  | _, _, _ => none

/-- Whether a test holds, and the variables after it. -/
def Test.eval (c : Context) (vars : Vars) : Test → Option (Bool × Vars)
  | compare r a b => do
    let x ← a.eval c vars
    let y ← b.eval c vars
    let holds ← r.eval x y
    return (holds, vars)
  | wraps name i => do
    let (word, vars) ← vars.bump name i
    return (word = 0, vars)

/-- The variables of a running function, and the stores it has made. -/
structure Frame where
  vars : Vars
  stores : List (UInt64 × Value)

/-- The frame `inner` without the variables declared since `outer`. -/
def Frame.outside (outer inner : Frame) : Frame :=
  {inner with vars := inner.vars.drop (inner.vars.length - outer.vars.length)}

/-- A statement runs on to the next, or returns. -/
inductive Flow where
  | on (f : Frame)
  | returned (stores : List (UInt64 × Value)) (v : Option Value)

def Flow.outside (outer : Frame) : Flow → Flow
  | on f => on (outer.outside f)
  | returned stores v => returned stores v

/-- `n` passes of a loop, the name counting up from `i`. -/
def passes (body : Frame → Option Flow) (name : String) : (n : Nat) → UInt32 → Frame → Option Flow
  | 0, _, f => some (.on f)
  | n + 1, i, f =>
    match body {f with vars := (name, .word i) :: f.vars} with
    | some (.on g) => passes body name n (i + 1) (f.outside g)
    | flow => flow

mutual

def Stmt.run (c : Context) (f : Frame) : Stmt → Option Flow
  | .gap => some (.on f)
  | .declare ty name e => do
    let v ← e.eval c f.vars
    let v ← v.convert ty
    return .on {f with vars := (name, v) :: f.vars}
  | .assign name e => do
    let v ← e.eval c f.vars
    let vars ← f.vars.assign name v
    return .on {f with vars := vars}
  | .bump name i => do
    let (_, vars) ← f.vars.bump name i
    return .on {f with vars := vars}
  | .store _ index value => do
    let i ← index.eval c f.vars
    let v ← value.eval c f.vars
    match i with
    | .wide i => return .on {f with stores := f.stores ++ [(i, v)]}
    | _ => none
  | .when t s => do
    let (holds, vars) ← t.eval c f.vars
    let f := {f with vars := vars}
    if holds then s.run c f else return .on f
  | .group body => (runAll c f body).map (Flow.outside f)
  | .count name start bound body => do
    let v ← bound.eval c f.vars
    match v with
    | .word n => passes (fun g => runAll c g body) name (n.toNat - start) (.ofNat start) f
    | _ => none
  | .leave => some (.returned f.stores none)
  | .give e => do
    let v ← e.eval c f.vars
    return .returned f.stores (some v)

def runAll (c : Context) (f : Frame) : List Stmt → Option Flow
  | [] => some (.on f)
  | s :: rest =>
    match s.run c f with
    | some (.on g) => runAll c g rest
    | flow => flow

end

/-- The variables that a call starts with. -/
def bindParams : List Param → List Value → Option Vars
  | [], [] => some []
  | p :: rest, v :: values => do
    let v ← v.convert p.ty
    let vars ← bindParams rest values
    return (p.name, v) :: vars
  | _, _ => none

namespace Function

/-- Runs the body. Buffers are no variables: a store names its buffer. -/
def run (c : Context) (f : Function) (args : List Value) : Option Flow := do
  let vars ← bindParams (f.params.filter (!·.buffer)) args
  runAll c ⟨vars, []⟩ f.body

/-- What a function that returns a value returns. -/
def value (c : Context) (f : Function) (args : List Value) : Option Value := do
  let flow ← f.run c args
  let ty ← f.result
  match flow with
  | .returned _ (some v) => v.convert ty
  | _ => none

/-- The stores of a function that returns nothing. -/
def stores (c : Context) (f : Function) (args : List Value) : Option (List (UInt64 × Value)) := do
  let flow ← f.run c args
  match flow with
  | .on g => some g.stores
  | .returned stores none => some stores
  | _ => none

end Function

/-- The functions known after a list of definitions. Each sees those before it. -/
def define (t : Thread) (constants : List (String × UInt32)) : Functions → List Function → Functions
  | known, [] => known
  | known, f :: rest =>
    define t constants
      (fun name args => if name = f.name then f.value ⟨t, constants, known⟩ args else known name args)
      rest

namespace Program

/-- What a function defined after `fs` can see. -/
def context (p : Program) (t : Thread) (fs : List Function) : Context :=
  ⟨t, p.constants, define t p.constants builtins fs⟩

/-- What a device function of the program returns on a thread. -/
def call (p : Program) (t : Thread) (name : String) (args : List Value) : Option Value :=
  (p.context t p.functions).functions name args

/-- The stores that a thread of a kernel makes. -/
def stores (p : Program) (t : Thread) (kernel : String) (args : List Value) :
    Option (List (UInt64 × Value)) := do
  let f ← p.functions.find? (·.name = kernel)
  f.stores (p.context t (p.functions.takeWhile (·.name ≠ kernel))) args

end Program
end Philox.Device
