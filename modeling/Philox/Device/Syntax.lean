/-! The language of device kernels.

A kernel is a small C program: words, 64-bit numbers, reals and short vectors,
expressions over them, and statements that declare, assign, test, count and store.
A `Program` is a list of named constants followed by functions, each of which may
call those before it. `Philox.Device.Text` writes a program out, and
`Philox.Device.Meaning` says what it computes. -/
namespace Philox.Device

inductive Ty where
  | word
  | wide
  | single
  | double
  | vec2
  | vec4
  deriving DecidableEq

inductive Lane where
  | x
  | y
  | z
  | w
  deriving DecidableEq

/-- What a running thread knows of its place in the grid. -/
inductive Coordinate where
  | blockIdx
  | blockDim
  | threadIdx
  deriving DecidableEq

inductive Op where
  | mul
  | div
  | add
  | shl
  | shr
  | xor
  | or
  deriving DecidableEq

/-- The literals differ in type: `int` takes the type of what it stands beside. -/
inductive Expr where
  | int (n : Nat)
  | word (n : Nat)
  | wide (n : Nat)
  | single (n : Nat)
  | double (n : Nat)
  | constant (name : String)
  | var (name : String)
  | lane (name : String) (lane : Lane)
  | coordinate (c : Coordinate)
  | binary (op : Op) (a b : Expr)
  | cast (ty : Ty) (e : Expr)
  | call (name : String) (args : List Expr)

inductive Relation where
  | lt
  | ge
  deriving DecidableEq

inductive Test where
  | compare (r : Relation) (a b : Expr)
  /-- Adds one to a lane, and asks whether that made it zero. -/
  | wraps (name : String) (lane : Lane)

inductive Stmt where
  /-- An empty line. -/
  | gap
  | declare (ty : Ty) (name : String) (e : Expr)
  | assign (name : String) (e : Expr)
  /-- Adds one to a lane. -/
  | bump (name : String) (lane : Lane)
  | store (buffer : String) (index value : Expr)
  | when (t : Test) (s : Stmt)
  | group (body : List Stmt)
  /-- Runs the body with the name at `start`, and so on up to the bound. The body
  assigns neither the name nor the bound. -/
  | count (name : String) (start : Nat) (bound : Expr) (body : List Stmt)
  | leave
  | give (e : Expr)

/-- Who may call a function: other functions, the same ones by inlining, or the host. -/
inductive Caller where
  | device
  | inlined
  | host
  deriving DecidableEq

/-- A parameter, or a buffer that the function may store to. -/
structure Param where
  ty : Ty
  name : String
  buffer : Bool := false

structure Function where
  remark : Option String := none
  caller : Caller
  result : Option Ty
  name : String
  params : List Param
  body : List Stmt

structure Program where
  constants : List (String × UInt32)
  functions : List Function

end Philox.Device
