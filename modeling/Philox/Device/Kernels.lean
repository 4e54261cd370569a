import Philox.Device.Text

/-! The kernels that fill a buffer on a device.

The program stands on its own: it has its constants, its round and its counter written
out, and shares nothing with the host. Thread `t` of a launch runs on subsequence
`base_subsequence + t`, and stores the values of its blocks from `t` times what a thread
produces. The number of rounds is an argument, so one program serves every generator. -/
namespace Philox.Device

def fillWordsKernel : String := "philox_fill_u32"
def fillSinglesKernel : String := "philox_fill_uniform_f32"
def fillDoublesKernel : String := "philox_fill_uniform_f64"

namespace Kernels

def constants : List (String × UInt32) :=
  [("PHILOX_M4X32_0", 0xD2511F53), ("PHILOX_M4X32_1", 0xCD9E8D57), ("PHILOX_W32_0", 0x9E3779B9),
    ("PHILOX_W32_1", 0xBB67AE85)]

def xor3 (a b c : Expr) : Expr := .binary .xor (.binary .xor a b) c

def singleRound : Function where
  caller := .inlined
  result := some .vec4
  name := "philox_single_round"
  params := [⟨.vec4, "ctr", false⟩, ⟨.vec2, "key", false⟩]
  body :=
    [.declare .word "hi0" (.call "__umulhi" [.constant "PHILOX_M4X32_0", .lane "ctr" .x]),
      .declare .word "lo0" (.binary .mul (.constant "PHILOX_M4X32_0") (.lane "ctr" .x)),
      .declare .word "hi1" (.call "__umulhi" [.constant "PHILOX_M4X32_1", .lane "ctr" .z]),
      .declare .word "lo1" (.binary .mul (.constant "PHILOX_M4X32_1") (.lane "ctr" .z)),
      .give (.call "make_uint4"
        [xor3 (.var "hi1") (.lane "ctr" .y) (.lane "key" .x), .var "lo1",
          xor3 (.var "hi0") (.lane "ctr" .w) (.lane "key" .y), .var "lo0"])]

def bumpKey : Function where
  caller := .inlined
  result := some .vec2
  name := "philox_bump_key"
  params := [⟨.vec2, "key", false⟩]
  body :=
    [.give (.call "make_uint2"
      [.binary .add (.lane "key" .x) (.constant "PHILOX_W32_0"),
        .binary .add (.lane "key" .y) (.constant "PHILOX_W32_1")])]

def nRounds : Function where
  caller := .device
  result := some .vec4
  name := "philox_n_rounds"
  params := [⟨.vec4, "ctr", false⟩, ⟨.vec2, "key", false⟩, ⟨.word, "rounds", false⟩]
  body :=
    [.assign "ctr" (.call "philox_single_round" [.var "ctr", .var "key"]),
      .count "r" 1 (.var "rounds")
        [.assign "key" (.call "philox_bump_key" [.var "key"]),
          .assign "ctr" (.call "philox_single_round" [.var "ctr", .var "key"])],
      .give (.var "ctr")]

def advance : Function where
  caller := .inlined
  result := some .vec4
  name := "philox_advance"
  params := [⟨.vec4, "ctr", false⟩]
  body :=
    [.when (.wraps "ctr" .x) (.group
        [.when (.wraps "ctr" .y) (.group
          [.when (.wraps "ctr" .z) (.group [.bump "ctr" .w])])]),
      .give (.var "ctr")]

/-- The global id of the running thread. -/
def globalId : Expr :=
  .binary .add (.binary .mul (.cast .wide (.coordinate .blockIdx)) (.coordinate .blockDim))
    (.coordinate .threadIdx)

def threadCounter : Function where
  remark := some "Counter for block `offset` of subsequence `base + gid`."
  caller := .device
  result := some .vec4
  name := "philox_thread_counter"
  params := [⟨.wide, "base_subsequence", false⟩, ⟨.wide, "offset", false⟩]
  body :=
    [.declare .wide "gid" globalId,
      .declare .wide "sub" (.binary .add (.var "base_subsequence") (.var "gid")),
      .give (.call "make_uint4"
        [.cast .word (.var "offset"), .cast .word (.binary .shr (.var "offset") (.int 32)),
          .cast .word (.var "sub"), .cast .word (.binary .shr (.var "sub") (.int 32))])]

def threadBase : Function where
  caller := .inlined
  result := some .wide
  name := "philox_thread_base"
  params := [⟨.word, "per_thread", false⟩]
  body := [.give (.binary .mul globalId (.var "per_thread"))]

def toSingle : Function where
  caller := .inlined
  result := some .single
  name := "philox_u32_to_f32"
  params := [⟨.word, "x", false⟩]
  body :=
    [.give (.binary .mul (.cast .single (.binary .shr (.var "x") (.int 8)))
      (.binary .div (.single 1) (.single 16777216)))]

def toDouble : Function where
  caller := .inlined
  result := some .double
  name := "philox_u32x2_to_f64"
  params := [⟨.word, "hi", false⟩, ⟨.word, "lo", false⟩]
  body :=
    [.declare .wide "combined"
        (.binary .or (.binary .shl (.cast .wide (.var "hi")) (.int 32)) (.var "lo")),
      .give (.binary .mul (.cast .double (.binary .shr (.var "combined") (.int 11)))
        (.binary .div (.double 1) (.double 9007199254740992)))]

/-- The `k`-th index after `i`. -/
def indexAt (k : Nat) : Expr := if k = 0 then .var "i" else .binary .add (.var "i") (.int k)

/-- Stores a value `k` places after `i`, if the buffer reaches that far. -/
def storeAt (value : Expr) (k : Nat) : Stmt :=
  .when (.compare .lt (indexAt k) (.var "n")) (.store "output" (indexAt k) value)

/-- The kernel that stores `values`, expressions in the words of the block `out`. -/
def fill (name : String) (element : Ty) (values : List Expr) : Function where
  caller := .host
  result := none
  name := name
  params :=
    [⟨element, "output", true⟩, ⟨.wide, "n", false⟩, ⟨.word, "seed_lo", false⟩,
      ⟨.word, "seed_hi", false⟩, ⟨.wide, "base_subsequence", false⟩, ⟨.wide, "offset", false⟩,
      ⟨.word, "blocks_per_thread", false⟩, ⟨.word, "rounds", false⟩]
  body :=
    [.declare .wide "base"
        (.call "philox_thread_base" [.binary .mul (.word values.length) (.var "blocks_per_thread")]),
      .when (.compare .ge (.var "base") (.var "n")) .leave,
      .gap,
      .declare .vec4 "ctr"
        (.call "philox_thread_counter" [.var "base_subsequence", .var "offset"]),
      .declare .vec2 "key" (.call "make_uint2" [.var "seed_lo", .var "seed_hi"]),
      .gap,
      .count "b" 0 (.var "blocks_per_thread")
        ([.declare .vec4 "out"
            (.call "philox_n_rounds" [.var "ctr", .var "key", .var "rounds"]),
          .assign "ctr" (.call "philox_advance" [.var "ctr"]),
          .gap,
          .declare .wide "i"
            (.binary .add (.var "base") (.binary .mul (.wide values.length) (.var "b")))] ++
          values.mapIdx fun k value => storeAt value k)]

def out (i : Lane) : Expr := .lane "out" i

def fillWords : Function := fill fillWordsKernel .word [out .x, out .y, out .z, out .w]

def fillSingles : Function :=
  fill fillSinglesKernel .single ([.x, .y, .z, .w].map fun i => .call "philox_u32_to_f32" [out i])

def fillDoubles : Function :=
  fill fillDoublesKernel .double
    [.call "philox_u32x2_to_f64" [out .x, out .y], .call "philox_u32x2_to_f64" [out .z, out .w]]

end Kernels

open Kernels in
def program : Program where
  constants := constants
  functions :=
    [singleRound, bumpKey, nRounds, advance, threadCounter, threadBase, fillWords, toSingle,
      toDouble, fillSingles, fillDoubles]

end Philox.Device
