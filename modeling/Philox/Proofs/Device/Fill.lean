import Philox.Device.Invocation
import Philox.Proofs.Device.Functions

/-! What a thread of a fill kernel stores.

A thread leaves if its first index is past the end of the buffer. Otherwise it makes
its blocks one after another, each from a counter one higher, and stores their values in
a row, but not past the end (`fill_stores`). `fillWords_stores` says so of the kernel
that stores words. -/
namespace Philox.Device
open Kernels

/-! ### The stores of a thread -/

/-- The stores of the values of a block from index `i` on, in a buffer of `n` values. -/
def blockStores (n i : UInt64) (values : List Value) : List (UInt64 × Value) :=
  (values.mapIdx fun k v => (i + (UInt32.ofNat k).toUInt64, v)).filter (·.1 < n)

namespace Invocation

/-- The first index of a thread. What a thread stores is counted in a word. -/
def base (v : Invocation) (perBlock : Nat) (t : Thread) : UInt64 :=
  t.globalId * (UInt32.ofNat perBlock * v.blocksPerThread).toUInt64

/-- The value of the first counter of a thread. -/
def start (v : Invocation) (t : Thread) : Nat :=
  (v.baseSubsequence + t.globalId).toNat * 2 ^ 64 + v.offset.toNat

/-- Block `b` of a thread. -/
def output (v : Invocation) (t : Thread) (b : Nat) : Lanes4 :=
  Round.network v.rounds.toNat (Counter.ofValue (v.start t + b)) (⟨v.seedLow, v.seedHigh⟩ : Lanes2)

/-- Word `r` of a thread, its blocks being read one after another. -/
def word (v : Invocation) (t : Thread) (r : Nat) : UInt32 :=
  (Storage.toWords (v.output t (r / 4)))[Fin.ofNat 4 r]

/-- The stores of block `b` of a thread, if a block has the values `f`. -/
def storesOf (v : Invocation) (perBlock : Nat) (f : Lanes4 → List Value) (t : Thread) (b : Nat) :
    List (UInt64 × Value) :=
  blockStores v.length (v.base perBlock t + .ofNat perBlock * (UInt32.ofNat b).toUInt64)
    (f (v.output t b))

end Invocation

/-! ### Values of a block -/

/-- The expressions have the values `f` of whatever block is in `out`. -/
def Reads (c : Context) (values : List Expr) (f : Lanes4 → List Value) : Prop :=
  ∀ vars out, vars.lookup "out" = some (.vec4 out) → Expr.evalAll c vars values = some (f out)

section Stores

variable {c : Context} {vars : Vars} {i n : UInt64}

theorem indexAt_eval (c : Context) (hi : vars.lookup "i" = some (.wide i)) (k : Nat) :
    (indexAt k).eval c vars = some (.wide (i + (UInt32.ofNat k).toUInt64)) := by
  unfold indexAt
  by_cases hk : k = 0
  · rw [if_pos hk, hk, Expr.eval, hi]
    show _ = some (Value.wide (i + 0))
    rw [UInt64.add_zero]
  · rw [if_neg hk, Expr.eval, Expr.eval, Expr.eval, hi]
    rfl

theorem run_storeAt {value : Expr} {v : Value} (hi : vars.lookup "i" = some (.wide i))
    (hn : vars.lookup "n" = some (.wide n)) (hv : value.eval c vars = some v) (k : Nat)
    (stores : List (UInt64 × Value)) :
    (storeAt value k).run c ⟨vars, stores⟩ = some (.on ⟨vars,
      stores ++ [(i + (UInt32.ofNat k).toUInt64, v)].filter (·.1 < n)⟩) := by
  have hindex := indexAt_eval c hi k
  have hbound : Test.eval c vars (.compare .lt (indexAt k) (.var "n")) =
      some (decide (i + (UInt32.ofNat k).toUInt64 < n), vars) := by
    simp [Test.eval, hindex, Expr.eval, hn, Relation.eval]
  rw [storeAt, run_when hbound]
  by_cases hlt : i + (UInt32.ofNat k).toUInt64 < n
  · simp [hlt, Stmt.run, hindex, hv]
  · simp [hlt]

/-- The stores of one block, the first of them `k` places after `i`. -/
theorem run_stores (vars : Vars) {values : List Expr} {vs : List Value}
    (hi : vars.lookup "i" = some (.wide i)) (hn : vars.lookup "n" = some (.wide n))
    (hvalues : Expr.evalAll c vars values = some vs) (k : Nat) (stores : List (UInt64 × Value)) :
    runAll c ⟨vars, stores⟩ (values.mapIdx fun j value => storeAt value (k + j)) =
      some (.on ⟨vars, stores ++
        (vs.mapIdx fun j v => (i + (UInt32.ofNat (k + j)).toUInt64, v)).filter (·.1 < n)⟩) := by
  induction values generalizing vs k stores with
  | nil =>
    cases hvalues
    rw [List.mapIdx_nil, List.mapIdx_nil, List.filter_nil, List.append_nil]
    rfl
  | cons value rest ih =>
    rw [Expr.evalAll] at hvalues
    obtain ⟨v, hv, hrest⟩ := Option.bind_eq_some_iff.1 hvalues
    obtain ⟨ws, hws, hcons⟩ := Option.bind_eq_some_iff.1 hrest
    cases hcons
    have hnext := ih hws (k + 1)
    simp only [Nat.add_right_comm k 1] at hnext
    simp only [List.mapIdx_cons, Nat.add_zero, ← Nat.add_assoc]
    rw [runAll_on (run_storeAt hi hn hv k stores), hnext, List.append_assoc, ← List.filter_append]
    rfl

end Stores

/-! ### The loop over the blocks -/

section Loop

variable {c : Context} {t : Thread} {values : List Expr} {f : Lanes4 → List Value}

/-- What a kernel does for each of its blocks. -/
def fillPass (values : List Expr) : List Stmt :=
  [.declare .vec4 "out" (.call "philox_n_rounds" [.var "ctr", .var "key", .var "rounds"]),
    .assign "ctr" (.call "philox_advance" [.var "ctr"]),
    .gap,
    .declare .wide "i"
      (.binary .add (.var "base") (.binary .mul (.wide values.length) (.var "b")))] ++
    values.mapIdx fun k value => storeAt value k

/-- The arguments of a kernel, as it sees them. -/
def fillArgs (v : Invocation) : Vars :=
  [("n", .wide v.length), ("seed_lo", .word v.seedLow), ("seed_hi", .word v.seedHigh),
    ("base_subsequence", .wide v.baseSubsequence), ("offset", .wide v.offset),
    ("blocks_per_thread", .word v.blocksPerThread), ("rounds", .word v.rounds)]

/-- The variables of a kernel while it makes its blocks. -/
def fillVars (v : Invocation) (base : UInt64) (ctr : Lanes4) : Vars :=
  ("key", .vec2 ⟨v.seedLow, v.seedHigh⟩) :: ("ctr", .vec4 ctr) :: ("base", .wide base) ::
    fillArgs v

@[simp] theorem length_fillVars (v : Invocation) (base : UInt64) (ctr : Lanes4) :
    (fillVars v base ctr).length = 10 :=
  rfl

/-- A pass begins with its block. -/
theorem run_out (hserves : c.Serves t) (v : Invocation) (base : UInt64) (ctr : Lanes4) (b : UInt32)
    (stores : List (UInt64 × Value)) :
    let out := Round.network v.rounds.toNat ctr (⟨v.seedLow, v.seedHigh⟩ : Lanes2)
    Stmt.run c ⟨("b", .word b) :: fillVars v base ctr, stores⟩
        (.declare .vec4 "out" (.call "philox_n_rounds" [.var "ctr", .var "key", .var "rounds"])) =
      some (.on ⟨("out", .vec4 out) :: ("b", .word b) :: fillVars v base ctr, stores⟩) := by
  simp [Stmt.run, Expr.eval, Expr.evalAll, fillVars, fillArgs, List.lookup_cons, hserves.nRounds,
    Value.convert]

theorem run_fillPass (hserves : c.Serves t) (hreads : Reads c values f) (v : Invocation)
    (base : UInt64) (ctr : Lanes4) (b : UInt32) (stores : List (UInt64 × Value)) :
    let out := Round.network v.rounds.toNat ctr (⟨v.seedLow, v.seedHigh⟩ : Lanes2)
    let i := base + .ofNat values.length * b.toUInt64
    runAll c ⟨("b", .word b) :: fillVars v base ctr, stores⟩ (fillPass values) =
      some (.on ⟨("i", .wide i) :: ("out", .vec4 out) :: ("b", .word b) ::
          fillVars v base (Counter.advance ctr), stores ++ blockStores v.length i (f out)⟩) := by
  intro out i
  have hctr : Stmt.run c ⟨("out", .vec4 out) :: ("b", .word b) :: fillVars v base ctr, stores⟩
      (.assign "ctr" (.call "philox_advance" [.var "ctr"])) =
      some (.on ⟨("out", .vec4 out) :: ("b", .word b) :: fillVars v base (Counter.advance ctr),
        stores⟩) := by
    simp [Stmt.run, Expr.eval, Expr.evalAll, fillVars, fillArgs, List.lookup_cons, hserves.advance, Vars.assign]
  have hindex : Stmt.run c
      ⟨("out", .vec4 out) :: ("b", .word b) :: fillVars v base (Counter.advance ctr), stores⟩
      (.declare .wide "i"
        (.binary .add (.var "base") (.binary .mul (.wide values.length) (.var "b")))) =
      some (.on ⟨("i", .wide i) :: ("out", .vec4 out) :: ("b", .word b) ::
        fillVars v base (Counter.advance ctr), stores⟩) := by
    rfl
  have hstores := run_stores (n := v.length) (("i", .wide i) :: ("out", .vec4 out) ::
    ("b", .word b) :: fillVars v base (Counter.advance ctr)) rfl rfl (hreads _ out rfl) 0 stores
  simp only [Nat.zero_add] at hstores
  rw [fillPass, List.cons_append, List.cons_append, List.cons_append, List.cons_append,
    List.nil_append, runAll_on (run_out hserves v base ctr b stores), runAll_on hctr, runAll_on (by rfl), runAll_on hindex]
  exact hstores

/-- The frame of a thread that has made `j` blocks. -/
def fillFrame (v : Invocation) (perBlock : Nat) (f : Lanes4 → List Value) (t : Thread) (j : Nat) :
    Frame where
  vars := fillVars v (v.base perBlock t) (Counter.ofValue (v.start t + j))
  stores := (List.range j).flatMap (v.storesOf perBlock f t)

theorem fillFrame_next (hserves : c.Serves t) (hreads : Reads c values f) (v : Invocation)
    (j : Nat) :
    ∃ g, runAll c {fillFrame v values.length f t j with
        vars := ("b", .word (0 + .ofNat j)) :: (fillFrame v values.length f t j).vars}
        (fillPass values) = some (.on g) ∧
      (fillFrame v values.length f t j).outside g = fillFrame v values.length f t (j + 1) := by
  have hstores : (fillFrame v values.length f t (j + 1)).stores =
      (fillFrame v values.length f t j).stores ++ v.storesOf values.length f t j := by
    simp only [fillFrame, List.range_succ, List.flatMap_append, List.flatMap_singleton]
  have hpass := run_fillPass hserves hreads v (v.base values.length t)
    (Counter.ofValue (v.start t + j)) (.ofNat j) (fillFrame v values.length f t j).stores
  rw [Counter.advance_ofValue, Nat.add_assoc] at hpass
  rw [UInt32.zero_add]
  refine ⟨_, hpass, ?_⟩
  have hlength : (fillFrame v values.length f t (j + 1)).vars.length =
      (fillFrame v values.length f t j).vars.length := by
    rw [fillFrame, fillFrame, length_fillVars, length_fillVars]
  exact (outside_append _ [_, _, _] _ _ hlength).trans (congrArg (Frame.mk _) hstores.symm)

theorem fill_passes (hserves : c.Serves t) (hreads : Reads c values f) (v : Invocation) :
    passes (fun g => runAll c g (fillPass values)) "b" v.blocksPerThread.toNat 0
        (fillFrame v values.length f t 0) =
      some (.on (fillFrame v values.length f t v.blocksPerThread.toNat)) :=
  passes_eq v.blocksPerThread.toNat (fillFrame v values.length f t) fun j _ =>
    fillFrame_next hserves hreads v j

end Loop

/-! ### Kernels -/

section Kernels

variable {c : Context} {t : Thread} {values : List Expr} {f : Lanes4 → List Value}

/-- What a kernel does before its blocks. -/
def fillHead (perBlock : Nat) : List Stmt :=
  [.declare .wide "base"
      (.call "philox_thread_base" [.binary .mul (.word perBlock) (.var "blocks_per_thread")]),
    .when (.compare .ge (.var "base") (.var "n")) .leave,
    .gap,
    .declare .vec4 "ctr" (.call "philox_thread_counter" [.var "base_subsequence", .var "offset"]),
    .declare .vec2 "key" (.call "make_uint2" [.var "seed_lo", .var "seed_hi"]),
    .gap]

theorem fill_body (name : String) (element : Ty) (values : List Expr) :
    (fill name element values).body =
      fillHead values.length ++ [.count "b" 0 (.var "blocks_per_thread") (fillPass values)] :=
  rfl

theorem fill_bind (name : String) (element : Ty) (values : List Expr) (v : Invocation) :
    bindParams ((fill name element values).params.filter (!·.buffer)) v.args =
      some (fillArgs v) :=
  rfl

/-- A thread leaves, or comes to its first block. -/
theorem run_fillHead (hserves : c.Serves t) (v : Invocation) (perBlock : Nat)
    (f : Lanes4 → List Value) :
    runAll c ⟨fillArgs v, []⟩ (fillHead perBlock) =
      some (if v.length ≤ v.base perBlock t then .returned [] none
        else .on (fillFrame v perBlock f t 0)) := by
  have hbase : Stmt.run c ⟨fillArgs v, []⟩ (.declare .wide "base"
      (.call "philox_thread_base"
        [.binary .mul (.word perBlock) (.var "blocks_per_thread")])) =
      some (.on ⟨("base", .wide (v.base perBlock t)) :: fillArgs v, []⟩) := by
    simp [Stmt.run, Expr.eval, Expr.evalAll, fillArgs, List.lookup_cons, hserves.threadBase,
      Value.convert, Op.eval, Op.onWords, Invocation.base]
  have htest : Test.eval c (("base", .wide (v.base perBlock t)) :: fillArgs v)
      (.compare .ge (.var "base") (.var "n")) =
      some (decide (v.length ≤ v.base perBlock t),
        ("base", .wide (v.base perBlock t)) :: fillArgs v) := by
    rfl
  by_cases hend : v.length ≤ v.base perBlock t
  · have hleave : Stmt.run c ⟨("base", .wide (v.base perBlock t)) :: fillArgs v, []⟩
        (.when (.compare .ge (.var "base") (.var "n")) .leave) = some (.returned [] none) := by
      rw [run_when htest, if_pos (decide_eq_true hend), Stmt.run]
    rw [if_pos hend, fillHead, runAll_on hbase, runAll_returned hleave]
  · have hstay : Stmt.run c ⟨("base", .wide (v.base perBlock t)) :: fillArgs v, []⟩
        (.when (.compare .ge (.var "base") (.var "n")) .leave) =
        some (.on ⟨("base", .wide (v.base perBlock t)) :: fillArgs v, []⟩) := by
      rw [run_when htest, if_neg (by simpa using hend)]
    have hctr : Stmt.run c ⟨("base", .wide (v.base perBlock t)) :: fillArgs v, []⟩
        (.declare .vec4 "ctr"
          (.call "philox_thread_counter" [.var "base_subsequence", .var "offset"])) =
        some (.on ⟨("ctr", .vec4 (Counter.ofValue (v.start t))) ::
          ("base", .wide (v.base perBlock t)) :: fillArgs v, []⟩) := by
      simp [Stmt.run, Expr.eval, Expr.evalAll, fillArgs, List.lookup_cons, hserves.threadCounter,
        Value.convert, Invocation.start]
    have hkey : Stmt.run c ⟨("ctr", .vec4 (Counter.ofValue (v.start t))) ::
          ("base", .wide (v.base perBlock t)) :: fillArgs v, []⟩
        (.declare .vec2 "key" (.call "make_uint2" [.var "seed_lo", .var "seed_hi"])) =
        some (.on (fillFrame v perBlock f t 0)) := by
      simp [Stmt.run, Expr.eval, Expr.evalAll, fillArgs, List.lookup_cons, hserves.key, Value.convert,
        fillFrame, fillVars]
    rw [if_neg hend, fillHead, runAll_on hbase, runAll_on hstay, runAll_on (by rfl),
      runAll_on hctr, runAll_on hkey]
    rfl

/-- **A fill kernel stores the values of its blocks**, from the first index of the thread on. -/
theorem fill_stores (hserves : c.Serves t) (hreads : Reads c values f) (name : String)
    (element : Ty) (v : Invocation) :
    (fill name element values).stores c v.args =
      some (if v.length ≤ v.base values.length t then []
        else (List.range v.blocksPerThread.toNat).flatMap (v.storesOf values.length f t)) := by
  have hhead := run_fillHead hserves v values.length f
  by_cases hend : v.length ≤ v.base values.length t
  · rw [if_pos hend] at hhead ⊢
    apply Function.stores_of_returned (fill_bind name element values v)
    rw [fill_body, runAll_append, hhead]
  · rw [if_neg hend] at hhead ⊢
    have hloop : Stmt.run c (fillFrame v values.length f t 0)
        (.count "b" 0 (.var "blocks_per_thread") (fillPass values)) =
        some (.on (fillFrame v values.length f t v.blocksPerThread.toNat)) :=
      (run_count (by rfl) ..).trans (fill_passes hserves hreads v)
    refine Function.stores_of_on (g := fillFrame v values.length f t v.blocksPerThread.toNat)
      (fill_bind name element values v) ?_
    rw [fill_body, runAll_append, hhead]
    exact runAll_on hloop []

end Kernels

/-- The words of a block, as the word kernel stores them. -/
def wordValues (out : Lanes4) : List Value := (Storage.toWords out).toList.map .word

theorem reads_words (c : Context) : Reads c [out .x, out .y, out .z, out .w] wordValues := by
  intro vars block hout
  simp [out, Expr.evalAll, Expr.eval, Vars.lane, hout, Value.lane]
  rfl

theorem fillWords_stores (v : Invocation) (t : Thread) :
    v.stores fillWordsKernel t =
      some (if v.length ≤ v.base 4 t then []
        else (List.range v.blocksPerThread.toNat).flatMap (v.storesOf 4 wordValues t)) :=
  fill_stores (serves t) (reads_words _) fillWordsKernel .word v

/-! ### Where a thread stores -/

theorem mem_blockStores (n i : UInt64) (values : List Value) (j : UInt64) (x : Value) :
    (j, x) ∈ blockStores n i values ↔
      j < n ∧ ∃ k, ∃ h : k < values.length, i + (UInt32.ofNat k).toUInt64 = j ∧ values[k] = x := by
  simp only [blockStores, List.mem_filter, List.mem_mapIdx, Prod.mk.injEq, decide_eq_true_eq]
  exact and_comm

/-- The place of value `k` of block `b` of a thread, counted modulo 2^64. -/
theorem toNat_place (base : UInt64) {b k : Nat} (hb : b < 2 ^ 32) (hk : k < 4) :
    (base + .ofNat 4 * (UInt32.ofNat b).toUInt64 + (UInt32.ofNat k).toUInt64).toNat =
      (base.toNat + (4 * b + k)) % 2 ^ 64 := by
  have hblock : (UInt32.ofNat b).toNat = b := UInt32.toNat_ofNat_of_lt' hb
  have hlane : (UInt32.ofNat k).toNat = k := UInt32.toNat_ofNat_of_lt' (Nat.lt_trans hk (by decide))
  rw [UInt64.toNat_add, UInt64.toNat_add, UInt64.toNat_mul, UInt32.toNat_toUInt64,
    UInt32.toNat_toUInt64, hblock, hlane, show (UInt64.ofNat 4).toNat = 4 from rfl]
  omega

/-- **The word kernel stores at an index** if its thread begins inside the buffer and the
index, inside it too, is one of so many from there on, where counting past 2^64 starts over. -/
theorem mem_fillWords (v : Invocation) (t : Thread) {stores : List (UInt64 × Value)}
    (h : v.stores fillWordsKernel t = some stores) (i : UInt64) (x : Value) :
    (i, x) ∈ stores ↔
      v.base 4 t < v.length ∧ i < v.length ∧ ∃ r < 4 * v.blocksPerThread.toNat,
        ((v.base 4 t).toNat + r) % 2 ^ 64 = i.toNat ∧ x = .word (v.word t r) := by
  rw [fillWords_stores, Option.some_inj] at h
  subst h
  by_cases hend : v.length ≤ v.base 4 t
  · rw [if_pos hend]
    refine ⟨?_, ?_⟩
    · intro hmem
      cases hmem
    · intro h
      obtain ⟨hbase, _⟩ := h
      exact absurd hend (UInt64.not_le.2 hbase)
  · rw [if_neg hend, List.mem_flatMap]
    refine ⟨?_, ?_⟩
    · intro h
      obtain ⟨b, hb, hmem⟩ := h
      obtain ⟨hi, k, hk, hplace, hvalue⟩ := (mem_blockStores ..).1 hmem
      have hblock : b < v.blocksPerThread.toNat := List.mem_range.1 hb
      have hk4 : k < 4 := hk
      have hr : (4 * b + k) / 4 = b ∧ (4 * b + k) % 4 = k := by omega
      refine ⟨UInt64.not_le.1 hend, hi, 4 * b + k, by omega, ?_, ?_⟩
      · rw [← hplace]
        exact (toNat_place _ (Nat.lt_trans hblock v.blocksPerThread.toNat_lt) hk4).symm
      · rw [← hvalue]
        simp only [Invocation.word, Fin.getElem_fin, Fin.val_ofNat, hr, wordValues,
          List.getElem_map, Vector.getElem_toList]
    · intro h
      obtain ⟨_, hi, r, hr, hplace, hvalue⟩ := h
      have hblock : r / 4 < v.blocksPerThread.toNat := by omega
      refine ⟨r / 4, List.mem_range.2 hblock, (mem_blockStores ..).2
        ⟨hi, r % 4, Nat.mod_lt r (by decide), ?_, ?_⟩⟩
      · apply UInt64.toNat_inj.1
        rw [toNat_place _ (Nat.lt_trans hblock v.blocksPerThread.toNat_lt)
          (Nat.mod_lt r (by decide)), Nat.div_add_mod, hplace]
      · rw [hvalue]
        simp only [Invocation.word, Fin.getElem_fin, Fin.val_ofNat, wordValues, List.getElem_map,
          Vector.getElem_toList]

end Philox.Device
