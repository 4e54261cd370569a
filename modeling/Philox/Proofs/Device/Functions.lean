import Philox.Device.Kernels
import Philox.Device.Meaning
import Philox.Proofs.Counter
import Philox.Proofs.Network

/-! What the device functions return.

Each of them computes what the library computes: `singleRound_value` a round,
`nRounds_value` a network, `advance_value` the next counter, and `threadCounter_value`
the counter that a thread starts from. A kernel needs to know no more of them than
`Context.Serves`. -/
namespace Philox.Device
open Kernels

/-! ### Running a body -/

section Rules

variable {c : Context} {f g : Frame} {s : Stmt}

theorem runAll_on (h : s.run c f = some (.on g)) (rest : List Stmt) :
    runAll c f (s :: rest) = runAll c g rest := by
  rw [runAll, h]

theorem runAll_returned {stores : List (UInt64 × Value)} {v : Option Value}
    (h : s.run c f = some (.returned stores v)) (rest : List Stmt) :
    runAll c f (s :: rest) = some (.returned stores v) := by
  rw [runAll, h]

/-- A body may be run in two parts. -/
theorem runAll_append (c : Context) (f : Frame) (first rest : List Stmt) :
    runAll c f (first ++ rest) =
      match runAll c f first with
      | some (.on g) => runAll c g rest
      | flow => flow := by
  induction first generalizing f with
  | nil => simp only [List.nil_append, runAll]
  | cons s first ih =>
    rw [List.cons_append, runAll, runAll]
    cases s.run c f with
    | none => rfl
    | some flow =>
      cases flow with
      | on g => exact ih g
      | returned stores v => rfl

theorem run_count {bound : Expr} {n : UInt32} (h : bound.eval c f.vars = some (.word n))
    (name : String) (start : Nat) (body : List Stmt) :
    Stmt.run c f (.count name start bound body) =
      passes (fun g => runAll c g body) name (n.toNat - start) (.ofNat start) f := by
  rw [Stmt.run, h]
  rfl

/-- The word that a loop counts with after `j` passes, counted from the second pass. -/
theorem add_one_add_ofNat (i : UInt32) (j : Nat) : i + 1 + .ofNat j = i + .ofNat (j + 1) := by
  rw [UInt32.ofNat_add, UInt32.add_assoc, UInt32.add_comm 1]
  rfl

/-- A loop whose passes lead from each of some frames to the next. -/
theorem passes_eq {body : Frame → Option Flow} {name : String} (n : Nat) {i : UInt32}
    (frames : Nat → Frame)
    (h : ∀ j < n, ∃ g, body {frames j with
        vars := (name, .word (i + .ofNat j)) :: (frames j).vars} = some (.on g) ∧
      (frames j).outside g = frames (j + 1)) :
    passes body name n i (frames 0) = some (.on (frames n)) := by
  induction n generalizing i frames with
  | zero => rfl
  | succ n ih =>
    obtain ⟨g, hbody, hout⟩ := h 0 (Nat.succ_pos n)
    have hzero : i + .ofNat 0 = i := UInt32.add_zero i
    rw [hzero] at hbody
    rw [passes, hbody]
    show passes body name n (i + 1) ((frames 0).outside g) = _
    rw [hout]
    apply ih fun j => frames (j + 1)
    intro j hj
    rw [add_one_add_ofNat]
    exact h (j + 1) (Nat.succ_lt_succ hj)

/-- What a loop or a group has declared is gone after it. -/
theorem outside_append (outer : Frame) (declared vars : Vars) (stores : List (UInt64 × Value))
    (h : vars.length = outer.vars.length) :
    outer.outside ⟨declared ++ vars, stores⟩ = ⟨vars, stores⟩ := by
  simp [Frame.outside, h]

theorem run_when {t : Test} {holds : Bool} {before after : Vars} {stores : List (UInt64 × Value)}
    (h : t.eval c before = some (holds, after)) (s : Stmt) :
    Stmt.run c ⟨before, stores⟩ (.when t s) =
      if holds then s.run c ⟨after, stores⟩ else some (.on ⟨after, stores⟩) := by
  rw [Stmt.run, h]
  rfl

/-- A function returns what its body gives, brought to its result type. -/
theorem Function.value_eq {fn : Function} {args : List Value} {vars : Vars}
    {stores : List (UInt64 × Value)} {v w : Value} {ty : Ty}
    (hbind : bindParams (fn.params.filter (!·.buffer)) args = some vars)
    (hrun : runAll c ⟨vars, []⟩ fn.body = some (.returned stores (some v)))
    (hty : fn.result = some ty) (hconvert : v.convert ty = some w) :
    fn.value c args = some w := by
  simp [Function.value, Function.run, hbind, hrun, hty, hconvert]

/-- A kernel that runs to its end has made the stores of its last frame. -/
theorem Function.stores_of_on {fn : Function} {args : List Value} {vars : Vars}
    (hbind : bindParams (fn.params.filter (!·.buffer)) args = some vars)
    (hrun : runAll c ⟨vars, []⟩ fn.body = some (.on g)) : fn.stores c args = some g.stores := by
  simp [Function.stores, Function.run, hbind, hrun]

theorem Function.stores_of_returned {fn : Function} {args : List Value} {vars : Vars}
    {stores : List (UInt64 × Value)}
    (hbind : bindParams (fn.params.filter (!·.buffer)) args = some vars)
    (hrun : runAll c ⟨vars, []⟩ fn.body = some (.returned stores none)) :
    fn.stores c args = some stores := by
  simp [Function.stores, Function.run, hbind, hrun]

end Rules

/-! ### Rounds -/

theorem mul_swap (a b : UInt32) : Word.mul a b = Word.mul b a := by
  simp only [Word.mul, UInt64.mul_comm]

/-- The device multiplies from the other side, and multiplies twice. -/
theorem apply_lanes (c : Lanes4) (k : Lanes2) :
    Round.apply c k =
      ⟨(Word.mul Round.multiplier1 c.z).high ^^^ c.y ^^^ k.x, Round.multiplier1 * c.z,
        (Word.mul Round.multiplier0 c.x).high ^^^ c.w ^^^ k.y, Round.multiplier0 * c.x⟩ := by
  rw [mul_swap Round.multiplier0, mul_swap Round.multiplier1, UInt32.mul_comm _ c.x,
    UInt32.mul_comm _ c.z, ← Round.mul_low, ← Round.mul_low]
  rfl

theorem singleRound_value (t : Thread) (c : Lanes4) (k : Lanes2) :
    singleRound.value (program.context t []) [.vec4 c, .vec2 k] =
      some (.vec4 (Round.apply c k)) := by
  rw [apply_lanes]
  rfl

theorem bumpKey_value (t : Thread) (k : Lanes2) :
    bumpKey.value (program.context t [singleRound]) [.vec2 k] = some (.vec2 (Key.bump k)) := by
  rfl

/-- What the loop over the rounds sees. -/
def roundContext (t : Thread) : Context := program.context t [singleRound, bumpKey]

theorem call_singleRound (t : Thread) (c : Lanes4) (k : Lanes2) :
    (roundContext t).functions "philox_single_round" [.vec4 c, .vec2 k] =
      some (.vec4 (Round.apply c k)) :=
  singleRound_value t c k

theorem call_bumpKey (t : Thread) (k : Lanes2) :
    (roundContext t).functions "philox_bump_key" [.vec2 k] = some (.vec2 (Key.bump k)) :=
  bumpKey_value t k

/-- The passes after the first round are the further rounds. -/
theorem round_passes (t : Thread) (n : Nat) (i : UInt32) (c : Lanes4) (k : Lanes2) (rounds : Value)
    (stores : List (UInt64 × Value)) :
    ∃ last, passes (fun g => runAll (roundContext t) g
        [.assign "key" (.call "philox_bump_key" [.var "key"]),
          .assign "ctr" (.call "philox_single_round" [.var "ctr", .var "key"])])
        "r" n i ⟨[("ctr", .vec4 c), ("key", .vec2 k), ("rounds", rounds)], stores⟩ =
      some (.on ⟨[("ctr", .vec4 (Round.further n c k)), ("key", last), ("rounds", rounds)],
        stores⟩) := by
  induction n generalizing i c k with
  | zero => exact ⟨.vec2 k, rfl⟩
  | succ n ih =>
    obtain ⟨last, hrest⟩ := ih (i + 1) (Round.apply c (Key.bump k)) (Key.bump k)
    refine ⟨last, ?_⟩
    rw [Round.further, ← hrest]
    simp [passes, runAll, Stmt.run, Expr.eval, Expr.evalAll, Vars.assign, List.lookup_cons,
      call_bumpKey, call_singleRound, Frame.outside]

theorem nRounds_value (t : Thread) (c : Lanes4) (k : Lanes2) (rounds : UInt32) :
    nRounds.value (roundContext t) [.vec4 c, .vec2 k, .word rounds] =
      some (.vec4 (Round.network rounds.toNat c k)) := by
  obtain ⟨last, hpasses⟩ :=
    round_passes t (rounds.toNat - 1) 1 (Round.apply c k) k (.word rounds) []
  have hfirst : Stmt.run (roundContext t)
      ⟨[("ctr", .vec4 c), ("key", .vec2 k), ("rounds", .word rounds)], []⟩
      (.assign "ctr" (.call "philox_single_round" [.var "ctr", .var "key"])) =
      some (.on ⟨[("ctr", .vec4 (Round.apply c k)), ("key", .vec2 k), ("rounds", .word rounds)],
        []⟩) := by
    simp [Stmt.run, Expr.eval, Expr.evalAll, Vars.assign, List.lookup_cons, call_singleRound]
  have hbody : runAll (roundContext t)
      ⟨[("ctr", .vec4 c), ("key", .vec2 k), ("rounds", .word rounds)], []⟩ nRounds.body =
      some (.returned [] (some (.vec4 (Round.network rounds.toNat c k)))) := by
    rw [nRounds, runAll_on hfirst, runAll_on ((run_count (by rfl) ..).trans hpasses)]
    rfl
  exact Function.value_eq rfl hbody rfl rfl

/-! ### Counters -/

/-- The word of a counter that a lane is. -/
def Lane.index : Lane → Fin 4
  | x => 0
  | y => 1
  | z => 2
  | w => 3

theorem wraps_eval (c : Context) (ctr : Lanes4) (i : Lane) :
    Test.eval c [("ctr", .vec4 ctr)] (.wraps "ctr" i) =
      some (decide (Storage.get ctr i.index + 1 = 0),
        [("ctr", .vec4 (Storage.set ctr i.index (Storage.get ctr i.index + 1)))]) := by
  cases i <;> rfl

/-- If a statement carries into some words, a test of the word before them carries into
that one too. -/
theorem run_carry {c : Context} {s : Stmt} {words : List (Fin 4)}
    {stores : List (UInt64 × Value)}
    (h : ∀ ctr : Lanes4, s.run c ⟨[("ctr", .vec4 ctr)], stores⟩ =
      some (.on ⟨[("ctr", .vec4 (Counter.carry ctr words))], stores⟩))
    (i : Lane) (ctr : Lanes4) :
    Stmt.run c ⟨[("ctr", .vec4 ctr)], stores⟩ (.when (.wraps "ctr" i) (.group [s])) =
      some (.on ⟨[("ctr", .vec4 (Counter.carry ctr (i.index :: words)))], stores⟩) := by
  rw [run_when (wraps_eval c ctr i), Counter.carry]
  by_cases hzero : Storage.get ctr i.index + 1 = 0
  · rw [if_pos (decide_eq_true hzero), if_pos hzero, Stmt.run, runAll_on (h _)]
    rfl
  · rw [if_neg (by simpa using hzero), if_neg hzero]

theorem advance_value (c : Context) (ctr : Lanes4) :
    advance.value c [.vec4 ctr] = some (.vec4 (Counter.advance ctr)) := by
  have hlast : ∀ ctr : Lanes4, Stmt.run c ⟨[("ctr", .vec4 ctr)], []⟩ (.bump "ctr" .w) =
      some (.on ⟨[("ctr", .vec4 (Counter.carry ctr [3]))], []⟩) := by
    intro ctr
    rw [Counter.carry, Counter.carry, ite_self]
    rfl
  have hcarry := run_carry (run_carry (run_carry hlast .z) .y) .x ctr
  have hbody : runAll c ⟨[("ctr", .vec4 ctr)], []⟩ advance.body =
      some (.returned [] (some (.vec4 (Counter.advance ctr)))) := by
    rw [advance, runAll_on hcarry]
    rfl
  exact Function.value_eq rfl hbody rfl rfl

theorem threadCounter_value (t : Thread) (base offset : UInt64) :
    threadCounter.value (program.context t [singleRound, bumpKey, nRounds, advance])
        [.wide base, .wide offset] =
      some (.vec4 (Counter.ofValue ((base + t.globalId).toNat * 2 ^ 64 + offset.toNat))) := by
  rw [Counter.ofValue_halves]
  rfl

theorem threadBase_value (t : Thread) (perThread : UInt32) :
    threadBase.value (program.context t [singleRound, bumpKey, nRounds, advance, threadCounter])
        [.word perThread] = some (.wide (t.globalId * perThread.toUInt64)) := by
  rfl

/-! ### What a kernel relies on -/

/-- The functions that stand before the first kernel. -/
def helpers : List Function :=
  [singleRound, bumpKey, nRounds, advance, threadCounter, threadBase]

/-- A context in which a kernel that runs on the thread `t` finds what it calls. -/
structure Context.Serves (c : Context) (t : Thread) : Prop where
  threadBase : ∀ perThread, c.functions "philox_thread_base" [.word perThread] =
    some (.wide (t.globalId * perThread.toUInt64))
  threadCounter : ∀ base offset, c.functions "philox_thread_counter" [.wide base, .wide offset] =
    some (.vec4 (Counter.ofValue ((base + t.globalId).toNat * 2 ^ 64 + offset.toNat)))
  key : ∀ low high, c.functions "make_uint2" [.word low, .word high] = some (.vec2 ⟨low, high⟩)
  nRounds : ∀ ctr key rounds, c.functions "philox_n_rounds" [.vec4 ctr, .vec2 key, .word rounds] =
    some (.vec4 (Round.network rounds.toNat ctr key))
  advance : ∀ ctr, c.functions "philox_advance" [.vec4 ctr] = some (.vec4 (Counter.advance ctr))

theorem serves (t : Thread) : (program.context t helpers).Serves t where
  threadBase := threadBase_value t
  threadCounter := threadCounter_value t
  key _ _ := rfl
  nRounds := nRounds_value t
  advance := advance_value _

end Philox.Device
