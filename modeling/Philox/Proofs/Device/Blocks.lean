import Philox.Proofs.Device.Fill
import Philox.Proofs.Device.Invocation

/-! The blocks that a thread of a fill kernel makes.

`Stmt.declared` lists the values that a run gives to a name, each time it declares it. A kernel
declares `out` once for each of its blocks, so that list is the blocks it makes
(`fill_declared`), whether it stores all of them or not. `device_blocks_eq` says that they are the
blocks of the engine that the thread has on the host, for any thread at all: nothing but the
launch decides which threads there are, and nothing but the length which of them have work. -/
namespace Philox.Device
open Kernels Storage

/-! ### What a run declares -/

/-- The frames in which the passes of a loop begin. -/
def passFrames (body : Frame → Option Flow) (name : String) : (n : Nat) → UInt32 → Frame → List Frame
  | 0, _, _ => []
  | n + 1, i, f =>
    let first : Frame := {f with vars := (name, .word i) :: f.vars}
    first ::
      match body first with
      | some (.on g) => passFrames body name n (i + 1) (f.outside g)
      | _ => []

mutual

/-- The values that a statement gives to a name where it declares it, in the order of its run. -/
def Stmt.declared (c : Context) (name : String) (f : Frame) : Stmt → List Value
  | .declare ty x e => if x = name then ((e.eval c f.vars).bind (·.convert ty)).toList else []
  | .when t s =>
    match t.eval c f.vars with
    | some (true, vars) => s.declared c name {f with vars := vars}
    | _ => []
  | .group body => declaredAll c name f body
  | .count x start bound body =>
    match bound.eval c f.vars with
    | some (.word n) =>
      (passFrames (fun g => runAll c g body) x (n.toNat - start) (.ofNat start) f).flatMap
        fun g => declaredAll c name g body
    | _ => []
  | _ => []

def declaredAll (c : Context) (name : String) (f : Frame) : List Stmt → List Value
  | [] => []
  | s :: rest =>
    s.declared c name f ++
      match s.run c f with
      | some (.on g) => declaredAll c name g rest
      | _ => []

end

/-- The values that a function gives to a name in its body. -/
def Function.declared (c : Context) (fn : Function) (args : List Value) (name : String) :
    Option (List Value) := do
  let vars ← bindParams (fn.params.filter (!·.buffer)) args
  return declaredAll c name ⟨vars, []⟩ fn.body

/-- The values that a thread of a kernel gives to a name. -/
def Program.declared (p : Program) (t : Thread) (kernel : String) (args : List Value)
    (name : String) : Option (List Value) := do
  let fn ← p.functions.find? (·.name = kernel)
  fn.declared (p.context t (p.functions.takeWhile (·.name ≠ kernel))) args name

section Rules

variable {c : Context} {name : String} {f g : Frame} {s : Stmt}

theorem declaredAll_on (h : s.run c f = some (.on g)) (rest : List Stmt) :
    declaredAll c name f (s :: rest) = s.declared c name f ++ declaredAll c name g rest := by
  rw [declaredAll, h]

theorem declaredAll_singleton (c : Context) (name : String) (f : Frame) (s : Stmt) :
    declaredAll c name f [s] = s.declared c name f := by
  rw [declaredAll]
  split
  · rw [declaredAll, List.append_nil]
  · rw [List.append_nil]

theorem declaredAll_append (c : Context) (name : String) (f : Frame) (first rest : List Stmt) :
    declaredAll c name f (first ++ rest) =
      declaredAll c name f first ++
        match runAll c f first with
        | some (.on g) => declaredAll c name g rest
        | _ => [] := by
  induction first generalizing f with
  | nil => simp only [List.nil_append, declaredAll, runAll]
  | cons s first ih =>
    rw [List.cons_append, declaredAll, declaredAll, runAll]
    cases s.run c f with
    | none => rw [List.append_nil, List.append_nil]
    | some flow =>
      cases flow with
      | on g => rw [List.append_assoc, ← ih]
      | returned stores v => rw [List.append_nil, List.append_nil]

/-- A body whose statements do not declare a name does not. -/
theorem declaredAll_eq_nil (body : List Stmt) (h : ∀ s ∈ body, ∀ f, s.declared c name f = [])
    (f : Frame) : declaredAll c name f body = [] := by
  induction body generalizing f with
  | nil => rfl
  | cons s rest ih =>
    rw [declaredAll, h s (List.mem_cons_self ..), List.nil_append]
    cases s.run c f with
    | none => rfl
    | some flow =>
      cases flow with
      | on g => exact ih (fun r hr => h r (List.mem_cons_of_mem s hr)) g
      | returned stores v => rfl

/-- A loop whose passes lead from each of some frames to the next begins its passes in them. -/
theorem passFrames_eq {body : Frame → Option Flow} {name : String} (n : Nat) {i : UInt32}
    (frames : Nat → Frame)
    (h : ∀ j < n, ∃ g, body {frames j with
        vars := (name, .word (i + .ofNat j)) :: (frames j).vars} = some (.on g) ∧
      (frames j).outside g = frames (j + 1)) :
    passFrames body name n i (frames 0) =
      (List.range n).map fun j =>
        {frames j with vars := (name, .word (i + .ofNat j)) :: (frames j).vars} := by
  induction n generalizing i frames with
  | zero => rfl
  | succ n ih =>
    obtain ⟨g, hbody, hout⟩ := h 0 (Nat.succ_pos n)
    have hzero : i + .ofNat 0 = i := UInt32.add_zero i
    rw [hzero] at hbody
    rw [passFrames, hbody]
    simp only [hout]
    rw [ih fun j => frames (j + 1), List.range_succ_eq_map, List.map_cons, List.map_map, hzero]
    · simp only [add_one_add_ofNat]
      rfl
    · intro j hj
      rw [add_one_add_ofNat]
      exact h (j + 1) (Nat.succ_lt_succ hj)

/-- What a declaration declares is what it puts before the variables. -/
theorem declared_declare {ty : Ty} {e : Expr} {v : Value} {stores : List (UInt64 × Value)}
    (h : Stmt.run c f (.declare ty name e) = some (.on ⟨(name, v) :: f.vars, stores⟩)) :
    (Stmt.declare ty name e).declared c name f = [v] := by
  rw [Stmt.run] at h
  obtain ⟨x, hx, hrest⟩ := Option.bind_eq_some_iff.1 h
  obtain ⟨y, hy, heq⟩ := Option.bind_eq_some_iff.1 hrest
  cases heq
  rw [Stmt.declared, if_pos rfl, hx, Option.bind_some, hy]
  rfl

theorem declared_count {bound : Expr} {n : UInt32} (h : bound.eval c f.vars = some (.word n))
    (x : String) (start : Nat) (body : List Stmt) :
    (Stmt.count x start bound body).declared c name f =
      (passFrames (fun g => runAll c g body) x (n.toNat - start) (.ofNat start) f).flatMap
        fun g => declaredAll c name g body := by
  rw [Stmt.declared, h]

/-- A test declares nothing that the statement under it does not. -/
theorem declared_when (t : Test) (h : ∀ g, s.declared c name g = []) :
    (Stmt.when t s).declared c name f = [] := by
  rw [Stmt.declared]
  split
  · exact h _
  · rfl

end Rules

/-! ### The blocks of a kernel -/

section Blocks

variable {c : Context} {t : Thread} {values : List Expr} {f : Lanes4 → List Value}

theorem fillHead_declared (c : Context) (perBlock : Nat) (f : Frame) :
    declaredAll c "out" f (fillHead perBlock) = [] := by
  apply declaredAll_eq_nil
  intro s hs g
  simp only [fillHead, List.mem_cons, List.not_mem_nil, or_false] at hs
  rcases hs with rfl | rfl | rfl | rfl | rfl | rfl
  · rfl
  · exact declared_when _ fun _ => rfl
  · rfl
  · rfl
  · rfl
  · rfl

/-- A pass declares its block, and nothing else by that name. -/
theorem fillPass_declared (hserves : c.Serves t) (v : Invocation) (base : UInt64) (ctr : Lanes4)
    (b : UInt32) (stores : List (UInt64 × Value)) (values : List Expr) :
    declaredAll c "out" ⟨("b", .word b) :: fillVars v base ctr, stores⟩ (fillPass values) =
      [.vec4 (Round.network v.rounds.toNat ctr (⟨v.seedLow, v.seedHigh⟩ : Lanes2))] := by
  have hout := run_out hserves v base ctr b stores
  rw [fillPass, List.cons_append, declaredAll_on hout, declared_declare hout,
    declaredAll_eq_nil, List.append_nil]
  intro s hs g
  simp only [List.cons_append, List.nil_append, List.mem_cons, List.mem_mapIdx] at hs
  rcases hs with rfl | rfl | rfl | ⟨k, hk, rfl⟩
  · rfl
  · rfl
  · rfl
  · exact declared_when _ fun _ => rfl

theorem loop_declared (hserves : c.Serves t) (hreads : Reads c values f) (v : Invocation) :
    Stmt.declared c "out" (fillFrame v values.length f t 0)
        (.count "b" 0 (.var "blocks_per_thread") (fillPass values)) =
      (List.range v.blocksPerThread.toNat).map fun b => .vec4 (v.output t b) := by
  have hframes : passFrames (fun g => runAll c g (fillPass values)) "b" v.blocksPerThread.toNat 0
      (fillFrame v values.length f t 0) = _ :=
    passFrames_eq v.blocksPerThread.toNat (fillFrame v values.length f t) fun j _ =>
      fillFrame_next hserves hreads v j
  have hbound : Expr.eval c (fillFrame v values.length f t 0).vars (.var "blocks_per_thread") =
      some (.word v.blocksPerThread) := by
    rfl
  have hpass (j : Nat) := fillPass_declared hserves v (v.base values.length t)
    (Counter.ofValue (v.start t + j)) (0 + .ofNat j) (fillFrame v values.length f t j).stores
    values
  rw [declared_count hbound, Nat.sub_zero]
  show (passFrames _ "b" v.blocksPerThread.toNat 0 _).flatMap _ = _
  rw [hframes, List.flatMap_map, List.map_eq_flatMap]
  exact congrArg (List.flatMap · (List.range v.blocksPerThread.toNat)) (funext hpass)

/-- **A fill kernel makes the blocks of its counters**, one in each pass, once it comes to its
loop. -/
theorem fill_declared (hserves : c.Serves t) (hreads : Reads c values f) (name : String)
    (element : Ty) (v : Invocation) :
    (fill name element values).declared c v.args "out" =
      some (if v.length ≤ v.base values.length t then []
        else (List.range v.blocksPerThread.toNat).map fun b => .vec4 (v.output t b)) := by
  have hhead := run_fillHead hserves v values.length f
  rw [Function.declared, fill_bind]
  show some (declaredAll c "out" ⟨fillArgs v, []⟩ (fill name element values).body) = _
  rw [fill_body, declaredAll_append, fillHead_declared, hhead, List.nil_append]
  by_cases hend : v.length ≤ v.base values.length t
  · rw [if_pos hend, if_pos hend]
  · rw [if_neg hend, if_neg hend]
    exact congrArg some ((declaredAll_singleton ..).trans (loop_declared hserves hreads v))

end Blocks

theorem fillWords_declared (v : Invocation) (t : Thread) :
    program.declared t fillWordsKernel v.args "out" =
      some (if v.length ≤ v.base 4 t then []
        else (List.range v.blocksPerThread.toNat).map fun b => .vec4 (v.output t b)) :=
  fill_declared (serves t) (reads_words _) fillWordsKernel .word v

/-! ### The blocks of the host -/

/-- A function of the program that is called by itself computes what it computes in a kernel. -/
theorem call_nRounds (t : Thread) (c : Lanes4) (k : Lanes2) (rounds : UInt32) :
    program.call t "philox_n_rounds" [.vec4 c, .vec2 k, .word rounds] =
      some (.vec4 (Round.network rounds.toNat c k)) :=
  nRounds_value t c k rounds

theorem call_advance (t : Thread) (c : Lanes4) :
    program.call t "philox_advance" [.vec4 c] = some (.vec4 (Counter.advance c)) :=
  advance_value (program.context t [singleRound, bumpKey, nRounds]) c

/-- The blocks of a thread are those that its engine on the host hands out. -/
theorem Invocation.output_eq {plan : FillPlan} {p : Params} {l : Layout} {length : UInt64}
    {perBlock : Nat} {v : Invocation} (h : prepare? plan p length perBlock = .ok v)
    {g : Grid p l} (hg : g.plan = plan) (t : Thread) (b : Nat) :
    v.output t b = ofWords (Engine.nth (g.engine t) b) := by
  have hon : (g.engine t).On (State.keyOf plan.seed) (v.start t) := by
    rw [eq_of_prepare h, ← hg]
    exact BlockEngine.on_start ..
  have hkey : (State.keyOf plan.seed : l.Key) =
      convert (State.keyOf plan.seed : Layout.lanes.Key) :=
    (convert_ofWords _).symm
  rw [hon.nth, hkey, Keystream.block_convert]
  rw [eq_of_prepare h]
  exact (ofWords_toWords _).symm

/-- **The device makes the blocks of the host.** Its network and its step of a counter are those
of the library, for every number of rounds. And with the seed, the subsequence, the offset and the
rounds of a prepared launch, whatever the length and the number of blocks that it is given, the
word kernel makes on any thread the blocks that the engine of that thread hands out, one for each
pass of its loop; only a thread that begins past the length makes none. -/
theorem device_blocks_eq (l : Layout) :
    (∀ (t : Thread) (c : l.Counter) (k : l.Key) (rounds : UInt32),
      program.call t "philox_n_rounds"
            [.vec4 (convert c : Lanes4), .vec2 (convert k : Lanes2), .word rounds] =
          some (.vec4 (convert (Round.network rounds.toNat c k) : Lanes4)) ∧
        program.call t "philox_advance" [.vec4 (convert c : Lanes4)] =
          some (.vec4 (convert (Counter.advance c) : Lanes4))) ∧
    ∀ (plan : FillPlan) (p : Params) (length : UInt64) (perBlock : Nat) (v : Invocation),
      Invocation.prepare? plan p length perBlock = .ok v →
        ∃ g : Grid p l, Grid.ofPlan? plan = .ok g ∧
          ∀ (t : Thread) (n : UInt64) (blocks : UInt32),
            let w : Invocation := {v with length := n, blocksPerThread := blocks}
            program.declared t fillWordsKernel w.args "out" =
              some (if n ≤ w.base 4 t then []
                else (List.range blocks.toNat).map fun b =>
                  .vec4 (ofWords (Engine.nth (g.engine t) b))) := by
  refine ⟨?_, ?_⟩
  · intro t c k rounds
    refine ⟨?_, ?_⟩
    · rw [call_nRounds, Round.network_convert]
    · rw [call_advance, Counter.advance_convert]
  · intro plan p length perBlock v h
    obtain ⟨g, hg, hplan, _⟩ := Invocation.exists_grid h l
    refine ⟨g, hg, ?_⟩
    intro t n blocks w
    have hblock (b : Nat) : Value.vec4 (w.output t b) =
        .vec4 (ofWords (Engine.nth (g.engine t) b)) :=
      congrArg Value.vec4 (Invocation.output_eq h hplan t b)
    rw [fillWords_declared, funext hblock]

/-- Two threads of two blocks each, of which the second starts in subsequence 0 again. -/
theorem device_blocks_eq_atEnd :
    Invocation.prepare? Grid.atEnd.plan (.ofRounds 10) 13 4 =
        .ok (.of Grid.atEnd.plan (.ofRounds 10) 13 ⟨1, 2⟩) ∧
      ∃ g : Grid (.ofRounds 10) .array, Grid.ofPlan? Grid.atEnd.plan = .ok g ∧
        program.declared ⟨0, 1, 2⟩ fillWordsKernel
            (Invocation.of Grid.atEnd.plan (.ofRounds 10) 13 ⟨1, 2⟩).args "out" =
          some [.vec4 (ofWords (Engine.nth (g.engine ⟨0, 1, 2⟩) 0)),
            .vec4 (ofWords (Engine.nth (g.engine ⟨0, 1, 2⟩) 1))] := by
  have h : Invocation.prepare? Grid.atEnd.plan (.ofRounds 10) 13 4 =
      .ok (.of Grid.atEnd.plan (.ofRounds 10) 13 ⟨1, 2⟩) := by rfl
  obtain ⟨g, hg, hdeclared⟩ :=
    (device_blocks_eq .array).2 Grid.atEnd.plan (.ofRounds 10) 13 4 _ h
  exact ⟨h, g, hg, hdeclared ⟨0, 1, 2⟩ 13 2⟩

end Philox.Device
