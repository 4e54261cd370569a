import Philox.Proofs.Engine.Checkpoint
import Philox.Proofs.Engine.Direct
import Philox.Proofs.Grid.Fill

/-! What is seen does not depend on the layout.

Layouts have nothing in common but words, so what an engine shows of itself is compared in
words. A kind of engine, one type for each layout, is a `Family`; it is *portable* if it
says when two of its engines are abreast, and any use of both leaves them so and shows the
same, also where one of them goes over to another layout and the other stays
(`Family.Portable`). Then a run shows what the run shows that never moves
(`Family.Portable.run_eq`). Word engines are abreast on one word of one key, block engines on
one block; `layouts_agree` adds the blocks computed directly and the fills. -/
namespace Philox
open Storage

/-! ### Runs that move -/

/-- Something that is asked of an engine, a look at it, or its move to another layout. -/
inductive Use (ρ : Type) where
  | ask (r : ρ)
  | look
  | move (m : Layout)

namespace Use

variable {ρ : Type}

/-- The layout of an engine after the use. -/
def layout (l : Layout) : Use ρ → Layout
  | ask _ => l
  | look => l
  | move m => m

/-- The same use of an engine that never moves: it is looked at where it would. -/
def inPlace : Use ρ → Use ρ
  | ask r => ask r
  | look => look
  | move _ => look

end Use

/-- Engines of one kind, in every layout: what they do when asked, what they show of
themselves, and how they move. -/
structure Family (E : Layout → Type) (ρ α σ : Type) where
  ask : {l : Layout} → E l → ρ → Option α × E l
  shown : {l : Layout} → E l → σ
  convert : {l : Layout} → (m : Layout) → E l → E m

namespace Family

variable {E : Layout → Type} {ρ α σ : Type} {l m : Layout}

def use (F : Family E ρ α σ) (e : E l) : (u : Use ρ) → Option α × E (u.layout l)
  | .ask r => F.ask e r
  | .look => (none, e)
  | .move m => (none, F.convert m e)

/-- What is seen of an engine in a run: every answer, and what it shows after it. -/
def run (F : Family E ρ α σ) : {l : Layout} → E l → List (Use ρ) → List (Option α × σ)
  | _, _, [] => []
  | _, e, u :: rest =>
    let (a, e) := F.use e u
    (a, F.shown e) :: F.run e rest

theorem run_cons (F : Family E ρ α σ) (e : E l) (u : Use ρ) (rest : List (Use ρ)) :
    F.run e (u :: rest) = ((F.use e u).1, F.shown (F.use e u).2) :: F.run (F.use e u).2 rest :=
  rfl

/-- What a family owes for its layouts not to be told apart. -/
structure Portable (F : Family E ρ α σ) where
  Abreast : {l m : Layout} → E l → E m → Prop
  shown_eq : ∀ {l m : Layout} {e : E l} {d : E m}, Abreast e d → F.shown e = F.shown d
  ask_eq : ∀ {l m : Layout} {e : E l} {d : E m} (r : ρ), Abreast e d →
    (F.ask e r).1 = (F.ask d r).1 ∧ Abreast (F.ask e r).2 (F.ask d r).2
  /-- An engine that moves stays abreast of one that does not. -/
  convert : ∀ {l m : Layout} {e : E l} {d : E m} (n : Layout), Abreast e d →
    Abreast (F.convert n e) d

variable {F : Family E ρ α σ} {e : E l} {d : E m}

/-- One use of both engines, which the second does in place. -/
theorem Portable.use_eq (P : F.Portable) (h : P.Abreast e d) (u : Use ρ) :
    (F.use e u).1 = (F.use d u.inPlace).1 ∧ P.Abreast (F.use e u).2 (F.use d u.inPlace).2 := by
  cases u with
  | ask r => exact P.ask_eq r h
  | look => exact ⟨rfl, h⟩
  | move n => exact ⟨rfl, P.convert n h⟩

/-- A run that goes from layout to layout shows what the run shows that stays in one. -/
theorem Portable.run_eq (P : F.Portable) (h : P.Abreast e d) (uses : List (Use ρ)) :
    F.run e uses = F.run d (uses.map .inPlace) := by
  induction uses generalizing l m with
  | nil => rfl
  | cons u rest ih =>
    obtain ⟨hanswer, hmoved⟩ := P.use_eq h u
    rw [List.map_cons, run_cons, run_cons, hanswer, P.shown_eq hmoved, ih hmoved]

end Family

/-! ### Streams -/

/-- A counter and its words have one value. -/
theorem Counter.value_toWords {C : Type} [Storage C 4] (c : C) : value (toWords c) = value c := by
  have hget (i : Fin 4) : get (toWords c) i = get c i := getElem_toWords c i i.isLt
  simp only [value, hget]

namespace Keystream

variable (p : Params) (l m : Layout)

/-- The stream of a key given by its words. -/
theorem block_ofWords (k : Vector UInt32 2) (n : Nat) :
    block p (ofWords k : m.Key) n = block p (ofWords k : l.Key) n := by
  rw [← convert_ofWords (σ := l.Key) (τ := m.Key), block_convert]

theorem word_ofWords (k : Vector UInt32 2) :
    word p (ofWords k : m.Key) = word p (ofWords k : l.Key) := by
  funext i
  simp only [word, block_ofWords p l m]

end Keystream

/-! ### Word engines -/

namespace WordEngine

variable {p : Params} {l m : Layout} {e : WordEngine p l} {d : WordEngine p m}

/-- What a word engine may be told: to answer a request, or to be resumed from its
checkpoint, from its state, or some words after its state. -/
inductive Command where
  | request (r : Request)
  | resume
  | restart
  | resumeAt (position : UInt64)

def obey (e : WordEngine p l) : Command → Option Answer × WordEngine p l
  | .request r =>
    let (a, e) := e.respond r
    (some a, e)
  | .resume => (none, ofCheckpoint e.checkpoint)
  | .restart => (none, ofState e.state)
  | .resumeAt position => (none, ofStateAt e.state position)

/-- The checkpoint in words. -/
def shown (e : WordEngine p l) : (Vector UInt32 4 × Vector UInt32 2) × UInt64 :=
  (e.state.toParts, e.position)

/-- The word engines, as they can be used from outside. -/
def family (p : Params) : Family (WordEngine p) Command Answer
    ((Vector UInt32 4 × Vector UInt32 2) × UInt64) where
  ask := obey
  shown := shown
  convert := convert

/-- The same way to make an engine, for another layout. -/
def Origin.convert (m : Layout) : Origin l → Origin m
  | .start n subsequence offset => .start n subsequence offset
  | .seed n => .seed n
  | .stream s => .stream s
  | .standard => .standard
  | .state s => .state (s.convert m)
  | .stateAt s position => .stateAt (s.convert m) position
  | .checkpoint c => .checkpoint (c.1.convert m, c.2)

/-- The two engines stand on one word of one key. -/
def Abreast (e : WordEngine p l) (d : WordEngine p m) : Prop :=
  ∃ (k : Vector UInt32 2) (i : Nat), e.On (ofWords k) i ∧ d.On (ofWords k) i

theorem on_parts (s : State l) :
    (ofState s : WordEngine p l).On (ofWords s.toParts.2) (4 * Counter.value s.toParts.1) := by
  have h := on_ofState (p := p) s
  rw [← Counter.value_toWords, ← ofWords_toWords s.key] at h
  exact h

/-- Engines made from one state in two layouts are abreast. -/
theorem abreast_ofState {s : State l} {t : State m} (h : s.toParts = t.toParts) :
    Abreast (ofState s : WordEngine p l) (ofState t : WordEngine p m) := by
  refine ⟨s.toParts.2, _, on_parts s, ?_⟩
  rw [h]
  exact on_parts t

theorem Abreast.skip (h : Abreast e d) (n : UInt64) : Abreast (e.skip n) (d.skip n) := by
  obtain ⟨k, i, he, hd⟩ := h
  exact ⟨k, _, he.skip n, hd.skip n⟩

theorem abreast_ofStateAt {s : State l} {t : State m} (h : s.toParts = t.toParts) (q : UInt64) :
    Abreast (ofStateAt s q : WordEngine p l) (ofStateAt t q : WordEngine p m) :=
  (abreast_ofState h).skip q

theorem abreast_start (seed subsequence offset : UInt64) :
    Abreast (start seed subsequence offset : WordEngine p l)
      (start seed subsequence offset : WordEngine p m) :=
  ⟨#v[Word.low seed, Word.high seed], _, on_start .., on_start ..⟩

theorem Origin.abreast (o : Origin l) (m : Layout) :
    Abreast (o.engine : WordEngine p l) ((o.convert m).engine : WordEngine p m) := by
  cases o with
  | start n subsequence offset => exact abreast_start n subsequence offset
  | seed n => exact abreast_start n 0 0
  | stream s => exact abreast_start s.seed s.subsequence s.offset
  | standard => exact abreast_start 0 0 0
  | state s => exact abreast_ofState (s.toParts_convert m).symm
  | stateAt s position => exact abreast_ofStateAt (s.toParts_convert m).symm position
  | checkpoint c => exact abreast_ofStateAt (c.1.toParts_convert m).symm c.2

/-- Engines that are abreast show the same checkpoint. -/
theorem Abreast.shown_eq (h : Abreast e d) : e.shown = d.shown := by
  obtain ⟨k, i, he, hd⟩ := h
  have hshown {l : Layout} {e : WordEngine p l} (h : e.On (ofWords k) i) :
      e.shown = ((Counter.ofValue (i / 4), k), .ofNat (i % 4)) := by
    have hcheck := h.checkpoint
    have hstate : e.state = ⟨Counter.ofValue (i / 4), ofWords k⟩ := congrArg Prod.fst hcheck
    have hposition : e.position = .ofNat (i % 4) := congrArg Prod.snd hcheck
    rw [shown, hstate, hposition, State.toParts, toWords_ofWords, Counter.ofValue, toWords_ofWords]
    rfl
  rw [hshown he, hshown hd]

/-- Engines that are abreast do the same on every command, and stay abreast. -/
theorem Abreast.obey (h : Abreast e d) (c : Command) :
    (e.obey c).1 = (d.obey c).1 ∧ Abreast (e.obey c).2 (d.obey c).2 := by
  have hstate : e.state.toParts = d.state.toParts := congrArg Prod.fst h.shown_eq
  cases c with
  | request r =>
    obtain ⟨k, i, he, hd⟩ := h
    obtain ⟨heanswer, hemoved⟩ := he.respond r
    obtain ⟨hdanswer, hdmoved⟩ := hd.respond r
    refine ⟨?_, k, _, hemoved, hdmoved⟩
    show some (e.respond r).1 = some (d.respond r).1
    rw [heanswer, hdanswer, Keystream.word_ofWords p l m]
  | resume =>
    obtain ⟨k, i, he, hd⟩ := h
    exact ⟨rfl, k, i, he.ofCheckpoint, hd.ofCheckpoint⟩
  | restart => exact ⟨rfl, abreast_ofState hstate⟩
  | resumeAt q => exact ⟨rfl, abreast_ofStateAt hstate q⟩

/-- An engine that moves to another layout stays abreast of one that does not. -/
theorem Abreast.convert (h : Abreast e d) (n : Layout) : Abreast (e.convert n) d := by
  obtain ⟨k, i, he, hd⟩ := h
  have hmoved : (e.convert n).On _ _ := (on_parts (e.state.convert n)).skip e.position
  rw [State.toParts_convert, State.toParts, Counter.value_toWords, he.place_eq,
    Nat.mod_eq_of_lt he.lt, he.state_key, toWords_ofWords] at hmoved
  exact ⟨k, i, hmoved, hd⟩

def portable (p : Params) : (family p).Portable where
  Abreast := Abreast
  shown_eq h := h.shown_eq
  ask_eq c h := h.obey c
  convert n h := h.convert n

end WordEngine

/-! ### Block engines -/

namespace BlockEngine

variable {p : Params} {l m : Layout} {e : BlockEngine p l} {d : BlockEngine p m}

/-- The ways to make an engine. -/
inductive Origin (l : Layout) where
  | start (seed subsequence offset : UInt64)
  | seed (seed : UInt64)
  | stream (s : Stream)
  | standard
  | state (s : State l)

def Origin.engine : Origin l → BlockEngine p l
  | .start n subsequence offset => .start n subsequence offset
  | .seed n => .ofSeed n
  | .stream s => .ofStream s
  | .standard => .ofStream {}
  | .state s => ⟨s⟩

/-- The same way to make an engine, for another layout. -/
def Origin.convert (m : Layout) : Origin l → Origin m
  | .start n subsequence offset => .start n subsequence offset
  | .seed n => .seed n
  | .stream s => .stream s
  | .standard => .standard
  | .state s => .state (s.convert m)

/-- The words of an answer, whichever layout they are in. -/
def Call.Answer.words : Call.Answer l → Option Block
  | .block b => some b
  | .output c => some (toWords c)
  | .moved => none

/-- The block engines, as they can be used from outside. -/
def family (p : Params) :
    Family (BlockEngine p) Call Block (Vector UInt32 4 × Vector UInt32 2) where
  ask e c :=
    let (a, e) := e.respond c
    (a.words, e)
  shown e := e.state.toParts
  convert := convert

/-- The two engines stand on one block of one key. -/
def Abreast (e : BlockEngine p l) (d : BlockEngine p m) : Prop :=
  ∃ (k : Vector UInt32 2) (v : Nat), e.On (ofWords k) v ∧ d.On (ofWords k) v

theorem on_parts (s : State l) :
    (⟨s⟩ : BlockEngine p l).On (ofWords s.toParts.2) (Counter.value s.toParts.1) := by
  have h := on_state (p := p) s
  rw [← Counter.value_toWords, ← ofWords_toWords s.key] at h
  exact h

/-- Engines with one state in two layouts are abreast. -/
theorem abreast_of_parts {s : State l} {t : State m} (h : s.toParts = t.toParts) :
    Abreast (⟨s⟩ : BlockEngine p l) (⟨t⟩ : BlockEngine p m) := by
  refine ⟨s.toParts.2, _, on_parts s, ?_⟩
  rw [h]
  exact on_parts t

theorem abreast_start (seed subsequence offset : UInt64) :
    Abreast (start seed subsequence offset : BlockEngine p l)
      (start seed subsequence offset : BlockEngine p m) :=
  ⟨#v[Word.low seed, Word.high seed], _, on_start .., on_start ..⟩

theorem Origin.abreast (o : Origin l) (m : Layout) :
    Abreast (o.engine : BlockEngine p l) ((o.convert m).engine : BlockEngine p m) := by
  cases o with
  | start n subsequence offset => exact abreast_start n subsequence offset
  | seed n => exact abreast_start n 0 0
  | stream s => exact abreast_start s.seed s.subsequence s.offset
  | standard => exact abreast_start 0 0 0
  | state s => exact abreast_of_parts (s.toParts_convert m).symm

theorem Call.words_answer (c : Call) (k : Vector UInt32 2) (v : Nat) :
    (c.answer p (ofWords k : m.Key) v).words = (c.answer p (ofWords k : l.Key) v).words := by
  cases c with
  | block => exact congrArg some (Keystream.block_ofWords p l m k v)
  | output => exact congrArg some (Keystream.block_ofWords p l m k v)
  | skip n => rfl

/-- Engines that are abreast give the same words on every call, and stay abreast. -/
theorem Abreast.respond (h : Abreast e d) (c : Call) :
    (e.respond c).1.words = (d.respond c).1.words ∧ Abreast (e.respond c).2 (d.respond c).2 := by
  obtain ⟨k, v, he, hd⟩ := h
  obtain ⟨heanswer, hemoved⟩ := he.respond c
  obtain ⟨hdanswer, hdmoved⟩ := hd.respond c
  refine ⟨?_, k, _, hemoved, hdmoved⟩
  rw [heanswer, hdanswer, Call.words_answer]

theorem Abreast.parts_eq (h : Abreast e d) : e.state.toParts = d.state.toParts := by
  obtain ⟨k, v, he, hd⟩ := h
  rw [he, hd]
  simp only [State.toParts, Counter.ofValue, toWords_ofWords]

/-- An engine that moves to another layout stays abreast of one that does not. -/
theorem Abreast.convert (h : Abreast e d) (n : Layout) : Abreast (e.convert n) d :=
  abreast_of_parts ((e.state.toParts_convert n).trans h.parts_eq)

def portable (p : Params) : (family p).Portable where
  Abreast := Abreast
  shown_eq h := h.parts_eq
  ask_eq c h := h.respond c
  convert n h := h.convert n

end BlockEngine

/-! ### Fills -/

theorem FillPlan.value_eq (plan : FillPlan) (p : Params) (l m : Layout) {α : Type} (s : Sampler α)
    (i : Nat) : plan.value p m s i = plan.value p l s i := by
  have hself : plan.SameStreams plan := rfl
  simp only [value, hself.block_eq p l m]

namespace Grid

variable {p : Params} {l : Layout} {α : Type}

/-- The grid of the same plan in another layout. -/
def convert (m : Layout) (g : Grid p l) : Grid p m :=
  ⟨g.plan, g.params_ok, g.blockSize_ne, g.blocksPerThread_ne⟩

theorem ofPlan?_convert (plan : FillPlan) (p : Params) (l m : Layout) :
    (ofPlan? plan : Except Error (Grid p m)) =
      (ofPlan? plan : Except Error (Grid p l)).map (convert m) := by
  cases hp : p.check with
  | error e =>
    rw [ofPlan?_of_check_error plan hp, ofPlan?_of_check_error plan hp]
    rfl
  | ok u =>
    rw [ofPlan?_of_check_ok plan hp, ofPlan?_of_check_ok plan hp]
    split
    · rfl
    · split
      · rfl
      · rfl

/-- Fills of one plan in two layouts are granted the same launch and fill in the same values. -/
theorem fillUnder_convert (g : Grid p l) (m : Layout) (workers workers' : Schedule) (s : Sampler α)
    (buffer : Array α) :
    ((g.convert m).fillUnder workers' s buffer).result = (g.fillUnder workers s buffer).result ∧
      ((g.convert m).fillUnder workers' s buffer).contents =
        (g.fillUnder workers s buffer).contents := by
  have hsame : (g.convert m).launch? buffer.size s.perBlock = g.launch? buffer.size s.perBlock := rfl
  refine ⟨by rw [result_eq, result_eq, hsame], ?_⟩
  cases hlaunch : g.launch? buffer.size s.perBlock with
  | error e =>
    rw [g.fillUnder_of_error workers s buffer hlaunch,
      (g.convert m).fillUnder_of_error workers' s buffer (hsame.trans hlaunch)]
  | ok launch =>
    rw [g.fillUnder_eq workers s buffer hlaunch,
      (g.convert m).fillUnder_eq workers' s buffer (hsame.trans hlaunch)]
    exact congrArg Array.ofFn (funext fun i => g.plan.value_eq p l m s i)

end Grid

/-! ### All of the generator -/

/-- **Nothing that is seen tells one layout from another.** A run of an engine shows what
the same run shows in another layout, and moving from layout to layout on the way is not
seen either; a block computed directly and a fill have the same words; and a state is
back as it was once it has gone to another layout and returned. -/
theorem layouts_agree (p : Params) (l m : Layout) :
    (∀ (o : WordEngine.Origin l) (uses : List (Use WordEngine.Command)),
      (WordEngine.family p).run (o.engine : WordEngine p l) uses =
        (WordEngine.family p).run ((o.convert m).engine : WordEngine p m) (uses.map .inPlace)) ∧
    (∀ (o : BlockEngine.Origin l) (uses : List (Use BlockEngine.Call)),
      (BlockEngine.family p).run (o.engine : BlockEngine p l) uses =
        (BlockEngine.family p).run ((o.convert m).engine : BlockEngine p m) (uses.map .inPlace)) ∧
    (∀ (counter : l.Counter) (key : l.Key),
      Direct.block p (convert counter : m.Counter) (convert key : m.Key) =
        Direct.block p counter key) ∧
    (∀ seed subsequence index : UInt64,
      Direct.blockAt p m seed subsequence index = Direct.blockAt p l seed subsequence index) ∧
    (∀ plan : FillPlan, (Grid.ofPlan? plan : Except Error (Grid p m)) =
      (Grid.ofPlan? plan : Except Error (Grid p l)).map (Grid.convert m)) ∧
    (∀ (α : Type) (g : Grid p l) (workers workers' : Schedule) (s : Sampler α) (buffer : Array α),
      ((g.convert m).fillUnder workers' s buffer).result =
          (g.fillUnder workers s buffer).result ∧
        ((g.convert m).fillUnder workers' s buffer).contents =
          (g.fillUnder workers s buffer).contents) ∧
    ∀ s : State l, (s.convert m).toParts = s.toParts ∧ (s.convert m).convert l = s := by
  refine ⟨?_, ?_, ?_, ?_, ?_, ?_, ?_⟩
  · intro o uses
    exact (WordEngine.portable p).run_eq (o.abreast m) uses
  · intro o uses
    exact (BlockEngine.portable p).run_eq (o.abreast m) uses
  · intro counter key
    exact (congrArg toWords (Round.network_convert _ counter key)).trans (toWords_convert _)
  · intro seed subsequence index
    rw [Direct.blockAt_eq, Direct.blockAt_eq]
    exact Keystream.block_ofWords p l m _ _
  · intro plan
    exact Grid.ofPlan?_convert plan p l m
  · intro α g workers workers' s buffer
    exact g.fillUnder_convert m workers workers' s buffer
  · intro s
    exact ⟨s.toParts_convert m, s.convert_convert m⟩

end Philox
