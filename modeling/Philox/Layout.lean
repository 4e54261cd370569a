import Philox.Error

/-! How the words of a counter or a key are stored.

`Storage` is what the round function and the counter arithmetic ask of a store:
words reached by index, and a store made from its words. Two stores are provided,
an indexed array and a vector of named lanes, and `Layout` names the choice. Both
hold exactly their words (`Storage.ext`), so an algorithm written over `Storage`
gives the same words in either. -/
namespace Philox
open Text

/-- The numbers of words that counters and keys have, so that an index may be a literal. -/
instance neZero_four : @NeZero Nat Zero.ofOfNat0 4 := ⟨Nat.succ_ne_zero 3⟩
instance neZero_two : @NeZero Nat Zero.ofOfNat0 2 := ⟨Nat.succ_ne_zero 1⟩

/-- A type whose values are exactly `n` words. -/
class Storage (σ : Type) (n : outParam Nat) where
  get : σ → Fin n → UInt32
  set : σ → Fin n → UInt32 → σ
  ofWords : Vector UInt32 n → σ
  get_ofWords : ∀ (v : Vector UInt32 n) (i : Fin n), get (ofWords v) i = v[i]
  get_set : ∀ (s : σ) (i j : Fin n) (w : UInt32),
    get (set s i w) j = if i = j then w else get s j
  ext : ∀ s t : σ, (∀ i, get s i = get t i) → s = t

namespace Storage

variable {σ τ : Type} {n : Nat} [Storage σ n] [Storage τ n]

/-- The words, in order. -/
def toWords (s : σ) : Vector UInt32 n := .ofFn (get s)

def zero : σ := ofWords (.replicate n 0)

/-- The bytes of the words, each word with its least significant byte first. -/
def bytes (s : σ) : List UInt8 :=
  (toWords s).toList.flatMap fun w : UInt32 =>
    [w.toUInt8, (w >>> 8).toUInt8, (w >>> 16).toUInt8, (w >>> 24).toUInt8]

/-- The same words in another store. -/
def convert (s : σ) : τ := ofWords (toWords s)

@[simp] theorem getElem_toWords (s : σ) (i : Nat) (h : i < n) :
    (toWords s)[i] = get s ⟨i, h⟩ := by
  simp [toWords]

@[simp] theorem toWords_ofWords (v : Vector UInt32 n) : toWords (ofWords v : σ) = v :=
  Vector.ext fun i hi => by simp [get_ofWords]

@[simp] theorem ofWords_toWords (s : σ) : ofWords (toWords s) = s :=
  ext _ _ fun i => by simp [get_ofWords]

theorem toWords_inj {s t : σ} (h : toWords s = toWords t) : s = t := by
  rw [← ofWords_toWords s, h, ofWords_toWords]

@[simp] theorem toWords_convert (s : σ) : toWords (convert s : τ) = toWords s := by
  simp [convert]

@[simp] theorem get_convert (s : σ) (i : Fin n) : get (convert s : τ) i = get s i := by
  simp [convert, get_ofWords]

theorem index_cases : ∀ i : Fin 4, i = 0 ∨ i = 1 ∨ i = 2 ∨ i = 3 := by decide

/-- Four words make a counter. -/
theorem ext_four {σ : Type} [Storage σ 4] {s t : σ} (h0 : get s 0 = get t 0)
    (h1 : get s 1 = get t 1) (h2 : get s 2 = get t 2) (h3 : get s 3 = get t 3) : s = t := by
  apply ext
  intro i
  rcases index_cases i with rfl | rfl | rfl | rfl
  · exact h0
  · exact h1
  · exact h2
  · exact h3

/-- Two words make a key. -/
theorem ext_two {σ : Type} [Storage σ 2] {s t : σ} (h0 : get s 0 = get t 0)
    (h1 : get s 1 = get t 1) : s = t := by
  apply ext
  intro i
  have hi : i = 0 ∨ i = 1 := by omega
  rcases hi with rfl | rfl
  · exact h0
  · exact h1

/-- Going over to another store and back changes nothing. -/
@[simp] theorem convert_convert (s : σ) : convert (convert s : τ) = s :=
  toWords_inj (by simp)

end Storage

instance (n : Nat) : Storage (Vector UInt32 n) n where
  get v i := v[i]
  set v i w := v.set i w
  ofWords v := v
  get_ofWords _ _ := rfl
  get_set v i j w := by
    simp only [Fin.getElem_fin, Vector.getElem_set, Fin.ext_iff]
  ext _ _ h := Vector.ext fun i hi => h ⟨i, hi⟩

/-- Four words, each in a lane of its own. -/
structure Lanes4 where
  x : UInt32
  y : UInt32
  z : UInt32
  w : UInt32
  deriving DecidableEq

/-- Two words, each in a lane of its own. -/
structure Lanes2 where
  x : UInt32
  y : UInt32
  deriving DecidableEq

namespace Lanes4

def get (v : Lanes4) (i : Fin 4) : UInt32 :=
  match i with
  | 0 => v.x
  | 1 => v.y
  | 2 => v.z
  | 3 => v.w

def set (v : Lanes4) (i : Fin 4) (word : UInt32) : Lanes4 :=
  match i with
  | 0 => {v with x := word}
  | 1 => {v with y := word}
  | 2 => {v with z := word}
  | 3 => {v with w := word}

instance : Storage Lanes4 4 where
  get := get
  set := set
  ofWords v := ⟨v[0], v[1], v[2], v[3]⟩
  get_ofWords v i := match i with
    | 0 | 1 | 2 | 3 => rfl
  get_set v i j word := match i, j with
    | 0, 0 | 0, 1 | 0, 2 | 0, 3 => rfl
    | 1, 0 | 1, 1 | 1, 2 | 1, 3 => rfl
    | 2, 0 | 2, 1 | 2, 2 | 2, 3 => rfl
    | 3, 0 | 3, 1 | 3, 2 | 3, 3 => rfl
  ext s t h := by
    cases s
    cases t
    rw [mk.injEq]
    exact ⟨h 0, h 1, h 2, h 3⟩

/-- The words of four lanes are the lanes, in order. -/
theorem toWords_eq (v : Lanes4) : Storage.toWords v = #v[v.x, v.y, v.z, v.w] := rfl

instance : Readable Lanes4 where
  term v := .record "Uint4" [("x", term v.x), ("y", term v.y), ("z", term v.z), ("w", term v.w)]

end Lanes4

namespace Lanes2

def get (v : Lanes2) (i : Fin 2) : UInt32 :=
  match i with
  | 0 => v.x
  | 1 => v.y

def set (v : Lanes2) (i : Fin 2) (word : UInt32) : Lanes2 :=
  match i with
  | 0 => {v with x := word}
  | 1 => {v with y := word}

instance : Storage Lanes2 2 where
  get := get
  set := set
  ofWords v := ⟨v[0], v[1]⟩
  get_ofWords v i := match i with
    | 0 | 1 => rfl
  get_set v i j word := match i, j with
    | 0, 0 | 0, 1 | 1, 0 | 1, 1 => rfl
  ext s t h := by
    cases s
    cases t
    rw [mk.injEq]
    exact ⟨h 0, h 1⟩

/-- The words of two lanes are the lanes, in order. -/
theorem toWords_eq (v : Lanes2) : Storage.toWords v = #v[v.x, v.y] := rfl

instance : Readable Lanes2 where
  term v := .record "Uint2" [("x", term v.x), ("y", term v.y)]

end Lanes2

instance (n : Nat) : Readable (Vector UInt32 n) where
  term v := .list (v.toList.map term)

/-- Which store counters and keys live in. -/
inductive Layout where
  | array
  | lanes
  deriving DecidableEq

namespace Layout

def Counter : Layout → Type
  | array => Vector UInt32 4
  | lanes => Lanes4

def Key : Layout → Type
  | array => Vector UInt32 2
  | lanes => Lanes2

instance : (l : Layout) → Storage l.Counter 4
  | array => inferInstanceAs (Storage (Vector UInt32 4) 4)
  | lanes => inferInstanceAs (Storage Lanes4 4)

instance : (l : Layout) → Storage l.Key 2
  | array => inferInstanceAs (Storage (Vector UInt32 2) 2)
  | lanes => inferInstanceAs (Storage Lanes2 2)

instance : (l : Layout) → DecidableEq l.Counter
  | array => inferInstanceAs (DecidableEq (Vector UInt32 4))
  | lanes => inferInstanceAs (DecidableEq Lanes4)

instance : (l : Layout) → DecidableEq l.Key
  | array => inferInstanceAs (DecidableEq (Vector UInt32 2))
  | lanes => inferInstanceAs (DecidableEq Lanes2)

instance : (l : Layout) → Readable l.Counter
  | array => inferInstanceAs (Readable (Vector UInt32 4))
  | lanes => inferInstanceAs (Readable Lanes4)

instance : (l : Layout) → Readable l.Key
  | array => inferInstanceAs (Readable (Vector UInt32 2))
  | lanes => inferInstanceAs (Readable Lanes2)

/-- The layout used where none is asked for. -/
def standard : Layout := array

def name : Layout → String
  | array => "array"
  | lanes => "native-vector"

instance : Readable Layout where
  term
    | array => .name "Array"
    | lanes => .name "NativeVector"

/-- What asking for a word past the last of `n` amounts to. -/
def badIndex (l : Layout) (n index : Nat) : Fault :=
  match l with
  | array => .outOfBounds n index
  | lanes => .noLane n index

/-- The word at an index that may lie past the end. -/
def get? [Storage σ n] (l : Layout) (s : σ) (index : Nat) : Except Failure UInt32 :=
  if h : index < n then .ok (Storage.get s ⟨index, h⟩) else fault (l.badIndex n index)

/-- Replaces the word at an index that may lie past the end. -/
def set? [Storage σ n] (l : Layout) (s : σ) (index : Nat) (word : UInt32) : Except Failure σ :=
  if h : index < n then .ok (Storage.set s ⟨index, h⟩ word) else fault (l.badIndex n index)

end Layout
end Philox
