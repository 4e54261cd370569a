import Philox.Store

/-! What a buffer holds after its stores.

If every store puts at an index what a function says, and every index is put by some
store, the buffer holds the function (`applyAll_eq_ofFn`), whatever it held before and
in whichever order the stores were made: an interleaving makes the steps of its tasks
and no others (`Interleaving.perm`). -/
namespace Philox

variable {α : Type}

namespace Store

/-- What a store puts at an index. -/
def at? (s : Store α) (i : Nat) : Option α :=
  if s.start ≤ i then s.values[i - s.start]? else none

/-- A store of a single value puts it at its start. -/
theorem at?_single (start : Nat) (a : α) (i : Nat) :
    at? ⟨start, [a]⟩ i = if i = start then some a else none := by
  unfold at?
  by_cases hi : i = start
  · simp [hi]
  · by_cases hle : start ≤ i
    · rw [if_pos hle, if_neg hi, List.getElem?_eq_none_iff]
      show 1 ≤ i - start
      omega
    · rw [if_neg hle, if_neg hi]

theorem size_put (buffer : Array α) (start : Nat) (values : List α) :
    (put buffer start values).size = buffer.size := by
  induction values generalizing buffer start with
  | nil => rfl
  | cons a rest ih => rw [put, ih, Array.size_setIfInBounds]

@[simp] theorem size_apply (buffer : Array α) (s : Store α) : (apply buffer s).size = buffer.size :=
  size_put ..

@[simp] theorem size_applyAll (buffer : Array α) (stores : List (Store α)) :
    (applyAll buffer stores).size = buffer.size := by
  unfold applyAll
  induction stores generalizing buffer with
  | nil => rfl
  | cons s rest ih => rw [List.foldl_cons, ih, size_apply]

/-- An index inside the buffer holds what the store puts there, or what it held. -/
theorem getElem?_put (buffer : Array α) (start : Nat) (values : List α) (i : Nat)
    (h : i < buffer.size) :
    (put buffer start values)[i]? = (at? ⟨start, values⟩ i).or buffer[i]? := by
  induction values generalizing buffer start with
  | nil => simp [put, at?]
  | cons a rest ih =>
    rw [put, ih _ _ (by rw [Array.size_setIfInBounds]; exact h)]
    unfold at?
    by_cases hi : i = start
    · subst hi
      rw [if_neg (Nat.not_succ_le_self i)]
      simp [h]
    · by_cases hlt : start ≤ i
      · have hsub : i - start = i - (start + 1) + 1 := by omega
        rw [if_pos (show start + 1 ≤ i by omega), if_pos hlt, hsub, List.getElem?_cons_succ,
          Array.getElem?_setIfInBounds_ne (by omega)]
      · rw [if_neg (show ¬ start + 1 ≤ i by omega), if_neg hlt,
          Array.getElem?_setIfInBounds_ne (by omega)]

/-- A store puts nothing but what `f` says inside a buffer of the given size. -/
def Agrees (f : Nat → α) (size : Nat) (s : Store α) : Prop :=
  ∀ i a, i < size → s.at? i = some a → a = f i

theorem getElem?_applyAll {f : Nat → α} (buffer : Array α) (stores : List (Store α))
    (hagree : ∀ s ∈ stores, s.Agrees f buffer.size) {i : Nat} (hi : i < buffer.size)
    (hput : buffer[i]? = some (f i) ∨ ∃ s ∈ stores, (s.at? i).isSome) :
    (applyAll buffer stores)[i]? = some (f i) := by
  induction stores generalizing buffer with
  | nil =>
    rcases hput with h | ⟨s, hs, _⟩
    · exact h
    · cases hs
  | cons s rest ih =>
    have hs := hagree s (List.mem_cons_self ..)
    have hget : (apply buffer s)[i]? = (s.at? i).or buffer[i]? := getElem?_put _ _ _ i hi
    apply ih (apply buffer s)
    · intro t ht
      rw [size_apply]
      exact hagree t (List.mem_cons_of_mem s ht)
    · rw [size_apply]
      exact hi
    · cases hat : s.at? i with
      | some a =>
        left
        rw [hget, hat, hs i a hi hat]
        rfl
      | none =>
        rw [hget, hat]
        rcases hput with h | ⟨t, ht, hsome⟩
        · exact .inl h
        · rcases List.mem_cons.1 ht with rfl | ht
          · rw [hat] at hsome
            contradiction
          · exact .inr ⟨t, ht, hsome⟩

/-- Stores that agree with a function and leave no index out make the buffer hold it. -/
theorem applyAll_eq_ofFn {f : Nat → α} (buffer : Array α) (stores : List (Store α))
    (hagree : ∀ s ∈ stores, s.Agrees f buffer.size)
    (hput : ∀ i < buffer.size, ∃ s ∈ stores, (s.at? i).isSome) :
    applyAll buffer stores = Array.ofFn fun i : Fin buffer.size => f i := by
  apply Array.ext
  · simp
  · intro i hi _
    rw [size_applyAll] at hi
    have h := getElem?_applyAll buffer stores hagree hi (.inr (hput i hi))
    rw [Array.getElem?_eq_getElem (by rw [size_applyAll]; exact hi), Option.some_inj] at h
    rw [h, Array.getElem_ofFn]

end Store

/-! ### Interleavings -/

/-- An interleaving does the steps of its tasks, each as often as they do. -/
theorem Interleaving.perm {tasks : List (List α)} {steps : List α} (h : Interleaving tasks steps) :
    steps.Perm tasks.flatten := by
  induction h with
  | @done tasks hempty =>
    rw [List.flatten_eq_nil_iff.2 hempty]
  | @step before after a rest steps _ ih =>
    have hflat : (before ++ (a :: rest) :: after).flatten =
        before.flatten ++ a :: (rest ++ after.flatten) := by
      simp
    rw [hflat]
    refine .trans (.cons a ih) ?_
    rw [List.flatten_append, List.flatten_cons]
    exact List.perm_middle.symm

/-- Steps that a task does first may be done first of all. -/
theorem Interleaving.prepend {before after : List (List α)} {rest steps : List α} (first : List α)
    (h : Interleaving (before ++ rest :: after) steps) :
    Interleaving (before ++ (first ++ rest) :: after) (first ++ steps) := by
  induction first with
  | nil => exact h
  | cons a first ih => exact .step ih

theorem Schedule.mem_order (w : Schedule) (tasks : List (List α)) (a : α) :
    a ∈ w.order tasks ↔ ∃ t ∈ tasks, a ∈ t := by
  rw [(w.interleaving tasks).perm.mem_iff, List.mem_flatten]

end Philox
