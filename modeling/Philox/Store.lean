/-! Stores into a buffer, and the orders that they may be made in.

A `Store` is a run of values and the index that the first of them goes to. Applying
it replaces what the buffer holds there; values past the end of the buffer are
dropped. Where several workers make the stores, each task is a list of them to be made
in order; an interleaving makes those of all the tasks, mixed in any way that keeps each
task in order, and a `Schedule` chooses one. -/
namespace Philox

structure Store (α : Type) where
  start : Nat
  values : List α

namespace Store

def put (buffer : Array α) : Nat → List α → Array α
  | _, [] => buffer
  | i, a :: rest => put (buffer.setIfInBounds i a) (i + 1) rest

def apply (buffer : Array α) (s : Store α) : Array α := put buffer s.start s.values

/-- Several stores, the first of the list first. -/
def applyAll (buffer : Array α) (stores : List (Store α)) : Array α := stores.foldl apply buffer

end Store

/-! ### Orders -/

/-- `steps` is an interleaving of `tasks`: the first step of some task, and then an
interleaving of what is left. -/
inductive Interleaving : (tasks : List (List α)) → (steps : List α) → Prop where
  | done {tasks} : (∀ t ∈ tasks, t = []) → Interleaving tasks []
  | step {before after : List (List α)} {a : α} {rest steps : List α} :
    Interleaving (before ++ rest :: after) steps →
      Interleaving (before ++ (a :: rest) :: after) (a :: steps)

/-- The tasks one after another. -/
theorem Interleaving.flatten (tasks : List (List α)) : Interleaving tasks tasks.flatten := by
  suffices h : ∀ (before : List (List α)) (tasks : List (List α)), (∀ t ∈ before, t = []) →
      Interleaving (before ++ tasks) tasks.flatten from h [] tasks (by simp)
  intro before tasks
  induction tasks generalizing before with
  | nil =>
    intro h
    rw [List.append_nil]
    exact .done h
  | cons t tasks ih =>
    intro h
    induction t with
    | nil =>
      have := ih (before ++ [[]]) fun t ht => by
        rcases List.mem_append.1 ht with ht | ht
        · exact h t ht
        · exact List.mem_singleton.1 ht
      simpa using this
    | cons a t iht => exact .step iht

/-- A way to run any tasks. -/
structure Schedule where
  order : {α : Type} → List (List α) → List α
  interleaving : ∀ {α : Type} (tasks : List (List α)), Interleaving tasks (order tasks)

/-- One worker, which takes the tasks in turn. -/
def Schedule.sequential : Schedule := ⟨List.flatten, Interleaving.flatten⟩

end Philox
