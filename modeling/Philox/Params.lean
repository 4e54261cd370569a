import Philox.Error

/-! The parameters of a generator.

A family member is named by the words of its counter, the bits of a word and its
number of rounds. Any triple can be written down; `check` says which ones exist,
and names the first rule that a refused one breaks. -/
namespace Philox
open Text

/-- The words of a counter, and of the block made from it. -/
def blockWords : Nat := 4

structure Params where
  counterSize : Nat
  width : UInt32
  rounds : UInt32
  deriving DecidableEq

namespace Params

/-- Four words of 32 bits, the size that this library generates. -/
def ofRounds (rounds : UInt32) : Params := ⟨blockWords, 32, rounds⟩

def check (p : Params) : Except Error Unit :=
  if p.rounds = 0 then .error (.params .noRounds)
  else if p.counterSize % 2 ≠ 0 then .error (.params (.oddCounter p.counterSize))
  else if p.counterSize > 16 then .error (.params (.longCounter p.counterSize))
  else if p.width % 8 ≠ 0 then .error (.params (.unalignedWidth p.width))
  else if p.width ≠ 32 then .error (.params (.unsupportedWidth p.width))
  else .ok ()

/-- The name of the family member, such as `Philox4x32-10`. -/
def name (p : Params) : String :=
  "Philox" ++ toString p.counterSize ++ "x" ++ toString p.width ++ "-" ++ toString p.rounds

instance : Readable Params where
  term p := .record "ParamsDescriptor"
    [("counter_size", term p.counterSize), ("width", term p.width), ("rounds", term p.rounds)]

/-- The parameters a generator may have: the size of this library, and a round. -/
def Legal (p : Params) : Prop := p.counterSize = blockWords ∧ p.width = 32 ∧ p.rounds ≠ 0

instance (p : Params) : Decidable p.Legal := inferInstanceAs (Decidable (_ ∧ _ ∧ _))

/-- No rule is broken exactly when every one of them holds. -/
theorem check_eq_ok_iff (p : Params) :
    p.check = .ok () ↔
      p.rounds ≠ 0 ∧ p.counterSize % 2 = 0 ∧ p.counterSize ≤ 16 ∧ p.width = 32 := by
  unfold check
  constructor
  · intro h
    repeat' (split at h; · contradiction)
    simp_all
  · rintro ⟨hr, hc, hl, hw⟩
    simp [hr, hc, hw, Nat.not_lt.mpr hl]

/-- Of the parameters that break no rule, a generator may have those of the library's size. -/
theorem legal_iff (p : Params) : p.Legal ↔ p.check = .ok () ∧ p.counterSize = blockWords := by
  rw [check_eq_ok_iff]
  constructor
  · rintro ⟨hsize, hwidth, hrounds⟩
    refine ⟨⟨hrounds, ?_, ?_, hwidth⟩, hsize⟩
    · rw [hsize]
      rfl
    · rw [hsize]
      decide
  · rintro ⟨⟨hrounds, _, _, hwidth⟩, hsize⟩
    exact ⟨hsize, hwidth, hrounds⟩

theorem Legal.check_eq_ok {p : Params} (h : p.Legal) : p.check = .ok () := (p.legal_iff.1 h).1

end Params
end Philox
