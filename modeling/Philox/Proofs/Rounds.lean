import Mathlib.Logic.Function.Iterate
import Philox.Proofs.Network

/-! The rounds of a network, by number.

The key of round `r` is known without the rounds before it: each of its words has grown
`r` times by the upper half of its constant (`Key.atRound`). A network of `n` rounds runs
through the keys of rounds 0 to `n - 1`, its `Key.schedule`, and undoing it runs through the
same keys backwards (`network_eq`, `undoNetwork_eq`). So the schedule of a longer network
is that of a shorter one and then what follows it (`Key.schedule_add`), and networks compose:
`network_rounds`. That every network is a permutation is `network_permutation`. -/
namespace Philox
open Storage

/-! ### Keys -/

namespace Key

variable {K : Type} [Storage K 2]

/-- The word `x` after it has grown `r` times by the upper half of `w`. -/
def grown (x : UInt32) (w : UInt64) (r : Nat) : UInt32 := .ofNat (x.toNat + r * (w.toNat / 2 ^ 32))

theorem grown_zero (x : UInt32) (w : UInt64) : grown x w 0 = x := by
  simp [grown]

theorem grown_add (x : UInt32) (w : UInt64) (m r : Nat) :
    grown (grown x w m) w r = grown x w (m + r) := by
  apply UInt32.toNat_inj.1
  simp only [grown, UInt32.toNat_ofNat']
  rw [Nat.mod_add_mod, Nat.add_mul, Nat.add_assoc]

theorem add_high (x : UInt32) (w : UInt64) : x + Word.high w = grown x w 1 := by
  apply UInt32.toNat_inj.1
  rw [UInt32.toNat_add, Word.toNat_high, grown, UInt32.toNat_ofNat', Nat.one_mul]

/-- The key of round `r` of a network with the key `k`. -/
def atRound (k : K) (r : Nat) : K := ofWords #v[grown (get k 0) weyl0 r, grown (get k 1) weyl1 r]

@[simp] theorem get_atRound_zero (k : K) (r : Nat) :
    get (atRound k r) 0 = grown (get k 0) weyl0 r := get_ofWords ..

@[simp] theorem get_atRound_one (k : K) (r : Nat) :
    get (atRound k r) 1 = grown (get k 1) weyl1 r := get_ofWords ..

theorem atRound_zero (k : K) : atRound k 0 = k := by
  apply Storage.ext_two
  · rw [get_atRound_zero, grown_zero]
  · rw [get_atRound_one, grown_zero]

/-- Counting the rounds may start over at any of them. -/
theorem atRound_add (k : K) (m r : Nat) : atRound (atRound k m) r = atRound k (m + r) := by
  apply Storage.ext_two
  · simp only [get_atRound_zero, grown_add]
  · simp only [get_atRound_one, grown_add]

/-- A bump goes to the key of the next round. -/
theorem bump_eq (k : K) : bump k = atRound k 1 := by
  apply Storage.ext_two
  · rw [get_bump_zero, get_atRound_zero, increment0, add_high]
  · rw [get_bump_one, get_atRound_one, increment1, add_high]

theorem iterate_bump (k : K) (r : Nat) : bump^[r] k = atRound k r := by
  induction r with
  | zero => rw [Function.iterate_zero_apply, atRound_zero]
  | succ r ih => rw [Function.iterate_succ_apply', ih, bump_eq, atRound_add]

/-- The keys of the rounds of a network, in order. The first round is always run. -/
def schedule (n : Nat) (k : K) : List K := (List.range (max n 1)).map (atRound k)

theorem bumps_eq (n : Nat) (k : K) : bumps n k = (List.range n).map fun r => atRound k (r + 1) := by
  induction n generalizing k with
  | zero => rfl
  | succ n ih =>
    -- The bumps after the first count from a key that is one round ahead.
    rw [bumps, ih, List.range_succ_eq_map, List.map_cons, List.map_map, bump_eq]
    congr 1
    apply List.map_congr_left
    intro r _
    rw [atRound_add, Nat.add_comm 1]
    rfl

/-- The first key of a schedule is the key itself, and every other is one bump further. -/
theorem schedule_eq (n : Nat) (k : K) : schedule n k = k :: bumps (max n 1 - 1) k := by
  have hn : max n 1 = max n 1 - 1 + 1 := by omega
  rw [schedule, hn, List.range_succ_eq_map, List.map_cons, List.map_map, atRound_zero, bumps_eq]
  rfl

theorem schedule_add {m n : Nat} (hm : 0 < m) (hn : 0 < n) (k : K) :
    schedule (m + n) k = schedule m k ++ schedule n (atRound k m) := by
  have hmax : max (m + n) 1 = m + n ∧ max m 1 = m ∧ max n 1 = n := by omega
  rw [schedule, schedule, schedule, hmax.1, hmax.2.1, hmax.2.2, List.range_add, List.map_append,
    List.map_map]
  congr 1
  apply List.map_congr_left
  intro r _
  exact (atRound_add k m r).symm

end Key

namespace Round

variable {C K : Type} [Storage C 4] [Storage K 2]

/-! ### Networks -/

theorem further_eq (n : Nat) (c : C) (k : K) : further n c k = (Key.bumps n k).foldl apply c := by
  induction n generalizing c k with
  | zero => rfl
  | succ n ih => rw [further, ih, Key.bumps, List.foldl_cons]

theorem undoFurther_eq (n : Nat) (c : C) (k : K) :
    undoFurther n c k = (Key.bumps n k).foldr (fun k c => undo c k) c := by
  induction n generalizing k with
  | zero => rfl
  | succ n ih => rw [undoFurther, ih, Key.bumps, List.foldr_cons]

/-- A network runs through its schedule. -/
theorem network_eq (n : Nat) (c : C) (k : K) :
    network n c k = (Key.schedule n k).foldl apply c := by
  have hn : max n 1 - 1 = n - 1 := by omega
  rw [network, further_eq, Key.schedule_eq, hn, List.foldl_cons]

/-- Undoing a network runs through its schedule from the end. -/
theorem undoNetwork_eq (n : Nat) (c : C) (k : K) :
    undoNetwork n c k = (Key.schedule n k).foldr (fun k c => undo c k) c := by
  have hn : max n 1 - 1 = n - 1 := by omega
  rw [undoNetwork, undoFurther_eq, Key.schedule_eq, hn, List.foldr_cons]

/-- **A network applies one round after another, round `r` under the key that `r` bumps
lead to**, and bumps the key once for every round but the first. So the rounds of a network
may be split between two networks, the second with the key where the first leaves off. -/
theorem network_rounds (l : Layout) (c : l.Counter) (k : l.Key) :
    (∀ n, network n c k = (List.range (max n 1)).foldl (fun c r => apply c (Key.atRound k r)) c ∧
      (List.range (max n 1)).map (Key.atRound k) = k :: Key.bumps (max n 1 - 1) k) ∧
    ∀ m n, 0 < m → 0 < n → network (m + n) c k = network n (network m c k) (Key.bump^[m] k) := by
  refine ⟨?_, ?_⟩
  · intro n
    exact ⟨(network_eq n c k).trans List.foldl_map, Key.schedule_eq n k⟩
  · intro m n hm hn
    rw [network_eq, network_eq, network_eq, Key.schedule_add hm hn, List.foldl_append,
      Key.iterate_bump]

/-- Ten rounds as seven and three, with a key whose words wrap on the way. -/
theorem network_rounds_seven_three :
    0 < 7 ∧ 0 < 3 ∧
      network (7 + 3) (C := Layout.lanes.Counter) (K := Layout.lanes.Key) ⟨1, 2, 3, 4⟩
          ⟨0xFFFFFFFF, 0xFFFFFFFF⟩ =
        network 3 (network 7 (C := Layout.lanes.Counter) (K := Layout.lanes.Key) ⟨1, 2, 3, 4⟩
          ⟨0xFFFFFFFF, 0xFFFFFFFF⟩) (Key.bump^[7] (⟨0xFFFFFFFF, 0xFFFFFFFF⟩ : Lanes2)) :=
  ⟨by decide, by decide, (network_rounds .lanes _ _).2 7 3 (by decide) (by decide)⟩

/-! ### Permutations -/

/-- **Under every key and with any number of rounds, a network is a permutation of the
counters.** A round is undone by the inverses of its two multipliers, and a network by
undoing its rounds from the last to the first, each under the key it was made with. -/
theorem network_permutation (l : Layout) (k : l.Key) :
    multiplier0 * inverse0 = 1 ∧ multiplier1 * inverse1 = 1 ∧
    (∀ c : l.Counter, undo (apply c k) k = c ∧ apply (undo c k) k = c) ∧
    ∀ n, (Function.Bijective fun c : l.Counter => network n c k) ∧
      ∀ c : l.Counter,
        (List.range (max n 1)).foldr (fun r c => undo c (Key.bump^[r] k)) (network n c k) = c ∧
        network n ((List.range (max n 1)).foldr (fun r c => undo c (Key.bump^[r] k)) c) k = c := by
  refine ⟨multiplier0_mul_inverse0, multiplier1_mul_inverse1, ?_, ?_⟩
  · intro c
    exact ⟨undo_apply c k, apply_undo c k⟩
  · intro n
    refine ⟨⟨?_, ?_⟩, ?_⟩
    · intro c d h
      exact network_inj h
    · intro c
      exact ⟨undoNetwork n c k, network_undoNetwork n c k⟩
    · intro c
      have hundo (d : l.Counter) :
          (List.range (max n 1)).foldr (fun r c => undo c (Key.bump^[r] k)) d =
            undoNetwork n d k := by
        rw [undoNetwork_eq, Key.schedule, List.foldr_map]
        simp only [Key.iterate_bump]
      rw [hundo, hundo]
      exact ⟨undoNetwork_network n c k, network_undoNetwork n c k⟩

end Round
end Philox
