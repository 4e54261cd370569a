import Philox.Proofs.Grid.Fill

/-! A fill with reals is a fill with words, mapped.

A value takes a fixed number of words, and a block holds a whole number of values. So a
fill with values asks for the launch that the fill with their words asks for
(`launch?_words`), and each value is made of the words at its place
(`FillPlan.value_eq_ofWords`). `fill_reals` says what this comes to for single and for
double reals. -/
namespace Philox

variable {p : Params} {l : Layout} {α : Type}

/-- Where the words of a value lie among the words of all blocks. -/
theorem Sampler.index_words (s : Sampler α) (i : Nat) (j : Fin s.wordsPerValue) :
    (i * s.wordsPerValue + j) / 4 = i / s.perBlock ∧
      (i * s.wordsPerValue + j) % 4 = i % s.perBlock * s.wordsPerValue + j := by
  have hplace : i % s.perBlock * s.wordsPerValue + j < 4 :=
    s.index_lt ⟨i % s.perBlock, Nat.mod_lt i s.perBlock_pos⟩ j
  have hsplit : i * s.wordsPerValue + j =
      4 * (i / s.perBlock) + (i % s.perBlock * s.wordsPerValue + j) := by
    rw [← s.perBlock_mul, Nat.mul_right_comm, ← Nat.add_assoc, ← Nat.add_mul, Nat.div_add_mod]
  omega

/-- A value of a fill is made of the words at its place. -/
theorem FillPlan.value_eq_ofWords (plan : FillPlan) (s : Sampler α) (i : Nat) :
    plan.value p l s i =
      s.ofWords (.ofFn fun j => plan.value p l .words (i * s.wordsPerValue + j)) := by
  refine congrArg (fun words => s.ofWords (.ofFn words)) (funext fun j => ?_)
  obtain ⟨hblock, hplace⟩ := s.index_words i j
  have hword : plan.value p l .words (i * s.wordsPerValue + j) =
      (plan.block p l ((i * s.wordsPerValue + j) / 4))[(i * s.wordsPerValue + j) % 4] :=
    Sampler.words_value ..
  simp only [hword, hblock, hplace]

namespace Grid

/-- A fill with values is granted the launch of the fill with their words, or refused for
the same reason. -/
theorem launch?_words (g : Grid p l) (s : Sampler α) (n : Nat) :
    g.launch? (n * s.wordsPerValue) Sampler.words.perBlock = g.launch? n s.perBlock := by
  have hwords : Sampler.words.perBlock * g.plan.blocksPerThread.toNat =
      s.perBlock * g.plan.blocksPerThread.toNat * s.wordsPerValue := by
    rw [Nat.mul_right_comm, s.perBlock_mul]
    rfl
  rw [g.launch?_eq .words, g.launch?_eq s, hwords,
    divUp_mul_mul _ (g.chunkSize_pos s) s.wordsPerValue_pos]

/-- A granted fill has the values of its plan, and nothing beyond its buffer. -/
theorem getElem?_contents (g : Grid p l) (workers : Schedule) (s : Sampler α) (buffer : Array α)
    {launch : Launch} (h : g.launch? buffer.size s.perBlock = .ok launch) {i : Nat}
    (hi : i < buffer.size) :
    (g.fillUnder workers s buffer).contents[i]? = some (g.plan.value p l s i) := by
  rw [g.fillUnder_eq workers s buffer h, Array.getElem?_ofFn, dif_pos hi]

theorem size_contents (g : Grid p l) (workers : Schedule) (s : Sampler α) (buffer : Array α) :
    (g.fillUnder workers s buffer).contents.size = buffer.size := by
  cases h : g.launch? buffer.size s.perBlock with
  | error e => rw [g.fillUnder_of_error workers s buffer h]
  | ok launch => rw [g.fillUnder_eq workers s buffer h, Array.size_ofFn]

/-- A fill with values and a fill with as many words as they take have one outcome, and each
value is made of the words at its place. -/
theorem fill_values (g : Grid p l) (workers workers' : Schedule) (s : Sampler α)
    (buffer : Array α) (words : Array UInt32) (hsize : words.size = buffer.size * s.wordsPerValue) :
    (g.fillUnder workers s buffer).result = (g.fillUnder workers' .words words).result ∧
      ∀ launch, (g.fillUnder workers s buffer).result = .ok launch → ∀ i < buffer.size,
        ∃ v : Vector UInt32 s.wordsPerValue,
          (∀ j : Fin s.wordsPerValue, (g.fillUnder workers' .words words).contents[
            i * s.wordsPerValue + j]? = some v[j]) ∧
          (g.fillUnder workers s buffer).contents[i]? = some (s.ofWords v) := by
  have hlaunch : g.launch? words.size Sampler.words.perBlock = g.launch? buffer.size s.perBlock := by
    rw [hsize, g.launch?_words]
  refine ⟨?_, ?_⟩
  · rw [g.result_eq, g.result_eq, hlaunch]
  · intro launch h i hi
    have hgranted := (g.result_eq_ok_iff ..).1 h
    refine ⟨.ofFn fun j => g.plan.value p l .words (i * s.wordsPerValue + j), ?_, ?_⟩
    · intro j
      have hlast : (i + 1) * s.wordsPerValue ≤ words.size := by
        rw [hsize]
        exact Nat.mul_le_mul_right _ hi
      rw [Nat.succ_mul] at hlast
      rw [g.getElem?_contents workers' .words words (hlaunch.trans hgranted) (by omega)]
      simp
    · rw [g.getElem?_contents workers s buffer hgranted hi, FillPlan.value_eq_ofWords]

/-- **A fill with reals has the outcome of the fill with the words they are made of**, and
what it fills in is those words, mapped: each single real from the word at its index, each
double real from the two words at its place, the first of them leading. -/
theorem fill_reals (g : Grid p l) (workers workers' : Schedule) :
    (∀ (singles : Array Float32) (words : Array UInt32), words.size = singles.size →
      (g.fillUnder workers .single singles).result = (g.fillUnder workers' .words words).result ∧
        ∀ launch, (g.fillUnder workers .single singles).result = .ok launch →
          (g.fillUnder workers .single singles).contents.size = singles.size ∧
          ∀ i < singles.size, ∃ w, (g.fillUnder workers' .words words).contents[i]? = some w ∧
            (g.fillUnder workers .single singles).contents[i]? = some (Uniform.single w)) ∧
    ∀ (doubles : Array Float) (words : Array UInt32), words.size = 2 * doubles.size →
      (g.fillUnder workers .double doubles).result = (g.fillUnder workers' .words words).result ∧
        ∀ launch, (g.fillUnder workers .double doubles).result = .ok launch →
          (g.fillUnder workers .double doubles).contents.size = doubles.size ∧
          ∀ i < doubles.size, ∃ first second,
            (g.fillUnder workers' .words words).contents[2 * i]? = some first ∧
            (g.fillUnder workers' .words words).contents[2 * i + 1]? = some second ∧
            (g.fillUnder workers .double doubles).contents[i]? =
              some (Uniform.double first second) := by
  refine ⟨?_, ?_⟩
  · intro singles words hsize
    obtain ⟨hresult, hvalues⟩ := g.fill_values workers workers' .single singles words
      (hsize.trans (Nat.mul_one _).symm)
    refine ⟨hresult, fun launch h => ⟨g.size_contents workers .single singles, fun i hi => ?_⟩⟩
    obtain ⟨v, hwords, hvalue⟩ := hvalues launch h i hi
    refine ⟨v[0], ?_, hvalue⟩
    rw [← Nat.mul_one i]
    exact hwords ⟨0, Nat.one_pos⟩
  · intro doubles words hsize
    obtain ⟨hresult, hvalues⟩ := g.fill_values workers workers' .double doubles words
      (hsize.trans (Nat.mul_comm ..))
    refine ⟨hresult, fun launch h => ⟨g.size_contents workers .double doubles, fun i hi => ?_⟩⟩
    obtain ⟨v, hwords, hvalue⟩ := hvalues launch h i hi
    rw [Nat.mul_comm 2 i]
    exact ⟨v[0], v[1], hwords ⟨0, Nat.two_pos⟩, hwords ⟨1, Nat.one_lt_two⟩, hvalue⟩

/-- The last real of a fill that ends within a block. -/
theorem fill_reals_atEnd :
    (Array.replicate 13 (0 : UInt32)).size = (Array.replicate 13 (0 : Float32)).size ∧
      (atEnd.fillUnder .sequential .single (.replicate 13 0)).result = .ok ⟨1, 2⟩ ∧
      12 < (Array.replicate 13 (0 : Float32)).size ∧
      (∃ w, (atEnd.fillUnder .sequential .words (.replicate 13 0)).contents[12]? = some w ∧
        (atEnd.fillUnder .sequential .single (.replicate 13 0)).contents[12]? =
          some (Uniform.single w)) ∧
      (Array.replicate 10 (0 : UInt32)).size = 2 * (Array.replicate 5 (0 : Float)).size ∧
      (atEnd.fillUnder .sequential .double (.replicate 5 0)).result = .ok ⟨1, 2⟩ ∧
      4 < (Array.replicate 5 (0 : Float)).size ∧
      ∃ first second,
        (atEnd.fillUnder .sequential .words (.replicate 10 0)).contents[8]? = some first ∧
        (atEnd.fillUnder .sequential .words (.replicate 10 0)).contents[9]? = some second ∧
        (atEnd.fillUnder .sequential .double (.replicate 5 0)).contents[4]? =
          some (Uniform.double first second) := by
  have hsingle : (atEnd.fillUnder .sequential .single (.replicate 13 0)).result = .ok ⟨1, 2⟩ :=
    (atEnd.result_eq_ok_iff ..).2 (by rfl)
  have hdouble : (atEnd.fillUnder .sequential .double (.replicate 5 0)).result = .ok ⟨1, 2⟩ :=
    (atEnd.result_eq_ok_iff ..).2 (by rfl)
  obtain ⟨hsingles, hdoubles⟩ := atEnd.fill_reals .sequential .sequential
  obtain ⟨-, hsingles⟩ := hsingles (.replicate 13 0) (.replicate 13 0) (by rfl)
  obtain ⟨-, hdoubles⟩ := hdoubles (.replicate 5 0) (.replicate 10 0) (by rfl)
  exact ⟨by rfl, hsingle, by decide, (hsingles ⟨1, 2⟩ hsingle).2 12 (by decide), by rfl, hdouble,
    by decide, (hdoubles ⟨1, 2⟩ hdouble).2 4 (by decide)⟩

end Grid
end Philox
