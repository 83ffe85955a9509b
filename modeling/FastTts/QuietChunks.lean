import FastTts.VadChunks

/-!
# Chunks that end where it is quiet

`plan_quiet_energy_audio_chunks` cuts samples into chunks of a greatest length. A chunk ends at the
beginning of the quietest of the windows that lie before that length; where there is no room for a
second window, in the middle of what is searched. A chunk length that is added to an index other
than zero is less than the number of samples, so no sum leaves `int64_t`.
-/

namespace FastTts.QuietChunks

open VadChunks (TimeSpan requirePositive)

structure QuietEnergyAudioChunkOptions where
  chunkSamples : ℤ
  boundaryContextSamples : ℤ
  minEnergyWindowSamples : ℤ
  deriving DecidableEq, Repr

/-- The arithmetic of the energies: `F` is `float` and `D` is `double`. -/
structure Energies (F D : Type) where
  infinity : F
  less : F → F → Bool
  zero : D
  addSquare : D → F → D
  /-- The root of a sum over this many values, divided by their number. -/
  rootMean : D → ℤ → F

/-- What must not happen: a read outside of the samples, or a loop that does not end. -/
inductive Fault
  | outside (index : ℤ)
  | endless
  deriving DecidableEq, Repr

variable {F D : Type} (energies : Energies F D) (samples : List F)
  (options : QuietEnergyAudioChunkOptions)

def readSample (index : ℤ) : Except Fault F :=
  if index < 0 then .error (.outside index)
  else match samples[index.toNat]? with
    | none => .error (.outside index)
    | some value => .ok value

def windowEnergy (start : ℤ) : Except Fault F := do
  let sum ← (List.range options.minEnergyWindowSamples.toNat).foldlM (fun (sum : D) (j : ℕ) => do
    let value ← readSample samples (start + j)
    return energies.addSquare sum value) energies.zero
  return energies.rootMean sum options.minEnergyWindowSamples

/-- The loop over the windows, for a number of rounds; `i` is the offset of the next one. -/
def quietest (searchStart upper : ℤ) : ℕ → ℤ → F → ℤ → Except Fault ℤ
  | 0, i, _, split => if i < upper then .error .endless else .ok split
  | rounds + 1, i, minEnergy, split =>
    if i < upper then do
      let energy ← windowEnergy energies samples options (searchStart + i)
      if energies.less energy minEnergy then
        quietest searchStart upper rounds (i + options.minEnergyWindowSamples) energy
          (searchStart + i)
      else
        quietest searchStart upper rounds (i + options.minEnergyWindowSamples) minEnergy split
    else .ok split

/-- Where the search finds the end of the chunk that starts at `index`. -/
def searchedSplit (index : ℤ) : Except Fault ℤ :=
  let searchStart := max index (index + options.chunkSamples - options.boundaryContextSamples)
  let searchEnd := min (index + options.chunkSamples) (samples.length : ℤ)
  let upper := searchEnd - searchStart - options.minEnergyWindowSamples
  if searchStart < searchEnd then
    if searchEnd - searchStart ≤ options.minEnergyWindowSamples then
      .ok ((searchStart + searchEnd).tdiv 2)
    else
      quietest energies samples options searchStart upper upper.toNat 0 energies.infinity
        (index + options.chunkSamples)
  else .ok (index + options.chunkSamples)

def splitAt (index : ℤ) : Except Fault ℤ := do
  let split ← searchedSplit energies samples options index
  return max (index + 1) (min split samples.length)

/-- The loop over the chunks, for a number of rounds. -/
def chunksFrom : ℕ → ℤ → Except Fault (List TimeSpan)
  | 0, index => if index < samples.length then .error .endless else .ok []
  | rounds + 1, index =>
    if index < samples.length then
      if samples.length ≤ index + options.chunkSamples then .ok [⟨index, samples.length⟩]
      else do
        let split ← splitAt energies samples options index
        let chunks ← chunksFrom rounds split
        return ⟨index, split⟩ :: chunks
    else .ok []

def planQuietEnergyAudioChunks : Except Exception (Except Fault (List TimeSpan)) := do
  requirePositive samples.length "quiet-energy input samples"
  requirePositive options.chunkSamples "quiet-energy chunk samples"
  requirePositive options.boundaryContextSamples "quiet-energy boundary context samples"
  requirePositive options.minEnergyWindowSamples "quiet-energy min energy window samples"
  return chunksFrom energies samples options samples.length 0

/-! ## The search -/

variable {energies samples options} {index : ℤ}

theorem readSample_ok {samples : List F} (hfirst : 0 ≤ index) (hlast : index < samples.length) :
    ∃ value, readSample samples index = .ok value := by
  have hinside : index.toNat < samples.length := by omega
  refine ⟨samples[index.toNat], ?_⟩
  rw [readSample, if_neg (not_lt.mpr hfirst), List.getElem?_eq_getElem hinside]

section

variable (energies : Energies F D)

theorem windowEnergy_ok {start : ℤ} (hstart : 0 ≤ start)
    (hwindow : start + options.minEnergyWindowSamples ≤ samples.length) :
    ∃ energy, windowEnergy energies samples options start = .ok energy := by
  have hsum : ∀ n ≤ options.minEnergyWindowSamples.toNat, ∃ sum,
      (List.range n).foldlM (fun (sum : D) (j : ℕ) => do
        let value ← readSample samples (start + j)
        return energies.addSquare sum value) energies.zero = .ok sum := by
    intro n hn
    induction n with
    | zero => exact ⟨energies.zero, rfl⟩
    | succ n ih =>
      obtain ⟨sum, hsum⟩ := ih (by omega)
      have hinside : start + n < samples.length := by omega
      obtain ⟨value, hvalue⟩ := readSample_ok (show 0 ≤ start + n by omega) hinside
      refine ⟨energies.addSquare sum value, ?_⟩
      rw [List.range_succ, List.foldlM_append, hsum]
      simp only [bind, Except.bind, List.foldlM_cons, List.foldlM_nil, hvalue]
      rfl
  obtain ⟨sum, hsum⟩ := hsum _ le_rfl
  refine ⟨energies.rootMean sum options.minEnergyWindowSamples, ?_⟩
  rw [windowEnergy, hsum]
  rfl

theorem quietest_ok {searchStart upper : ℤ} (hstart : 0 ≤ searchStart)
    (hwindow : 0 < options.minEnergyWindowSamples)
    (hupper : searchStart + upper + options.minEnergyWindowSamples ≤ samples.length) (rounds : ℕ)
    (i : ℤ) (hi : 0 ≤ i) (hrounds : upper ≤ i + rounds) (minEnergy : F) (split : ℤ) :
    ∃ found, quietest energies samples options searchStart upper rounds i minEnergy split =
        .ok found ∧ (found = split ∨ searchStart ≤ found ∧ found < searchStart + upper) := by
  induction rounds generalizing i minEnergy split with
  | zero =>
    have hend : ¬ i < upper := by omega
    exact ⟨split, by rw [quietest, if_neg hend], .inl rfl⟩
  | succ rounds ih =>
    by_cases hmore : i < upper
    · have hinside : searchStart + i + options.minEnergyWindowSamples ≤ samples.length := by omega
      obtain ⟨energy, henergy⟩ := windowEnergy_ok energies (by omega) hinside
      rw [quietest, if_pos hmore, henergy]
      simp only [bind, Except.bind]
      have hnext := ih (i + options.minEnergyWindowSamples) (by omega) (by omega)
      split_ifs with hless
      · obtain ⟨found, hfound, hplace⟩ := hnext energy (searchStart + i)
        exact ⟨found, hfound, .inr (by omega)⟩
      · exact hnext minEnergy split
    · exact ⟨split, by rw [quietest, if_neg hmore], .inl rfl⟩

theorem searchedSplit_ok (hindex : 0 ≤ index) (hwindow : 0 < options.minEnergyWindowSamples)
    (hmore : index + options.chunkSamples < samples.length) :
    ∃ split, searchedSplit energies samples options index = .ok split ∧
      split ≤ index + options.chunkSamples := by
  rw [searchedSplit, min_eq_left hmore.le]
  have hbehind : index ≤
      max index (index + options.chunkSamples - options.boundaryContextSamples) := le_max_left _ _
  generalize max index (index + options.chunkSamples - options.boundaryContextSamples) = searchStart
    at hbehind ⊢
  split_ifs with hsome hshort
  · refine ⟨_, rfl, ?_⟩
    rw [Int.tdiv_eq_ediv_of_nonneg (by omega)]
    omega
  · have hupper : searchStart + (index + options.chunkSamples - searchStart -
        options.minEnergyWindowSamples) + options.minEnergyWindowSamples ≤ samples.length := by
      omega
    obtain ⟨found, hfound, hplace⟩ := quietest_ok energies (by omega) hwindow hupper
      (index + options.chunkSamples - searchStart - options.minEnergyWindowSamples).toNat 0 le_rfl
      (by omega) energies.infinity (index + options.chunkSamples)
    exact ⟨found, hfound, by omega⟩
  · exact ⟨_, rfl, le_rfl⟩

theorem splitAt_ok (hindex : 0 ≤ index)
    (hchunk : 0 < options.chunkSamples) (hwindow : 0 < options.minEnergyWindowSamples)
    (hmore : index + options.chunkSamples < samples.length) :
    ∃ split, splitAt energies samples options index = .ok split ∧
      index < split ∧ split ≤ index + options.chunkSamples := by
  obtain ⟨found, hfound, hle⟩ := searchedSplit_ok energies hindex hwindow hmore
  refine ⟨max (index + 1) (min found samples.length), ?_, by omega, by omega⟩
  rw [splitAt, hfound]
  rfl

end

/-! ## The chunks -/

/-- The spans lie side by side from `start` to `stop`, and none is empty. -/
def Tiles (start stop : ℤ) : List TimeSpan → Prop
  | [] => start = stop
  | span :: spans => span.start = start ∧ start < span.stop ∧ Tiles span.stop stop spans

theorem chunksFrom_ok (energies : Energies F D) (hchunk : 0 < options.chunkSamples)
    (hwindow : 0 < options.minEnergyWindowSamples) (rounds : ℕ) (index : ℤ) (hindex : 0 ≤ index)
    (hend : index ≤ samples.length) (hrounds : samples.length ≤ index + rounds) :
    ∃ chunks, chunksFrom energies samples options rounds index = .ok chunks ∧
      Tiles index samples.length chunks ∧
      ∀ chunk ∈ chunks, chunk.stop - chunk.start ≤ options.chunkSamples := by
  induction rounds generalizing index with
  | zero =>
    have hdone : ¬ index < samples.length := by omega
    refine ⟨[], by rw [chunksFrom, if_neg hdone], ?_, by simp⟩
    simp only [Tiles]
    omega
  | succ rounds ih =>
    rw [chunksFrom]
    split_ifs with hmore hlast
    · refine ⟨_, rfl, ⟨rfl, hmore, rfl⟩, ?_⟩
      simp only [List.mem_singleton, forall_eq]
      omega
    · obtain ⟨split, hsplit, hsize, hshort⟩ := splitAt_ok energies hindex hchunk hwindow
        (not_le.mp hlast)
      obtain ⟨chunks, hchunks, htiles, hlengths⟩ := ih split (by omega) (by omega) (by omega)
      rw [hsplit]
      simp only [bind, Except.bind, hchunks]
      refine ⟨_, rfl, ⟨rfl, hsize, htiles⟩, List.forall_mem_cons.mpr ⟨?_, hlengths⟩⟩
      dsimp only
      omega
    · refine ⟨[], rfl, ?_, by simp⟩
      simp only [Tiles]
      omega

/-- Whatever the energies are, the chunks lie side by side, and the loops end. -/
theorem planQuietEnergyAudioChunks_tiles (energies : Energies F D) (samples : List F)
    (options : QuietEnergyAudioChunkOptions) (hsamples : samples ≠ [])
    (hchunk : 0 < options.chunkSamples) (hcontext : 0 < options.boundaryContextSamples)
    (hwindow : 0 < options.minEnergyWindowSamples) :
    ∃ chunks, planQuietEnergyAudioChunks energies samples options = .ok (.ok chunks) ∧
      Tiles 0 samples.length chunks ∧
      ∀ chunk ∈ chunks, chunk.stop - chunk.start ≤ options.chunkSamples := by
  have htotal : (0 : ℤ) < samples.length := by
    exact_mod_cast List.length_pos_of_ne_nil hsamples
  obtain ⟨chunks, hchunks, hplan⟩ := chunksFrom_ok energies hchunk hwindow samples.length 0 le_rfl
    htotal.le (by omega)
  refine ⟨chunks, ?_, hplan⟩
  rw [planQuietEnergyAudioChunks, requirePositive, requirePositive, requirePositive,
    requirePositive, if_neg (not_le.mpr htotal), if_neg (not_le.mpr hchunk),
    if_neg (not_le.mpr hcontext), if_neg (not_le.mpr hwindow), hchunks]
  rfl

/-- Sums of squares of whole numbers for energies. -/
def squares : Energies ℤ ℤ :=
  ⟨2 ^ 64, fun a b => decide (a < b), 0, fun sum value => sum + value * value, fun sum _ => sum⟩

theorem planQuietEnergyAudioChunks_seven :
    ∃ chunks, planQuietEnergyAudioChunks squares [3, 3, 0, 0, 5, 5, 5] ⟨5, 4, 1⟩ =
        .ok (.ok chunks) ∧
      Tiles 0 7 chunks ∧ ∀ chunk ∈ chunks, chunk.stop - chunk.start ≤ 5 :=
  planQuietEnergyAudioChunks_tiles squares [3, 3, 0, 0, 5, 5, 5] ⟨5, 4, 1⟩ (by decide) (by decide)
    (by decide) (by decide)

end FastTts.QuietChunks
