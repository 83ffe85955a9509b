import FastTts.Blocks
import FastTts.Json
import FastTts.Planar
import Mathlib.Data.List.GetD
import Mathlib.Tactic.FieldSimp
import Mathlib.Tactic.Linarith
import Mathlib.Tactic.Positivity
import Mathlib.Tactic.Ring

/-!
# Overlapping chunks

`plan_audio_chunks` lays chunks over the samples, a hop apart. `copy_planar_chunk` copies the
samples of a chunk, `overlap_add_planar_chunk` adds them up again under a window, and
`normalize_overlap_added_planar` divides by the weights that were added up beside them. The numbers
are those of a field: the arithmetic is exact.
-/

namespace FastTts.OverlapAdd

open Planar

inductive AudioChunkPadMode
  | zero
  | reflect
  deriving DecidableEq, Repr

inductive AudioChunkTailAlignment
  | start
  | center
  deriving DecidableEq, Repr

inductive AudioChunkCounterMode
  | sharedAcrossLanes
  | perLane
  deriving DecidableEq, Repr

structure AudioChunkSpec where
  chunkSamples : ℤ
  hopSamples : ℤ
  padMode : AudioChunkPadMode
  tailAlignment : AudioChunkTailAlignment
  reflectMinValidSamples : ℤ
  deriving DecidableEq, Repr

structure AudioChunkSpan where
  index : ℤ
  outputStartSample : ℤ
  validSamples : ℤ
  copyStartSample : ℤ
  validStartInChunk : ℤ
  deriving DecidableEq, Repr

inductive Failure
  | thrown (message : Exception)
  | endless
  deriving DecidableEq

def requirePositive (value : ℤ) (name : String) : Except Failure Unit :=
  if value ≤ 0 then .error (.thrown (bytes ("Audio chunker requires positive " ++ name)))
  else .ok ()

/-! ## The plan -/

section Plan

variable (spec : AudioChunkSpec)

def chunkSpan (inputSamples start index : ℤ) : AudioChunkSpan :=
  let valid := min spec.chunkSamples (inputSamples - start)
  let copyStart :=
    if valid < spec.chunkSamples ∧ spec.tailAlignment = .center then
      start - (spec.chunkSamples - valid).tdiv 2
    else start
  ⟨index, start, valid, copyStart, start - copyStart⟩

def planFrom (inputSamples : ℤ) : ℕ → ℤ → ℤ → Except Failure (List AudioChunkSpan)
  | 0, start, _ => if start < inputSamples then .error .endless else .ok []
  | rounds + 1, start, index =>
    if start < inputSamples then
      let span := chunkSpan spec inputSamples start index
      if span.validStartInChunk < 0 ∨
          spec.chunkSamples < span.validStartInChunk + span.validSamples then
        .error (.thrown (bytes "Audio chunker planned invalid chunk span"))
      else do
        let spans ← planFrom inputSamples rounds (start + spec.hopSamples) (index + 1)
        return span :: spans
    else .ok []

def planAudioChunks (inputSamples : ℤ) : Except Failure (List AudioChunkSpan) := do
  requirePositive inputSamples "input samples"
  requirePositive spec.chunkSamples "chunk samples"
  requirePositive spec.hopSamples "hop samples"
  if spec.chunkSamples < spec.hopSamples then
    .error (.thrown (bytes "Audio chunker hop_samples must be <= chunk_samples"))
  else planFrom spec inputSamples inputSamples.toNat 0 0

/-- The span lies in the samples, and its valid samples in the chunk. -/
structure Laid (inputSamples : ℤ) (span : AudioChunkSpan) : Prop where
  start_nonneg : 0 ≤ span.outputStartSample
  valid_pos : 0 < span.validSamples
  stop_le : span.outputStartSample + span.validSamples ≤ inputSamples
  chunk_nonneg : 0 ≤ span.validStartInChunk
  chunk_le : span.validStartInChunk + span.validSamples ≤ spec.chunkSamples
  copied : span.copyStartSample + span.validStartInChunk = span.outputStartSample

def AudioChunkSpan.Covers (span : AudioChunkSpan) (frame : ℤ) : Prop :=
  span.outputStartSample ≤ frame ∧ frame < span.outputStartSample + span.validSamples

instance (span : AudioChunkSpan) (frame : ℤ) : Decidable (span.Covers frame) :=
  inferInstanceAs (Decidable (_ ∧ _))

variable {spec} {inputSamples : ℤ}

theorem laid_chunkSpan {start : ℤ} (hchunk : 0 < spec.chunkSamples) (hstart : 0 ≤ start)
    (hmore : start < inputSamples) (index : ℤ) :
    Laid spec inputSamples (chunkSpan spec inputSamples start index) := by
  have hhalf : ∀ valid : ℤ, valid < spec.chunkSamples →
      (spec.chunkSamples - valid).tdiv 2 = (spec.chunkSamples - valid) / 2 := by
    intro valid hvalid
    exact Int.tdiv_eq_ediv_of_nonneg (by omega)
  unfold chunkSpan
  extract_lets valid copyStart
  have hcopy : copyStart ≤ start ∧ start - copyStart + valid ≤ spec.chunkSamples := by
    simp only [copyStart]
    split_ifs with hcenter
    · rw [hhalf valid hcenter.1]
      omega
    · omega
  constructor <;> dsimp only <;> omega

theorem planFrom_ok (hchunk : 0 < spec.chunkSamples) (hhop : 0 < spec.hopSamples)
    (hoverlap : spec.hopSamples ≤ spec.chunkSamples) (rounds : ℕ) (start index : ℤ)
    (hstart : 0 ≤ start) (hrounds : inputSamples ≤ start + rounds) :
    ∃ spans, planFrom spec inputSamples rounds start index = .ok spans ∧
      (∀ span ∈ spans, Laid spec inputSamples span) ∧
      ∀ frame, start ≤ frame → frame < inputSamples → ∃ span ∈ spans, span.Covers frame := by
  induction rounds generalizing start index with
  | zero =>
    have hdone : ¬ start < inputSamples := by omega
    refine ⟨[], by rw [planFrom, if_neg hdone], by simp, fun frame hfirst hlast => ?_⟩
    omega
  | succ rounds ih =>
    by_cases hmore : start < inputSamples
    · have hlaid := laid_chunkSpan hchunk hstart hmore index
      have hvalid : ¬ ((chunkSpan spec inputSamples start index).validStartInChunk < 0 ∨
          spec.chunkSamples < (chunkSpan spec inputSamples start index).validStartInChunk +
            (chunkSpan spec inputSamples start index).validSamples) := by
        have hnonneg := hlaid.chunk_nonneg
        have hle := hlaid.chunk_le
        omega
      obtain ⟨spans, hspans, hall, hcover⟩ := ih (start + spec.hopSamples) (index + 1) (by omega)
        (by omega)
      rw [planFrom, if_pos hmore]
      simp only [if_neg hvalid, hspans, bind, Except.bind]
      refine ⟨_, rfl, List.forall_mem_cons.mpr ⟨hlaid, hall⟩, fun frame hfirst hlast => ?_⟩
      by_cases hhere : frame < start + spec.hopSamples
      · refine ⟨_, List.mem_cons_self, hfirst, ?_⟩
        simp only [chunkSpan]
        omega
      · obtain ⟨span, hspan, hcovers⟩ := hcover frame (not_lt.mp hhere) hlast
        exact ⟨span, List.mem_cons_of_mem _ hspan, hcovers⟩
    · refine ⟨[], by rw [planFrom, if_neg hmore], by simp, fun frame hfirst hlast => ?_⟩
      omega

theorem planAudioChunks_ok (hinput : 0 < inputSamples) (hhop : 0 < spec.hopSamples)
    (hoverlap : spec.hopSamples ≤ spec.chunkSamples) :
    ∃ spans, planAudioChunks spec inputSamples = .ok spans ∧
      (∀ span ∈ spans, Laid spec inputSamples span) ∧
      ∀ frame, 0 ≤ frame → frame < inputSamples → ∃ span ∈ spans, span.Covers frame := by
  have hchunk : 0 < spec.chunkSamples := hhop.trans_le hoverlap
  rw [planAudioChunks, requirePositive, requirePositive, requirePositive,
    if_neg (not_le.mpr hinput), if_neg (not_le.mpr hchunk), if_neg (not_le.mpr hhop),
    if_neg (not_lt.mpr hoverlap)]
  exact planFrom_ok hchunk hhop hoverlap inputSamples.toNat 0 0 le_rfl (by omega)

end Plan

/-! ## The copy -/

section Copy

variable {K : Type} [Field K] (spec : AudioChunkSpec)

/-- The loop of `reflect_index`, for a number of rounds. -/
def reflectFrom (length : ℤ) : ℕ → ℤ → Except Failure ℤ
  | 0, index => if index < 0 ∨ length ≤ index then .error .endless else .ok index
  | rounds + 1, index =>
    if index < 0 ∨ length ≤ index then
      if index < 0 then reflectFrom length rounds (-index)
      else reflectFrom length rounds (2 * length - index - 2)
    else .ok index

def reflectIndex (index length : ℤ) : Except Failure ℤ := do
  requirePositive length "reflect length"
  if length = 1 then .ok 0 else reflectFrom length (2 * index.natAbs + 1) index

def shouldReflectPad (span : AudioChunkSpan) : Bool :=
  decide (spec.padMode = .reflect) && (decide (spec.reflectMinValidSamples ≤ 0) ||
    decide (spec.reflectMinValidSamples ≤ span.validSamples))

def planarIndex (lane frame frames : ℤ) : ℕ := (lane * frames + frame).toNat

def validateCopyShape (input : List K) (lanes inputFrames : ℤ) (output : List K) :
    Except Failure Unit := do
  requirePositive lanes "lanes"
  requirePositive inputFrames "input frames"
  requirePositive spec.chunkSamples "chunk samples"
  if (input.length : ℤ) ≠ lanes * inputFrames then
    .error (.thrown (bytes "Audio chunker input size mismatch"))
  else if (output.length : ℤ) ≠ lanes * spec.chunkSamples then
    .error (.thrown (bytes "Audio chunker output size mismatch"))
  else .ok ()

/-- Item `i` of a lane of the chunk. -/
def copiedSample (input : List K) (inputFrames : ℤ) (span : AudioChunkSpan) (lane i : ℕ) :
    Except Failure K :=
  let srcFrame := span.copyStartSample + i
  if srcFrame < 0 ∨ inputFrames ≤ srcFrame then
    if shouldReflectPad spec span then do
      let reflected ← reflectIndex srcFrame inputFrames
      return input.getD (planarIndex lane reflected inputFrames) 0
    else .ok 0
  else .ok (input.getD (planarIndex lane srcFrame inputFrames) 0)

/-- All of the output is written: what was in it does not matter. -/
def copyPlanarChunk (output input : List K) (lanes inputFrames : ℤ) (span : AudioChunkSpan) :
    Except Failure (List K) := do
  validateCopyShape spec input lanes inputFrames output
  let rows ← (List.range lanes.toNat).mapM fun lane =>
    (List.range spec.chunkSamples.toNat).mapM fun i =>
      copiedSample spec input inputFrames span lane i
  return rows.flatten

variable {spec} {length : ℤ} {chunkSamples : ℕ} {buffer : List K}

/-- The distance to the nearest multiple of the period. -/
def triangleWave (period index : ℤ) : ℤ := min (index % period) (-index % period)

theorem triangleWave_neg (period index : ℤ) :
    triangleWave period (-index) = triangleWave period index := by
  rw [triangleWave, neg_neg, min_comm, triangleWave]

theorem triangleWave_sub (period index : ℤ) :
    triangleWave period (period - index) = triangleWave period index := by
  have hleft : (period - index) % period = -index % period := by
    rw [sub_eq_add_neg, Int.add_emod_left]
  have hright : -(period - index) % period = index % period := by
    rw [neg_sub, Int.sub_emod_right]
  rw [triangleWave, hleft, hright, min_comm, triangleWave]

theorem triangleWave_inside {index : ℤ} (hlength : 1 < length) (hfirst : 0 ≤ index)
    (hlast : index < length) : triangleWave (2 * (length - 1)) index = index := by
  have hmod : index % (2 * (length - 1)) = index := Int.emod_eq_of_lt hfirst (by omega)
  rcases hfirst.eq_or_lt with rfl | hpos
  · rw [triangleWave, neg_zero, Int.zero_emod, min_self]
  · have hneg : -index % (2 * (length - 1)) = 2 * (length - 1) - index := by
      rw [← Int.add_emod_right, Int.emod_eq_of_lt (by omega) (by omega)]
      ring
    rw [triangleWave, hmod, hneg]
    omega

/-- Each round keeps the index on the wave and brings it nearer to the lane. -/
theorem reflectFrom_eq (hlength : 1 < length) (rounds : ℕ) (index : ℤ)
    (hrounds : (if index < 0 then -2 * index + 1 else 2 * index) ≤ rounds) :
    reflectFrom length rounds index = .ok (triangleWave (2 * (length - 1)) index) ∧
      0 ≤ triangleWave (2 * (length - 1)) index ∧
        triangleWave (2 * (length - 1)) index < length := by
  induction rounds generalizing index with
  | zero =>
    obtain rfl : index = 0 := by split_ifs at hrounds <;> omega
    rw [triangleWave_inside hlength le_rfl (by omega)]
    exact ⟨if_neg (by omega), le_rfl, by omega⟩
  | succ rounds ih =>
    rw [reflectFrom]
    by_cases houtside : index < 0 ∨ length ≤ index
    · rw [if_pos houtside]
      by_cases hnegative : index < 0
      · rw [if_pos hnegative] at hrounds ⊢
        rw [← triangleWave_neg]
        exact ih (-index) (by split_ifs <;> omega)
      · rw [if_neg hnegative] at hrounds ⊢
        rw [← triangleWave_sub, show 2 * (length - 1) - index = 2 * length - index - 2 by ring]
        exact ih (2 * length - index - 2) (by split_ifs <;> omega)
    · rw [if_neg houtside, triangleWave_inside hlength (by omega) (by omega)]
      exact ⟨rfl, by omega, by omega⟩

/-- The index of the wave that goes back and forth over a lane. -/
def mirrored (index length : ℤ) : ℤ :=
  if length = 1 then 0 else triangleWave (2 * (length - 1)) index

theorem reflectIndex_ok (hlength : 0 < length) (index : ℤ) :
    reflectIndex index length = .ok (mirrored index length) ∧
      0 ≤ mirrored index length ∧ mirrored index length < length := by
  rw [reflectIndex, requirePositive, if_neg (not_le.mpr hlength), mirrored]
  by_cases hone : length = 1
  · simp only [if_pos hone]
    exact ⟨rfl, le_rfl, hlength⟩
  · rw [if_neg hone, if_neg hone]
    exact reflectFrom_eq (by omega) (2 * index.natAbs + 1) index (by split_ifs <;> omega)

/-- An index is turned back onto the wave, however far it lies from the lane. -/
theorem reflectIndex_eq_wave (hlength : 1 ≤ length) (index : ℤ) :
    ∃ reflected, reflectIndex index length = .ok reflected ∧ 0 ≤ reflected ∧ reflected < length ∧
      reflected = if length = 1 then 0 else triangleWave (2 * (length - 1)) index := by
  obtain ⟨hreflected, hrange⟩ := reflectIndex_ok (show 0 < length by omega) index
  exact ⟨mirrored index length, hreflected, hrange.1, hrange.2, rfl⟩

theorem reflectIndex_eq_wave_four :
    (1 : ℤ) ≤ 4 ∧ ∃ reflected, reflectIndex (-20) 4 = .ok reflected ∧ 0 ≤ reflected ∧
      reflected < 4 ∧ reflected = if (4 : ℤ) = 1 then 0 else triangleWave (2 * (4 - 1)) (-20) :=
  ⟨by decide, reflectIndex_eq_wave (by decide) (-20)⟩

variable (spec) in
theorem copiedSample_ok (input : List K) {inputFrames : ℤ} (hframes : 0 < inputFrames)
    (span : AudioChunkSpan) (lane i : ℕ) :
    ∃ value, copiedSample spec input inputFrames span lane i = .ok value := by
  rw [copiedSample]
  split_ifs with houtside hreflect
  · rw [(reflectIndex_ok hframes (span.copyStartSample + i)).1]
    exact ⟨_, rfl⟩
  · exact ⟨0, rfl⟩
  · exact ⟨_, rfl⟩

/-- The chunk has the input's samples where they are valid. -/
def Copied (input chunk : List K) (lanes frames chunkSamples : ℕ) (span : AudioChunkSpan) : Prop :=
  chunk.length = lanes * chunkSamples ∧ ∀ lane < lanes, ∀ i : ℕ, (i : ℤ) < span.validSamples →
    chunk.getD (planarIndex lane (span.validStartInChunk + i) chunkSamples) 0 =
      input.getD (lane * frames + (span.outputStartSample + i).toNat) 0

theorem not_nonpos {n : ℕ} (h : 0 < n) : ¬ (n : ℤ) ≤ 0 := by omega

omit [Field K] in
theorem validateCopyShape_ok {lanes frames : ℕ} {input : List K}
    (hchunk : spec.chunkSamples = chunkSamples) (hsome : 0 < chunkSamples) (hlanes : 0 < lanes)
    (hframes : 0 < frames) (hinput : input.length = lanes * frames)
    (hbuffer : buffer.length = lanes * chunkSamples) :
    validateCopyShape spec input lanes frames buffer = .ok () := by
  rw [validateCopyShape, requirePositive, requirePositive, requirePositive, hchunk,
    if_neg (not_nonpos hlanes), if_neg (not_nonpos hframes), if_neg (not_nonpos hsome), hinput,
    hbuffer]
  simp
  rfl

theorem copyPlanarChunk_rows {lanes frames : ℕ} {input : List K} {span : AudioChunkSpan}
    {value : ℕ → ℕ → K}
    (hvalue : ∀ lane i, copiedSample spec input frames span lane i = .ok (value lane i))
    (hchunk : spec.chunkSamples = chunkSamples) (hsome : 0 < chunkSamples) (hlanes : 0 < lanes)
    (hframes : 0 < frames) (hinput : input.length = lanes * frames)
    (hbuffer : buffer.length = lanes * chunkSamples) :
    copyPlanarChunk spec buffer input lanes frames span =
      .ok ((List.range lanes).map fun lane =>
        (List.range chunkSamples).map (value lane)).flatten := by
  have hshape := validateCopyShape_ok hchunk hsome hlanes hframes hinput hbuffer
  have hsamples : copiedSample spec input frames span = fun lane i => pure (value lane i) :=
    funext fun lane => funext (hvalue lane)
  rw [copyPlanarChunk, hshape, hsamples, hchunk]
  simp [bind, Except.bind]
  rfl

theorem copyPlanarChunk_ok {lanes frames : ℕ} {input : List K} {span : AudioChunkSpan}
    (hchunk : spec.chunkSamples = chunkSamples) (hsome : 0 < chunkSamples) (hlanes : 0 < lanes)
    (hframes : 0 < frames) (hinput : input.length = lanes * frames)
    (hbuffer : buffer.length = lanes * chunkSamples) (hlaid : Laid spec frames span) :
    ∃ chunk, copyPlanarChunk spec buffer input lanes frames span = .ok chunk ∧
      Copied input chunk lanes frames chunkSamples span := by
  have hframes' : (0 : ℤ) < frames := by exact_mod_cast hframes
  choose value hvalue using copiedSample_ok spec input hframes' span
  have hrows : ∀ row ∈ (List.range lanes).map fun lane =>
      (List.range chunkSamples).map (value lane),
      row.length = chunkSamples := by
    intro row hrow
    obtain ⟨lane, -, rfl⟩ := List.mem_map.mp hrow
    simp
  refine ⟨((List.range lanes).map fun lane => (List.range chunkSamples).map (value lane)).flatten,
    copyPlanarChunk_rows hvalue hchunk hsome hlanes hframes hinput hbuffer, ?_,
    fun lane hlane i hi => ?_⟩
  · rw [Blocks.length_flatten hrows]
    simp
  · obtain ⟨hstart, -, hstop, hnonneg, hle, hcopied⟩ := hlaid
    have hplace : planarIndex lane (span.validStartInChunk + i) chunkSamples =
        lane * chunkSamples + (span.validStartInChunk + i).toNat := by
      rw [planarIndex]
      omega
    have hinside : (span.validStartInChunk + i).toNat < chunkSamples := by omega
    have hread : value lane (span.validStartInChunk + i).toNat =
        input.getD (lane * frames + (span.outputStartSample + i).toNat) 0 := by
      have hsrc : ¬ (span.copyStartSample + ((span.validStartInChunk + i).toNat : ℤ) < 0 ∨
          (frames : ℤ) ≤ span.copyStartSample + ((span.validStartInChunk + i).toNat : ℤ)) := by
        omega
      have hok := hvalue lane (span.validStartInChunk + i).toNat
      rw [copiedSample, if_neg hsrc] at hok
      rw [← Except.ok.inj hok, planarIndex]
      congr 1
      omega
    rw [hplace, ← hread, List.getD_eq_getElem?_getD, Blocks.getElem?_flatten hrows lane hinside]
    simp [hlane, hinside]

end Copy

/-! ## Adding up -/

section Sums

variable {K : Type} [Field K] (spec : AudioChunkSpec) (lanes outputFrames : ℤ)
  (counterMode : AudioChunkCounterMode)

def counterLanes : ℤ :=
  match counterMode with
  | .sharedAcrossLanes => 1
  | .perLane => lanes

def weightIndex (lane frame : ℕ) : ℕ :=
  match counterMode with
  | .sharedAcrossLanes => frame
  | .perLane => planarIndex lane frame outputFrames

def overlapAddPlanarChunk (output weights chunk : List K) (span : AudioChunkSpan)
    (window : List K) : Except Failure (List K × List K) := do
  requirePositive lanes "lanes"
  requirePositive outputFrames "output frames"
  let chunkSamples : ℤ := window.length
  requirePositive chunkSamples "window samples"
  if (chunk.length : ℤ) ≠ lanes * chunkSamples ∨ (output.length : ℤ) ≠ lanes * outputFrames then
    .error (.thrown (bytes "Audio chunker overlap-add size mismatch"))
  else if (weights.length : ℤ) ≠ counterLanes lanes counterMode * outputFrames then
    .error (.thrown (bytes "Audio chunker overlap-add weight size mismatch"))
  else if span.validStartInChunk < 0 ∨
      chunkSamples < span.validStartInChunk + span.validSamples ∨
      span.outputStartSample < 0 ∨
      outputFrames < span.outputStartSample + span.validSamples then
    .error (.thrown (bytes "Audio chunker overlap-add span mismatch"))
  else
    let gain := fun i : ℕ => window.getD (span.validStartInChunk + i).toNat 0
    let added := fun (lane i : ℕ) (sum : K) =>
      sum + chunk.getD (planarIndex lane (span.validStartInChunk + i) chunkSamples) 0 * gain i
    .ok (modifyRows added lanes.toNat outputFrames.toNat span.outputStartSample.toNat
        span.validSamples.toNat output,
      modifyRows (fun _ i weight => weight + gain i) (counterLanes lanes counterMode).toNat
        outputFrames.toNat span.outputStartSample.toNat span.validSamples.toNat weights)

def smallWeight : K := 11258999 / 2 ^ 50

variable [LinearOrder K]

def normalizeOverlapAddedPlanar (output weights : List K) : Except Failure (List K) := do
  requirePositive lanes "lanes"
  requirePositive outputFrames "output frames"
  if (output.length : ℤ) ≠ lanes * outputFrames then
    .error (.thrown (bytes "Audio chunker normalize output size mismatch"))
  else if (weights.length : ℤ) ≠ counterLanes lanes counterMode * outputFrames then
    .error (.thrown (bytes "Audio chunker normalize weight size mismatch"))
  else
    let denom := fun (lane frame : ℕ) =>
      let weight := weights.getD (weightIndex outputFrames counterMode lane frame) 0
      if smallWeight < weight then weight else 1
    .ok (modifyRows (fun lane frame sum => sum / denom lane frame) lanes.toNat outputFrames.toNat 0
      outputFrames.toNat output)

/-- Every chunk is copied and added up as it is. -/
def addChunk (input window : List K) (sums : List K × List K) (span : AudioChunkSpan) :
    Except Failure (List K × List K) := do
  let buffer := List.replicate (lanes * spec.chunkSamples).toNat 0
  let chunk ← copyPlanarChunk spec buffer input lanes outputFrames span
  overlapAddPlanarChunk lanes outputFrames counterMode sums.1 sums.2 chunk span window

def reconstruct (input window : List K) : Except Failure (List K) := do
  let spans ← planAudioChunks spec outputFrames
  let output := List.replicate (lanes * outputFrames).toNat 0
  let weights := List.replicate (counterLanes lanes counterMode * outputFrames).toNat 0
  let sums ← spans.foldlM (addChunk spec lanes outputFrames counterMode input window)
    (output, weights)
  normalizeOverlapAddedPlanar lanes outputFrames counterMode sums.1 sums.2

variable {spec counterMode} {lanes frames : ℕ} {input window : List K}

/-- The lane of the weights that a lane of the output is divided by. -/
def counterLane (counterMode : AudioChunkCounterMode) (lane : ℕ) : ℕ :=
  match counterMode with
  | .sharedAcrossLanes => 0
  | .perLane => lane

theorem weightIndex_eq (counterMode : AudioChunkCounterMode) (frames lane frame : ℕ) :
    weightIndex frames counterMode lane frame = counterLane counterMode lane * frames + frame := by
  cases counterMode with
  | sharedAcrossLanes => simp [weightIndex, counterLane]
  | perLane =>
    rw [weightIndex, counterLane, planarIndex]
    omega

variable {lane rows : ℕ} {span : AudioChunkSpan} {done : List AudioChunkSpan}
  {sums : List K × List K}

theorem counterLane_lt (hlane : lane < lanes) :
    counterLane counterMode lane < (counterLanes lanes counterMode).toNat := by
  cases counterMode with
  | sharedAcrossLanes => exact Nat.zero_lt_one
  | perLane => simpa [counterLanes, counterLane] using hlane

/-- What has been added up for a frame is the input times the weight there, and the weight is not
small if a chunk covers the frame. -/
structure Summed (input : List K) (lanes frames : ℕ) (counterMode : AudioChunkCounterMode)
    (done : List AudioChunkSpan) (sums : List K × List K) : Prop where
  output_length : sums.1.length = lanes * frames
  weights_length : (sums.2.length : ℤ) = counterLanes lanes counterMode * frames
  sums : ∀ lane < lanes, ∀ frame < frames, ∃ weight : K, 0 ≤ weight ∧
    (∀ span ∈ done, span.Covers frame → smallWeight < weight) ∧
    sums.2[counterLane counterMode lane * frames + frame]? = some weight ∧
    sums.1[lane * frames + frame]? = some (input.getD (lane * frames + frame) 0 * weight)

theorem Summed.of_subset {done done' : List AudioChunkSpan} {sums : List K × List K}
    (h : Summed input lanes frames counterMode done sums) (hsubset : done' ⊆ done) :
    Summed input lanes frames counterMode done' sums where
  output_length := h.output_length
  weights_length := h.weights_length
  sums lane hlane frame hframe := by
    obtain ⟨weight, hnonneg, hcovered, hweight, hsum⟩ := h.sums lane hlane frame hframe
    exact ⟨weight, hnonneg, fun span hspan => hcovered span (hsubset hspan), hweight, hsum⟩

theorem getElem?_span {α : Type} (f : ℕ → ℕ → α → α) (items : List α)
    (hlaid : Laid spec frames span) {frame : ℕ} (hlane : lane < rows) (hframe : frame < frames) :
    (modifyRows f rows frames span.outputStartSample.toNat span.validSamples.toNat
      items)[lane * frames + frame]? = if span.Covers frame then
        items[lane * frames + frame]?.map (f lane (frame - span.outputStartSample.toNat))
      else items[lane * frames + frame]? := by
  obtain ⟨hstart, hvalid, hstop, -, -, -⟩ := hlaid
  rw [getElem?_modifyRows f rows items (by omega) hframe]
  have hcover : (lane < rows ∧ span.outputStartSample.toNat ≤ frame ∧
      frame < span.outputStartSample.toNat + span.validSamples.toNat) ↔ span.Covers frame := by
    unfold AudioChunkSpan.Covers
    omega
  simp only [hcover]

variable [IsStrictOrderedRing K]

theorem smallWeight_pos : (0 : K) < smallWeight := by
  unfold smallWeight
  positivity

theorem Summed.overlapAdd {chunk : List K} (h : Summed input lanes frames counterMode done sums)
    (hlanes : 0 < lanes) (hframes : 0 < frames) (hsome : 0 < window.length)
    (hchunk : spec.chunkSamples = window.length) (hlaid : Laid spec frames span)
    (hcopied : Copied input chunk lanes frames window.length span)
    (hgains : ∀ gain ∈ window, smallWeight < gain) :
    ∃ next, overlapAddPlanarChunk lanes frames counterMode sums.1 sums.2 chunk span window =
        .ok next ∧ Summed input lanes frames counterMode (span :: done) next := by
  obtain ⟨hstart, hvalid, hstop, hnonneg, hle, -⟩ := id hlaid
  rw [hchunk] at hle
  obtain ⟨hlength, hsame⟩ := hcopied
  have hsizes : ¬ ((chunk.length : ℤ) ≠ lanes * (window.length : ℤ) ∨
      (sums.1.length : ℤ) ≠ lanes * (frames : ℤ)) := by
    rw [hlength, h.output_length]
    simp
  have hweights : ¬ (sums.2.length : ℤ) ≠ counterLanes lanes counterMode * frames :=
    not_not.mpr h.weights_length
  have hspan : ¬ (span.validStartInChunk < 0 ∨
      (window.length : ℤ) < span.validStartInChunk + span.validSamples ∨
      span.outputStartSample < 0 ∨ (frames : ℤ) < span.outputStartSample + span.validSamples) := by
    omega
  simp only [overlapAddPlanarChunk, requirePositive, if_neg (not_nonpos hlanes),
    if_neg (not_nonpos hframes), if_neg (not_nonpos hsome), if_neg hsizes, if_neg hweights,
    if_neg hspan]
  refine ⟨_, rfl, ?_, ?_, fun lane hlane frame hframe => ?_⟩
  · simpa using h.output_length
  · simpa using h.weights_length
  obtain ⟨weight, hweight_nonneg, hcovered, hweight, hsum⟩ := h.sums lane hlane frame hframe
  simp only [Int.toNat_natCast, getElem?_span _ _ hlaid hlane hframe,
    getElem?_span _ _ hlaid (counterLane_lt hlane) hframe, hweight, hsum, Option.map_some]
  by_cases hinside : span.Covers frame
  · obtain ⟨hfirst, hlast⟩ := hinside
    obtain ⟨i, rfl⟩ := Nat.exists_eq_add_of_le
      (show span.outputStartSample.toNat ≤ frame by omega)
    have hread := hsame lane hlane i (by push_cast at hlast; omega)
    have hplace : (span.outputStartSample + i).toNat = span.outputStartSample.toNat + i := by omega
    have hindex : (span.validStartInChunk + i).toNat < window.length := by
      push_cast at hlast
      omega
    have hgain : smallWeight < window.getD (span.validStartInChunk + i).toNat 0 := by
      rw [List.getD_eq_getElem _ _ hindex]
      exact hgains _ (List.getElem_mem hindex)
    rw [hplace] at hread
    simp only [if_pos (show span.Covers _ from ⟨hfirst, hlast⟩), Nat.add_sub_cancel_left, hread]
    generalize window.getD _ 0 = gain at hgain ⊢
    have hgain_pos : 0 < gain := smallWeight_pos.trans hgain
    refine ⟨weight + gain, by positivity, fun _ _ _ => ?_, rfl, ?_⟩
    · linarith
    · rw [mul_add]
  · simp only [if_neg hinside]
    exact ⟨weight, hweight_nonneg,
      List.forall_mem_cons.mpr ⟨fun hcovers => absurd hcovers hinside, hcovered⟩, rfl, rfl⟩

theorem addChunks_ok (hlanes : 0 < lanes) (hframes : 0 < frames) (hsome : 0 < window.length)
    (hinput : input.length = lanes * frames) (hchunk : spec.chunkSamples = window.length)
    (hgains : ∀ gain ∈ window, smallWeight < gain) (spans : List AudioChunkSpan)
    (hlaid : ∀ span ∈ spans, Laid spec frames span) (done : List AudioChunkSpan)
    (sums : List K × List K) (h : Summed input lanes frames counterMode done sums) :
    ∃ final, spans.foldlM (addChunk spec lanes frames counterMode input window) sums = .ok final ∧
      Summed input lanes frames counterMode (spans ++ done) final := by
  induction spans generalizing done sums with
  | nil => exact ⟨sums, rfl, h⟩
  | cons span spans ih =>
    obtain ⟨hfirst, hrest⟩ := List.forall_mem_cons.mp hlaid
    have hbuffer : (List.replicate ((lanes : ℤ) * spec.chunkSamples).toNat (0 : K)).length =
        lanes * window.length := by
      rw [List.length_replicate, hchunk]
      exact_mod_cast Int.toNat_natCast (lanes * window.length)
    obtain ⟨chunk, hcopy, hcopied⟩ := copyPlanarChunk_ok hchunk hsome hlanes hframes hinput hbuffer
      hfirst
    obtain ⟨next, hadd, hnext⟩ := h.overlapAdd hlanes hframes hsome hchunk hfirst hcopied hgains
    obtain ⟨final, hfinal, hsummed⟩ := ih hrest (span :: done) next hnext
    refine ⟨final, ?_, hsummed.of_subset ?_⟩
    · rw [List.foldlM_cons, addChunk, hcopy]
      simp only [bind, Except.bind, hadd]
      exact hfinal
    · intro other hother
      simp only [List.cons_append, List.mem_cons, List.mem_append] at hother ⊢
      tauto

theorem normalize_summed (hlanes : 0 < lanes) (hframes : 0 < frames)
    (hinput : input.length = lanes * frames)
    (hcover : ∀ frame : ℤ, 0 ≤ frame → frame < frames → ∃ span ∈ done, span.Covers frame)
    (h : Summed input lanes frames counterMode done sums) :
    normalizeOverlapAddedPlanar lanes frames counterMode sums.1 sums.2 = .ok input := by
  have hsize : ¬ (sums.1.length : ℤ) ≠ lanes * (frames : ℤ) := by
    rw [h.output_length]
    simp
  have hweights : ¬ (sums.2.length : ℤ) ≠ counterLanes lanes counterMode * frames :=
    not_not.mpr h.weights_length
  simp only [normalizeOverlapAddedPlanar, requirePositive, if_neg (not_nonpos hlanes),
    if_neg (not_nonpos hframes), if_neg hsize, if_neg hweights, Int.toNat_natCast]
  refine congrArg Except.ok (planar_ext (by simpa using h.output_length) hinput ?_)
  intro lane hlane frame hframe
  obtain ⟨weight, -, hcovered, hweight, hsum⟩ := h.sums lane hlane frame hframe
  obtain ⟨span, hspan, hcovers⟩ := hcover frame (Int.natCast_nonneg frame)
    (by exact_mod_cast hframe)
  have hlarge := hcovered span hspan hcovers
  have hread : input[lane * frames + frame]? = some (input.getD (lane * frames + frame) 0) := by
    have hindex : lane * frames + frame < input.length := hinput ▸ index_lt hlane hframe
    rw [List.getD_eq_getElem _ _ hindex, List.getElem?_eq_getElem hindex]
  have hdenom : sums.2.getD (weightIndex frames counterMode lane frame) 0 = weight := by
    rw [weightIndex_eq, List.getD_eq_getElem?_getD, hweight]
    rfl
  rw [getElem?_modifyRows _ _ _ (by omega) hframe, if_pos (by omega), hsum, hread, Option.map_some,
    Nat.sub_zero, hdenom, if_pos hlarge, mul_div_cancel_right₀ _ (smallWeight_pos.trans hlarge).ne']

omit [LinearOrder K] [IsStrictOrderedRing K] in
theorem replicate_zero_getElem? {frames index : ℕ} (h : index < rows * frames) :
    (List.replicate ((rows : ℤ) * frames).toNat (0 : K))[index]? = some 0 := by
  have hlength : ((rows : ℤ) * frames).toNat = rows * frames := by
    exact_mod_cast Int.toNat_natCast (rows * frames)
  rw [hlength, List.getElem?_replicate_of_lt h]

omit [LinearOrder K] [IsStrictOrderedRing K] in
theorem counterLanes_eq (counterMode : AudioChunkCounterMode) (lanes : ℕ) :
    counterLanes lanes counterMode = ((counterLanes lanes counterMode).toNat : ℤ) := by
  cases counterMode <;> simp [counterLanes]

omit [IsStrictOrderedRing K] in
theorem summed_nil (input : List K) (counterMode : AudioChunkCounterMode) (lanes frames : ℕ) :
    Summed input lanes frames counterMode []
      (List.replicate ((lanes : ℤ) * frames).toNat 0,
        List.replicate (counterLanes lanes counterMode * frames).toNat 0) where
  output_length := by
    rw [List.length_replicate]
    exact_mod_cast Int.toNat_natCast (lanes * frames)
  weights_length := by
    rw [List.length_replicate, counterLanes_eq]
    exact_mod_cast Int.toNat_natCast _
  sums lane hlane frame hframe := by
    refine ⟨0, le_rfl, by simp, ?_, ?_⟩
    · rw [counterLanes_eq]
      exact replicate_zero_getElem? (index_lt (counterLane_lt hlane) hframe)
    · rw [mul_zero]
      exact replicate_zero_getElem? (index_lt hlane hframe)

/-- Chunks that are added up as they were copied give the input back. -/
theorem reconstruct_eq (spec : AudioChunkSpec) (counterMode : AudioChunkCounterMode)
    (lanes frames : ℤ) (input window : List K) (hlanes : 0 < lanes) (hframes : 0 < frames)
    (hinput : (input.length : ℤ) = lanes * frames) (hhop : 0 < spec.hopSamples)
    (hoverlap : spec.hopSamples ≤ spec.chunkSamples)
    (hwindow : (window.length : ℤ) = spec.chunkSamples)
    (hgains : ∀ gain ∈ window, 1 / 10 ^ 8 < gain) :
    reconstruct spec lanes frames counterMode input window = .ok input := by
  obtain ⟨lanes, rfl⟩ := Int.eq_ofNat_of_zero_le hlanes.le
  obtain ⟨frames, rfl⟩ := Int.eq_ofNat_of_zero_le hframes.le
  have hlanes' : 0 < lanes := by exact_mod_cast hlanes
  have hframes' : 0 < frames := by exact_mod_cast hframes
  have hinput' : input.length = lanes * frames := by exact_mod_cast hinput
  have hsome : 0 < window.length := by omega
  have hlarge : ∀ gain ∈ window, smallWeight < gain := by
    intro gain hgain
    refine lt_trans ?_ (hgains gain hgain)
    unfold smallWeight
    norm_num
  obtain ⟨spans, hspans, hlaid, hcover⟩ := planAudioChunks_ok hframes hhop hoverlap
  obtain ⟨sums, hsums, hsummed⟩ := addChunks_ok hlanes' hframes' hsome hinput' hwindow.symm hlarge
    spans hlaid [] _ (summed_nil input counterMode lanes frames)
  rw [List.append_nil] at hsummed
  rw [reconstruct, hspans]
  simp only [bind, Except.bind, hsums]
  exact normalize_summed hlanes' hframes' hinput' hcover hsummed

/-- Five samples in two lanes, chunks of three that overlap, the last one centred and reflected. -/
theorem reconstruct_five :
    reconstruct (K := ℚ) ⟨3, 2, .reflect, .center, 0⟩ 2 5 .sharedAcrossLanes
      [1, 2, 3, 4, 5, 6, 7, 8, 9, 10] [1 / 2, 1, 1 / 2] =
      .ok [1, 2, 3, 4, 5, 6, 7, 8, 9, 10] :=
  reconstruct_eq ⟨3, 2, .reflect, .center, 0⟩ .sharedAcrossLanes 2 5
    [1, 2, 3, 4, 5, 6, 7, 8, 9, 10] [1 / 2, 1, 1 / 2] (by decide) (by decide) (by decide)
    (by decide) (by decide) (by decide) (by norm_num)

end Sums

end FastTts.OverlapAdd
