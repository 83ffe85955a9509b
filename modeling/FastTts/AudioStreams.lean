import FastTts.PcmSource
import FastTts.VoiceSteps

/-!
# Audio streams

An `AudioChunkStream` is read block by block, and its last block may come together with the end.
`feed_audio_stream` and the loop of `VoiceLiveRunner::run` read it; the loop leaves a block unread
that the end comes with.
-/

namespace FastTts.AudioStreams

open Voice (AudioInput AudioPc AudioStep FloatArith Moves TurnParams audioStep audioStep_cases)

structure AudioStreamFormat where
  sampleRate : ℤ
  channels : ℤ
  deriving DecidableEq, Repr

def AudioStreamFormat.Positive (format : AudioStreamFormat) : Prop :=
  0 < format.sampleRate ∧ 0 < format.channels

variable {σ F : Type}

/-- Whether audio may follow and what the vector holds then, or what the reader throws. -/
abbrev Answer (F : Type) := Except Exception (Bool × List F)

/-- Two answers that agree but for what is left in the vector at the end. -/
inductive Alike : Answer F → Answer F → Prop
  | throws {what : Exception} : Alike (.error what) (.error what)
  | goesOn {block : List F} : Alike (.ok (true, block)) (.ok (true, block))
  | ends {left last : List F} : Alike (.ok (false, left)) (.ok (false, last))

/-- A reader with its state, which is given the vector to fill: a block takes the place of what the
vector held, and is made of whole frames. -/
structure AudioChunkStream (σ F : Type) where
  format : AudioStreamFormat
  read : σ → ℕ → List F → Answer F × σ
  fills : ∀ state maxSamples old, (read state maxSamples old).2 = (read state maxSamples []).2 ∧
    Alike (read state maxSamples old).1 (read state maxSamples []).1
  frames : ∀ state maxSamples more block next,
    read state maxSamples [] = (.ok (more, block), next) → format.channels ∣ block.length

/-! ## The two consumers -/

structure AudioChunk (F : Type) where
  sampleRate : ℤ
  channels : ℤ
  startSample : ℤ
  samples : List F

/-- The loop of `feed_audio_stream` for a number of reads; an exception ends it. -/
def feedLoop (stream : AudioChunkStream σ F) (chunkSamples : ℕ) :
    ℕ → σ → ℤ → List (AudioChunk F)
  | 0, _, _ => []
  | reads + 1, state, startSample =>
    match stream.read state chunkSamples [] with
    | (.error _, _) => []
    | (.ok (hasMore, samples), next) =>
      if (samples.length : ℤ) % stream.format.channels ≠ 0 then []
      else
        let chunk : AudioChunk F :=
          ⟨stream.format.sampleRate, stream.format.channels, startSample, samples⟩
        let others := if hasMore then
          feedLoop stream chunkSamples reads next (startSample + samples.length) else []
        if samples.isEmpty then others else chunk :: others

/-- What the session is given in a number of reads. -/
def feedAudioStream (stream : AudioChunkStream σ F) (chunkSamples reads : ℕ) (state : σ) :
    Except Exception (List (AudioChunk F)) :=
  if chunkSamples = 0 then .error (bytes "streaming audio chunk size must be positive")
  else if stream.format.sampleRate ≤ 0 ∨ stream.format.channels ≤ 0 then
    .error (bytes "streaming audio input requires positive sample rate and channels")
  else .ok (feedLoop stream chunkSamples reads state 0)

/-- 20 ms at 16 kHz. -/
def blockSamples : ℕ := 320

/-- The blocks that `VoiceLiveRunner::run` goes through in a number of reads; the vector is not
cleared between them. `aborted` has the answers of the hook. -/
def runBlocks (stream : AudioChunkStream σ F) : (ℕ → Bool) → ℕ → σ → List F → List (List F)
  | _, 0, _, _ => []
  | aborted, reads + 1, state, block =>
    if aborted 0 then []
    else match stream.read state blockSamples block with
      | (.error _, _) => []
      | (.ok (more, block), next) =>
        let others := runBlocks stream (fun i => aborted (i + 1)) reads next block
        if !more then [] else if block.isEmpty then others else block :: others

/-! ## Where the two differ -/

/-- The states of the reader that reads lead to which go on. -/
inductive Pulled (stream : AudioChunkStream σ F) : σ → σ → Prop
  | here {state : σ} : Pulled stream state state
  | next {state later last : σ} {block : List F} :
      stream.read state blockSamples [] = (.ok (true, block), later) →
        Pulled stream later last → Pulled stream state last

/-- The read that ends the stream brings no samples. -/
def EndsEmpty (stream : AudioChunkStream σ F) (state : σ) : Prop :=
  ∀ later, Pulled stream state later → ∀ last next,
    stream.read later blockSamples [] = (.ok (false, last), next) → last = []

def never (_ : ℕ) : Bool := false

def samplesIn (chunks : List (AudioChunk F)) : List F := chunks.flatMap AudioChunk.samples

variable {stream : AudioChunkStream σ F} {state next : σ} {block : List F}

theorem feedLoop_goesOn (hread : stream.read state blockSamples [] = (.ok (true, block), next))
    (reads : ℕ) (startSample : ℤ) :
    samplesIn (feedLoop stream blockSamples (reads + 1) state startSample) = block ++
      samplesIn (feedLoop stream blockSamples reads next (startSample + block.length)) := by
  have hframes := stream.frames _ _ _ _ _ hread
  rw [feedLoop, hread]
  dsimp only
  rw [if_neg (not_not.mpr (Int.emod_eq_zero_of_dvd hframes)), if_pos rfl]
  cases block with
  | nil => rfl
  | cons sample block =>
    rw [List.isEmpty_cons, if_neg Bool.false_ne_true]
    exact List.flatMap_cons

theorem feedLoop_ends (hread : stream.read state blockSamples [] = (.ok (false, block), next))
    (reads : ℕ) (startSample : ℤ) :
    samplesIn (feedLoop stream blockSamples (reads + 1) state startSample) = block := by
  have hframes := stream.frames _ _ _ _ _ hread
  rw [feedLoop, hread]
  dsimp only
  rw [if_neg (not_not.mpr (Int.emod_eq_zero_of_dvd hframes)), if_neg Bool.false_ne_true]
  cases block with
  | nil => rfl
  | cons sample block => exact List.append_nil _

variable {old : List F}

theorem runBlocks_goesOn (hread : stream.read state blockSamples old = (.ok (true, block), next))
    (reads : ℕ) :
    (runBlocks stream never (reads + 1) state old).flatten =
      block ++ (runBlocks stream never reads next block).flatten := by
  rw [runBlocks, hread, never, if_neg Bool.false_ne_true]
  dsimp only
  rw [Bool.not_true, if_neg Bool.false_ne_true]
  cases block with
  | nil => rfl
  | cons sample block => rfl

theorem runBlocks_ends (hread : stream.read state blockSamples old = (.ok (false, block), next))
    (reads : ℕ) : (runBlocks stream never (reads + 1) state old).flatten = [] := by
  rw [runBlocks, hread, never, if_neg Bool.false_ne_true]
  rfl

theorem read_old (stream : AudioChunkStream σ F) (state : σ) (old : List F) :
    ∃ answer, stream.read state blockSamples old = (answer, (stream.read state blockSamples []).2) ∧
      Alike answer (stream.read state blockSamples []).1 := by
  obtain ⟨hnext, halike⟩ := stream.fills state blockSamples old
  exact ⟨_, Prod.ext rfl hnext, halike⟩

theorem runBlocks_eq_feed (hends : EndsEmpty stream state) (reads : ℕ) (startSample : ℤ)
    (old : List F) :
    samplesIn (feedLoop stream blockSamples reads state startSample) =
      (runBlocks stream never reads state old).flatten := by
  induction reads generalizing state startSample old with
  | zero => rfl
  | succ reads ih =>
    obtain ⟨answer, hold, halike⟩ := read_old stream state old
    cases hread : stream.read state blockSamples [] with
    | mk cleared next =>
      rw [hread] at hold halike
      dsimp only at hold halike
      cases halike with
      | throws =>
        rw [feedLoop, hread, runBlocks, hold, never, if_neg Bool.false_ne_true]
        rfl
      | @goesOn block =>
        have hlater : EndsEmpty stream next := fun later hpulled =>
          hends later (.next hread hpulled)
        rw [feedLoop_goesOn hread, runBlocks_goesOn hold, ih hlater]
      | @ends left last =>
        rw [feedLoop_ends hread, runBlocks_ends hold]
        exact hends state .here last next hread

theorem endsEmpty_of_eq {startSample : ℤ}
    (h : ∀ reads, samplesIn (feedLoop stream blockSamples reads state startSample) =
      (runBlocks stream never reads state old).flatten) : EndsEmpty stream state := by
  intro later hpulled
  induction hpulled generalizing startSample old with
  | here =>
    intro last next hread
    obtain ⟨answer, hold, halike⟩ := read_old stream _ old
    rw [hread] at hold halike
    dsimp only at hold halike
    have hone := h 1
    cases halike with
    | ends => rwa [feedLoop_ends hread, runBlocks_ends hold] at hone
  | @next state later last block hread _ ih =>
    obtain ⟨answer, hold, halike⟩ := read_old stream state old
    rw [hread] at hold halike
    dsimp only at hold halike
    cases halike with
    | goesOn =>
      apply ih
      intro reads
      have hmore := h (reads + 1)
      rw [feedLoop_goesOn hread, runBlocks_goesOn hold] at hmore
      exact List.append_cancel_left hmore

/-- The runner goes through the samples that a session is fed with just if the format is one that
can be fed and the end of the stream comes without samples. -/
theorem runBlocks_eq_feed_iff (stream : AudioChunkStream σ F) (state : σ) :
    (∀ reads, (feedAudioStream stream blockSamples reads state).map samplesIn =
      .ok (runBlocks stream never reads state []).flatten) ↔
        stream.format.Positive ∧ EndsEmpty stream state := by
  have hfeed : ∀ reads, stream.format.Positive →
      feedAudioStream stream blockSamples reads state =
        .ok (feedLoop stream blockSamples reads state 0) := by
    rintro reads ⟨hrate, hchannels⟩
    rw [feedAudioStream, if_neg (by decide), if_neg (by omega)]
  constructor
  · intro h
    have hpositive : stream.format.Positive := by
      obtain ⟨chunks, hchunks, -⟩ := except_map_ok (h 0)
      rw [feedAudioStream, if_neg (by decide)] at hchunks
      split_ifs at hchunks with hformat
      rw [not_or, not_le, not_le] at hformat
      exact hformat
    have hsame : ∀ reads, samplesIn (feedLoop stream blockSamples reads state 0) =
        (runBlocks stream never reads state []).flatten := by
      intro reads
      have hreads := h reads
      rw [hfeed reads hpositive] at hreads
      exact Except.ok.inj hreads
    exact ⟨hpositive, endsEmpty_of_eq hsame⟩
  · rintro ⟨hpositive, hends⟩ reads
    rw [hfeed reads hpositive]
    exact congrArg Except.ok (runBlocks_eq_feed hends reads 0 [])

/-! ## The loop in the runner -/

section Runner

variable [FloatArith F] {p : TurnParams F} {s s' : Voice.State F}

end Runner

/-! ## Streams of PCM -/

def makePcmChunkStream (format : AudioStreamFormat) (sampleFormat : PcmSource.PcmSampleFormat) :
    Except Exception (AudioChunkStream Bytes PcmSource.Sample) :=
  if hformat : format.sampleRate ≤ 0 ∨ format.channels ≤ 0 then
    .error (bytes "raw PCM input requires a positive sample rate and channel count")
  else .ok
    { format := format
      read := fun input maxSamples _ =>
        match PcmSource.read sampleFormat format.channels.toNat maxSamples input with
        | .error what => (.error what, input)
        | .ok (answer, rest) => (.ok answer, rest)
      fills := by
        intro input maxSamples old
        refine ⟨rfl, ?_⟩
        split
        · exact .throws
        · rename_i answer rest _
          obtain ⟨more, block⟩ := answer
          cases more
          · exact .ends
          · exact .goesOn
      frames := by
        intro input maxSamples more block next h
        cases hread : PcmSource.read sampleFormat format.channels.toNat maxSamples input with
        | error what =>
          rw [hread] at h
          exact nomatch (Prod.mk.inj h).1
        | ok given =>
          rw [hread] at h
          obtain ⟨answer, rest⟩ := given
          obtain rfl := Except.ok.inj (Prod.mk.inj h).1
          have hchannels : (format.channels.toNat : ℤ) = format.channels :=
            Int.toNat_of_nonneg (by omega)
          rw [← hchannels]
          exact Int.natCast_dvd_natCast.mpr (PcmSource.read_frames hread) }

theorem read_makePcmChunkStream {format : AudioStreamFormat}
    {sampleFormat : PcmSource.PcmSampleFormat} {stream : AudioChunkStream Bytes PcmSource.Sample}
    (h : makePcmChunkStream format sampleFormat = .ok stream) {maxSamples : ℕ}
    {input rest : Bytes} {answer : Bool × List PcmSource.Sample}
    (hread : PcmSource.read sampleFormat format.channels.toNat maxSamples input =
      .ok (answer, rest)) (old : List PcmSource.Sample) :
    stream.read input maxSamples old = (.ok answer, rest) := by
  rw [makePcmChunkStream] at h
  split_ifs at h
  obtain rfl := Except.ok.inj h
  dsimp only
  rw [hread]

/-- One sample of PCM: it comes together with the end. -/
theorem run_loses_one_sample : ∃ stream,
    makePcmChunkStream ⟨16000, 1⟩ .s16le = .ok stream ∧
      ¬ ∀ reads, (feedAudioStream stream blockSamples reads [1, 0]).map samplesIn =
        .ok (runBlocks stream never reads [1, 0] []).flatten := by
  refine ⟨_, rfl, fun h => ?_⟩
  have hsample : PcmSource.read .s16le 1 blockSamples [1, 0] =
      .ok ((false, PcmSource.samplesOf .s16le 1 [1, 0]), []) := by
    rw [PcmSource.read_ok (by decide) (by decide)]
    rfl
  have hmake : makePcmChunkStream ⟨16000, 1⟩ .s16le = .ok _ := rfl
  have hread := read_makePcmChunkStream hmake hsample []
  have hone := h 1
  rw [feedAudioStream, if_neg (by decide), if_neg (by decide)] at hone
  have hsame := Except.ok.inj hone
  rw [feedLoop_ends hread, runBlocks_ends hread] at hsame
  exact nomatch hsame

end FastTts.AudioStreams
