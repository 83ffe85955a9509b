import FastTts.Bursts
import FastTts.Json

/-!
# Silero voice activity

Both ways from the speech probabilities of windows to segments of samples: the offline one, over all
probabilities at once, and the streaming one, a window at a time. Floats come with the comparisons
and conversions that the source makes of them.
-/

namespace FastTts.Silero

def sampleRate16k : ℤ := 16000

def chunkSamples : ℤ := 512

/-- What the source does with floats: `>=`, `<`, a comparison with zero, the threshold that is
`max(threshold - 0.15f, 0.01f)`, and `static_cast<int64_t>(sample_rate * seconds)`. -/
structure Floats (F : Type) where
  atLeast : F → F → Bool
  below : F → F → Bool
  negative : F → Bool
  lowered : F → F
  samples : ℤ → F → ℤ

structure SileroVADConfig (F : Type) where
  threshold : F
  minSpeechDurationMs : ℤ
  minSilenceDurationMs : ℤ
  speechPadMs : ℤ
  maxSpeechDurationS : F
  negThreshold : F
  minSilenceAtMaxSpeechMs : ℤ
  useMaxPossSilAtMaxSpeech : Bool

structure Timestamp where
  start : ℤ
  stop : ℤ
  deriving DecidableEq, Repr

variable {F : Type}

def intProduct (a b : ℤ) : ℤ := (a * b).bmod (2 ^ 32)

/-- `sample_rate * ms / 1000`, in `int`. -/
def msSamples (sampleRate ms : ℤ) : ℤ := (intProduct sampleRate ms).tdiv 1000

variable (floats : Floats F) (config : SileroVADConfig F)

def negThresholdOf : F :=
  if floats.negative config.negThreshold then floats.lowered config.threshold
  else config.negThreshold

/-! ## Offline -/

structure Lengths where
  minSpeech : ℤ
  speechPad : ℤ
  maxSpeech : ℤ
  minSilence : ℤ
  minSilenceAtMaxSpeech : ℤ

def lengthsOf (sampleRate : ℤ) (config : SileroVADConfig F) : Lengths :=
  let pad := msSamples sampleRate config.speechPadMs
  ⟨msSamples sampleRate config.minSpeechDurationMs, pad,
    floats.samples sampleRate config.maxSpeechDurationS - chunkSamples - 2 * pad,
    msSamples sampleRate config.minSilenceDurationMs,
    msSamples sampleRate config.minSilenceAtMaxSpeechMs⟩

structure Decoding where
  triggered : Bool
  speeches : List Timestamp
  current : Timestamp
  tempEnd : ℤ
  prevEnd : ℤ
  nextStart : ℤ
  possibleEnds : List (ℤ × ℤ)
  deriving DecidableEq, Repr

def Decoding.initial : Decoding := ⟨false, [], ⟨0, 0⟩, 0, 0, 0, []⟩

variable (lengths : Lengths)

/-- A pause that speech ends may be where a speech that gets too long is cut. -/
def Decoding.passPause (curSample : ℤ) (d : Decoding) : Decoding :=
  let silence := curSample - d.tempEnd
  { d with
    possibleEnds := if lengths.minSilenceAtMaxSpeech < silence then
      d.possibleEnds ++ [(d.tempEnd, silence)] else d.possibleEnds
    tempEnd := 0
    nextStart := if d.nextStart < d.prevEnd then curSample else d.nextStart }

def Decoding.resume (curSample : ℤ) (speech : Bool) (d : Decoding) : Decoding :=
  if speech && d.tempEnd ≠ 0 then d.passPause lengths curSample else d

/-- `std::max_element` by the length of the pause: the first of the longest. -/
def longestPause (best : ℤ × ℤ) : List (ℤ × ℤ) → ℤ × ℤ
  | [] => best
  | pause :: pauses => if best.2 < pause.2 then longestPause pause pauses
    else longestPause best pauses

def Decoding.push (stop : ℤ) (d : Decoding) : Decoding :=
  { d with speeches := d.speeches ++ [{ d.current with stop := stop }], current := ⟨0, 0⟩ }

def Decoding.clear (d : Decoding) : Decoding :=
  { d with tempEnd := 0, prevEnd := 0, nextStart := 0, possibleEnds := [] }

/-- Cuts a speech that is too long; `true` goes on to the next window. -/
def Decoding.cut (curSample : ℤ) (d : Decoding) : Decoding × Bool :=
  match config.useMaxPossSilAtMaxSpeech, d.possibleEnds with
  | true, pause :: pauses =>
    let best := longestPause pause pauses
    let pushed := d.push best.1
    let nextStart := best.1 + best.2
    if nextStart < best.1 + curSample then
      ({ pushed with current := ⟨nextStart, 0⟩ }.clear, false)
    else ({ pushed with triggered := false }.clear, false)
  | _, _ =>
    if d.prevEnd ≠ 0 then
      let pushed := d.push d.prevEnd
      if d.nextStart < d.prevEnd then ({ pushed with triggered := false }.clear, false)
      else ({ pushed with current := ⟨d.nextStart, 0⟩ }.clear, false)
    else ({ d.push curSample with triggered := false }.clear, true)

def Decoding.startPause (curSample : ℤ) (d : Decoding) : Decoding :=
  if d.tempEnd = 0 then { d with tempEnd := curSample } else d

/-- A pause where a speech that gets too long may be cut. -/
def Decoding.notePause (config : SileroVADConfig F) (curSample : ℤ) (d : Decoding) : Decoding :=
  if !config.useMaxPossSilAtMaxSpeech && lengths.minSilenceAtMaxSpeech < curSample - d.tempEnd then
    { d with prevEnd := d.tempEnd } else d

def Decoding.endSpeech (d : Decoding) : Decoding :=
  let ended := if lengths.minSpeech < d.tempEnd - d.current.start then d.push d.tempEnd
    else { d with current := ⟨0, 0⟩ }
  { ended with triggered := false }.clear

/-- A quiet window of a speech, whose pause has a beginning. -/
def Decoding.pause (config : SileroVADConfig F) (curSample : ℤ) (d : Decoding) : Decoding :=
  let noted := d.notePause lengths config curSample
  if curSample - d.tempEnd < lengths.minSilence then noted else noted.endSpeech lengths

def decodeWindow (config : SileroVADConfig F)
    (curSample : ℤ) (prob : F) (d : Decoding) : Decoding :=
  let speech := floats.atLeast prob config.threshold
  let d := d.resume lengths curSample speech
  if speech && !d.triggered then
    { d with triggered := true, current := { d.current with start := curSample } }
  else
    let (d, continued) := if d.triggered && lengths.maxSpeech < curSample - d.current.start then
      d.cut config curSample else (d, false)
    if continued then d
    else if floats.below prob (negThresholdOf floats config) && d.triggered then
      (d.startPause curSample).pause lengths config curSample
    else d

def decodeWindows (floats : Floats F) (lengths : Lengths) (config : SileroVADConfig F) :
    ℕ → List F → Decoding → Decoding
  | _, [], d => d
  | i, prob :: probs, d =>
    decodeWindows floats lengths config (i + 1) probs
      (decodeWindow floats lengths config (i * chunkSamples) prob d)

/-- Segments grow by the padding, where the silence between them has room for it. -/
def padAfter (samples pad : ℤ) (speech : Timestamp) : List Timestamp → List Timestamp
  | [] => [{ speech with stop := min samples (speech.stop + pad) }]
  | next :: rest =>
    let silence := next.start - speech.stop
    if silence < 2 * pad then
      { speech with stop := speech.stop + silence.tdiv 2 } ::
        padAfter samples pad { next with start := max 0 (next.start - silence.tdiv 2) } rest
    else
      { speech with stop := min samples (speech.stop + pad) } ::
        padAfter samples pad { next with start := max 0 (next.start - pad) } rest

def padSpeeches (samples pad : ℤ) : List Timestamp → List Timestamp
  | [] => []
  | first :: rest => padAfter samples pad { first with start := max 0 (first.start - pad) } rest

def decodeSpeechTimestamps (probs : List F) (samples sampleRate : ℤ)
    (config : SileroVADConfig F) : List Timestamp :=
  let lengths := lengthsOf floats sampleRate config
  let d := decodeWindows floats lengths config 0 probs .initial
  let speeches := if d.triggered && lengths.minSpeech < samples - d.current.start then
    d.speeches ++ [{ d.current with stop := samples }] else d.speeches
  padSpeeches samples lengths.speechPad speeches

/-! ## Streaming -/

inductive VoiceActivityEvent (F : Type)
  | speechStart (sample : ℤ) (probability : F)
  | speechEnd (sample : ℤ) (probability : F) (segment : Timestamp)
  deriving DecidableEq

structure Stream where
  triggered : Bool
  tempEnd : ℤ
  currentSample : ℤ
  currentSpeechStart : ℤ
  streamedSegments : List Timestamp
  deriving DecidableEq, Repr

def Stream.reset : Stream := ⟨false, 0, 0, 0, []⟩

def Stream.resume (speech : Bool) (s : Stream) : Stream :=
  if speech && s.tempEnd ≠ 0 then { s with tempEnd := 0 } else s

def Stream.startPause (chunkStartSample : ℤ) (s : Stream) : Stream :=
  if s.tempEnd = 0 then { s with tempEnd := chunkStartSample + chunkSamples } else s

/-- A quiet window of a speech, whose pause has a beginning. -/
def Stream.pause (probability : F) (config : SileroVADConfig F) (chunkStartSample : ℤ)
    (s : Stream) : List (VoiceActivityEvent F) × Stream :=
  if chunkStartSample + chunkSamples - s.tempEnd <
      msSamples sampleRate16k config.minSilenceDurationMs then ([], s)
  else
    let speechEnd := s.tempEnd + msSamples sampleRate16k config.speechPadMs - chunkSamples
    let segment : Timestamp := ⟨s.currentSpeechStart, max s.currentSpeechStart speechEnd⟩
    ([.speechEnd speechEnd probability segment], { s with
      triggered := false, tempEnd := 0, currentSpeechStart := 0
      streamedSegments := s.streamedSegments ++ [segment] })

def buildStreamEvent (probability : F) (config : SileroVADConfig F)
    (chunkStartSample : ℤ) (s : Stream) : List (VoiceActivityEvent F) × Stream :=
  let speech := floats.atLeast probability config.threshold
  let s := s.resume speech
  if speech && !s.triggered then
    let start := max 0 (chunkStartSample - msSamples sampleRate16k config.speechPadMs)
    ([.speechStart start probability], { s with triggered := true, currentSpeechStart := start })
  else if floats.below probability (negThresholdOf floats config) && s.triggered then
    (s.startPause chunkStartSample).pause probability config chunkStartSample
  else ([], s)

structure AudioChunk where
  channels : ℤ
  sampleRate : ℤ
  startSample : ℤ
  size : ℤ

/-- `probability` is what the model makes of the samples. -/
def processChunk (chunk : AudioChunk) (probability : Except Exception F)
    (config : SileroVADConfig F) (s : Stream) :
    Except Exception (List (VoiceActivityEvent F) × Stream) :=
  if chunk.channels ≠ 1 then
    .error (bytes "Silero VAD streaming currently requires mono audio")
  else if chunk.sampleRate ≤ 0 then
    .error (bytes "Silero VAD streaming requires a positive sample rate")
  else if chunk.size ≠ chunkSamples then
    .error (bytes "Silero VAD streaming chunk must contain exactly 512 samples")
  else if s.currentSample ≠ 0 ∧ chunk.startSample ≠ s.currentSample then
    .error (bytes "Silero VAD streaming chunks must be contiguous")
  else do
    let probability ← probability
    let (events, s) := buildStreamEvent floats probability config chunk.startSample s
    return (events, { s with currentSample := chunk.startSample + chunk.size })

structure SpeechSegment (F : Type) where
  span : Timestamp
  confidence : F

def finalizeStream (config : SileroVADConfig F) (s : Stream) : List (SpeechSegment F) :=
  let minSpeech := (sampleRate16k * config.minSpeechDurationMs).tdiv 1000
  let segments := if s.triggered && minSpeech < s.currentSample - s.currentSpeechStart then
    s.streamedSegments ++ [⟨s.currentSpeechStart, s.currentSample⟩] else s.streamedSegments
  segments.map fun segment => ⟨segment, config.threshold⟩

/-- The stream of windows, each of which comes where the last one ended. -/
def feedWindow (s : Stream) (prob : F) : Stream :=
  { (buildStreamEvent floats prob config s.currentSample s).2 with
    currentSample := s.currentSample + chunkSamples }

def streamWindows (probs : List F) : Stream :=
  probs.foldl (feedWindow floats config) .reset

theorem processChunk_feed (s : Stream) (prob : F) :
    ∃ events, processChunk floats ⟨1, sampleRate16k, s.currentSample, chunkSamples⟩ (.ok prob)
      config s = .ok (events, feedWindow floats config s prob) := by
  refine ⟨(buildStreamEvent floats prob config s.currentSample s).1, ?_⟩
  simp [processChunk, sampleRate16k, feedWindow]

end FastTts.Silero
