import FastTts.Runs
import FastTts.VoiceStability
import Mathlib.Data.Rat.Init

/-!
# The live voice runner

`VoiceLiveRunner` runs two threads: the audio loop reads blocks and follows the VAD, the decode
worker transcribes snapshots of the open utterance. One step of this model is one region in which
`decode_mutex` is held, one emitted event, or one stretch of code between two of them, so the
scheduler may switch threads wherever their shared state can tell. `Loop` is what only the audio
loop writes, `Decode` is what both threads touch. `History` holds history variables: no step reads
them.

Sample arithmetic goes through `FloatArith`, which leaves rounding open. Clock readings are
nanoseconds since the runner was built and never go backwards.
-/

namespace FastTts.Voice

/-- The operations of `float` and `double` that the source applies. -/
class FloatArith (F : Type) where
  lit : ℚ → F
  add : F → F → F
  mul : F → F → F
  div : F → F → F
  sqrt : F → F
  lt : F → F → Bool

export FloatArith (lit add mul div lt)

/-- Adds the lowest `k` bits of `⌊√n⌋` to `root`. -/
def sqrtBits (n : ℕ) : ℕ → ℕ → ℕ
  | 0, root => root
  | k + 1, root =>
    if (root + 2 ^ k) * (root + 2 ^ k) ≤ n then sqrtBits n k (root + 2 ^ k) else sqrtBits n k root

/-- Exact arithmetic, in which runs can be evaluated; roots are rounded down. -/
instance : FloatArith ℚ where
  lit q := q
  add a b := a + b
  mul a b := a * b
  div a b := a / b
  sqrt q := (sqrtBits (q.num.toNat * q.den) 64 0 : ℕ) / (q.den : ℚ)
  lt a b := decide (a < b)

section Loudness

variable {F : Type} [FloatArith F]

/-- `std::max`. -/
def fmax (a b : F) : F := if lt a b then b else a

def sumOfSquares (block : List F) : F := block.foldl (fun sum s => add sum (mul s s)) (lit 0)

def rmsOf (block : List F) : F :=
  if block.isEmpty then lit 0
  else FloatArith.sqrt (div (sumOfSquares block) (lit block.length))

/-- The noise floor follows idle audio quickly down and slowly up. -/
def trackFloor (floorNow blockRms : F) : F :=
  if lt blockRms floorNow then add (mul (lit 0.90) floorNow) (mul (lit 0.10) blockRms)
  else add (mul (lit 0.995) floorNow) (mul (lit 0.005) blockRms)

/-- The last 100 ms of the audio are near the noise floor. -/
def tailQuiet (floorNow : F) (samples : List F) : Bool :=
  let quietRms := fmax (lit 0.004) (mul (lit 1.5) floorNow)
  decide (1600 ≤ samples.length) &&
    lt (div (sumOfSquares (samples.drop (samples.length - 1600))) (lit 1600))
      (mul quietRms quietRms)

end Loudness

/-! ## Semantic endpointing -/

/-- Drops trailing whitespace and punctuation of a text given in reverse. -/
def stripTailJunk : Bytes → Bytes
  | [] => []
  | back :: rest =>
    if back < 0x80 then
      if isPunct back || isSpace back then stripTailJunk rest else back :: rest
    else match rest with
      | second :: lead :: front =>
        if (lead == 0xE3 && second == 0x80) || lead == 0xEF || (lead == 0xE2 && second == 0x80) then
          stripTailJunk front
        else back :: rest
      | _ => back :: rest

def continuationWords : List Bytes :=
  ["and", "but", "or", "so", "then", "because", "like", "um", "uh", "the", "a", "an", "to", "of",
    "with", "if", "when", "for", "in", "on", "at", "my"].map bytes

def continuationCjk : List Bytes :=
  ["的", "和", "或", "跟", "把", "给", "在", "是", "就", "还", "又", "嗯", "呃", "那", "这", "很", "太",
    "要"].map bytes

def hypothesisLooksIncomplete (text : Bytes) : Bool :=
  let reversed := stripTailJunk text.reverse
  let last := (reversed.takeWhile (· != 0x20)).reverse
  if reversed.isEmpty then false
  else if !last.isEmpty && last.headD 0 < 0x80 then continuationWords.contains (last.map toLower)
  else decide (3 ≤ reversed.length) && continuationCjk.contains (reversed.take 3).reverse

/-! ## State -/

structure TurnParams (F : Type) where
  endpointHoldMs : ℤ
  endpointHoldIncompleteMs : ℤ
  maxUtteranceMs : ℤ
  partialIntervalMs : ℤ
  minPartialAudioMs : ℤ
  speechPadMs : ℤ
  minSpeechSnr : F
  minSpeechRms : F
  stability : StabilityParams

def TurnParams.default (F : Type) [FloatArith F] : TurnParams F where
  endpointHoldMs := 110
  endpointHoldIncompleteMs := 350
  maxUtteranceMs := 30000
  partialIntervalMs := 280
  minPartialAudioMs := 700
  speechPadMs := 240
  minSpeechSnr := lit 3
  minSpeechRms := lit 0.012
  stability := {}

/-- 16 samples per millisecond at 16 kHz, in `size_t` arithmetic. -/
def samplesOfMs (ms : ℤ) : ℕ := toSize ms * 16 % 2 ^ 64

/-- The tolerance of the freshness test on a stored candidate. -/
def candidateSlack : ℕ := 16 * 480

inductive ActivityKind
  | speechStart
  | speechEnd
  | speechSegment
  deriving DecidableEq, Repr

structure TranscribeResult where
  text : Bytes
  language : Bytes
  deriving DecidableEq, Repr

/-- A decode job. `resumes` is history: how often the utterance had resumed at the snapshot. -/
structure Job (F : Type) where
  utteranceId : ℤ
  final : Bool
  candidate : Bool
  audio : List F
  resumes : ℕ
  deriving DecidableEq, Repr

structure Timings where
  speechStartedMs : ℤ
  speechEndedMs : ℤ
  firstPartialMs : ℤ
  firstStableMs : ℤ
  eotToFinalMs : ℤ
  finalDecodeMs : ℤ
  audioMs : ℤ
  deriving DecidableEq, Repr

/-- An emitted event. The `closes` of an error is no part of its payload: it names the utterance
whose final decode threw. -/
inductive Event (F : Type)
  | speechStarted (utt tMs : ℤ)
  | partialTranscript (utt tMs : ℤ) (text : Bytes)
  | stableTranscript (utt tMs : ℤ) (text : Bytes)
  | endpointLikely (utt tMs : ℤ) (text : Bytes)
  | speechEnded (utt tMs : ℤ)
  | finalTranscript (utt tMs : ℤ) (result : TranscribeResult) (timings : Timings)
  | speechDiscarded (utt tMs : ℤ) (peakRms gateRms : F)
  | error (message : Bytes) (closes : Option ℤ)
  deriving DecidableEq, Repr

/-- The utterance whose final transcript the event is. -/
def Event.finalOf {F : Type} : Event F → Option ℤ
  | .finalTranscript u _ _ _ => some u
  | _ => none

/-- Where `commit_utterance` returns to: the read loop, the runaway cap, the end of the stream. -/
inductive CommitReturn
  | toRead
  | toReset
  | toQuit
  deriving DecidableEq, Repr

/-- Where the audio loop stands. `rest` holds the VAD events of the block still to be handled. -/
inductive AudioPc (F : Type)
  | read
  | activities (rest : List ActivityKind)
  | beginLocked (rest : List ActivityKind)
  | beginEmit (rest : List ActivityKind)
  | pendingCheck (rest : List ActivityKind)
  | enqueueCandidate (rest : List ActivityKind)
  | resumeLocked (rest : List ActivityKind)
  | hold
  | partialCheck
  | enqueuePartial
  | gate (ret : CommitReturn)
  | clearDiscarded (ret : CommitReturn)
  | awaitIdle (ret : CommitReturn)
  | takeCandidate (ret : CommitReturn)
  | emitCandidate (ret : CommitReturn) (result : TranscribeResult) (decodeMs : ℤ) (samples : ℕ)
  | enqueueFinal (ret : CommitReturn)
  | awaitFinal (ret : CommitReturn)
  | clearUtterance (ret : CommitReturn)
  | resetVad
  | quitting
  | joining
  | finished
  deriving DecidableEq, Repr

inductive WorkerPc (F : Type)
  | idle
  | decoding (job : Job F) (start : ℤ)
  | failing (job : Job F) (message : Bytes)
  | emitFinal (job : Job F) (result : TranscribeResult) (decodeMs : ℤ)
  | storeCandidate (job : Job F) (result : TranscribeResult) (decodeMs : ℤ) (quiet : Bool)
  | storeHypothesis (job : Job F) (result : TranscribeResult)
  | track (job : Job F) (result : TranscribeResult)
  | emitStable (job : Job F) (result : TranscribeResult)
  | emitPartial (job : Job F) (result : TranscribeResult)
  | anticipate (job : Job F) (result : TranscribeResult)
  | finishing (job : Job F)
  | exited
  deriving DecidableEq, Repr

structure Loop (F : Type) where
  pc : AudioPc F
  speaking : Bool
  pendingEnd : Bool
  utteranceId : ℤ
  preroll : List F
  utterance : List F
  gapBuffer : List F
  vadPending : List F
  speechStartedAt : ℤ
  speechEndedAt : ℤ
  lastPartialEnqueue : ℤ
  pendingSince : ℤ
  noiseFloorRms : F
  utterancePeakRms : F

structure Decode (F : Type) where
  candidate : TranscribeResult
  candidateValid : Bool
  candidateDecodeMs : ℤ
  candidateSamples : ℕ
  latestHypothesis : Bytes
  pending : Option (Job F)
  workerBusy : Bool
  quit : Bool
  tracker : StableTracker
  lastPartialEmitted : Bytes
  lastGrowthHypothesis : Bytes
  hypothesisStalls : ℕ
  endpointLikelyUtt : ℤ
  firstPartialMs : ℤ
  firstStableMs : ℤ

/-- History variables. `captured` is the input stream so far and `ends` has the position in it at
which each utterance was committed; `resumes` counts the resumptions of the current utterance;
`candidateJob` and `hypothesisJob` are the jobs whose results the candidate and the hypothesis are,
`tracked` the results that the tracker has seen since its reset; `snapshots` has every value of the
utterance buffer with its utterance, and `calls` every transcription that returned. -/
structure History (F : Type) where
  captured : List F
  ends : List (ℤ × ℕ)
  resumes : ℕ
  candidateJob : Option (Job F)
  hypothesisJob : Option (Job F)
  tracked : List (Job F × TranscribeResult)
  snapshots : List (ℤ × List F)
  calls : List (Job F × TranscribeResult)

structure State (F : Type) where
  clock : ℤ
  loop : Loop F
  decode : Decode F
  worker : WorkerPc F
  events : List (Event F)
  history : History F

/-- A nanosecond span in whole milliseconds, as `static_cast<int64_t>` rounds it. -/
def toMs (span : ℤ) : ℤ := span.tdiv 1000000

/-- The value of the unset `first_partial_ms` and `first_stable_ms`. -/
def unsetMs : ℤ := -1000000

variable {F : Type} [FloatArith F]

def initial (p : TurnParams F) : State F where
  clock := 0
  loop :=
    { pc := .read, speaking := false, pendingEnd := false, utteranceId := 0
      preroll := [], utterance := [], gapBuffer := [], vadPending := []
      speechStartedAt := 0, speechEndedAt := 0, lastPartialEnqueue := 0, pendingSince := 0
      noiseFloorRms := lit 0.004, utterancePeakRms := lit 0 }
  decode :=
    { candidate := ⟨[], []⟩, candidateValid := false, candidateDecodeMs := 0, candidateSamples := 0
      latestHypothesis := [], pending := none, workerBusy := false, quit := false
      tracker := .new p.stability, lastPartialEmitted := [], lastGrowthHypothesis := []
      hypothesisStalls := 0, endpointLikelyUtt := -1
      firstPartialMs := unsetMs, firstStableMs := unsetMs }
  worker := .idle
  events := []
  history := ⟨[], [], 0, none, none, [], [], []⟩

/-! ## Steps of the audio loop -/

/-- What the audio loop meets outside: the reader's answer together with what the VAD reports for
each window it completes, a thrown exception, or nothing. -/
inductive AudioInput (F : Type)
  | go
  | aborted
  | block (more : Bool) (samples : List F) (vad : List (List ActivityKind))
  | throws (message : Bytes)

def AudioInput.returns {F : Type} : AudioInput F → Bool
  | .throws _ => false
  | _ => true

variable (s : State F)

def State.goto (pc : AudioPc F) : State F :=
  { s with loop := { s.loop with pc := pc } }

def State.work (pc : WorkerPc F) : State F := { s with worker := pc }

def State.emit (e : Event F) : State F := { s with events := s.events ++ [e] }

def State.decodeIdle : Prop := s.decode.workerBusy = false ∧ s.decode.pending = none

instance (s : State F) : Decidable s.decodeIdle :=
  inferInstanceAs (Decidable (s.decode.workerBusy = false ∧ s.decode.pending = none))

/-- Moves the audio loop to where `commit_utterance` returns. -/
def State.ret : CommitReturn → State F
  | .toRead => s.goto .read
  | .toReset => s.goto .resetVad
  | .toQuit => s.goto .quitting

def newJob (s : State F) (final candidateJob : Bool) : Job F where
  utteranceId := s.loop.utteranceId
  final := final
  candidate := candidateJob
  audio := s.loop.utterance
  resumes := s.history.resumes

def enqueue (final candidateJob : Bool) : State F :=
  { s with decode := { s.decode with pending := some (newJob s final candidateJob) } }

variable (ret : CommitReturn)

/-- `end_utterance` up to the call of `commit_utterance`. -/
def endUtterance : State F :=
  { s with loop := { s.loop with speechEndedAt := s.clock, pc := .gate ret } }

def leaveLoop : State F :=
  if s.loop.speaking then endUtterance s .toQuit else s.goto .quitting

/-- The preroll keeps the newest `prerollSamples` samples of the idle audio. -/
def pushPreroll (limit : ℕ) (preroll block : List F) : List F :=
  (preroll ++ block).drop ((preroll ++ block).length - limit)

def recordSnapshot : State F :=
  { s with history := { s.history with
      snapshots := s.history.snapshots ++ [(s.loop.utteranceId, s.loop.utterance)] } }

variable (p : TurnParams F)

def captureIdle (s : State F) (block : List F) : State F :=
  { s with
    loop := { s.loop with
      noiseFloorRms := trackFloor s.loop.noiseFloorRms (rmsOf block)
      preroll := pushPreroll (samplesOfMs p.speechPadMs) s.loop.preroll block }
    history := { s.history with captured := s.history.captured ++ block } }

def captureSpeech (block : List F) : State F :=
  recordSnapshot { s with
    loop := { s.loop with
      utterancePeakRms := fmax s.loop.utterancePeakRms (rmsOf block)
      utterance := s.loop.utterance ++ block }
    history := { s.history with captured := s.history.captured ++ block } }

def captureGap (block : List F) : State F :=
  { s with
    loop := { s.loop with
      utterancePeakRms := fmax s.loop.utterancePeakRms (rmsOf block)
      gapBuffer := s.loop.gapBuffer ++ block }
    history := { s.history with captured := s.history.captured ++ block } }

/-- One block: its loudness, then its way into one of the three buffers. -/
def captureBlock (s : State F) (block : List F) : State F :=
  if s.loop.speaking && s.loop.pendingEnd then captureGap s block
  else if s.loop.speaking then captureSpeech s block
  else captureIdle p s block

/-- The state once the VAD has reported on the windows that a block completes. -/
def State.heard (vadPending : List F) (kinds : List ActivityKind) : State F :=
  { s with loop := { s.loop with pc := .activities kinds, vadPending := vadPending } }

def readBlock (s : State F) (block : List F) (vad : List (List ActivityKind)) : Option (State F) :=
  let windowed := s.loop.vadPending ++ block
  let windows := windowed.length / 512
  if vad.length = windows then
    some (captureBlock p (s.heard (windowed.drop (512 * windows)) vad.flatten) block)
  else none

variable (rest : List ActivityKind)

/-- The part of `begin_utterance` before its locked region. -/
def beginUtterance : State F :=
  { s with
    loop := { s.loop with
      pc := .beginLocked rest
      speaking := true
      pendingEnd := false
      gapBuffer := []
      utteranceId := s.loop.utteranceId + 1
      speechStartedAt := s.clock
      lastPartialEnqueue := s.clock
      utterancePeakRms := lit 0 }
    decode := { s.decode with
      firstPartialMs := unsetMs
      firstStableMs := unsetMs
      tracker := s.decode.tracker.reset
      lastPartialEmitted := []
      lastGrowthHypothesis := []
      hypothesisStalls := 0
      endpointLikelyUtt := -1 }
    history := { s.history with resumes := 0, tracked := [] } }

def beginLocked : State F :=
  recordSnapshot { s with
    loop := { s.loop with pc := .beginEmit rest, utterance := s.loop.preroll }
    decode := { s.decode with candidateValid := false, latestHypothesis := [] }
    history := { s.history with candidateJob := none, hypothesisJob := none } }

def beginPendingEnd : State F :=
  { s with loop := { s.loop with
      pc := .pendingCheck rest
      pendingEnd := true
      pendingSince := s.clock
      speechEndedAt := s.clock
      gapBuffer := [] } }

/-- The stored candidate covers all but the trailing silence of the utterance. -/
def candidateFresh : Bool :=
  s.decode.candidateValid &&
    decide (s.loop.utterance.length ≤ s.decode.candidateSamples + candidateSlack)

def checkCandidate : State F :=
  s.goto (if candidateFresh s then .activities rest else .enqueueCandidate rest)

def startResume : State F :=
  { s with loop := { s.loop with pc := .resumeLocked rest, pendingEnd := false } }

def resumeFromPending : State F :=
  recordSnapshot { s with
    loop := { s.loop with
      pc := .activities rest
      utterance := s.loop.utterance ++ s.loop.gapBuffer
      gapBuffer := [] }
    decode := { s.decode with candidateValid := false }
    history := { s.history with resumes := s.history.resumes + 1, candidateJob := none } }

def handleActivity (kind : ActivityKind) (rest : List ActivityKind) : State F :=
  match kind with
  | .speechStart =>
    if !s.loop.speaking then beginUtterance s rest
    else if s.loop.pendingEnd then startResume s rest
    else s.goto (.activities rest)
  | .speechEnd =>
    if s.loop.speaking && !s.loop.pendingEnd then beginPendingEnd s rest
    else s.goto (.activities rest)
  | .speechSegment => s.goto (.activities rest)

/-- After the VAD events: the adaptive hold, the runaway cap, or the next partial decode. -/
def afterActivities (s : State F) : State F :=
  if s.loop.speaking && s.loop.pendingEnd then
    let hold := if hypothesisLooksIncomplete s.decode.latestHypothesis
      then p.endpointHoldIncompleteMs else p.endpointHoldMs
    if hold * 1000000 ≤ s.clock - s.loop.pendingSince then s.goto (.gate .toRead) else s.goto .read
  else if s.loop.speaking then
    if p.maxUtteranceMs * 1000000 < s.clock - s.loop.speechStartedAt then endUtterance s .toReset
    else if p.partialIntervalMs * 1000000 ≤ s.clock - s.loop.lastPartialEnqueue then
      s.goto .partialCheck
    else s.goto .read
  else s.goto .read

def schedulePartial : State F :=
  { s with loop := { s.loop with pc := .enqueuePartial, lastPartialEnqueue := s.clock } }

def partialCheck (s : State F) : State F :=
  if samplesOfMs p.minPartialAudioMs ≤ s.loop.utterance.length then schedulePartial s
  else s.goto .read

/-- Partial decodes are best-effort: they never queue behind another job. -/
def enqueuePartial : State F :=
  if s.decode.workerBusy || s.decode.pending.isSome then s.goto .read
  else (enqueue s false false).goto .read

def gateRms (s : State F) : F :=
  fmax p.minSpeechRms (mul p.minSpeechSnr s.loop.noiseFloorRms)

/-- The loudness gate drops the utterance. -/
def belowGate (s : State F) : Bool :=
  lt (lit 0) p.minSpeechSnr && lt s.loop.utterancePeakRms (gateRms p s)

def stopSpeaking (pc : AudioPc F) : State F :=
  { s with
    loop := { s.loop with pc := pc, speaking := false, pendingEnd := false, gapBuffer := [] }
    history := { s.history with
      ends := s.history.ends ++ [(s.loop.utteranceId, s.history.captured.length)] } }

/-- `commit_utterance` up to its first event. -/
def commitGate (s : State F) (ret : CommitReturn) : State F :=
  if belowGate p s then
    (stopSpeaking s (.clearDiscarded ret)).emit (.speechDiscarded s.loop.utteranceId (toMs s.clock)
      s.loop.utterancePeakRms (gateRms p s))
  else (stopSpeaking s (.awaitIdle ret)).emit (.speechEnded s.loop.utteranceId (toMs s.clock))

def clearDiscarded : State F :=
  { s with
    loop := { s.loop with utterance := [] }
    decode := { s.decode with candidateValid := false, latestHypothesis := [] }
    history := { s.history with candidateJob := none, hypothesisJob := none } }.ret ret

def finalEvent (utt : ℤ) (result : TranscribeResult) (decodeMs : ℤ) (samples : ℕ) : Event F :=
  .finalTranscript utt (toMs s.clock) result
    { speechStartedMs := toMs s.loop.speechStartedAt
      speechEndedMs := toMs s.loop.speechEndedAt
      firstPartialMs := toMs s.decode.firstPartialMs
      firstStableMs := toMs s.decode.firstStableMs
      eotToFinalMs := toMs (s.clock - s.loop.speechEndedAt)
      finalDecodeMs := toMs decodeMs
      audioMs := 1000 * samples / 16000 }

/-- With the worker idle: the stored candidate is the final, or a final decode is needed. -/
def chooseFinal : State F :=
  s.goto (if candidateFresh s then .takeCandidate ret else .enqueueFinal ret)

def takeCandidate : State F :=
  { s with
    loop := { s.loop with
      pc := .emitCandidate ret s.decode.candidate s.decode.candidateDecodeMs
        s.loop.utterance.length }
    decode := { s.decode with candidateValid := false } }

def clearUtterance : State F :=
  { s with loop := { s.loop with utterance := [] } }.ret ret

def quit (s : State F) : State F :=
  { s with decode := { s.decode with quit := true } }.goto .joining

def audioStep (s : State F) (input : AudioInput F) : Option (State F) :=
  match s.loop.pc, input with
  | .read, .aborted => some (leaveLoop s)
  | .read, .block false _ _ => some (leaveLoop s)
  | .read, .block true [] _ => some s
  | .read, .block true (x :: block) vad => readBlock p s (x :: block) vad
  | .read, .throws message => some ((s.emit (.error message none)).goto .quitting)
  | .activities [], .go => some (s.goto .hold)
  | .activities (kind :: rest), .go => some (handleActivity s kind rest)
  | .beginLocked rest, .go => some (beginLocked s rest)
  | .beginEmit rest, .go =>
    some ((s.emit (.speechStarted s.loop.utteranceId (toMs s.clock))).goto (.activities rest))
  | .pendingCheck rest, .go => some (checkCandidate s rest)
  | .enqueueCandidate rest, .go => some ((enqueue s false true).goto (.activities rest))
  | .resumeLocked rest, .go => some (resumeFromPending s rest)
  | .hold, .go => some (afterActivities p s)
  | .partialCheck, .go => some (partialCheck p s)
  | .enqueuePartial, .go => some (enqueuePartial s)
  | .gate ret, .go => some (commitGate p s ret)
  | .clearDiscarded ret, .go => some (clearDiscarded s ret)
  | .awaitIdle ret, .go => if s.decodeIdle then some (chooseFinal s ret) else none
  | .takeCandidate ret, .go => some (takeCandidate s ret)
  | .emitCandidate ret result decodeMs samples, .go =>
    some ((s.emit (finalEvent s s.loop.utteranceId result decodeMs samples)).goto
      (.clearUtterance ret))
  | .enqueueFinal ret, .go =>
    if s.decode.workerBusy then none else some ((enqueue s true false).goto (.awaitFinal ret))
  | .awaitFinal ret, .go => if s.decodeIdle then some (s.goto (.clearUtterance ret)) else none
  | .clearUtterance ret, .go => some (clearUtterance s ret)
  | .resetVad, .go => some (s.goto .read)
  | .resetVad, .throws message => some ((s.emit (.error message none)).goto .quitting)
  | .quitting, .go => some (quit s)
  | .joining, .go => match s.worker with
    | .exited => some (s.goto .finished)
    | _ => none
  | _, _ => none

/-! ## Steps of the decode worker -/

/-- What `hooks.transcribe` does when it is called. -/
inductive Outcome
  | returns (result : TranscribeResult)
  | throws (message : Bytes)

variable (job : Job F)

def takeJob : State F :=
  { s with
    decode := { s.decode with pending := none, workerBusy := true }
    worker := .decoding job s.clock }

/-- The decode saw audio that trails off into silence. -/
def quietDecode : Bool :=
  job.candidate || tailQuiet s.loop.noiseFloorRms job.audio

def decoded (start : ℤ) (result : TranscribeResult) : State F :=
  { s with
    worker := if job.final then .emitFinal job result (s.clock - start)
      else .storeCandidate job result (s.clock - start) (quietDecode s job)
    history := { s.history with calls := s.history.calls ++ [(job, result)] } }

variable (result : TranscribeResult)

/-- An empty text ends the handling of a result. -/
def afterStore : WorkerPc F :=
  if result.text.isEmpty then .finishing job else .storeHypothesis job result

def keepCandidate (decodeMs : ℤ) : State F :=
  { s with
    worker := afterStore job result
    decode := { s.decode with
      candidate := result
      candidateValid := true
      candidateDecodeMs := decodeMs
      candidateSamples := job.audio.length }
    history := { s.history with candidateJob := some job } }

def storeCandidate (decodeMs : ℤ) (quiet : Bool) : State F :=
  if quiet && !result.text.isEmpty then keepCandidate s job result decodeMs
  else s.work (afterStore job result)

def storeHypothesis : State F :=
  { s with
    worker := .track job result
    decode := { s.decode with latestHypothesis := result.text }
    history := { s.history with hypothesisJob := some job } }

def trackResult : State F :=
  let updated := s.decode.tracker.update result.text
  { s with
    worker := if updated.2 then .emitStable job result else .emitPartial job result
    decode := { s.decode with tracker := updated.1 }
    history := { s.history with tracked := s.history.tracked ++ [(job, result)] } }

def emitStable : State F :=
  let first := if s.decode.firstStableMs < 0 then s.clock - s.loop.speechStartedAt
    else s.decode.firstStableMs
  { s with
    worker := .emitPartial job result
    decode := { s.decode with firstStableMs := first } }.emit
      (.stableTranscript job.utteranceId (toMs s.clock) s.decode.tracker.stable)

/-- What the newest hypothesis shows beyond the stable text. -/
def tentativeText (t : StableTracker) : Bytes := if t.stable.isEmpty then t.hypothesis else t.tentative

def showPartial : State F :=
  let first := if s.decode.firstPartialMs < 0 then s.clock - s.loop.speechStartedAt
    else s.decode.firstPartialMs
  { s with
    worker := .anticipate job result
    decode := { s.decode with
      lastPartialEmitted := tentativeText s.decode.tracker
      firstPartialMs := first } }.emit
        (.partialTranscript job.utteranceId (toMs s.clock) (tentativeText s.decode.tracker))

def emitPartial : State F :=
  let tentative := tentativeText s.decode.tracker
  if !tentative.isEmpty && tentative != s.decode.lastPartialEmitted then showPartial s job result
  else s.work (.anticipate job result)

def trackGrowth (d : Decode F) (job : Job F) (result : TranscribeResult) : Decode F :=
  if result.text = d.lastGrowthHypothesis then { d with hypothesisStalls := d.hypothesisStalls + 1 }
  else { d with
    lastGrowthHypothesis := result.text
    hypothesisStalls := 0
    endpointLikelyUtt := if d.endpointLikelyUtt = job.utteranceId then -1
      else d.endpointLikelyUtt }

/-- Endpoint anticipation: a complete-looking hypothesis that has stopped growing. -/
def anticipate : State F :=
  let d := trackGrowth s.decode job result
  if 1 ≤ d.hypothesisStalls ∧ d.endpointLikelyUtt ≠ job.utteranceId ∧
      hypothesisLooksIncomplete result.text = false then
    { s with
      worker := .finishing job
      decode := { d with endpointLikelyUtt := job.utteranceId } }.emit
        (.endpointLikely job.utteranceId (toMs s.clock) result.text)
  else { s with worker := .finishing job, decode := d }

def finishJob : State F :=
  { s with worker := .idle, decode := { s.decode with workerBusy := false } }

def workerStep (outcome : Option Outcome) : Option (State F) :=
  match s.worker, outcome with
  | .idle, none => match s.decode.pending with
    | some job => some (takeJob s job)
    | none => if s.decode.quit then some (s.work .exited) else none
  | .decoding job start, some (.returns result) => some (decoded s job start result)
  | .decoding job _, some (.throws message) => some (s.work (.failing job message))
  | .failing job message, none =>
    some ((s.work (.finishing job)).emit
      (.error message (if job.final then some job.utteranceId else none)))
  | .emitFinal job result decodeMs, none =>
    some ((s.work (.finishing job)).emit
      (finalEvent s job.utteranceId result decodeMs job.audio.length))
  | .storeCandidate job result decodeMs quiet, none =>
    some (storeCandidate s job result decodeMs quiet)
  | .storeHypothesis job result, none => some (storeHypothesis s job result)
  | .track job result, none => some (trackResult s job result)
  | .emitStable job result, none => some (emitStable s job result)
  | .emitPartial job result, none => some (emitPartial s job result)
  | .anticipate job result, none => some (anticipate s job result)
  | .finishing _, none => some (finishJob s)
  | _, _ => none

/-! ## The system -/

/-- One step of either thread, with the clock reading it makes. -/
inductive Action (F : Type)
  | audio (now : ℤ) (input : AudioInput F)
  | worker (now : ℤ) (outcome : Option Outcome)

def Action.now : Action F → ℤ
  | .audio now _ => now
  | .worker now _ => now

def threadStep (s : State F) : Action F → Option (State F)
  | .audio _ input => audioStep p s input
  | .worker _ outcome => workerStep s outcome

def step (s : State F) (a : Action F) : Option (State F) :=
  if s.clock ≤ a.now then threadStep p { s with clock := a.now } a else none

end FastTts.Voice
