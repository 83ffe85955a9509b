import FastTts.Blocks
import FastTts.Tasks

/-!
# Streaming recognition

The session appends the audio of a stream to a buffer, reads windows off it behind an offset, and
gives the buffer back when it has been read, or cuts off what lies before the offset when that is
the larger part. The model that transcribes a window is `runSingle`; `transcribed` and `published`
are history, which no step reads.
-/

namespace FastTts.AsrStream

open Tasks
open SpeechStream (AudioBuffer)

variable {Sample F : Type}

structure TaskRequest (Sample : Type) where
  textInput : Option Transcript
  audioInput : Option (AudioBuffer Sample)
  options : Options

structure TaskResult where
  textOutput : Option Transcript
  deriving DecidableEq

structure StreamEvent where
  partialText : Option Transcript
  isFinal : Bool
  deriving DecidableEq

structure Qwen3ASRRequest (Sample : Type) where
  audio : AudioBuffer Sample
  context : Bytes
  language : Bytes
  maxNewTokens : ℤ
  returnTimestamps : Bool

/-- What the stream rests on: the recogniser, its configured bound, the readers of numbers, and the
rounding of a duration to frames. -/
structure Runtime (Sample F : Type) where
  runSingle : Qwen3ASRRequest Sample → TaskResult
  maxNewTokens : ℤ
  parseIntValue : Bytes → Bytes → Except Exception ℤ
  parseFloatValue : Bytes → Bytes → Except Exception F
  defaultStreamingWindowSeconds : F
  positive : F → Bool
  llround : F → ℤ → ℤ

/-! ## Options -/

def requestReturnTimestamps (options : Options) : Except Exception Bool := do
  match ← findOption options [bytes "return_timestamps"] with
  | some value => parseBoolOption value (bytes "return_timestamps")
  | none => return false

def parseAudioChunkSecondsOverride (rt : Runtime Sample F) (options : Options) :
    Except Exception (Option F) := do
  match ← findOptionMatch options [bytes "audio_chunk_duration_sec", bytes "audio_chunk_seconds",
      bytes "audio_chunk_duration_seconds", bytes "audio_chunk_duration"] with
  | some (key, value) => return some (← rt.parseFloatValue value key)
  | none => return none

def makeRequest (rt : Runtime Sample F) (request : TaskRequest Sample) :
    Except Exception (Qwen3ASRRequest Sample) :=
  match request.audioInput with
  | none => .error (bytes "Qwen3 ASR run() requires audio_input")
  | some audio => do
    let given := (request.textInput.map Transcript.language).getD []
    let language := match ← findOption request.options [bytes "language"] with
      | some value => if value = bytes "Auto" then [] else value
      | none => given
    let maxNewTokens ← match ← findOptionMatch request.options [bytes "max_tokens"] with
      | some (key, value) => do
        let tokens ← rt.parseIntValue value key
        if tokens ≤ 0 then .error (bytes "Qwen3 ASR max_tokens must be positive") else .ok tokens
      | none => .ok rt.maxNewTokens
    return {
      audio
      context := (request.textInput.map Transcript.text).getD []
      language
      maxNewTokens
      returnTimestamps := ← requestReturnTimestamps request.options }

/-! ## The session -/

structure Session (Sample : Type) where
  prepared : Bool
  streaming : Bool
  hasSink : Bool
  streamingRequest : TaskRequest Sample
  streamingResult : TaskResult
  streamingAudio : AudioBuffer Sample
  streamingAudioOffsetValues : ℕ
  streamingText : Bytes
  streamingPublishedBytes : ℕ
  streamingWindowsProcessed : ℕ
  streamStarted : Bool
  transcribed : List (AudioBuffer Sample)
  published : List StreamEvent

def Session.requirePrepared (s : Session Sample) (context : Bytes) : Except Exception Unit :=
  if s.prepared then .ok ()
  else .error (bytes "session prepare() must be called before " ++ context)

def Session.reset (s : Session Sample) : Except Exception (Session Sample) := do
  s.requirePrepared (bytes "Qwen3 ASR reset()")
  return { s with
    streamingRequest := ⟨none, none, fun _ => none⟩
    streamingResult := ⟨none⟩
    streamingAudio := ⟨0, 1, []⟩
    streamingAudioOffsetValues := 0
    streamingText := []
    streamingPublishedBytes := 0
    streamingWindowsProcessed := 0
    streamStarted := false
    transcribed := []
    published := [] }

def Session.startStream (s : Session Sample) (request : TaskRequest Sample) :
    Except Exception (Session Sample) := do
  s.requirePrepared (bytes "Qwen3 ASR start_stream()")
  if s.streaming = false then
    .error (bytes "Qwen3 ASR start_stream() requires a streaming session")
  else do
    let returnTimestamps ← requestReturnTimestamps request.options
    if returnTimestamps then
      .error (bytes "Qwen3 ASR streaming does not support return_timestamps")
    else
      let s ← s.reset
      return { s with
        streamingRequest :=
          { request with
            audioInput := request.audioInput.map fun audio => { audio with samples := [] } }
        streamStarted := true }

/-- The words of a window are added behind what has been said. -/
def Session.hear (s : Session Sample) (item : TaskResult) : Session Sample × StreamEvent :=
  match item.textOutput with
  | none => (s, ⟨none, false⟩)
  | some heard =>
    if heard.text = [] then (s, ⟨none, false⟩)
    else
      let text := s.streamingText ++
        (if s.streamingText = [] then heard.text else 0x20 :: heard.text)
      let language := match s.streamingResult.textOutput with
        | none => heard.language
        | some earlier => if earlier.language = [] then heard.language else earlier.language
      let s := { s with streamingText := text, streamingResult := ⟨some ⟨text, language⟩⟩ }
      if s.streamingPublishedBytes < text.length then
        ({ s with streamingPublishedBytes := text.length },
          ⟨some ⟨text.drop s.streamingPublishedBytes, language⟩, false⟩)
      else (s, ⟨none, false⟩)

def itemRequest (request : TaskRequest Sample) (audio : AudioBuffer Sample) : TaskRequest Sample :=
  { request with
    audioInput := some audio
    options := Function.update request.options (bytes "audio_chunk_mode") (some (bytes "none")) }

def Session.processOneStreamChunk (rt : Runtime Sample F) (s : Session Sample)
    (audio : AudioBuffer Sample) : Except Exception (Session Sample × StreamEvent) := do
  let request ← makeRequest rt (itemRequest s.streamingRequest audio)
  return { s with transcribed := s.transcribed ++ [audio] }.hear (rt.runSingle request)

/-- The windows of `process_available_stream_chunks`, with the last event and their number. Every
round reads a frame, so the unread values are fuel enough. -/
def streamWindows (rt : Runtime Sample F) (final : Bool) (windowFrames : ℤ) :
    ℕ → Session Sample → StreamEvent → ℕ → Except Exception (Session Sample × StreamEvent × ℕ)
  | 0, s, lastEvent, processed => .ok (s, lastEvent, processed)
  | fuel + 1, s, lastEvent, processed =>
    let pendingFrames : ℤ := ((s.streamingAudio.samples.length - s.streamingAudioOffsetValues) /
      s.streamingAudio.channels.toNat : ℕ)
    if pendingFrames ≤ 0 ∨ final = false ∧ pendingFrames < windowFrames then
      .ok (s, lastEvent, processed)
    else do
      let takeFrames := if final then min pendingFrames windowFrames else windowFrames
      let takeValues := (takeFrames * s.streamingAudio.channels).toNat
      let chunk := { s.streamingAudio with
        samples := (s.streamingAudio.samples.drop s.streamingAudioOffsetValues).take takeValues }
      let (s, event) ← Session.processOneStreamChunk rt
        { s with streamingAudioOffsetValues := s.streamingAudioOffsetValues + takeValues } chunk
      let s := { s with streamingWindowsProcessed := s.streamingWindowsProcessed + 1 }
      if s.hasSink ∧ event.partialText ≠ none then
        streamWindows rt final windowFrames fuel { s with published := s.published ++ [event] }
          { event with partialText := none } (processed + 1)
      else streamWindows rt final windowFrames fuel s event (processed + 1)

/-- A buffer that has been read is given back; one that is large and mostly read is cut. -/
def Session.compact (s : Session Sample) : Session Sample :=
  if s.streamingAudioOffsetValues = s.streamingAudio.samples.length then
    { s with
      streamingAudio := { s.streamingAudio with samples := [] }
      streamingAudioOffsetValues := 0 }
  else if 1024 * 1024 < s.streamingAudioOffsetValues ∧
      s.streamingAudio.samples.length < s.streamingAudioOffsetValues * 2 then
    { s with
      streamingAudio := { s.streamingAudio with
        samples := s.streamingAudio.samples.drop s.streamingAudioOffsetValues }
      streamingAudioOffsetValues := 0 }
  else s

def windowFrames (rt : Runtime Sample F) (options : Options) (sampleRate : ℤ) :
    Except Exception ℤ := do
  let seconds := (← parseAudioChunkSecondsOverride rt options).getD rt.defaultStreamingWindowSeconds
  if rt.positive seconds = false then
    .error (bytes "Qwen3 ASR streaming audio_chunk_seconds must be positive")
  else if rt.llround seconds sampleRate ≤ 0 then
    .error (bytes "Qwen3 ASR streaming audio_chunk_seconds produced an empty chunk")
  else .ok (rt.llround seconds sampleRate)

def Session.processAvailableStreamChunks (rt : Runtime Sample F) (s : Session Sample)
    (final : Bool) : Except Exception (Session Sample × StreamEvent) :=
  if s.streamingAudio.sampleRate ≤ 0 ∨ s.streamingAudio.channels ≤ 0 then .ok (s, ⟨none, false⟩)
  else if s.streamingAudio.samples.length < s.streamingAudioOffsetValues then
    .error (bytes "Qwen3 ASR streaming pending audio offset is out of range")
  else if s.streamingAudio.samples.length % s.streamingAudio.channels.toNat ≠ 0 ∨
      s.streamingAudioOffsetValues % s.streamingAudio.channels.toNat ≠ 0 then
    .error (bytes "Qwen3 ASR streaming pending audio has invalid channel layout")
  else do
    let frames ← windowFrames rt s.streamingRequest.options s.streamingAudio.sampleRate
    let (s, lastEvent, processed) ← streamWindows rt final frames
      (s.streamingAudio.samples.length - s.streamingAudioOffsetValues) s ⟨none, false⟩ 0
    return (if 0 < processed then s.compact else s, lastEvent)

structure AudioChunk (Sample : Type) where
  sampleRate : ℤ
  channels : ℤ
  samples : List Sample

def Session.dropDrained (s : Session Sample) : Session Sample :=
  if s.streamingAudioOffsetValues = s.streamingAudio.samples.length ∧
      0 < s.streamingAudioOffsetValues then
    { s with
      streamingAudio := { s.streamingAudio with samples := [] }
      streamingAudioOffsetValues := 0 }
  else s

def Session.processAudioChunk (rt : Runtime Sample F) (s : Session Sample)
    (chunk : AudioChunk Sample) : Except Exception (Session Sample × StreamEvent) := do
  s.requirePrepared (bytes "Qwen3 ASR process_audio_chunk()")
  if s.streaming = false then
    .error (bytes "Qwen3 ASR process_audio_chunk() requires a streaming session")
  else if s.streamStarted = false then
    .error (bytes "Qwen3 ASR process_audio_chunk() requires start_stream")
  else if chunk.channels ≤ 0 ∨ chunk.samples.length % chunk.channels.toNat ≠ 0 then
    .error (bytes "Qwen3 ASR streaming audio chunk has invalid channel layout")
  else
    let s := s.dropDrained
    let streamingAudio ← appendAudioBuffer s.streamingAudio
      ⟨chunk.sampleRate, chunk.channels, chunk.samples⟩
    Session.processAvailableStreamChunks rt { s with streamingAudio } false

/-- The result of a stream whose windows have all been transcribed. -/
def Session.finish (s : Session Sample) : Session Sample × TaskResult :=
  let transcript := s.streamingResult.textOutput.getD
    ⟨[], (s.streamingRequest.textInput.map Transcript.language).getD []⟩
  let s := { s with streamingResult := ⟨some transcript⟩, streamStarted := false }
  (if s.hasSink then { s with published := s.published ++ [⟨none, true⟩] } else s,
    s.streamingResult)

def Session.finalize (rt : Runtime Sample F) (s : Session Sample) :
    Except Exception (Session Sample × TaskResult) := do
  s.requirePrepared (bytes "Qwen3 ASR finalize()")
  if s.streaming = false then
    .error (bytes "Qwen3 ASR finalize() requires a streaming session")
  else if s.streamStarted = false then
    .error (bytes "Qwen3 ASR finalize() requires start_stream")
  else if s.streamingAudio.samples.length < s.streamingAudioOffsetValues then
    .error (bytes "Qwen3 ASR streaming pending audio offset is out of range")
  else if s.streamingAudioOffsetValues = s.streamingAudio.samples.length ∧
      s.streamingWindowsProcessed = 0 then
    .error (bytes "Qwen3 ASR finalize() requires streamed audio")
  else
    let (s, _) ← s.processAvailableStreamChunks rt true
    return s.finish

/-! ## A whole stream -/

def feedAll (rt : Runtime Sample F) (sampleRate channels : ℤ) :
    Session Sample → List (List Sample) → Except Exception (Session Sample)
  | s, [] => .ok s
  | s, samples :: rest => do
    let (s, _) ← s.processAudioChunk rt ⟨sampleRate, channels, samples⟩
    feedAll rt sampleRate channels s rest

/-- The final result of a stream, and the windows that have been transcribed. -/
def transcribe (rt : Runtime Sample F) (sampleRate channels : ℤ) (s : Session Sample)
    (chunks : List (List Sample)) : Except Exception (TaskResult × List (AudioBuffer Sample)) := do
  let s ← feedAll rt sampleRate channels s chunks
  let (s, result) ← s.finalize rt
  return (result, s.transcribed)

/-! ## What has been said -/

structure Spoken where
  text : Bytes
  result : TaskResult

def Spoken.hear (said : Spoken) (item : TaskResult) : Spoken :=
  match item.textOutput with
  | none => said
  | some heard =>
    if heard.text = [] then said
    else
      let text := said.text ++ (if said.text = [] then heard.text else 0x20 :: heard.text)
      ⟨text, ⟨some ⟨text, match said.result.textOutput with
        | none => heard.language
        | some earlier => if earlier.language = [] then heard.language else earlier.language⟩⟩⟩

def Session.spoken (s : Session Sample) : Spoken := ⟨s.streamingText, s.streamingResult⟩

def spokenAfter (rt : Runtime Sample F) (request : TaskRequest Sample)
    (windows : List (AudioBuffer Sample)) : Spoken :=
  windows.foldl (fun said audio => match makeRequest rt (itemRequest request audio) with
    | .error _ => said
    | .ok asrRequest => said.hear (rt.runSingle asrRequest)) ⟨[], ⟨none⟩⟩

theorem hear_eq (s : Session Sample) (item : TaskResult) : ∃ published event, s.hear item =
    ({ s with
        streamingText := (s.spoken.hear item).text
        streamingResult := (s.spoken.hear item).result
        streamingPublishedBytes := published }, event) := by
  cases hitem : item.textOutput with
  | none =>
    exact ⟨s.streamingPublishedBytes, _, by
      simp only [Session.hear, Spoken.hear, hitem, Session.spoken]; rfl⟩
  | some heard =>
    by_cases hempty : heard.text = []
    · exact ⟨s.streamingPublishedBytes, _, by
        simp only [Session.hear, Spoken.hear, hitem, if_pos hempty, Session.spoken]; rfl⟩
    · have hhear : ∀ said : Spoken, said.hear item = ⟨_, _⟩ := fun said => by
        simp only [Spoken.hear, hitem, if_neg hempty]; rfl
      simp only [Session.hear, hitem, if_neg hempty, hhear, Session.spoken]
      generalize s.streamingText ++
        (if s.streamingText = [] then heard.text else 0x20 :: heard.text) = text
      by_cases hpublished : s.streamingPublishedBytes < text.length
      · rw [if_pos hpublished]
        exact ⟨_, _, rfl⟩
      · rw [if_neg hpublished]
        exact ⟨_, _, rfl⟩

/-! ## Windows -/

structure Accepts (rt : Runtime Sample F) (request : TaskRequest Sample) (sampleRate : ℤ)
    (frames : ℕ) : Prop where
  window : windowFrames rt request.options sampleRate = .ok frames
  request : ∀ audio, ∃ asrRequest, makeRequest rt (itemRequest request audio) = .ok asrRequest

theorem Accepts.frames_pos {rt : Runtime Sample F} {request : TaskRequest Sample} {sampleRate : ℤ}
    {frames : ℕ} (h : Accepts rt request sampleRate frames) : 0 < frames := by
  have hwindow := h.window
  rw [windowFrames] at hwindow
  obtain ⟨seconds, -, hwindow⟩ := except_bind_ok hwindow
  dsimp only at hwindow
  split_ifs at hwindow with hpositive hrounded
  have hframes := Except.ok.inj hwindow
  omega

/-- The windows `0 … k - 1` of the stream have been transcribed, and what is in the buffer behind
the offset is what comes after them. -/
structure Holds (rt : Runtime Sample F) (request : TaskRequest Sample) (sampleRate : ℤ)
    (channels frames : ℕ) (stream : List Sample) (k : ℕ) (s : Session Sample) : Prop where
  prepared : s.prepared = true
  streaming : s.streaming = true
  started : s.streamStarted = true
  asked : s.streamingRequest = request
  offset : s.streamingAudioOffsetValues ≤ s.streamingAudio.samples.length
  layout : channels ∣ s.streamingAudio.samples.length ∧ channels ∣ s.streamingAudioOffsetValues
  unread : s.streamingAudio.samples.drop s.streamingAudioOffsetValues =
    stream.drop (k * (frames * channels))
  windows : s.transcribed =
    (Blocks.rowsOf (frames * channels) k stream).map fun samples => ⟨sampleRate, channels, samples⟩
  processed : s.streamingWindowsProcessed = k
  spoken : s.spoken = spokenAfter rt request s.transcribed

section Proofs

variable {rt : Runtime Sample F} {request : TaskRequest Sample} {sampleRate : ℤ}
  {channels frames : ℕ} {stream : List Sample} {k : ℕ} {s : Session Sample}

theorem processOneStreamChunk_holds (hacc : Accepts rt request sampleRate frames)
    (h : Holds rt request sampleRate channels frames stream k s) (take : ℕ)
    (htake : s.streamingAudioOffsetValues + take ≤ s.streamingAudio.samples.length)
    (hlayout : channels ∣ take)
    (hwindow : (stream.drop (k * (frames * channels))).take take =
      Blocks.slice (frames * channels) k stream)
    (hrest : (stream.drop (k * (frames * channels))).drop take =
      stream.drop ((k + 1) * (frames * channels))) :
    ∃ s' event, Session.processOneStreamChunk rt
        { s with streamingAudioOffsetValues := s.streamingAudioOffsetValues + take }
        ⟨sampleRate, channels,
          (s.streamingAudio.samples.drop s.streamingAudioOffsetValues).take take⟩ = .ok (s', event) ∧
      s'.streamingAudio = s.streamingAudio ∧
      Holds rt request sampleRate channels frames stream (k + 1)
        { s' with streamingWindowsProcessed := s'.streamingWindowsProcessed + 1 } := by
  obtain ⟨asrRequest, hasr⟩ := hacc.request
    ⟨sampleRate, channels, (s.streamingAudio.samples.drop s.streamingAudioOffsetValues).take take⟩
  have hmake := hasr
  rw [← h.asked] at hmake
  rw [Session.processOneStreamChunk]
  dsimp only
  rw [hmake]
  obtain ⟨published, event, hhear⟩ := hear_eq
    { s with
      streamingAudioOffsetValues := s.streamingAudioOffsetValues + take
      transcribed := s.transcribed ++ [⟨sampleRate, channels,
        (s.streamingAudio.samples.drop s.streamingAudioOffsetValues).take take⟩] }
    (rt.runSingle asrRequest)
  refine ⟨_, event, congrArg Except.ok hhear, rfl, ?_⟩
  refine ⟨h.prepared, h.streaming, h.started, h.asked, htake, ⟨h.layout.1, ?_⟩, ?_, ?_, ?_, ?_⟩
  · exact (Nat.dvd_add_right h.layout.2).mpr hlayout
  · rw [← hrest, ← h.unread, List.drop_drop]
  · change s.transcribed ++ [_] = _
    rw [h.windows, Blocks.rowsOf_succ, List.map_append, h.unread, hwindow]
    rfl
  · change s.streamingWindowsProcessed + 1 = k + 1
    rw [h.processed]
  · change s.spoken.hear (rt.runSingle asrRequest) = spokenAfter rt request (s.transcribed ++ [_])
    rw [h.spoken, spokenAfter, spokenAfter, List.foldl_concat, hasr]

theorem Holds.pending (h : Holds rt request sampleRate channels frames stream k s) :
    s.streamingAudio.samples.length - s.streamingAudioOffsetValues =
        stream.length - k * (frames * channels) ∧
      (s.streamingAudio.samples.length - s.streamingAudioOffsetValues) / channels * channels =
        stream.length - k * (frames * channels) := by
  have hlength := congrArg List.length h.unread
  rw [List.length_drop, List.length_drop] at hlength
  exact ⟨hlength, hlength ▸ Nat.div_mul_cancel (Nat.dvd_sub h.layout.1 h.layout.2)⟩

theorem streamWindows_holds (hacc : Accepts rt request sampleRate frames) (hchannels : 0 < channels)
    (final : Bool) {fuel : ℕ} (event : StreamEvent) (processed : ℕ)
    (hrate : s.streamingAudio.sampleRate = sampleRate)
    (hformat : s.streamingAudio.channels = channels)
    (h : Holds rt request sampleRate channels frames stream k s)
    (hbegun : k * (frames * channels) < stream.length + frames * channels)
    (hfull : final = false → k * (frames * channels) ≤ stream.length)
    (hfuel : stream.length - k * (frames * channels) ≤ fuel) :
    ∃ k' s' event' processed',
      streamWindows rt final frames fuel s event processed = .ok (s', event', processed') ∧
      Holds rt request sampleRate channels frames stream k' s' ∧
      s'.streamingAudio.sampleRate = sampleRate ∧ s'.streamingAudio.channels = channels ∧
      k' * (frames * channels) < stream.length + frames * channels ∧
      (final = false → k' * (frames * channels) ≤ stream.length ∧
        stream.length < (k' + 1) * (frames * channels)) ∧
      (final = true → stream.length ≤ k' * (frames * channels)) := by
  have hframes := hacc.frames_pos
  have hsize : 0 < frames * channels := Nat.mul_pos hframes hchannels
  induction fuel generalizing k s event processed with
  | zero =>
    refine ⟨k, s, event, processed, rfl, h, hrate, hformat, hbegun, fun hfinal => ?_, fun _ => ?_⟩
    · have := hfull hfinal
      rw [Nat.succ_mul]
      omega
    · omega
  | succ fuel ih =>
    obtain ⟨hunread, hwhole⟩ := h.pending
    rw [streamWindows]
    dsimp only
    rw [hformat, Int.toNat_natCast]
    generalize hpending : (s.streamingAudio.samples.length - s.streamingAudioOffsetValues) /
      channels = pending at hwhole ⊢
    by_cases hstop : (pending : ℤ) ≤ 0 ∨ final = false ∧ (pending : ℤ) < frames
    · rw [if_pos hstop]
      have hnone : pending = 0 → stream.length ≤ k * (frames * channels) := by
        rintro rfl
        omega
      refine ⟨k, s, event, processed, rfl, h, hrate, hformat, hbegun, fun hfinal => ?_,
        fun hfinal => ?_⟩
      · refine ⟨hfull hfinal, ?_⟩
        have hfew : pending < frames := by
          rcases hstop with hzero | ⟨-, hfew⟩ <;> omega
        have hmul := Nat.mul_lt_mul_of_pos_right hfew hchannels
        have := hfull hfinal
        rw [Nat.succ_mul]
        omega
      · apply hnone
        rcases hstop with hzero | ⟨hnot, -⟩
        · omega
        · rw [hfinal] at hnot
          cases hnot
    · rw [if_neg hstop]
      rw [not_or, not_and_or] at hstop
      obtain ⟨take, htake, hpos, hle, hcases⟩ : ∃ take : ℕ,
          ((if final = true then min (pending : ℤ) frames else frames) * (channels : ℤ)).toNat =
            take * channels ∧ 0 < take ∧ take ≤ pending ∧
          (take = frames ∨ pending < frames ∧ take = pending ∧ final = true) := by
        have hmul : ∀ n : ℕ, ((n : ℤ) * (channels : ℤ)).toNat = n * channels := fun n => by
          rw [← Nat.cast_mul, Int.toNat_natCast]
        cases final with
        | false => exact ⟨frames, hmul frames, hframes, by simp at hstop; omega, .inl rfl⟩
        | true =>
          rcases Nat.lt_or_ge pending frames with hfew | hmany
          · refine ⟨pending, ?_, by omega, Nat.le_refl _, .inr ⟨hfew, rfl, rfl⟩⟩
            rw [if_pos rfl, min_eq_left (by omega), hmul]
          · refine ⟨frames, ?_, hframes, hmany, .inl rfl⟩
            rw [if_pos rfl, min_eq_right (by omega), hmul]
      rw [htake]
      have hvalues := Nat.mul_le_mul_right channels hle
      have htakes : 0 < take * channels := Nat.mul_pos hpos hchannels
      have hlength : (stream.drop (k * (frames * channels))).length = pending * channels := by
        rw [List.length_drop, hwhole]
      obtain ⟨s', next, hrun, haudio, hholds⟩ := processOneStreamChunk_holds hacc h
        (take * channels) (by have := h.offset; omega) (Nat.dvd_mul_left channels take) (by
          rw [Blocks.slice]
          rcases hcases with rfl | ⟨hfew, rfl, -⟩
          · rfl
          · have := Nat.mul_le_mul_right channels hfew.le
            rw [List.take_of_length_le hlength.le, List.take_of_length_le (by omega)]) (by
          rw [Nat.succ_mul]
          rcases hcases with rfl | ⟨hfew, rfl, -⟩
          · rw [List.drop_drop]
          · have := Nat.mul_le_mul_right channels hfew.le
            rw [List.drop_eq_nil_of_le hlength.le, List.drop_eq_nil_of_le (by omega)])
      have hbegun' : (k + 1) * (frames * channels) < stream.length + frames * channels := by
        rw [Nat.succ_mul]
        omega
      have hfull' : final = false → (k + 1) * (frames * channels) ≤ stream.length := by
        intro hfinal
        rcases hcases with rfl | ⟨-, -, hnot⟩
        · rw [Nat.succ_mul]
          omega
        · rw [hfinal] at hnot
          cases hnot
      have hfuel' : stream.length - (k + 1) * (frames * channels) ≤ fuel := by
        rw [Nat.succ_mul]
        omega
      rw [hrate, hrun]
      dsimp only [bind, Except.bind]
      split_ifs with hsink
      · exact ih _ _ (haudio ▸ hrate) (haudio ▸ hformat) { hholds with } hbegun' hfull' hfuel'
      · exact ih _ _ (haudio ▸ hrate) (haudio ▸ hformat) hholds hbegun' hfull' hfuel'

theorem compact_holds (h : Holds rt request sampleRate channels frames stream k s) :
    Holds rt request sampleRate channels frames stream k s.compact := by
  rw [Session.compact]
  split_ifs with hdrained hlarge
  · have hunread := h.unread
    rw [hdrained, List.drop_length] at hunread
    exact { h with
      offset := Nat.le_refl 0
      layout := ⟨Nat.dvd_zero _, Nat.dvd_zero _⟩
      unread := hunread }
  · exact { h with
      offset := Nat.zero_le _
      layout := ⟨by
        change channels ∣ (List.drop _ _).length
        rw [List.length_drop]
        exact Nat.dvd_sub h.layout.1 h.layout.2, Nat.dvd_zero _⟩
      unread := h.unread }
  · exact h

theorem compact_format (s : Session Sample) :
    s.compact.streamingAudio.sampleRate = s.streamingAudio.sampleRate ∧
      s.compact.streamingAudio.channels = s.streamingAudio.channels := by
  rw [Session.compact]
  split_ifs <;> exact ⟨rfl, rfl⟩

theorem dropDrained_holds (h : Holds rt request sampleRate channels frames stream k s) :
    Holds rt request sampleRate channels frames stream k s.dropDrained := by
  rw [Session.dropDrained]
  split_ifs with hdrained
  · have hunread := h.unread
    rw [hdrained.1, List.drop_length] at hunread
    exact { h with
      offset := Nat.le_refl 0
      layout := ⟨Nat.dvd_zero _, Nat.dvd_zero _⟩
      unread := hunread }
  · exact h

theorem dropDrained_format (s : Session Sample) :
    s.dropDrained.streamingAudio.sampleRate = s.streamingAudio.sampleRate ∧
      s.dropDrained.streamingAudio.channels = s.streamingAudio.channels := by
  rw [Session.dropDrained]
  split_ifs <;> exact ⟨rfl, rfl⟩

theorem processAvailable_holds (hacc : Accepts rt request sampleRate frames)
    (hpositive : 0 < sampleRate) (hchannels : 0 < channels) (final : Bool)
    (hrate : s.streamingAudio.sampleRate = sampleRate)
    (hformat : s.streamingAudio.channels = channels)
    (h : Holds rt request sampleRate channels frames stream k s)
    (hfull : k * (frames * channels) ≤ stream.length) :
    ∃ k' s' event, s.processAvailableStreamChunks rt final = .ok (s', event) ∧
      Holds rt request sampleRate channels frames stream k' s' ∧
      s'.streamingAudio.sampleRate = sampleRate ∧ s'.streamingAudio.channels = channels ∧
      k' * (frames * channels) < stream.length + frames * channels ∧
      (final = false → k' * (frames * channels) ≤ stream.length ∧
        stream.length < (k' + 1) * (frames * channels)) ∧
      (final = true → stream.length ≤ k' * (frames * channels)) := by
  have hsize : 0 < frames * channels := Nat.mul_pos hacc.frames_pos hchannels
  obtain ⟨k', s', event, processed, hrun, hholds, hrate', hformat', hbegun, hnonfinal, hfinal⟩ :=
    streamWindows_holds hacc hchannels final ⟨none, false⟩ 0 hrate hformat h (by omega)
      (fun _ => hfull) h.pending.1.ge
  have hvalid : ¬ (s.streamingAudio.sampleRate ≤ 0 ∨ s.streamingAudio.channels ≤ 0) := by
    omega
  have haligned : ¬ (s.streamingAudio.samples.length % s.streamingAudio.channels.toNat ≠ 0 ∨
      s.streamingAudioOffsetValues % s.streamingAudio.channels.toNat ≠ 0) := by
    rw [hformat, Int.toNat_natCast, Nat.mod_eq_zero_of_dvd h.layout.1,
      Nat.mod_eq_zero_of_dvd h.layout.2]
    simp
  have hwindow := hacc.window
  rw [← h.asked, ← hrate] at hwindow
  rw [Session.processAvailableStreamChunks, if_neg hvalid, if_neg (Nat.not_lt.mpr h.offset),
    if_neg haligned, hwindow]
  dsimp only [bind, Except.bind]
  rw [hrun]
  refine ⟨k', _, event, rfl, ?_, ?_, ?_, hbegun, hnonfinal, hfinal⟩
  · split_ifs
    · exact compact_holds hholds
    · exact hholds
  · split_ifs
    · exact (compact_format s').1.trans hrate'
    · exact hrate'
  · split_ifs
    · exact (compact_format s').2.trans hformat'
    · exact hformat'

/-- Before the first audio the buffer has no format. -/
def Formatted (sampleRate : ℤ) (channels : ℕ) (stream : List Sample) (s : Session Sample) : Prop :=
  s.streamingAudio.sampleRate = 0 ∧ stream = [] ∨
    s.streamingAudio.sampleRate = sampleRate ∧ s.streamingAudio.channels = channels

variable {samples : List Sample} {chunks : List (List Sample)}

theorem append_holds (hpositive : 0 < sampleRate) (hchannels : 0 < channels)
    (hformat : Formatted sampleRate channels stream s)
    (h : Holds rt request sampleRate channels frames stream k s)
    (hfull : k * (frames * channels) ≤ stream.length) (hsamples : channels ∣ samples.length) :
    ∃ streamingAudio,
      appendAudioBuffer s.streamingAudio ⟨sampleRate, channels, samples⟩ = .ok streamingAudio ∧
      streamingAudio.sampleRate = sampleRate ∧ streamingAudio.channels = channels ∧
      Holds rt request sampleRate channels frames (stream ++ samples) k
        { s with streamingAudio := streamingAudio } := by
  have hkept : ∀ audio : AudioBuffer Sample,
      audio.samples = s.streamingAudio.samples ++ samples →
      Holds rt request sampleRate channels frames (stream ++ samples) k
        { s with streamingAudio := audio } := by
    intro audio haudio
    refine { h with offset := ?_, layout := ⟨?_, h.layout.2⟩, unread := ?_, windows := ?_ }
    · change _ ≤ audio.samples.length
      rw [haudio, List.length_append]
      exact Nat.le_add_right_of_le h.offset
    · change _ ∣ audio.samples.length
      rw [haudio, List.length_append]
      exact Nat.dvd_add h.layout.1 hsamples
    · change audio.samples.drop _ = _
      rw [haudio, List.drop_append_of_le_length h.offset, h.unread,
        List.drop_append_of_le_length hfull]
    · change s.transcribed = _
      rw [h.windows, Blocks.rowsOf, Blocks.rowsOf]
      congr 1
      apply List.map_congr_left
      intro b hb
      rw [List.mem_range] at hb
      have hlast := Nat.mul_le_mul_right (frames * channels) hb
      rw [Nat.succ_mul] at hlast
      rw [Blocks.slice, Blocks.slice, List.drop_append_of_le_length (by omega),
        List.take_append_of_le_length]
      rw [List.length_drop]
      omega
  rw [appendAudioBuffer]
  dsimp only
  rw [if_neg (by omega)]
  rcases hformat with ⟨hfresh, -⟩ | ⟨hrate, hsame⟩
  · rw [if_pos hfresh]
    exact ⟨_, rfl, rfl, rfl, hkept _ rfl⟩
  · rw [if_neg (by omega), if_neg (by omega)]
    exact ⟨_, rfl, hrate, hsame, hkept _ rfl⟩

/-- Between the calls all full windows of the stream have been transcribed. -/
structure Between (rt : Runtime Sample F) (request : TaskRequest Sample) (sampleRate : ℤ)
    (channels frames : ℕ) (stream : List Sample) (s : Session Sample) : Prop where
  holds : Holds rt request sampleRate channels frames stream (stream.length / (frames * channels)) s
  formatted : Formatted sampleRate channels stream s

section

variable (hacc : Accepts rt request sampleRate frames) (hpositive : 0 < sampleRate)
  (hchannels : 0 < channels) (h : Between rt request sampleRate channels frames stream s)
include hacc hpositive hchannels h

theorem processAudioChunk_between (hsamples : channels ∣ samples.length) :
    ∃ s' event, s.processAudioChunk rt ⟨sampleRate, channels, samples⟩ = .ok (s', event) ∧
      Between rt request sampleRate channels frames (stream ++ samples) s' := by
  have hdropped := dropDrained_holds h.holds
  have hformat : Formatted sampleRate channels stream s.dropDrained := by
    obtain ⟨hrate, hsame⟩ := dropDrained_format s
    rw [Formatted, hrate, hsame]
    exact h.formatted
  obtain ⟨audio, happend, hrate, hsame, happended⟩ := append_holds hpositive hchannels hformat
    hdropped (Nat.div_mul_le_self ..) hsamples
  have hlonger : stream.length / (frames * channels) * (frames * channels) ≤
      (stream ++ samples).length := by
    rw [List.length_append]
    exact Nat.le_add_right_of_le (Nat.div_mul_le_self ..)
  obtain ⟨k', s', event, hrun, hholds, hrate', hsame', -, hnonfinal, -⟩ :=
    processAvailable_holds hacc hpositive hchannels false hrate hsame happended hlonger
  obtain ⟨hle, hlt⟩ := hnonfinal rfl
  have hk : (stream ++ samples).length / (frames * channels) = k' :=
    Nat.div_eq_of_lt_le hle hlt
  refine ⟨s', event, ?_, hk ▸ hholds, .inr ⟨hrate', hsame'⟩⟩
  have hlayout : ¬ ((channels : ℤ) ≤ 0 ∨ samples.length % (channels : ℤ).toNat ≠ 0) := by
    rw [Int.toNat_natCast, Nat.mod_eq_zero_of_dvd hsamples]
    omega
  rw [Session.processAudioChunk, Session.requirePrepared, if_pos h.holds.prepared]
  dsimp only [bind, Except.bind]
  rw [if_neg (by simp [h.holds.streaming]),
    if_neg (by simp [h.holds.started]), if_neg hlayout, happend]
  exact hrun

theorem feedAll_between (hchunks : ∀ samples ∈ chunks, channels ∣ samples.length) :
    ∃ s', feedAll rt sampleRate channels s chunks = .ok s' ∧
      Between rt request sampleRate channels frames (stream ++ chunks.flatten) s' := by
  induction chunks generalizing s stream with
  | nil => exact ⟨s, rfl, by rwa [List.flatten_nil, List.append_nil]⟩
  | cons samples rest ih =>
    obtain ⟨s₁, event, hrun, hbetween⟩ := processAudioChunk_between hacc hpositive hchannels h
      (hchunks samples List.mem_cons_self)
    obtain ⟨s₂, hrest, hlast⟩ := ih hbetween fun c hc => hchunks c (List.mem_cons_of_mem _ hc)
    refine ⟨s₂, ?_, ?_⟩
    · rw [feedAll, hrun]
      exact hrest
    · rwa [List.flatten_cons, ← List.append_assoc]

end

/-- The number of windows of the given size, with a shorter rest. -/
def windowCount (size length : ℕ) : ℕ := (length + size - 1) / size

/-- The windows of a stream: the slices of the given number of frames, and the rest. -/
def windowsOf (sampleRate : ℤ) (channels frames : ℕ) (stream : List Sample) :
    List (AudioBuffer Sample) :=
  (Blocks.rowsOf (frames * channels) (windowCount (frames * channels) stream.length) stream).map
    fun samples => ⟨sampleRate, channels, samples⟩

def resultOf (rt : Runtime Sample F) (request : TaskRequest Sample)
    (windows : List (AudioBuffer Sample)) : TaskResult :=
  ⟨some ((spokenAfter rt request windows).result.textOutput.getD
    ⟨[], (request.textInput.map Transcript.language).getD []⟩)⟩

theorem finish_eq (h : Holds rt request sampleRate channels frames stream k s) :
    s.finish.2 = resultOf rt request s.transcribed ∧ s.finish.1.transcribed = s.transcribed := by
  constructor
  · have hresult : s.streamingResult = (spokenAfter rt request s.transcribed).result :=
      congrArg Spoken.result h.spoken
    rw [Session.finish, resultOf, ← hresult, h.asked]
  · rw [Session.finish]
    dsimp only
    split_ifs <;> rfl

theorem finalize_between (hacc : Accepts rt request sampleRate frames) (hpositive : 0 < sampleRate)
    (hchannels : 0 < channels) (h : Between rt request sampleRate channels frames stream s) :
    (s.finalize rt).map (fun last => (last.2, last.1.transcribed)) =
      if stream = [] then .error (bytes "Qwen3 ASR finalize() requires streamed audio")
      else .ok (resultOf rt request (windowsOf sampleRate channels frames stream),
        windowsOf sampleRate channels frames stream) := by
  have hsize : 0 < frames * channels := Nat.mul_pos hacc.frames_pos hchannels
  have hdrained : s.streamingAudioOffsetValues = s.streamingAudio.samples.length ∧
      s.streamingWindowsProcessed = 0 ↔ stream = [] := by
    have hpending := h.holds.pending.1
    have hoffset := h.holds.offset
    rw [h.holds.processed, ← List.length_eq_zero_iff]
    constructor
    · rintro ⟨hread, hzero⟩
      rw [hzero, Nat.zero_mul] at hpending
      omega
    · intro hempty
      rw [hempty, Nat.zero_div]
      omega
  rw [Session.finalize, Session.requirePrepared, if_pos h.holds.prepared]
  dsimp only [bind, Except.bind]
  rw [if_neg (by simp [h.holds.streaming]),
    if_neg (by simp [h.holds.started]),
    if_neg (Nat.not_lt.mpr h.holds.offset)]
  by_cases hempty : stream = []
  · rw [if_pos (hdrained.mpr hempty), if_pos hempty]
    rfl
  · rw [if_neg (hdrained.not.mpr hempty), if_neg hempty]
    obtain ⟨hrate, hsame⟩ : s.streamingAudio.sampleRate = sampleRate ∧
        s.streamingAudio.channels = channels := by
      rcases h.formatted with ⟨-, hnone⟩ | hformat
      · exact absurd hnone hempty
      · exact hformat
    obtain ⟨k', s', event, hrun, hholds, -, -, hbegun, -, hfinal⟩ :=
      processAvailable_holds hacc hpositive hchannels true hrate hsame h.holds
        (Nat.div_mul_le_self ..)
    have hcovered := hfinal rfl
    have hk : windowCount (frames * channels) stream.length = k' := by
      apply Nat.div_eq_of_lt_le
      · omega
      · rw [Nat.succ_mul]
        omega
    obtain ⟨hresult, htranscribed⟩ := finish_eq hholds
    have hwindows : s'.transcribed = windowsOf sampleRate channels frames stream := by
      rw [windowsOf, hk, hholds.windows]
    rw [hrun, ← hwindows, ← hresult, ← htranscribed]
    rfl

theorem windowsOf_flatten (hsize : 0 < frames * channels) (stream : List Sample) :
    ((windowsOf sampleRate channels frames stream).map AudioBuffer.samples).flatten = stream := by
  have hcovered : stream.length ≤
      windowCount (frames * channels) stream.length * (frames * channels) := by
    have hdiv := Nat.div_add_mod (stream.length + frames * channels - 1) (frames * channels)
    have hmod := Nat.mod_lt (stream.length + frames * channels - 1) hsize
    rw [Nat.mul_comm] at hdiv
    rw [windowCount]
    omega
  rw [windowsOf, List.map_map]
  change ((Blocks.rowsOf _ _ stream).map id).flatten = stream
  rw [List.map_id, Blocks.flatten_rowsOf, List.take_of_length_le hcovered]

theorem startStream_between (rt : Runtime Sample F) (sampleRate : ℤ) (channels frames : ℕ)
    {session : Session Sample} (hstart : session.startStream request = .ok s) :
    Between rt s.streamingRequest sampleRate channels frames [] s ∧
      s.streamingRequest.options = request.options ∧
      ∀ audio, itemRequest s.streamingRequest audio = itemRequest request audio := by
  rw [Session.startStream, Session.requirePrepared] at hstart
  obtain ⟨_, hprepared, hstart⟩ := except_bind_ok hstart
  split_ifs at hprepared with hready
  split_ifs at hstart with hmode
  obtain ⟨returnTimestamps, -, hstart⟩ := except_bind_ok hstart
  split_ifs at hstart
  obtain ⟨s₀, hreset, hstart⟩ := except_bind_ok hstart
  rw [Session.reset, Session.requirePrepared, if_pos hready] at hreset
  obtain rfl := Except.ok.inj hreset
  obtain rfl := Except.ok.inj hstart
  refine ⟨⟨?_, .inl ⟨rfl, rfl⟩⟩, rfl, fun _ => rfl⟩
  rw [List.length_nil, Nat.zero_div]
  exact {
    prepared := hready
    streaming := Bool.not_eq_false _ |>.mp hmode
    started := rfl
    asked := rfl
    offset := Nat.le_refl 0
    layout := ⟨Nat.dvd_zero _, Nat.dvd_zero _⟩
    unread := List.drop_nil.symm
    windows := rfl
    processed := rfl
    spoken := rfl }

theorem dvd_length_flatten {n : ℕ} (h : ∀ samples ∈ chunks, n ∣ samples.length) :
    n ∣ chunks.flatten.length := by
  induction chunks with
  | nil => exact Nat.dvd_zero n
  | cons samples rest ih =>
    rw [List.flatten_cons, List.length_append]
    exact Nat.dvd_add (h samples List.mem_cons_self)
      (ih fun other hmem => h other (List.mem_cons_of_mem _ hmem))

/-- However a stream is cut into chunks, its windows are transcribed one after the other, and the
result is that of the stream in one chunk. -/
theorem stream_is_transcribed {session : Session Sample} {channels frames : ℤ}
    (hstart : session.startStream request = .ok s) (hrate : 0 < sampleRate)
    (hchannels : 0 < channels) (hwindow : windowFrames rt request.options sampleRate = .ok frames)
    (hrequest : ∀ audio, ∃ asrRequest, makeRequest rt (itemRequest request audio) = .ok asrRequest)
    {chunks : List (List Sample)}
    (hchunks : ∀ samples ∈ chunks, samples.length % channels.toNat = 0) :
    transcribe rt sampleRate channels s chunks =
        transcribe rt sampleRate channels s [chunks.flatten] ∧
      (chunks.flatten ≠ [] → ∃ result, transcribe rt sampleRate channels s chunks = .ok (result,
        windowsOf sampleRate channels.toNat frames.toNat chunks.flatten)) ∧
      ((windowsOf sampleRate channels.toNat frames.toNat chunks.flatten).map
        AudioBuffer.samples).flatten = chunks.flatten := by
  obtain ⟨channels, rfl⟩ := Int.eq_ofNat_of_zero_le hchannels.le
  have hpos : 0 < channels := by omega
  have hframes : 0 < frames := by
    rw [windowFrames] at hwindow
    obtain ⟨seconds, -, hwindow⟩ := except_bind_ok hwindow
    dsimp only at hwindow
    split_ifs at hwindow
    have := Except.ok.inj hwindow
    omega
  obtain ⟨frames, rfl⟩ := Int.eq_ofNat_of_zero_le hframes.le
  rw [Int.toNat_natCast] at hchunks ⊢
  rw [Int.toNat_natCast]
  obtain ⟨hbetween, hoptions, hitem⟩ := startStream_between rt sampleRate channels frames hstart
  have hacc : Accepts rt s.streamingRequest sampleRate frames :=
    ⟨hoptions ▸ hwindow, fun audio => (hitem audio).symm ▸ hrequest audio⟩
  have hrun : ∀ chunks : List (List Sample), (∀ samples ∈ chunks, channels ∣ samples.length) →
      transcribe rt sampleRate channels s chunks = if chunks.flatten = [] then
          .error (bytes "Qwen3 ASR finalize() requires streamed audio")
        else .ok (resultOf rt s.streamingRequest
            (windowsOf sampleRate channels frames chunks.flatten),
          windowsOf sampleRate channels frames chunks.flatten) := by
    intro chunks hchunks
    obtain ⟨s', hfeed, hbetween'⟩ := feedAll_between hacc hrate hpos hbetween hchunks
    rw [List.nil_append] at hbetween'
    rw [transcribe, hfeed, ← finalize_between hacc hrate hpos hbetween']
    dsimp only [bind, Except.bind]
    cases s'.finalize rt <;> rfl
  have hdvd : ∀ samples ∈ chunks, channels ∣ samples.length :=
    fun samples hmem => Nat.dvd_of_mod_eq_zero (hchunks samples hmem)
  have hflatten := dvd_length_flatten hdvd
  refine ⟨?_, fun hne => ?_, windowsOf_flatten (Nat.mul_pos (by omega) hpos) _⟩
  · rw [hrun chunks hdvd, hrun [chunks.flatten] (by simpa using hflatten), List.flatten_singleton]
  · rw [hrun chunks hdvd, if_neg hne]
    exact ⟨_, rfl⟩

end Proofs

/-- A recogniser that hears the number of values of a window, in windows of two frames. -/
def counting : Runtime ℕ ℕ where
  runSingle asrRequest := ⟨some ⟨bytes (toString asrRequest.audio.samples.length), bytes "en"⟩⟩
  maxNewTokens := 512
  parseIntValue _ key := .error (key ++ bytes " must be an integer")
  parseFloatValue _ key := .error (key ++ bytes " must be a float")
  defaultStreamingWindowSeconds := 2
  positive seconds := decide (0 < seconds)
  llround seconds sampleRate := seconds * sampleRate

def readySession : Session ℕ :=
  ⟨true, true, false, ⟨none, none, fun _ => none⟩, ⟨none⟩, ⟨0, 1, []⟩, 0, [], 0, 0, false, [], []⟩

theorem stream_is_transcribed_counting : ∃ s,
    readySession.startStream ⟨none, none, fun _ => none⟩ = .ok s ∧
      transcribe counting 1 1 s [[1], [], [2, 3]] = transcribe counting 1 1 s [[1, 2, 3]] ∧
      ∃ result, transcribe counting 1 1 s [[1], [], [2, 3]] =
        .ok (result, [⟨1, 1, [1, 2]⟩, ⟨1, 1, [3]⟩]) := by
  obtain ⟨s, hstart⟩ : ∃ s, readySession.startStream ⟨none, none, fun _ => none⟩ = .ok s :=
    ⟨_, rfl⟩
  have hwindow : windowFrames counting (fun _ => none) 1 = .ok 2 := rfl
  have hchunks : ∀ samples ∈ [[1], [], [2, 3]], samples.length % (1 : ℤ).toNat = 0 := by decide
  obtain ⟨hsame, hwindows, -⟩ := stream_is_transcribed hstart Int.one_pos Int.one_pos hwindow
    (fun _ => ⟨_, rfl⟩) hchunks
  exact ⟨s, hstart, hsame, hwindows (by decide)⟩

end FastTts.AsrStream
