import FastTts.TextChunks
import FastTts.TtsSession

/-!
# The life of a stream

`start_stream` marks the session as active, reads the options and cuts the text, and produces the
audio under a catch block that clears the marks. What is read before the block is not covered: if it
throws, the session stays active, and `finish_stream` waits for a stream that nobody generates.
-/

namespace FastTts.StreamLifecycle

open SpeechStream hiding Options
open Tasks TtsSession

/-- How a talker goes on: it asks before each frame whether the stream is cancelled, and may throw
before it asks or after. -/
inductive Talking
  | throws (what : Exception)
  | throwsAsked (what : Exception)
  | reachesLimit
  | endsAsked
  | frame (codes : List Int32) (rest : Talking)

structure Engine (Sample Generation Embedding Prefill : Type) extends
    Runtime Sample Generation Embedding Prefill where
  talking : Prefill → Generation → Talking
  releaseStepGraph : Except Exception Unit

structure StreamEvent (Sample : Type) where
  audioOutput : Option (AudioBuffer Sample)
  isFinal : Bool

structure TaskResult (Sample : Type) where
  audioOutput : Option (AudioBuffer Sample)

/-- The code around a session: it takes the events, and cancels the stream at any moment between
two loads of the flag. -/
structure Outside (Sample W : Type) where
  sink : Option (StreamEvent Sample → W → Except Exception Unit × W)
  cancels : W → Bool × W

structure Session (Sample W : Type) where
  streamActive : Bool
  streamCancelled : Bool
  streamingResult : Option (TaskResult Sample)
  world : W

def Session.fresh {Sample W : Type} (world : W) : Session Sample W := ⟨false, false, none, world⟩

abbrev Action (Sample W : Type) := EStateM Exception (Session Sample W)

variable {Sample Generation Embedding Prefill W : Type}

/-! ## The calls of a session -/

def orThrow {α : Type} : Except Exception α → Action Sample W α
  | .ok a => pure a
  | .error what => throw what

def Session.reset (s : Session Sample W) : Session Sample W :=
  { s with streamCancelled := true, streamingResult := none, streamActive := false }

def Session.cancelStream (s : Session Sample W) : Session Sample W :=
  { s with streamCancelled := true }

def finishStream : Action Sample W (TaskResult Sample) := do
  let s ← get
  if s.streamActive then throw (bytes "Qwen3 TTS stream is still generating")
  else match s.streamingResult with
    | none => throw (bytes "Qwen3 TTS streaming has not been started")
    | some result =>
      modify fun s => { s with streamingResult := none }
      return result

/-! ## Production -/

def loadCancelled (outside : Outside Sample W) : Action Sample W Bool := do
  let s ← get
  let (comes, world) := outside.cancels s.world
  set { s with world, streamCancelled := s.streamCancelled || comes }
  return s.streamCancelled || comes

def sendEvent (outside : Outside Sample W) (event : StreamEvent Sample) : Action Sample W Unit :=
  match outside.sink with
  | none => pure ()
  | some sink => do
    let s ← get
    let (outcome, world) := sink event s.world
    set { s with world }
    orThrow outcome

def emitAudio (outside : Outside Sample W) (accumulate : Bool) (st : Streaming Sample)
    (audio : AudioBuffer Sample) : Action Sample W (Streaming Sample) := do
  let st' ← orThrow (TtsSession.emitAudio accumulate st audio)
  if audio.samples ≠ [] then sendEvent outside ⟨some audio, false⟩
  return st'

/-- What a call of the decoder returns is emitted. -/
def emitReturned (outside : Outside Sample W) (accumulate : Bool) (st : Streaming Sample)
    (call : StreamDecoder Sample × Except Exception (Option (AudioBuffer Sample))) :
    Action Sample W (Streaming Sample) := do
  match ← orThrow call.2 with
  | some audio => emitAudio outside accumulate { st with decoder := some call.1 } audio
  | none => return { st with decoder := some call.1 }

def generateStreaming (outside : Outside Sample W) (accumulate : Bool) (d : StreamDecoder Sample)
    (st : Streaming Sample) : Talking → Action Sample W (Streaming Sample)
  | .throws what => throw what
  | .reachesLimit => return st
  | .throwsAsked what => do
    if ← loadCancelled outside then return st else throw what
  | .endsAsked => do
    let _ ← loadCancelled outside
    return st
  | .frame codes rest => do
    if ← loadCancelled outside then return st
    else
      let st ← emitReturned outside accumulate st (d.pushFrame codes)
      if ← loadCancelled outside then return st
      else generateStreaming outside accumulate (d.pushFrame codes).1 st rest

variable (engine : Engine Sample Generation Embedding Prefill) (outside : Outside Sample W)

def synthesizePrefill (options : SpeechStream.Options) (accumulate : Bool) (st : Streaming Sample)
    (prefill : Prefill) (generation : Generation) (reference : Option SpeechCodes) :
    Action Sample W (Streaming Sample) := do
  let d ← orThrow (streamDecoder engine.toRuntime options st reference)
  generateStreaming outside accumulate d { st with decoder := some d }
    (engine.talking prefill generation)

def streamChunks (options : SpeechStream.Options) (accumulate : Bool)
    (prompt : Option (VoicePrompt Embedding)) :
    Streaming Sample → List (TaskRequest Sample) → Action Sample W (Streaming Sample)
  | st, [] => return st
  | st, chunkRequest :: rest => do
    if ← loadCancelled outside then return st
    else
      let request ← orThrow (makeRequest engine.toRuntime chunkRequest)
      let prefill ← orThrow (engine.buildPrefill request prompt)
      let st ← synthesizePrefill engine outside options accumulate st prefill request.generation
        (prompt.bind VoicePrompt.referenceCodes)
      streamChunks options accumulate prompt st rest

def flushStream (accumulate : Bool) (st : Streaming Sample) : Action Sample W (Streaming Sample) :=
  do
  if ← loadCancelled outside then return st
  else match st.decoder with
    | none => return st
    | some d => emitReturned outside accumulate st d.flush

/-- The result is stored before the sink hears that the stream has ended. -/
def concludeStream (accumulate : Bool) (st : Streaming Sample) : Action Sample W Unit := do
  orThrow engine.releaseStepGraph
  modify fun s => { s with
    streamingResult := some ⟨if accumulate then some st.accumulated else none⟩
    streamActive := false }
  sendEvent outside ⟨none, true⟩

/-- What is read of a request before the audio is produced. -/
structure Setup (Sample : Type) where
  options : SpeechStream.Options
  accumulate : Bool
  chunkRequests : List (TaskRequest Sample)

def chunkTextRequest (request : TaskRequest Sample) (codepointBudget : ℤ) :
    Except Exception (List (TaskRequest Sample)) :=
  match request.textInput with
  | none => .ok [request]
  | some text => do
    let chunks ← (TextChunks.splitTextChunks text.text codepointBudget .default).mapError bytes
    if chunks = [] then return [request]
    else return chunks.map fun chunk =>
      { request with textInput := some { text with text := chunk } }

def setup (request : TaskRequest Sample) : Except Exception (Setup Sample) := do
  let options ← streamDecoderOptions engine.toRuntime request.options
  let accumulate ← streamAccumulate request.options
  let codepointBudget ← textChunkSize engine.toRuntime request.options
  let chunkRequests ← chunkTextRequest request codepointBudget
  return ⟨options, accumulate, chunkRequests⟩

/-- The block under the catch. -/
def produce (setup : Setup Sample) : Action Sample W Unit := do
  let clone ← orThrow (requireVoiceClone engine.toRuntime setup.chunkRequests)
  let prompt ← orThrow (clone.mapM engine.buildVoicePrompt)
  let st ← streamChunks engine outside setup.options setup.accumulate prompt
    ⟨none, ⟨24000, 1, []⟩, []⟩ setup.chunkRequests
  let st ← flushStream outside setup.accumulate st
  concludeStream engine outside setup.accumulate st

def Session.abandoned (s : Session Sample W) : Session Sample W :=
  { s with streamActive := false, streamingResult := none }

def startStream (request : TaskRequest Sample) : Action Sample W Unit := do
  orThrow (engine.requirePrepared (bytes "Qwen3 TTS start_stream()"))
  if engine.mode ≠ .streaming then
    throw (bytes "Qwen3 TTS start_stream() requires a streaming session")
  else
    modify Session.reset
    modify fun s => { s with streamActive := true, streamCancelled := false }
    let setup ← orThrow (setup engine request)
    tryCatch (produce engine outside setup) fun what => do
      modify Session.abandoned
      throw what

/-! ## What a call leaves behind -/

/-- Nothing is active, and there is no result. -/
def Session.Idle (s : Session Sample W) : Prop :=
  s.streamActive = false ∧ s.streamingResult = none

/-- The session as it should be left: idle by an exception, with one result by a return. -/
def LeftClean : EStateM.Result Exception (Session Sample W) Unit → Prop
  | .error _ s =>
    s.Idle ∧ finishStream s = .error (bytes "Qwen3 TTS streaming has not been started") s ∧
      ∀ later, startStream engine outside later s =
        startStream engine outside later (Session.fresh s.world)
  | .ok () s =>
    ∃ result s', finishStream s = .ok result s' ∧
      finishStream s' = .error (bytes "Qwen3 TTS streaming has not been started") s'

variable {s s' : Session Sample W}

theorem finishStream_idle (h : s.Idle) :
    finishStream s = .error (bytes "Qwen3 TTS streaming has not been started") s := by
  obtain ⟨active, cancelled, result, world⟩ := s
  obtain ⟨rfl, rfl⟩ := h
  rfl

theorem finishStream_result {result : TaskResult Sample} (hactive : s.streamActive = false)
    (hresult : s.streamingResult = some result) :
    finishStream s = .ok result { s with streamingResult := none } := by
  obtain ⟨active, cancelled, stored, world⟩ := s
  cases hactive
  cases hresult
  rfl

theorem sendEvent_keeps {event : StreamEvent Sample} (h : sendEvent outside event s = .ok () s') :
    s'.streamActive = s.streamActive ∧ s'.streamingResult = s.streamingResult := by
  unfold sendEvent at h
  cases hsink : outside.sink with
  | none =>
    rw [hsink] at h
    cases h
    exact ⟨rfl, rfl⟩
  | some sink =>
    rw [hsink] at h
    change (orThrow (sink event s.world).1 : Action Sample W Unit)
      { s with world := (sink event s.world).2 } = .ok () s' at h
    cases hsent : (sink event s.world).1 with
    | error what =>
      rw [hsent] at h
      exact nomatch h
    | ok _ =>
      rw [hsent] at h
      cases h
      exact ⟨rfl, rfl⟩

theorem concludeStream_ok {accumulate : Bool} {st : Streaming Sample}
    (h : concludeStream engine outside accumulate st s = .ok () s') :
    s'.streamActive = false ∧ ∃ result, s'.streamingResult = some result := by
  unfold concludeStream at h
  cases hrelease : engine.releaseStepGraph with
  | error what =>
    rw [hrelease] at h
    exact nomatch h
  | ok _ =>
    rw [hrelease] at h
    obtain ⟨hactive, hresult⟩ := sendEvent_keeps outside h
    exact ⟨hactive, _, hresult⟩

theorem bind_ok {α β : Type} {m : Action Sample W α} {f : α → Action Sample W β} {b : β}
    (h : (m >>= f) s = .ok b s') : ∃ a between, m s = .ok a between ∧ f a between = .ok b s' := by
  change EStateM.bind m f s = .ok b s' at h
  unfold EStateM.bind at h
  cases hm : m s with
  | error what between =>
    rw [hm] at h
    exact nomatch h
  | ok a between =>
    rw [hm] at h
    exact ⟨a, between, rfl, h⟩

theorem produce_ok {set : Setup Sample} (h : produce engine outside set s = .ok () s') :
    s'.streamActive = false ∧ ∃ result, s'.streamingResult = some result := by
  obtain ⟨clone, s₁, -, h⟩ := bind_ok h
  obtain ⟨prompt, s₂, -, h⟩ := bind_ok h
  obtain ⟨st, s₃, -, h⟩ := bind_ok h
  obtain ⟨st', s₄, -, h⟩ := bind_ok h
  exact concludeStream_ok engine outside h

/-! ## A call of `start_stream` -/

def generateStream (request : TaskRequest Sample) (world : W) :
    EStateM.Result Exception (Session Sample W) Unit :=
  match setup engine request with
  | .error what => .error what ⟨true, false, none, world⟩
  | .ok set => match produce engine outside set ⟨true, false, none, world⟩ with
    | .error what s => .error what s.abandoned
    | .ok () s => .ok () s

/-- The options have values that can be read, and the text can be cut. -/
structure Readable (request : TaskRequest Sample) : Prop where
  decoder : ∃ options, streamDecoderOptions engine.toRuntime request.options = .ok options
  accumulate : ∃ accumulate, streamAccumulate request.options = .ok accumulate
  text : ∃ budget, textChunkSize engine.toRuntime request.options = .ok budget ∧
    ∀ text, request.textInput = some text →
      ∃ chunks, TextChunks.splitTextChunks text.text budget .default = .ok chunks

theorem chunkTextRequest_ok_iff (request : TaskRequest Sample) (budget : ℤ) :
    (∃ requests, chunkTextRequest request budget = .ok requests) ↔
      ∀ text, request.textInput = some text →
        ∃ chunks, TextChunks.splitTextChunks text.text budget .default = .ok chunks := by
  unfold chunkTextRequest
  cases htext : request.textInput with
  | none => simp
  | some text =>
    cases hsplit : TextChunks.splitTextChunks text.text budget .default with
    | error what => simp [hsplit, Except.mapError, bind, Except.bind]
    | ok chunks =>
      simp only [hsplit, Except.mapError, bind, Except.bind, Option.some.injEq]
      refine iff_of_true ?_ fun other hother => ⟨chunks, hother ▸ hsplit⟩
      split_ifs <;> exact ⟨_, rfl⟩

theorem setup_ok_iff (request : TaskRequest Sample) :
    (∃ set, setup engine request = .ok set) ↔ Readable engine request := by
  constructor
  · rintro ⟨set, h⟩
    obtain ⟨options, hoptions, h⟩ := except_bind_ok h
    obtain ⟨accumulate, haccumulate, h⟩ := except_bind_ok h
    obtain ⟨budget, hbudget, h⟩ := except_bind_ok h
    obtain ⟨requests, hrequests, -⟩ := except_bind_ok h
    exact ⟨⟨options, hoptions⟩, ⟨accumulate, haccumulate⟩, budget, hbudget,
      (chunkTextRequest_ok_iff request budget).mp ⟨requests, hrequests⟩⟩
  · rintro ⟨⟨options, hoptions⟩, ⟨accumulate, haccumulate⟩, budget, hbudget, htext⟩
    obtain ⟨requests, hrequests⟩ := (chunkTextRequest_ok_iff request budget).mpr htext
    refine ⟨⟨options, accumulate, requests⟩, ?_⟩
    simp only [setup, hoptions, haccumulate, hbudget, hrequests, bind, Except.bind]
    rfl

variable {engine}

section

variable (hprepared : engine.prepared = true) (hmode : engine.mode = .streaming)
  (request : TaskRequest Sample) (s : Session Sample W)
include hprepared hmode

theorem startStream_eq :
    startStream engine outside request s = generateStream engine outside request s.world := by
  have hready : engine.requirePrepared (bytes "Qwen3 TTS start_stream()") = .ok () := by
    rw [Runtime.requirePrepared, if_pos hprepared]
  unfold startStream generateStream
  rw [hready, if_neg (not_not_intro hmode)]
  cases hsetup : setup engine request with
  | error what => rfl
  | ok set =>
    change EStateM.tryCatch (produce engine outside set) _ ⟨true, false, none, s.world⟩ = _
    unfold EStateM.tryCatch
    dsimp only
    cases hproduce : produce engine outside set ⟨true, false, none, s.world⟩ with
    | error what s' => rfl
    | ok _ s' => rfl

theorem startStream_fresh :
    startStream engine outside request s =
      startStream engine outside request (Session.fresh s.world) := by
  rw [startStream_eq outside hprepared hmode, startStream_eq outside hprepared hmode]
  rfl

/-- Exactly the calls whose options and text can be read leave the session clean. -/
theorem startStream_leaves_clean_iff :
    LeftClean engine outside (startStream engine outside request s) ↔
      Readable engine request := by
  rw [startStream_eq outside hprepared hmode, ← setup_ok_iff]
  unfold generateStream
  cases hsetup : setup engine request with
  | error what =>
    constructor
    · rintro ⟨⟨hactive, -⟩, -⟩
      exact nomatch hactive
    · rintro ⟨set, hset⟩
      exact nomatch hset
  | ok set =>
    refine iff_of_true ?_ ⟨set, rfl⟩
    dsimp only
    cases hproduce : produce engine outside set ⟨true, false, none, s.world⟩ with
    | error what s' =>
      have hidle : s'.abandoned.Idle := ⟨rfl, rfl⟩
      exact ⟨hidle, finishStream_idle hidle, fun later =>
        startStream_fresh outside hprepared hmode later s'.abandoned⟩
    | ok _ s' =>
      obtain ⟨hactive, result, hresult⟩ := produce_ok engine outside hproduce
      exact ⟨result, _, finishStream_result hactive hresult, finishStream_idle ⟨hactive, rfl⟩⟩

end

def zeroNarrator : Engine Int32 Unit Unit Unit where
  toRuntime := { narrator .voiceDesign [bytes "One. Two."] with
    mode := .streaming
    parseI64Value := fun _ _ => .ok 0 }
  talking _ _ := .frame [1] .endsAsked
  releaseStepGraph := .ok ()

def noFrames : TaskRequest Int32 :=
  { told with options := fun key => if key = bytes "chunk_frames" then some (bytes "0") else none }

def quiet : Outside Int32 Unit := ⟨none, fun _ => (false, ())⟩

theorem startStream_leaves_clean_told :
    zeroNarrator.prepared = true ∧ zeroNarrator.mode = .streaming ∧
      (LeftClean zeroNarrator quiet (startStream zeroNarrator quiet told (Session.fresh ())) ↔
        Readable zeroNarrator told) :=
  ⟨rfl, rfl, startStream_leaves_clean_iff quiet rfl rfl told (Session.fresh ())⟩

/-- Chunks of no frames are refused before the catch block, and the session stays active. -/
theorem startStream_left_active :
    ¬ ∀ (engine : Engine Int32 Unit Unit Unit) (outside : Outside Int32 Unit)
      (request : TaskRequest Int32) (s : Session Int32 Unit), engine.prepared = true →
      engine.mode = .streaming →
      LeftClean engine outside (startStream engine outside request s) := by
  intro hclaim
  have hclean := hclaim zeroNarrator quiet
    noFrames (Session.fresh ()) rfl rfl
  have hsetup : (setup zeroNarrator noFrames).isOk = false := by decide
  rw [startStream_eq quiet rfl rfl, generateStream] at hclean
  cases hrefused : setup zeroNarrator noFrames with
  | error what =>
    rw [hrefused] at hclean
    obtain ⟨⟨hactive, -⟩, -⟩ := hclean
    exact nomatch hactive
  | ok set =>
    rw [hrefused] at hsetup
    exact nomatch hsetup

/-! ## Runs of calls -/

inductive Call (Sample : Type)
  | start (request : TaskRequest Sample)
  | cancel
  | finish
  | reset

variable (engine) {engine}

end FastTts.StreamLifecycle
