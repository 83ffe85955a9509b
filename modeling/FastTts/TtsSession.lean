import FastTts.Tasks

/-!
# Offline and streaming synthesis

A text is synthesised chunk by chunk. The offline session decodes the codec frames of each text
chunk behind the reference codes, and joins the audio. The streaming session hands the frames of all
text chunks to one stream decoder, which is created behind the reference codes and flushed at the
end: its left context goes on from one text chunk to the next.
-/

namespace FastTts.TtsSession

open SpeechStream hiding Options
open Tasks

inductive Qwen3TTSVariant
  | base
  | voiceDesign
  | customVoice
  deriving DecidableEq

inductive RunMode
  | offline
  | streaming
  deriving DecidableEq

inductive Qwen3VoiceCloneMode
  | icl
  | speakerEmbeddingOnly
  deriving DecidableEq

structure Qwen3VoiceCloneInput (Sample : Type) where
  referenceAudio : AudioBuffer Sample
  referenceText : Bytes
  mode : Qwen3VoiceCloneMode

structure Qwen3CustomVoiceInput where
  speaker : Bytes
  instruct : Bytes

structure Qwen3TTSRequest (Sample Generation : Type) where
  text : Bytes
  language : Bytes
  generation : Generation
  voiceClone : Option (Qwen3VoiceCloneInput Sample)
  voiceDesign : Option Bytes
  customVoice : Option Qwen3CustomVoiceInput

/-- The speaker's audio and cached id, and the `instruct` tag of the style, are optional members of
the request's voice. -/
structure TaskRequest (Sample : Type) where
  textInput : Option Transcript
  audioInput : Option (AudioBuffer Sample)
  speakerAudio : Option (AudioBuffer Sample)
  cachedVoiceId : Option Bytes
  styleInstruct : Option Bytes
  options : Options

structure VoicePrompt (Embedding : Type) where
  referenceCodes : Option SpeechCodes
  embedding : Embedding

/-- What the sessions rest on. The talker gives the codes of each frame. -/
structure Runtime (Sample Generation Embedding Prefill : Type) where
  prepared : Bool
  mode : RunMode
  variant : Qwen3TTSVariant
  numCodeGroups : ℤ
  hasVoiceEncoders : Bool
  parseI64Value : Bytes → Bytes → Except Exception ℤ
  stoll : Bytes → Except Exception ℤ
  splitTextChunks : Bytes → ℤ → List Bytes
  generationOptions : Options → Except Exception Generation
  buildVoicePrompt : Qwen3VoiceCloneInput Sample → Except Exception (VoicePrompt Embedding)
  buildPrefill : Qwen3TTSRequest Sample Generation → Option (VoicePrompt Embedding) →
    Except Exception Prefill
  talker : Prefill → Generation → Except Exception (List (List Int32))
  decode : SpeechCodes → Except Exception (AudioBuffer Sample)

variable {Sample Generation Embedding Prefill : Type}

/-! ## Requests -/

def parseI64Option (rt : Runtime Sample Generation Embedding Prefill) (options : Options)
    (keys : List Bytes) : Except Exception (Option ℤ) := do
  match ← findOptionMatch options keys with
  | some (key, value) => return some (← rt.parseI64Value value key)
  | none => return none

def defaultTextChunkSize : ℤ := 8192

def textChunkSize (rt : Runtime Sample Generation Embedding Prefill) (options : Options) :
    Except Exception ℤ := do
  match ← findOptionMatch options [bytes "text_chunk_size", bytes "chunk_size"] with
  | some (key, value) =>
    let size ← rt.stoll value
    if size ≤ 0 then .error (key ++ bytes " must be positive") else .ok size
  | none => return defaultTextChunkSize

def chunkTextRequest (rt : Runtime Sample Generation Embedding Prefill)
    (request : TaskRequest Sample) (codepointBudget : ℤ) : List (TaskRequest Sample) :=
  match request.textInput with
  | none => [request]
  | some text =>
    if rt.splitTextChunks text.text codepointBudget = [] then [request]
    else (rt.splitTextChunks text.text codepointBudget).map fun chunk =>
      { request with textInput := some { text with text := chunk } }

def voiceClone (request : TaskRequest Sample) :
    Except Exception (Option (Qwen3VoiceCloneInput Sample)) :=
  match request.speakerAudio.or request.audioInput with
  | none => .ok none
  | some referenceAudio => do
    let referenceText := (← findOption request.options [bytes "reference_text"]).getD []
    let xVectorOnly ← match ← findOption request.options
        [bytes "x_vector_only_mode", bytes "speaker_embedding_only"] with
      | some value => parseBoolOption value (bytes "speaker_embedding_only")
      | none => .ok false
    return some ⟨referenceAudio, referenceText, if xVectorOnly then .speakerEmbeddingOnly else .icl⟩

/-- The option, or else the text that the request's voice has. -/
def optionOr (options : Options) (keys : List Bytes) (given : Option Bytes) :
    Except Exception Bytes := do
  let text := (← findOption options keys).getD []
  return if text = [] then given.getD [] else text

def makeRequest (rt : Runtime Sample Generation Embedding Prefill) (request : TaskRequest Sample) :
    Except Exception (Qwen3TTSRequest Sample Generation) :=
  match request.textInput with
  | none => .error (bytes "Qwen3 TTS requires text input")
  | some text => do
    let language := if text.language = [] then bytes "Auto" else text.language
    let generation ← rt.generationOptions request.options
    match rt.variant with
    | .base => return ⟨text.text, language, generation, ← voiceClone request, none, none⟩
    | .voiceDesign =>
      let instruct ← optionOr request.options [bytes "instruction", bytes "instruct"]
        request.styleInstruct
      return ⟨text.text, language, generation, none, some instruct, none⟩
    | .customVoice =>
      let speaker ← optionOr request.options [bytes "speaker"] request.cachedVoiceId
      let instruct ← optionOr request.options [bytes "instruction", bytes "instruct"]
        request.styleInstruct
      return ⟨text.text, language, generation, none, none, some ⟨speaker, instruct⟩⟩

def Runtime.requirePrepared (rt : Runtime Sample Generation Embedding Prefill) (operation : Bytes) :
    Except Exception Unit :=
  if rt.prepared then .ok ()
  else .error (bytes "session prepare() must be called before " ++ operation)

/-! ## Offline -/

def generatedCodes (codeGroups : ℤ) (frames : List (List Int32)) : SpeechCodes :=
  ⟨frames.flatten, frames.length, codeGroups⟩

def decodeAndTrimReference (decode : SpeechCodes → Except Exception (AudioBuffer Sample))
    (reference generated : SpeechCodes) : Except Exception (AudioBuffer Sample) :=
  if reference.codeGroups ≠ generated.codeGroups then
    .error (bytes "Qwen3 speech decoder reference/generated code group mismatch")
  else if reference.frames < 0 ∨ generated.frames < 0 ∨ reference.codeGroups ≤ 0 then
    .error (bytes "Qwen3 speech decoder reference/generated code shape is invalid")
  else if maxInt64 - generated.frames < reference.frames then
    .error (bytes "Qwen3 speech decoder combined frame count is too large")
  else if maxInt64 / reference.codeGroups < reference.frames + generated.frames then
    .error (bytes "Qwen3 speech decoder combined code count is too large")
  else do
    let audio ← decode ⟨reference.codes ++ generated.codes, reference.frames + generated.frames,
      reference.codeGroups⟩
    if maxInt64 / samplesPerCodecFrame < reference.frames then
      .error (bytes "Qwen3 speech decoder reference sample count is too large")
    else if (audio.samples.length : ℤ) < reference.frames * samplesPerCodecFrame then
      .error (bytes "Qwen3 speech decoder reference trim is out of range")
    else .ok { audio with
      samples := audio.samples.drop (reference.frames * samplesPerCodecFrame).toNat }

/-- One text chunk, with the voice prompt that its own request resolves to. -/
def synthesizeChunk (rt : Runtime Sample Generation Embedding Prefill)
    (request : Qwen3TTSRequest Sample Generation) (prompt : Option (VoicePrompt Embedding)) :
    Except Exception (AudioBuffer Sample) := do
  let prefill ← rt.buildPrefill request prompt
  let frames ← rt.talker prefill request.generation
  match prompt.bind VoicePrompt.referenceCodes with
  | some reference =>
    decodeAndTrimReference rt.decode reference (generatedCodes rt.numCodeGroups frames)
  | none => rt.decode (generatedCodes rt.numCodeGroups frames)

/-- The first request of the base variant must bring a voice; the others have none. -/
def requireVoiceClone (rt : Runtime Sample Generation Embedding Prefill)
    (chunkRequests : List (TaskRequest Sample)) :
    Except Exception (Option (Qwen3VoiceCloneInput Sample)) :=
  match rt.variant, chunkRequests with
  | .base, first :: _ => do
    match (← makeRequest rt first).voiceClone with
    | none => .error (bytes "Qwen3 base TTS requires voice clone reference audio")
    | some clone =>
      if rt.hasVoiceEncoders = false then
        .error (bytes "Qwen3 base TTS session is missing voice clone runtimes")
      else .ok (some clone)
  | _, _ => .ok none

def runChunks (rt : Runtime Sample Generation Embedding Prefill) :
    AudioBuffer Sample → List (TaskRequest Sample) → Except Exception (AudioBuffer Sample)
  | merged, [] => .ok merged
  | merged, chunkRequest :: rest => do
    let request ← makeRequest rt chunkRequest
    let prompt ← request.voiceClone.mapM rt.buildVoicePrompt
    let audio ← synthesizeChunk rt request prompt
    runChunks rt (← appendAudioBuffer merged audio) rest

def run (rt : Runtime Sample Generation Embedding Prefill) (request : TaskRequest Sample) :
    Except Exception (AudioBuffer Sample) := do
  rt.requirePrepared (bytes "Qwen3 TTS run")
  if rt.mode ≠ .offline then .error (bytes "Qwen3 TTS run() requires an offline session")
  else
    let chunkRequests := chunkTextRequest rt request (← textChunkSize rt request.options)
    let _ ← requireVoiceClone rt chunkRequests
    runChunks rt ⟨0, 1, []⟩ chunkRequests

/-! ## Streaming -/

def streamDecoderOptions (rt : Runtime Sample Generation Embedding Prefill) (options : Options) :
    Except Exception SpeechStream.Options := do
  let chunkFrames := (← parseI64Option rt options
    [bytes "chunk_frames", bytes "qwen3_tts.chunk_frames"]).getD defaultOptions.chunkFrames
  let contextFrames := (← parseI64Option rt options [bytes "decoder_context_frames",
    bytes "qwen3_tts.decoder_context_frames"]).getD defaultOptions.contextFrames
  if chunkFrames ≤ 0 then .error (bytes "Qwen3 TTS chunk_frames must be positive")
  else if contextFrames < 0 then
    .error (bytes "Qwen3 TTS decoder_context_frames must be non-negative")
  else .ok ⟨chunkFrames, contextFrames⟩

def streamAccumulate (options : Options) : Except Exception Bool := do
  match ← findOption options [bytes "stream_accumulate", bytes "qwen3_tts.stream_accumulate"] with
  | some value => parseBoolOption value (bytes "stream_accumulate")
  | none => return false

/-- The local variables of `start_stream`; `emitted` holds the audio of the events. -/
structure Streaming (Sample : Type) where
  decoder : Option (StreamDecoder Sample)
  accumulated : AudioBuffer Sample
  emitted : List (AudioBuffer Sample)

def Streaming.samples (st : Streaming Sample) : List Sample :=
  (st.emitted.map AudioBuffer.samples).flatten

def emitAudio (accumulate : Bool) (st : Streaming Sample) (audio : AudioBuffer Sample) :
    Except Exception (Streaming Sample) :=
  if audio.samples = [] then .ok st
  else do
    let accumulated ←
      if accumulate then appendAudioBuffer st.accumulated audio else .ok st.accumulated
    return { st with accumulated, emitted := st.emitted ++ [audio] }

/-- What a call of the decoder returns is emitted. -/
def emitReturned (accumulate : Bool) (st : Streaming Sample)
    (call : StreamDecoder Sample × Except Exception (Option (AudioBuffer Sample))) :
    Except Exception (Streaming Sample) := do
  let st := { st with decoder := some call.1 }
  match ← call.2 with
  | some audio => emitAudio accumulate st audio
  | none => return st

def pushFrames (accumulate : Bool) : StreamDecoder Sample → Streaming Sample → List (List Int32) →
    Except Exception (StreamDecoder Sample × Streaming Sample)
  | d, st, [] => .ok (d, st)
  | d, st, codes :: frames => do
    let st ← emitReturned accumulate st (d.pushFrame codes)
    pushFrames accumulate (d.pushFrame codes).1 st frames

/-- The decoder is created by the first text chunk. -/
def streamDecoder (rt : Runtime Sample Generation Embedding Prefill)
    (options : SpeechStream.Options) (st : Streaming Sample) (reference : Option SpeechCodes) :
    Except Exception (StreamDecoder Sample) :=
  match st.decoder with
  | some d => .ok d
  | none => create (some rt.decode) rt.numCodeGroups options reference

def synthesizePrefill (rt : Runtime Sample Generation Embedding Prefill)
    (options : SpeechStream.Options) (accumulate : Bool) (st : Streaming Sample) (prefill : Prefill)
    (generation : Generation) (reference : Option SpeechCodes) :
    Except Exception (Streaming Sample) := do
  let d ← streamDecoder rt options st reference
  let frames ← rt.talker prefill generation
  let (d, st) ← pushFrames accumulate d st frames
  return { st with decoder := some d }

def streamChunks (rt : Runtime Sample Generation Embedding Prefill)
    (options : SpeechStream.Options) (accumulate : Bool) (prompt : Option (VoicePrompt Embedding)) :
    Streaming Sample → List (TaskRequest Sample) → Except Exception (Streaming Sample)
  | st, [] => .ok st
  | st, chunkRequest :: rest => do
    let request ← makeRequest rt chunkRequest
    let prefill ← rt.buildPrefill request prompt
    let st ← synthesizePrefill rt options accumulate st prefill request.generation
      (prompt.bind VoicePrompt.referenceCodes)
    streamChunks rt options accumulate prompt st rest

def flushStream (accumulate : Bool) (st : Streaming Sample) : Except Exception (Streaming Sample) :=
  match st.decoder with
  | none => .ok st
  | some d => emitReturned accumulate st d.flush

/-- A stream that is not cancelled. -/
def startStream (rt : Runtime Sample Generation Embedding Prefill) (request : TaskRequest Sample) :
    Except Exception (Streaming Sample) := do
  rt.requirePrepared (bytes "Qwen3 TTS start_stream()")
  if rt.mode ≠ .streaming then
    .error (bytes "Qwen3 TTS start_stream() requires a streaming session")
  else
    let options ← streamDecoderOptions rt request.options
    let accumulate ← streamAccumulate request.options
    let chunkRequests := chunkTextRequest rt request (← textChunkSize rt request.options)
    let clone ← requireVoiceClone rt chunkRequests
    let prompt ← clone.mapM rt.buildVoicePrompt
    let st ← streamChunks rt options accumulate prompt ⟨none, ⟨24000, 1, []⟩, []⟩ chunkRequests
    flushStream accumulate st

/-! ## The voice of the text chunks -/

variable {chunkRequest : TaskRequest Sample}
  {decode : SpeechCodes → Except Exception (AudioBuffer Sample)} {context : ℕ}

theorem makeRequest_voiceClone {rt : Runtime Sample Generation Embedding Prefill}
    {request : Qwen3TTSRequest Sample Generation} (h : makeRequest rt chunkRequest = .ok request) :
    if rt.variant = .base then voiceClone chunkRequest = .ok request.voiceClone
    else request.voiceClone = none := by
  rw [makeRequest] at h
  cases htext : chunkRequest.textInput with
  | none =>
    rw [htext] at h
    exact nomatch h
  | some text =>
    rw [htext] at h
    obtain ⟨generation, -, h⟩ := except_bind_ok h
    cases hvariant : rt.variant with
    | base =>
      rw [hvariant] at h
      obtain ⟨clone, hclone, h⟩ := except_bind_ok h
      rw [if_pos rfl, hclone, ← Except.ok.inj h]
    | voiceDesign =>
      rw [hvariant] at h
      obtain ⟨instruct, -, h⟩ := except_bind_ok h
      rw [if_neg (by decide), ← Except.ok.inj h]
    | customVoice =>
      rw [hvariant] at h
      obtain ⟨speaker, -, h⟩ := except_bind_ok h
      obtain ⟨instruct, -, h⟩ := except_bind_ok h
      rw [if_neg (by decide), ← Except.ok.inj h]

theorem chunkTextRequest_ne_nil (rt : Runtime Sample Generation Embedding Prefill)
    (request : TaskRequest Sample) (budget : ℤ) : chunkTextRequest rt request budget ≠ [] := by
  rw [chunkTextRequest]
  split
  · exact List.cons_ne_nil _ _
  · split_ifs with hnone
    · exact List.cons_ne_nil _ _
    · exact fun hnil => hnone (List.map_eq_nil_iff.mp hnil)

section

variable {rt : Runtime Sample Generation Embedding Prefill} {request : TaskRequest Sample}
  {budget : ℤ}

theorem chunkTextRequest_mem (h : chunkRequest ∈ chunkTextRequest rt request budget) :
    ∃ text, chunkRequest = { request with textInput := text } := by
  rw [chunkTextRequest] at h
  split at h
  · exact ⟨request.textInput, List.mem_singleton.mp h⟩
  · split_ifs at h
    · exact ⟨request.textInput, List.mem_singleton.mp h⟩
    · obtain ⟨chunk, -, rfl⟩ := List.mem_map.mp h
      exact ⟨_, rfl⟩

theorem voiceClone_of_mem {clone : Option (Qwen3VoiceCloneInput Sample)}
    (h : requireVoiceClone rt (chunkTextRequest rt request budget) = .ok clone)
    (hmem : chunkRequest ∈ chunkTextRequest rt request budget)
    {ttsRequest : Qwen3TTSRequest Sample Generation}
    (hrequest : makeRequest rt chunkRequest = .ok ttsRequest) : ttsRequest.voiceClone = clone := by
  have hown := makeRequest_voiceClone hrequest
  unfold requireVoiceClone at h
  cases hchunks : chunkTextRequest rt request budget with
  | nil => exact absurd hchunks (chunkTextRequest_ne_nil rt request budget)
  | cons first rest =>
    have hfirst : first ∈ chunkTextRequest rt request budget := hchunks ▸ List.mem_cons_self
    rw [hchunks] at h
    by_cases hbase : rt.variant = .base
    · rw [hbase] at h
      rw [if_pos hbase] at hown
      obtain ⟨firstRequest, hmake, hrequired⟩ := except_bind_ok h
      have hgiven := makeRequest_voiceClone hmake
      rw [if_pos hbase] at hgiven
      obtain ⟨text, rfl⟩ := chunkTextRequest_mem hmem
      obtain ⟨firstText, rfl⟩ := chunkTextRequest_mem hfirst
      have hsame : ttsRequest.voiceClone = firstRequest.voiceClone :=
        Except.ok.inj (hown.symm.trans hgiven)
      rw [hsame]
      cases hclone : firstRequest.voiceClone with
      | none =>
        rw [hclone] at hrequired
        exact nomatch hrequired
      | some given =>
        rw [hclone] at hrequired
        dsimp only at hrequired
        split_ifs at hrequired
        exact Except.ok.inj hrequired
    · rw [if_neg hbase] at hown
      rw [hown]
      cases hvariant : rt.variant with
      | base => exact absurd hvariant hbase
      | voiceDesign =>
        rw [hvariant] at h
        exact Except.ok.inj h
      | customVoice =>
        rw [hvariant] at h
        exact Except.ok.inj h

end

/-! ## Codec frames -/

/-- What the code around the sessions does: the decoder looks no further back than the context, its
audio has the format of the model, and codes come in frames of one width. -/
structure Serves (rt : Runtime Sample Generation Embedding Prefill) (groups : ℕ)
    (options : SpeechStream.Options) : Prop where
  positive : 0 < groups
  width : rt.numCodeGroups = groups
  decode : DecodesLocally rt.decode groups options.contextFrames.toNat
  format : ∀ codes audio, rt.decode codes = .ok audio →
    audio.sampleRate = 24000 ∧ audio.channels = 1
  talker : ∀ prefill generation frames, rt.talker prefill generation = .ok frames →
    ∀ codes ∈ frames, codes.length = groups
  prompt : ∀ clone prompt, rt.buildVoicePrompt clone = .ok prompt →
    ∀ codes ∈ prompt.referenceCodes, validateCodes codes groups (bytes "reference codec") = .ok ()

/-- The frames of each text chunk, which are the same in both modes. -/
def chunkFrames (rt : Runtime Sample Generation Embedding Prefill)
    (prompt : Option (VoicePrompt Embedding)) :
    List (TaskRequest Sample) → Except Exception (List (List (List Int32)))
  | [] => .ok []
  | chunkRequest :: rest => do
    let request ← makeRequest rt chunkRequest
    let prefill ← rt.buildPrefill request prompt
    let frames ← rt.talker prefill request.generation
    return frames :: (← chunkFrames rt prompt rest)

/-- The reference codes and the frames of each text chunk of a request. -/
def codecFrames (rt : Runtime Sample Generation Embedding Prefill) (request : TaskRequest Sample) :
    Except Exception (SpeechCodes × List (List (List Int32))) := do
  let chunkRequests := chunkTextRequest rt request (← textChunkSize rt request.options)
  let clone ← requireVoiceClone rt chunkRequests
  let prompt ← clone.mapM rt.buildVoicePrompt
  return ((prompt.bind VoicePrompt.referenceCodes).getD ⟨[], 0, rt.numCodeGroups⟩,
    ← chunkFrames rt prompt chunkRequests)

def extend (history : SpeechCodes) (frames : List (List Int32)) : SpeechCodes :=
  ⟨history.codes ++ frames.flatten, history.frames + frames.length, history.codeGroups⟩

/-- Each text chunk that has frames comes behind the same left context as in a decode of its own. -/
def KeepsContext (options : SpeechStream.Options) (reference : SpeechCodes)
    (chunks : List (List (List Int32))) : Prop :=
  ∀ before chunk after, chunks = before ++ chunk :: after → chunk ≠ [] →
    tailFrames (extend reference before.flatten) options.contextFrames =
      tailFrames reference options.contextFrames

theorem exists_frames {groups : ℕ} {frames : List (List Int32)}
    (h : ∀ codes ∈ frames, codes.length = groups) :
    ∃ framed : List (Frame groups), frames = framed.map Subtype.val := by
  induction frames with
  | nil => exact ⟨[], rfl⟩
  | cons codes frames ih =>
    obtain ⟨framed, hframed⟩ := ih fun c hc => h c (List.mem_cons_of_mem _ hc)
    refine ⟨⟨codes, h codes List.mem_cons_self⟩ :: framed, ?_⟩
    rw [List.map_cons, ← hframed]

theorem generatedCodes_eq {groups : ℕ} (framed : List (Frame groups)) :
    generatedCodes groups (framed.map Subtype.val) = codesOf framed := by
  rw [generatedCodes, codesOf, List.length_map]
  rfl

theorem extend_codesOf {groups : ℕ} (reference framed : List (Frame groups)) :
    extend (codesOf reference) (framed.map Subtype.val) = codesOf (reference ++ framed) := by
  rw [codesOf_append, extend, List.length_map]
  rfl

/-- The audio of a text chunk that is decoded on its own, behind the reference. -/
def ownSamples {groups : ℕ} (decode : SpeechCodes → Except Exception (AudioBuffer Sample))
    (reference chunk : List (Frame groups)) : List Sample :=
  (samplesOf decode (reference ++ chunk)).drop (reference.length * samplesPerCodecFrame.toNat)

section Offline

variable {rt : Runtime Sample Generation Embedding Prefill} {groups : ℕ}
  {options : SpeechStream.Options} {prompt : Option (VoicePrompt Embedding)}
  {reference : List (Frame groups)}

variable {audio : AudioBuffer Sample}

theorem decodeAndTrimReference_samples
    {decode : SpeechCodes → Except Exception (AudioBuffer Sample)} {chunk : List (Frame groups)}
    (h : decodeAndTrimReference decode (codesOf reference) (codesOf chunk) = .ok audio) :
    audio.samples = ownSamples decode reference chunk := by
  rw [decodeAndTrimReference] at h
  split_ifs at h with hgroups hshape hframes hcodes hcount
  · obtain ⟨whole, -, h⟩ := except_bind_ok h
    exact nomatch h
  obtain ⟨whole, hwhole, h⟩ := except_bind_ok h
  split_ifs at h with hrange
  rw [← Except.ok.inj h]
  have hdecode : decode (codesOf (reference ++ chunk)) = .ok whole := by
    rw [codesOf_append]
    exact hwhole
  dsimp only
  rw [ownSamples, samplesOf, hdecode, frames_mul_samples, Int.toNat_natCast]

section

variable (hserves : Serves rt groups options)
  (hreference : (prompt.bind VoicePrompt.referenceCodes).getD ⟨[], 0, groups⟩ = codesOf reference)
include hserves hreference

theorem synthesizeChunk_samples {request : Qwen3TTSRequest Sample Generation}
    (h : synthesizeChunk rt request prompt = .ok audio) :
    ∃ prefill, ∃ chunk : List (Frame groups), rt.buildPrefill request prompt = .ok prefill ∧
      rt.talker prefill request.generation = .ok (chunk.map Subtype.val) ∧
      audio.samples = ownSamples rt.decode reference chunk := by
  obtain ⟨prefill, hprefill, h⟩ := except_bind_ok h
  obtain ⟨frames, hframes, h⟩ := except_bind_ok h
  obtain ⟨chunk, rfl⟩ := exists_frames (hserves.talker _ _ _ hframes)
  refine ⟨prefill, chunk, hprefill, hframes, ?_⟩
  rw [hserves.width, generatedCodes_eq] at h
  cases hcodes : prompt.bind VoicePrompt.referenceCodes with
  | some codes =>
    rw [hcodes] at h hreference
    obtain rfl : codes = codesOf reference := hreference
    exact decodeAndTrimReference_samples h
  | none =>
    rw [hcodes] at h hreference
    have hnone : reference = [] := by
      have hlength := congrArg SpeechCodes.frames hreference
      exact List.length_eq_zero_iff.mp (Int.natCast_eq_zero.mp hlength.symm)
    rw [hnone, ownSamples, List.nil_append, List.length_nil, Nat.zero_mul, List.drop_zero,
      samplesOf]
    dsimp only at h
    rw [h]

theorem runChunks_samples {chunkRequests : List (TaskRequest Sample)}
    (hprompt : ∀ chunkRequest ∈ chunkRequests, ∀ request,
      makeRequest rt chunkRequest = .ok request →
      request.voiceClone.mapM rt.buildVoicePrompt = .ok prompt) {merged : AudioBuffer Sample}
    (h : runChunks rt merged chunkRequests = .ok audio) :
    ∃ chunks : List (List (Frame groups)),
      chunkFrames rt prompt chunkRequests = .ok (chunks.map (List.map Subtype.val)) ∧
      audio.samples = merged.samples ++ (chunks.map (ownSamples rt.decode reference)).flatten := by
  induction chunkRequests generalizing merged with
  | nil =>
    obtain rfl := Except.ok.inj h
    exact ⟨[], rfl, (List.append_nil _).symm⟩
  | cons chunkRequest rest ih =>
    obtain ⟨request, hrequest, h⟩ := except_bind_ok h
    obtain ⟨own, hown, h⟩ := except_bind_ok h
    have hresolved := hprompt chunkRequest List.mem_cons_self request hrequest
    obtain rfl := Except.ok.inj (hresolved.symm.trans hown)
    obtain ⟨one, hone, h⟩ := except_bind_ok h
    obtain ⟨joined, hjoined, h⟩ := except_bind_ok h
    obtain ⟨prefill, chunk, hprefill, htalker, hsamples⟩ :=
      synthesizeChunk_samples hserves hreference hone
    obtain ⟨chunks, hchunks, hrest⟩ :=
      ih (fun r hr => hprompt r (List.mem_cons_of_mem _ hr)) h
    refine ⟨chunk :: chunks, ?_, ?_⟩
    · rw [chunkFrames, hrequest]
      dsimp only [bind, Except.bind]
      rw [hprefill]
      dsimp only
      rw [htalker]
      dsimp only
      rw [hchunks]
      rfl
    · rw [hrest, appendAudioBuffer_samples hjoined, hsamples, List.map_cons, List.flatten_cons,
        List.append_assoc]

end

end Offline

/-! ## The stream -/

theorem decodePending_format {d : StreamDecoder Sample} {audio : AudioBuffer Sample}
    (h : d.decodePending.2 = .ok (some audio)) :
    ∃ whole, d.decode d.window = .ok whole ∧ audio.sampleRate = whole.sampleRate ∧
      audio.channels = whole.channels := by
  rw [StreamDecoder.decodePending] at h
  split_ifs at h with hpending
  · cases Except.ok.inj h
  cases hdecode : d.decode d.window with
  | error what =>
    rw [hdecode] at h
    cases h
  | ok whole =>
    simp only [hdecode] at h
    split_ifs at h with htrim
    obtain rfl := Option.some.inj (Except.ok.inj h)
    exact ⟨whole, rfl, rfl, rfl⟩

theorem decodePending_ok {groups : ℕ} {options : SpeechStream.Options}
    {reference emitted pending : List (Frame groups)} {d : StreamDecoder Sample}
    (hcontext : 0 ≤ options.contextFrames)
    (hdecode : DecodesLocally decode groups options.contextFrames.toNat)
    (h : Follows decode options reference emitted pending d) :
    ∃ result, d.decodePending.2 = .ok result := by
  cases hresult : d.decodePending.2 with
  | ok result => exact ⟨result, rfl⟩
  | error what =>
    have hafter := (decodePending_follows hcontext hdecode h).1.pending
    rw [decodePending_error hresult] at hafter
    have hzero : d.pending.frames = 0 := by
      rw [hafter]
      rfl
    rw [StreamDecoder.decodePending, if_pos hzero] at hresult
    cases hresult

/-- What has been emitted is the audio of the frames that the decoder has decoded; the frames that
it holds are the last ones. -/
structure Emits {groups : ℕ} (decode : SpeechCodes → Except Exception (AudioBuffer Sample))
    (options : SpeechStream.Options) (reference frames held : List (Frame groups))
    (d : StreamDecoder Sample) (st : Streaming Sample) : Prop where
  follows : ∃ emitted, emitted ++ held = frames ∧ Follows decode options reference emitted held d ∧
    samplesOf decode (reference ++ emitted) = samplesOf decode reference ++ st.samples
  format : st.accumulated.sampleRate = 24000 ∧ st.accumulated.channels = 1

section Streaming

variable {rt : Runtime Sample Generation Embedding Prefill} {groups : ℕ}
  {options : SpeechStream.Options} {accumulate : Bool} {reference frames held : List (Frame groups)}
  {d : StreamDecoder Sample} {st : Streaming Sample}

theorem emitAudio_ok {audio : AudioBuffer Sample}
    (hst : st.accumulated.sampleRate = 24000 ∧ st.accumulated.channels = 1)
    (haudio : audio.sampleRate = 24000 ∧ audio.channels = 1) :
    ∃ st', emitAudio accumulate st audio = .ok st' ∧ st'.samples = st.samples ++ audio.samples ∧
      st'.decoder = st.decoder ∧
      st'.accumulated.sampleRate = 24000 ∧ st'.accumulated.channels = 1 := by
  rw [emitAudio]
  by_cases hnone : audio.samples = []
  · rw [if_pos hnone, hnone, List.append_nil]
    exact ⟨st, rfl, rfl, rfl, hst⟩
  · rw [if_neg hnone]
    have hsamples : ((st.emitted ++ [audio]).map AudioBuffer.samples).flatten =
        st.samples ++ audio.samples := by
      rw [List.map_append, List.flatten_append, Streaming.samples]
      simp
    cases accumulate with
    | false => exact ⟨{ st with emitted := st.emitted ++ [audio] }, rfl, hsamples, rfl, hst⟩
    | true =>
      let joined : AudioBuffer Sample :=
        ⟨24000, 1, st.accumulated.samples ++ audio.samples⟩
      have happend : appendAudioBuffer st.accumulated audio = .ok joined := by
        rw [appendAudioBuffer, haudio.1, haudio.2, hst.1, hst.2, if_neg (by decide),
          if_neg (by decide), if_neg (by decide)]
      refine ⟨{ st with accumulated := joined, emitted := st.emitted ++ [audio] }, ?_, hsamples,
        rfl, rfl, rfl⟩
      rw [if_pos rfl, happend]
      rfl

theorem emitReturned_pending (accumulate : Bool) (hserves : Serves rt groups options)
    (hcontext : 0 ≤ options.contextFrames)
    (h : Emits rt.decode options reference frames held d st) :
    ∃ st', emitReturned accumulate st d.decodePending = .ok st' ∧
      st'.decoder = some d.decodePending.1 ∧
      Emits rt.decode options reference frames [] d.decodePending.1 st' := by
  obtain ⟨emitted, rfl, hfollows, hsamples⟩ := h.follows
  obtain ⟨hafter, hdecoded⟩ := decodePending_follows hcontext hserves.decode hfollows
  obtain ⟨result, hresult⟩ := decodePending_ok hcontext hserves.decode hfollows
  have hmore : samplesOf rt.decode (reference ++ (emitted ++ held)) =
      samplesOf rt.decode reference ++ (st.samples ++ returned (.ok result)) := by
    rw [hdecoded, hsamples, hresult, List.append_assoc]
  rw [emitReturned, hresult]
  cases result with
  | none =>
    refine ⟨{ st with decoder := some d.decodePending.1 }, rfl, rfl, ?_, h.format⟩
    refine ⟨emitted ++ held, List.append_nil _, hafter, ?_⟩
    rw [hmore]
    exact congrArg _ (List.append_nil _)
  | some audio =>
    obtain ⟨whole, hwhole, hrate, hchannels⟩ := decodePending_format hresult
    rw [hfollows.decode] at hwhole
    have hformat := hserves.format _ _ hwhole
    rw [← hrate, ← hchannels] at hformat
    have hst : { st with decoder := some d.decodePending.1 }.accumulated.sampleRate = 24000 ∧
        { st with decoder := some d.decodePending.1 }.accumulated.channels = 1 := h.format
    obtain ⟨st', hemit, hemitted, hdecoder, hkept⟩ := emitAudio_ok hst hformat
    refine ⟨st', hemit, hdecoder, ?_, hkept⟩
    refine ⟨emitted ++ held, List.append_nil _, hafter, ?_⟩
    rw [hmore, hemitted]
    rfl

theorem pushFrames_ok (hserves : Serves rt groups options) (hcontext : 0 ≤ options.contextFrames)
    (more : List (Frame groups)) (h : Emits rt.decode options reference frames held d st) :
    ∃ d' st' held', pushFrames accumulate d st (more.map Subtype.val) = .ok (d', st') ∧
      Emits rt.decode options reference (frames ++ more) held' d' st' := by
  induction more generalizing frames held d st with
  | nil =>
    refine ⟨d, st, held, rfl, ?_⟩
    rw [List.append_nil]
    exact h
  | cons frame more ih =>
    obtain ⟨emitted, hframes, hfollows, hsamples⟩ := h.follows
    have hreceived := received_follows hfollows frame
    have hheld : Emits rt.decode options reference (frames ++ [frame]) (held ++ [frame])
        (d.received frame.val) st := by
      refine ⟨⟨emitted, ?_, hreceived, hsamples⟩, h.format⟩
      rw [← hframes, List.append_assoc]
    have hwidth : ¬ (frame.val.length : ℤ) ≠ d.codeGroups := by
      rw [hfollows.codeGroups, frame.property]
      exact fun hne => hne rfl
    rw [List.map_cons, pushFrames, StreamDecoder.pushFrame, if_neg hwidth,
      List.append_cons frames frame more]
    by_cases hchunk : (d.received frame.val).pending.frames < d.options.chunkFrames
    · rw [if_pos hchunk]
      exact ih ⟨hheld.follows, hheld.format⟩
    · rw [if_neg hchunk]
      obtain ⟨st', hemit, -, hemits⟩ := emitReturned_pending accumulate hserves hcontext hheld
      rw [hemit]
      exact ih hemits

/-- Before the first text chunk there is no decoder. -/
def Streams {groups : ℕ} (decode : SpeechCodes → Except Exception (AudioBuffer Sample))
    (options : SpeechStream.Options) (reference frames : List (Frame groups))
    (st : Streaming Sample) : Prop :=
  match st.decoder with
  | some d => ∃ held, Emits decode options reference frames held d st
  | none => frames = [] ∧ st.samples = [] ∧
    st.accumulated.sampleRate = 24000 ∧ st.accumulated.channels = 1

section Chunks

variable {prompt : Option (VoicePrompt Embedding)} {d₀ : StreamDecoder Sample}
  (hserves : Serves rt groups options) (hcontext : 0 ≤ options.contextFrames)
  (hcreate : create (some rt.decode) groups options (prompt.bind VoicePrompt.referenceCodes) =
    .ok d₀)
  (hcreated : Follows rt.decode options reference [] [] d₀)
include hserves hcontext hcreate hcreated

theorem synthesizePrefill_ok {prefill : Prefill} {generation : Generation}
    {chunk : List (Frame groups)}
    (htalker : rt.talker prefill generation = .ok (chunk.map Subtype.val))
    (h : Streams rt.decode options reference frames st) :
    ∃ st', synthesizePrefill rt options accumulate st prefill generation
        (prompt.bind VoicePrompt.referenceCodes) = .ok st' ∧
      Streams rt.decode options reference (frames ++ chunk) st' := by
  have hdecoder : ∃ d held,
      streamDecoder rt options st (prompt.bind VoicePrompt.referenceCodes) = .ok d ∧
      Emits rt.decode options reference frames held d st := by
    rw [Streams] at h
    rw [streamDecoder]
    cases hst : st.decoder with
    | some d =>
      rw [hst] at h
      obtain ⟨held, hemits⟩ := h
      exact ⟨d, held, rfl, hemits⟩
    | none =>
      rw [hst] at h
      obtain ⟨rfl, hnone, hformat⟩ := h
      rw [hserves.width]
      refine ⟨d₀, [], hcreate, ⟨[], rfl, hcreated, ?_⟩, hformat⟩
      rw [hnone, List.append_nil, List.append_nil]
  obtain ⟨d, held, hd, hemits⟩ := hdecoder
  obtain ⟨d', st', held', hpush, hpushed⟩ := pushFrames_ok hserves hcontext chunk hemits
  refine ⟨{ st' with decoder := some d' }, ?_, held', hpushed.follows, hpushed.format⟩
  rw [synthesizePrefill]
  dsimp only [bind, Except.bind]
  rw [hd]
  dsimp only
  rw [htalker]
  dsimp only
  rw [hpush]
  rfl

theorem streamChunks_ok (accumulate : Bool) {chunkRequests : List (TaskRequest Sample)}
    {chunks : List (List (Frame groups))}
    (hchunks : chunkFrames rt prompt chunkRequests = .ok (chunks.map (List.map Subtype.val)))
    (h : Streams rt.decode options reference frames st) :
    ∃ st', streamChunks rt options accumulate prompt st chunkRequests = .ok st' ∧
      Streams rt.decode options reference (frames ++ chunks.flatten) st' := by
  induction chunkRequests generalizing chunks frames st with
  | nil =>
    obtain rfl : chunks = [] := List.map_eq_nil_iff.mp (Except.ok.inj hchunks).symm
    refine ⟨st, rfl, ?_⟩
    rw [List.flatten_nil, List.append_nil]
    exact h
  | cons chunkRequest rest ih =>
    obtain ⟨request, hrequest, hchunks⟩ := except_bind_ok hchunks
    obtain ⟨prefill, hprefill, hchunks⟩ := except_bind_ok hchunks
    obtain ⟨first, hfirst, hchunks⟩ := except_bind_ok hchunks
    obtain ⟨others, hothers, hchunks⟩ := except_bind_ok hchunks
    cases chunks with
    | nil => exact absurd (Except.ok.inj hchunks) (List.cons_ne_nil _ _)
    | cons chunk chunks =>
      obtain ⟨rfl, rfl⟩ := List.cons.inj (Except.ok.inj hchunks)
      obtain ⟨st₁, hone, hstreams⟩ :=
        synthesizePrefill_ok hserves hcontext hcreate hcreated hfirst h
      obtain ⟨st', hrest, hend⟩ := ih hothers hstreams
      refine ⟨st', ?_, ?_⟩
      · rw [streamChunks, hrequest]
        dsimp only [bind, Except.bind]
        rw [hprefill]
        dsimp only
        rw [hone]
        exact hrest
      · rw [List.flatten_cons, ← List.append_assoc]
        exact hend

end Chunks

theorem flushStream_ok (accumulate : Bool) (hserves : Serves rt groups options)
    (hcontext : 0 ≤ options.contextFrames) (h : Streams rt.decode options reference frames st) :
    ∃ st', flushStream accumulate st = .ok st' ∧
      samplesOf rt.decode (reference ++ frames) = samplesOf rt.decode reference ++ st'.samples := by
  rw [Streams] at h
  rw [flushStream]
  cases hst : st.decoder with
  | none =>
    rw [hst] at h
    obtain ⟨rfl, hnone, -⟩ := h
    refine ⟨st, rfl, ?_⟩
    rw [hnone, List.append_nil, List.append_nil]
  | some d =>
    rw [hst] at h
    obtain ⟨held, hemits⟩ := h
    obtain ⟨st', hflush, -, hflushed⟩ := emitReturned_pending accumulate hserves hcontext hemits
    obtain ⟨emitted, rfl, -, hsamples⟩ := hflushed.follows
    refine ⟨st', hflush, ?_⟩
    rw [List.append_nil]
    exact hsamples

end Streaming

/-! ## Both sessions -/

theorem streamDecoderOptions_ok {rt : Runtime Sample Generation Embedding Prefill}
    {options : Options} {parsed : SpeechStream.Options}
    (h : streamDecoderOptions rt options = .ok parsed) :
    0 < parsed.chunkFrames ∧ 0 ≤ parsed.contextFrames := by
  obtain ⟨chunkFrames, -, h⟩ := except_bind_ok h
  obtain ⟨contextFrames, -, h⟩ := except_bind_ok h
  dsimp only at h
  split_ifs at h with hchunk hcontext
  rw [← Except.ok.inj h]
  exact ⟨not_le.mp hchunk, not_lt.mp hcontext⟩

theorem drop_eq_ownSamples {groups : ℕ} (hdecode : DecodesLocally decode groups context)
    {history reference chunk : List (Frame groups)}
    (hsame : chunk ≠ [] → codesOf (history.rtake context) = codesOf (reference.rtake context)) :
    (samplesOf decode (history ++ chunk)).drop (history.length * samplesPerCodecFrame.toNat) =
      ownSamples decode reference chunk := by
  rw [ownSamples]
  by_cases hnone : chunk = []
  · rw [hnone, List.append_nil, List.append_nil, ← hdecode.windows.length,
      ← hdecode.windows.length, List.drop_length, List.drop_length]
  · have hcodes := hsame hnone
    have hlength : (history.rtake context).length = (reference.rtake context).length :=
      Int.ofNat.inj (congrArg SpeechCodes.frames hcodes)
    have hwindow : samplesOf decode (history.rtake context ++ chunk) =
        samplesOf decode (reference.rtake context ++ chunk) := by
      rw [samplesOf, samplesOf, codesOf_append, codesOf_append, hcodes]
    rw [← hdecode.windows.drop_window history chunk, ← hdecode.windows.drop_window reference chunk,
      hwindow, hlength]

theorem samplesOf_chunks {groups : ℕ} (hdecode : DecodesLocally decode groups context)
    {reference : List (Frame groups)} (chunks before : List (List (Frame groups)))
    (hsame : ∀ done chunk after, chunks = done ++ chunk :: after → chunk ≠ [] →
      codesOf ((reference ++ (before ++ done).flatten).rtake context) =
        codesOf (reference.rtake context)) :
    samplesOf decode (reference ++ (before ++ chunks).flatten) =
      samplesOf decode (reference ++ before.flatten) ++
        (chunks.map (ownSamples decode reference)).flatten := by
  induction chunks generalizing before with
  | nil => rw [List.append_nil, List.map_nil, List.flatten_nil, List.append_nil]
  | cons chunk chunks ih =>
    have hfirst : (samplesOf decode (reference ++ before.flatten ++ chunk)).drop
        ((reference ++ before.flatten).length * samplesPerCodecFrame.toNat) =
          ownSamples decode reference chunk := by
      apply drop_eq_ownSamples hdecode
      intro hne
      have htail := hsame [] chunk chunks rfl hne
      rwa [List.append_nil] at htail
    have hrest := ih (before ++ [chunk]) fun done next after hsplit hne => by
      have hnext := hsame (chunk :: done) next after (by rw [hsplit]; rfl) hne
      rwa [List.append_cons] at hnext
    have htake := hdecode.windows.take_append (reference ++ before.flatten) chunk
    have hone : samplesOf decode (reference ++ (before ++ [chunk]).flatten) =
        samplesOf decode (reference ++ before.flatten) ++ ownSamples decode reference chunk := by
      rw [List.flatten_append, List.flatten_singleton, ← List.append_assoc, ← hfirst, ← htake,
        List.take_append_drop]
    rw [List.append_cons, hrest, hone, List.map_cons, List.flatten_cons, List.append_assoc]

theorem keepsContext_codesOf {groups : ℕ} {options : SpeechStream.Options}
    (hcontext : 0 ≤ options.contextFrames) {reference : List (Frame groups)}
    {chunks : List (List (Frame groups))}
    (h : KeepsContext options (codesOf reference) (chunks.map (List.map Subtype.val)))
    {before after : List (List (Frame groups))} {chunk : List (Frame groups)}
    (hsplit : chunks = before ++ chunk :: after) (hne : chunk ≠ []) :
    codesOf ((reference ++ before.flatten).rtake options.contextFrames.toNat) =
      codesOf (reference.rtake options.contextFrames.toNat) := by
  have hmapped : chunks.map (List.map Subtype.val) = before.map (List.map Subtype.val) ++
      chunk.map Subtype.val :: after.map (List.map Subtype.val) := by
    rw [hsplit, List.map_append, List.map_cons]
  have htail := h _ _ _ hmapped fun hnil => hne (List.map_eq_nil_iff.mp hnil)
  rwa [← List.map_flatten, extend_codesOf, ← Int.toNat_of_nonneg hcontext, tailFrames_codesOf,
    tailFrames_codesOf] at htail

theorem keepsContext_of_single {groups : ℕ} {options : SpeechStream.Options}
    {reference : List (Frame groups)} {chunks : List (List (Frame groups))}
    (h : chunks.length ≤ 1 ∨ options.contextFrames = 0) :
    KeepsContext options (codesOf reference) (chunks.map (List.map Subtype.val)) := by
  intro before chunk after hsplit _
  obtain hone | hzero := h
  · have hlength := congrArg List.length hsplit
    rw [List.length_map, List.length_append, List.length_cons] at hlength
    have hnone : before = [] := List.length_eq_zero_iff.mp (by omega)
    rw [hnone, List.flatten_nil, extend, List.flatten_nil, List.append_nil, List.length_nil,
      Nat.cast_zero, Int.add_zero]
  · obtain ⟨framed, hframed⟩ : ∃ framed : List (List (Frame groups)),
        before = framed.map (List.map Subtype.val) := by
      refine ⟨chunks.take before.length, ?_⟩
      rw [List.map_take, hsplit, List.take_left]
    have hnil : ∀ frames : List (Frame groups),
        tailFrames (codesOf frames) 0 = codesOf ([] : List (Frame groups)) := by
      intro frames
      have htail := tailFrames_codesOf frames 0
      rwa [List.rtake_zero] at htail
    rw [hzero, hframed, ← List.map_flatten, extend_codesOf, hnil, hnil]

section Runs

variable {rt : Runtime Sample Generation Embedding Prefill} {groups : ℕ}
  {options : SpeechStream.Options} {request : TaskRequest Sample} {size : ℤ}
  {clone : Option (Qwen3VoiceCloneInput Sample)} {prompt : Option (VoicePrompt Embedding)}
  {reference : List (Frame groups)}

theorem run_resolves {merged : AudioBuffer Sample} (h : run rt request = .ok merged) :
    rt.prepared ∧ ∃ size clone prompt, textChunkSize rt request.options = .ok size ∧
      requireVoiceClone rt (chunkTextRequest rt request size) = .ok clone ∧
      clone.mapM rt.buildVoicePrompt = .ok prompt ∧
      runChunks rt ⟨0, 1, []⟩ (chunkTextRequest rt request size) = .ok merged := by
  obtain ⟨⟨⟩, hprepared, h⟩ := except_bind_ok h
  rw [Runtime.requirePrepared] at hprepared
  split_ifs at hprepared with hready
  refine ⟨hready, ?_⟩
  split_ifs at h with hmode
  obtain ⟨size, hsize, h⟩ := except_bind_ok h
  obtain ⟨clone, hclone, h⟩ := except_bind_ok h
  cases hchunks : chunkTextRequest rt request size with
  | nil => exact absurd hchunks (chunkTextRequest_ne_nil rt request size)
  | cons first rest =>
    have hmem : first ∈ chunkTextRequest rt request size := hchunks ▸ List.mem_cons_self
    have hwhole := h
    rw [hchunks] at h
    obtain ⟨ttsRequest, hmake, h⟩ := except_bind_ok h
    obtain ⟨prompt, hprompt, -⟩ := except_bind_ok h
    rw [voiceClone_of_mem hclone hmem hmake] at hprompt
    refine ⟨size, clone, prompt, hsize, ?_, hprompt, ?_⟩
    · exact hclone
    · exact hwhole

theorem prompt_validates (hserves : Serves rt groups options)
    (hprompt : clone.mapM rt.buildVoicePrompt = .ok prompt) :
    ∀ codes ∈ prompt.bind VoicePrompt.referenceCodes,
      validateCodes codes groups (bytes "reference codec") = .ok () := by
  cases clone with
  | none =>
    obtain rfl : prompt = none := (Except.ok.inj hprompt).symm
    intro codes hcodes
    exact nomatch hcodes
  | some clone =>
    obtain ⟨built, hbuilt, hprompt⟩ : ∃ built, rt.buildVoicePrompt clone = .ok built ∧
        some built = prompt := by
      obtain ⟨built, hbuilt, hsome⟩ := except_bind_ok hprompt
      exact ⟨built, hbuilt, Except.ok.inj hsome⟩
    rw [← hprompt]
    exact hserves.prompt clone built hbuilt

theorem startStream_ok {accumulate : Bool} {d₀ : StreamDecoder Sample}
    {chunks : List (List (Frame groups))} (hserves : Serves rt groups options)
    (hprepared : rt.prepared) (hmode : rt.mode = .streaming)
    (hoptions : streamDecoderOptions rt request.options = .ok options)
    (haccumulate : streamAccumulate request.options = .ok accumulate)
    (hsize : textChunkSize rt request.options = .ok size)
    (hclone : requireVoiceClone rt (chunkTextRequest rt request size) = .ok clone)
    (hprompt : clone.mapM rt.buildVoicePrompt = .ok prompt)
    (hcreate : create (some rt.decode) groups options (prompt.bind VoicePrompt.referenceCodes) =
      .ok d₀) (hcreated : Follows rt.decode options reference [] [] d₀)
    (hchunks : chunkFrames rt prompt (chunkTextRequest rt request size) =
      .ok (chunks.map (List.map Subtype.val))) :
    ∃ st, startStream rt request = .ok st ∧ samplesOf rt.decode (reference ++ chunks.flatten) =
        samplesOf rt.decode reference ++ st.samples := by
  obtain ⟨-, hcontext⟩ := streamDecoderOptions_ok hoptions
  have hfresh : Streams rt.decode options reference [] ⟨none, ⟨24000, 1, []⟩, []⟩ :=
    ⟨rfl, rfl, rfl, rfl⟩
  obtain ⟨st, hstream, hstreams⟩ :=
    streamChunks_ok hserves hcontext hcreate hcreated accumulate hchunks hfresh
  obtain ⟨st', hflush, hsamples⟩ := flushStream_ok accumulate hserves hcontext hstreams
  refine ⟨st', ?_, hsamples⟩
  rw [startStream, Runtime.requirePrepared, if_pos hprepared]
  dsimp only [bind, Except.bind]
  rw [if_neg (not_not.mpr hmode), hoptions]
  dsimp only
  rw [haccumulate]
  dsimp only
  rw [hsize]
  dsimp only
  rw [hclone]
  dsimp only
  rw [hprompt]
  dsimp only
  rw [hstream]
  exact hflush

end Runs

theorem chunkFrames_mode (rt : Runtime Sample Generation Embedding Prefill) (mode : RunMode)
    (prompt : Option (VoicePrompt Embedding)) (chunkRequests : List (TaskRequest Sample)) :
    chunkFrames { rt with mode } prompt chunkRequests = chunkFrames rt prompt chunkRequests := by
  induction chunkRequests with
  | nil => rfl
  | cons chunkRequest rest ih =>
    rw [chunkFrames, ih]
    rfl

/-- The stream emits the audio of all frames as one sequence behind the reference codes. That is
what the offline run merges where each text chunk comes behind the context of its own decode. -/
theorem stream_is_one_sequence {rt : Runtime Sample Generation Embedding Prefill} {groups : ℕ}
    {options : SpeechStream.Options} (hserves : Serves rt groups options)
    {request : TaskRequest Sample}
    (hoptions : streamDecoderOptions rt request.options = .ok options)
    {accumulate : Bool} (haccumulate : streamAccumulate request.options = .ok accumulate)
    {merged : AudioBuffer Sample} (hrun : run { rt with mode := .offline } request = .ok merged) :
    ∃ reference chunks st, codecFrames rt request = .ok (reference, chunks) ∧
      startStream { rt with mode := .streaming } request = .ok st ∧
      (let whole := extend reference chunks.flatten
       whole.frames = 0 ∧ st.samples = [] ∨ ∃ audio, rt.decode whole = .ok audio ∧
        st.samples = audio.samples.drop (reference.frames * samplesPerCodecFrame).toNat) ∧
      (KeepsContext options reference chunks ∨ chunks.length ≤ 1 ∨ options.contextFrames = 0 →
        st.samples = merged.samples) := by
  obtain ⟨hchunk, hcontext⟩ := streamDecoderOptions_ok hoptions
  obtain ⟨hprepared, size, clone, prompt, hsize, hclone, hprompt, hmerged⟩ := run_resolves hrun
  have hoffline : Serves { rt with mode := .offline } groups options :=
    ⟨hserves.positive, hserves.width, hserves.decode, hserves.format, hserves.talker,
      hserves.prompt⟩
  have hstreaming : Serves { rt with mode := .streaming } groups options :=
    ⟨hserves.positive, hserves.width, hserves.decode, hserves.format, hserves.talker,
      hserves.prompt⟩
  obtain ⟨d₀, reference, hcreate, hcreated, hreference⟩ :=
    create_follows hserves.positive hchunk hcontext (prompt_validates hserves hprompt)
  obtain ⟨chunks, hchunks, hsamples⟩ := runChunks_samples hoffline hreference
    (fun chunkRequest hmem ttsRequest hmake => by
      rw [voiceClone_of_mem hclone hmem hmake]
      exact hprompt) hmerged
  rw [chunkFrames_mode] at hchunks
  obtain ⟨st, hstart, hstream⟩ := startStream_ok hstreaming hprepared rfl hoptions
    haccumulate hsize hclone hprompt hcreate hcreated
    ((chunkFrames_mode rt .streaming prompt _).trans hchunks)
  refine ⟨codesOf reference, chunks.map (List.map Subtype.val), st, ?_, hstart, ?_, ?_⟩
  · rw [codecFrames, hserves.width, ← hreference]
    dsimp only [bind, Except.bind]
    rw [show textChunkSize rt request.options = .ok size from hsize]
    dsimp only
    rw [show requireVoiceClone rt (chunkTextRequest rt request size) = .ok clone from hclone]
    dsimp only
    rw [show clone.mapM rt.buildVoicePrompt = .ok prompt from hprompt]
    dsimp only
    rw [show chunkFrames rt prompt (chunkTextRequest rt request size) = _ from hchunks]
    rfl
  · rw [← List.map_flatten, extend_codesOf]
    by_cases hnone : reference ++ chunks.flatten = []
    · left
      rw [hnone] at hstream ⊢
      obtain ⟨hempty, -⟩ := List.append_eq_nil_iff.mp hnone
      have hlength := congrArg List.length hstream
      rw [hempty, List.length_append] at hlength
      exact ⟨rfl, List.length_eq_zero_iff.mp (Nat.add_eq_left.mp hlength.symm)⟩
    · right
      obtain ⟨audio, haudio⟩ := hserves.decode.yields _ hnone
      have hwhole : samplesOf rt.decode (reference ++ chunks.flatten) = audio.samples := by
        rw [samplesOf, haudio]
      refine ⟨audio, haudio, ?_⟩
      rw [frames_mul_samples, Int.toNat_natCast, ← hserves.decode.windows.length, ← hwhole]
      exact (congrArg _ hstream).trans (List.drop_left) |>.symm
  · intro hkeeps
    have hcontexts : KeepsContext options (codesOf reference)
        (chunks.map (List.map Subtype.val)) := by
      obtain hkeeps | hsingle := hkeeps
      · exact hkeeps
      · rw [List.length_map] at hsingle
        exact keepsContext_of_single hsingle
    have hown := samplesOf_chunks hserves.decode chunks [] fun done chunk after hsplit hne =>
      keepsContext_codesOf hcontext hcontexts hsplit hne
    rw [List.nil_append, List.flatten_nil, List.append_nil] at hown
    rw [hsamples, List.nil_append]
    exact List.append_cancel_left (hstream.symm.trans hown)

/-! ## Two text chunks -/

/-- The first frame is silent, every other code sounds for the length of a frame. -/
def fadeIn (codes : SpeechCodes) : Except Exception (AudioBuffer Int32) :=
  .ok ⟨24000, 1, match codes.codes with
    | [] => []
    | _ :: rest => (0 :: rest).flatMap (List.replicate samplesPerCodecFrame.toNat)⟩

theorem fadeIn_cons (frame : Frame 1) (frames : List (Frame 1)) :
    samplesOf fadeIn (frame :: frames) = List.replicate samplesPerCodecFrame.toNat 0 ++
      samplesOf markers frames := by
  obtain ⟨codes, hcodes⟩ := frame
  obtain ⟨code, rfl⟩ := List.length_eq_one_iff.mp hcodes
  rfl

theorem fadeIn_decodesLocally (hcontext : 0 < context) : DecodesLocally fadeIn 1 context := by
  have hmarkers := (markers_decodesLocally context).windows
  refine ⟨fun frames _ => ⟨_, rfl⟩, ?_, ?_⟩
  · intro frames
    cases frames with
    | nil => rfl
    | cons frame frames =>
      rw [fadeIn_cons, List.length_append, List.length_replicate, hmarkers.length, List.length_cons,
        Nat.add_mul, Nat.one_mul, Nat.add_comm]
  · intro before before' item after after' hsame
    have hfirst : ∀ after, LocalWindows.block (samplesOf fadeIn) samplesPerCodecFrame.toNat []
        item after = List.replicate samplesPerCodecFrame.toNat 0 := by
      intro after
      rw [LocalWindows.block, List.nil_append, fadeIn_cons, List.length_nil, Nat.zero_mul,
        List.drop_zero, List.take_left' List.length_replicate]
    have hlater : ∀ (frame : Frame 1) frames after,
        LocalWindows.block (samplesOf fadeIn) samplesPerCodecFrame.toNat (frame :: frames) item
          after = LocalWindows.block (samplesOf markers) samplesPerCodecFrame.toNat frames item
            after := by
      intro frame frames after
      have hlength : (frame :: frames).length * samplesPerCodecFrame.toNat =
          (List.replicate samplesPerCodecFrame.toNat (0 : Int32)).length +
            frames.length * samplesPerCodecFrame.toNat := by
        rw [List.length_replicate, List.length_cons, Nat.add_mul, Nat.one_mul, Nat.add_comm]
      rw [LocalWindows.block, LocalWindows.block, List.cons_append, fadeIn_cons, hlength,
        ← List.drop_drop, List.drop_left]
    have hlengths := congrArg List.length hsame
    rw [List.rtake, List.rtake, List.length_drop, List.length_drop] at hlengths
    cases before with
    | nil =>
      cases before' with
      | nil => rw [hfirst, hfirst]
      | cons frame' frames' =>
        rw [List.length_nil, List.length_cons] at hlengths
        omega
    | cons frame frames =>
      cases before' with
      | nil =>
        rw [List.length_nil, List.length_cons] at hlengths
        omega
      | cons frame' frames' =>
        rw [hlater, hlater]
        apply (markers_decodesLocally 0).windows.depends
        rw [List.rtake_zero, List.rtake_zero]

def narrator (variant : Qwen3TTSVariant) (textChunks : List Bytes) :
    Runtime Int32 Unit Unit Unit where
  prepared := true
  mode := .offline
  variant
  numCodeGroups := 1
  hasVoiceEncoders := true
  parseI64Value _ key := .error key
  stoll value := .error value
  splitTextChunks _ _ := textChunks
  generationOptions _ := .ok ()
  buildVoicePrompt _ := .ok ⟨some ⟨[5, 6], 2, 1⟩, ()⟩
  buildPrefill _ _ := .ok ()
  talker _ _ := .ok [[1]]
  decode := fadeIn

theorem narrator_serves (variant : Qwen3TTSVariant) (textChunks : List Bytes) :
    Serves (narrator variant textChunks) 1 defaultOptions := by
  refine ⟨by decide, rfl, fadeIn_decodesLocally (by decide), ?_, ?_, ?_⟩
  · intro codes audio haudio
    rw [← Except.ok.inj haudio]
    exact ⟨rfl, rfl⟩
  · intro prefill generation frames hframes codes hcodes
    rw [← Except.ok.inj hframes, List.mem_singleton] at hcodes
    rw [hcodes]
    rfl
  · intro clone prompt hprompt codes hcodes
    rw [← Except.ok.inj hprompt] at hcodes
    rw [← Option.some.inj hcodes]
    rfl

def told : TaskRequest Int32 where
  textInput := some ⟨bytes "One. Two.", []⟩
  audioInput := none
  speakerAudio := some ⟨24000, 1, [0]⟩
  cachedVoiceId := none
  styleInstruct := none
  options _ := none

theorem ok_of_toOption {α β : Type} {x : Except Exception α} {f : α → β} {b : β}
    (h : x.toOption.map f = some b) : ∃ a, x = .ok a ∧ f a = b := by
  cases x with
  | error what => exact nomatch h
  | ok a => exact ⟨a, rfl, Option.some.inj h⟩

theorem stream_is_one_sequence_narrator :
    ∃ merged st,
      run { narrator .base [bytes "One. Two."] with mode := .offline } told = .ok merged ∧
      startStream { narrator .base [bytes "One. Two."] with mode := .streaming } told = .ok st ∧
      st.samples = merged.samples := by
  have hoffline : (run { narrator .base [bytes "One. Two."] with mode := .offline } told
      ).toOption.map AudioBuffer.channels = some 1 := by decide +kernel
  obtain ⟨merged, hrun, -⟩ := ok_of_toOption hoffline
  obtain ⟨reference, chunks, st, hframes, hstart, -, hsame⟩ :=
    stream_is_one_sequence (narrator_serves .base [bytes "One. Two."]) rfl rfl hrun
  have hchunks : chunks = [[[1]]] := (congrArg Prod.snd (Except.ok.inj hframes)).symm
  refine ⟨merged, st, hrun, hstart, hsame (.inr (.inl ?_))⟩
  rw [hchunks]
  exact Nat.le_refl 1

/-- The frame of the second text chunk comes behind that of the first, not behind nothing. -/
theorem stream_equals_offline_fails :
    ¬ ∀ (rt : Runtime Int32 Unit Unit Unit) (groups : ℕ) (options : SpeechStream.Options)
      (request : TaskRequest Int32) (accumulate : Bool) (merged : AudioBuffer Int32)
      (st : Streaming Int32), Serves rt groups options →
      streamDecoderOptions rt request.options = .ok options →
      streamAccumulate request.options = .ok accumulate →
      run { rt with mode := .offline } request = .ok merged →
      startStream { rt with mode := .streaming } request = .ok st →
      st.samples = merged.samples := by
  intro hclaim
  have hoffline : (run { narrator .voiceDesign [bytes "One.", bytes "Two."] with mode := .offline }
      told).toOption.map (fun merged => merged.samples[1920]?) = some (some 0) := by decide +kernel
  have hstreaming : (startStream { narrator .voiceDesign [bytes "One.", bytes "Two."] with
      mode := .streaming } told).toOption.map (fun st => st.samples[1920]?) = some (some 1) := by
    decide +kernel
  obtain ⟨merged, hrun, hsecond⟩ := ok_of_toOption hoffline
  obtain ⟨st, hstart, hstream⟩ := ok_of_toOption hstreaming
  have hsame := hclaim (narrator .voiceDesign [bytes "One.", bytes "Two."]) 1 defaultOptions told
    false merged st (narrator_serves _ _) rfl rfl hrun hstart
  rw [hsame, hsecond] at hstream
  exact absurd hstream (by decide)

end FastTts.TtsSession
