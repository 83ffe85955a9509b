import FastTts.Json

/-!
# The talker's prompt

A prompt is the list of the floats of its rows, `hiddenSize` to a row. For a cloned voice it is put
together from parts that depend on the reference alone, so that another sentence in the same voice
only has to project its own text.
-/

namespace FastTts.Talker

variable {F : Type}

/-! ## Requests -/

structure SpeechCodes where
  codes : List ℤ
  frames : ℤ
  codeGroups : ℤ
  deriving DecidableEq, Repr

structure SpeakerEmbedding (F : Type) where
  values : List F
  dims : ℤ
  deriving DecidableEq, Repr

inductive PromptMode
  | voiceClone
  | voiceDesign
  | customVoice
  deriving DecidableEq, Repr

structure Prefill (F : Type) where
  promptMode : PromptMode
  inputIds : List ℤ
  instructIds : List ℤ
  referenceIds : List ℤ
  referenceCodes : Option SpeechCodes
  speakerEmbedding : Option (SpeakerEmbedding F)
  speaker : Bytes
  language : Bytes
  iclMode : Bool
  xVectorOnlyMode : Bool
  deriving DecidableEq, Repr

def speechCodesEqual (lhs rhs : SpeechCodes) : Bool :=
  lhs.frames = rhs.frames && lhs.codeGroups = rhs.codeGroups && lhs.codes = rhs.codes

def speakerEmbeddingEqual [DecidableEq F] (lhs rhs : SpeakerEmbedding F) : Bool :=
  lhs.dims = rhs.dims && lhs.values = rhs.values

/-- Both absent, or both there and equal. -/
def optionalEqual {A : Type} (equal : A → A → Bool) : Option A → Option A → Bool
  | none, none => true
  | some lhs, some rhs => equal lhs rhs
  | _, _ => false

def talkerPrefillEqual [DecidableEq F] (lhs rhs : Prefill F) : Bool :=
  lhs.promptMode = rhs.promptMode && lhs.inputIds = rhs.inputIds &&
    lhs.instructIds = rhs.instructIds && lhs.referenceIds = rhs.referenceIds &&
    lhs.speaker = rhs.speaker && lhs.language = rhs.language && lhs.iclMode = rhs.iclMode &&
    lhs.xVectorOnlyMode = rhs.xVectorOnlyMode &&
    optionalEqual speechCodesEqual lhs.referenceCodes rhs.referenceCodes &&
    optionalEqual speakerEmbeddingEqual lhs.speakerEmbedding rhs.speakerEmbedding

/-- The same voice and the same head of the template, with any sentence. -/
def voicePartsReusable [DecidableEq F] (lhs rhs : Prefill F) : Bool :=
  lhs.promptMode = rhs.promptMode && lhs.instructIds = rhs.instructIds &&
    lhs.referenceIds = rhs.referenceIds && lhs.speaker = rhs.speaker &&
    lhs.language = rhs.language && lhs.iclMode = rhs.iclMode &&
    lhs.xVectorOnlyMode = rhs.xVectorOnlyMode &&
    (3 ≤ lhs.inputIds.length && 3 ≤ rhs.inputIds.length &&
      lhs.inputIds.take 3 = rhs.inputIds.take 3) &&
    optionalEqual speechCodesEqual lhs.referenceCodes rhs.referenceCodes &&
    optionalEqual speakerEmbeddingEqual lhs.speakerEmbedding rhs.speakerEmbedding

def voicePartsUsable (prefill : Prefill F) : Bool :=
  prefill.promptMode = .voiceClone && !prefill.xVectorOnlyMode &&
    prefill.referenceCodes.isSome && 5 ≤ prefill.referenceIds.length &&
    8 ≤ prefill.inputIds.length

/-- A member-wise copy over `old` that ended after `copied` members. -/
def Prefill.copyOver (old request : Prefill F) (copied : ℕ) : Prefill F where
  promptMode := if 0 < copied then request.promptMode else old.promptMode
  inputIds := if 1 < copied then request.inputIds else old.inputIds
  instructIds := if 2 < copied then request.instructIds else old.instructIds
  referenceIds := if 3 < copied then request.referenceIds else old.referenceIds
  referenceCodes := if 4 < copied then request.referenceCodes else old.referenceCodes
  speakerEmbedding := if 5 < copied then request.speakerEmbedding else old.speakerEmbedding
  speaker := if 6 < copied then request.speaker else old.speaker
  language := if 7 < copied then request.language else old.language
  iclMode := if 8 < copied then request.iclMode else old.iclMode
  xVectorOnlyMode := if 9 < copied then request.xVectorOnlyMode else old.xVectorOnlyMode

/-! ## Rows -/

structure EmbeddingTable (F : Type) where
  dim : ℕ
  rows : List (List F)
  rows_dim : ∀ row ∈ rows, row.length = dim

structure Config where
  hiddenSize : ℕ
  textHiddenSize : ℕ
  numCodeGroups : ℕ
  vocabSize : ℕ
  codecBosId : ℤ
  codecEosTokenId : ℤ
  codecThinkId : ℤ
  codecNothinkId : ℤ
  codecPadId : ℤ
  codecThinkBosId : ℤ
  codecThinkEosId : ℤ
  codecLanguageId : List (Bytes × ℤ)
  speakerId : List (Bytes × ℤ)
  speakerDialect : List (Bytes × Option Bytes)
  ttsBosTokenId : ℤ
  ttsEosTokenId : ℤ
  ttsPadTokenId : ℤ

structure Weights (F : Type) where
  codecEmbedding : EmbeddingTable F
  codePredictorEmbeddings : List (EmbeddingTable F)
  textEmbedding : EmbeddingTable F
  /-- Two linear layers on the host, row by row. -/
  textProjectHost : List F → ℕ → Except Exception (List F)

def lookupRows (table : EmbeddingTable F) (dim : ℕ) (ids : List ℤ) : Except Exception (List F) :=
  if table.dim ≠ dim then .error (bytes "Qwen3 talker embedding table shape mismatch")
  else do
    let rows ← ids.mapM fun id =>
      if id < 0 ∨ (table.rows.length : ℤ) ≤ id then
        Except.error (bytes "Qwen3 talker embedding id out of range")
      else .ok (table.rows.getD id.toNat [])
    return rows.flatten

def rowAt (rows : List F) (row dim : ℕ) : List F := (rows.drop (row * dim)).take dim

def repeatRow (row : List F) (repeats : ℕ) : List F := (List.replicate repeats row).flatten

/-- `std::vector(first + skip, last - left)`, where the range may be the wrong way round. -/
def idsBetween (ids : List ℤ) (skip left : ℕ) : Except Exception (List ℤ) :=
  if ids.length < skip + left then
    .error (bytes "cannot create std::vector larger than max_size()")
  else .ok ((ids.drop skip).take (ids.length - (skip + left)))

/-- `std::unordered_map::find`. -/
def findIn {A : Type} (table : List (Bytes × A)) (key : Bytes) : Option A :=
  (table.find? fun item => item.1 = key).map Prod.snd

section Floats

variable [Add F] [Zero F]

def addRows (lhs rhs : List F) : Except Exception (List F) :=
  if lhs.length ≠ rhs.length then .error (bytes "Qwen3 talker add_rows shape mismatch")
  else .ok (List.zipWith (· + ·) lhs rhs)

/-- The embeddings of a frame's codes, each in the table of its group, added up. -/
def addCodeRows (weights : Weights F) (hiddenSize : ℕ) (start : List F) (codes : List ℤ) :
    Except Exception (List F) :=
  codes.zipIdx.foldlM (fun sum (code, group) => do
    let row ← if group = 0 then lookupRows weights.codecEmbedding hiddenSize [code]
      else match weights.codePredictorEmbeddings[group - 1]? with
        | some table => lookupRows table hiddenSize [code]
        | none => .error (bytes "vector::_M_range_check")
    return List.zipWith (· + ·) sum row) start

/-! ## Building a prompt -/

structure PromptEmbeddingState (F : Type) where
  prompt : List F
  trailingText : List F
  ttsPad : List F
  deriving DecidableEq, Repr

structure VoicePromptParts (F : Type) where
  ttsBos : List F
  ttsEos : List F
  ttsPad : List F
  header : List F
  refTextEmbed : List F
  refCodec : List F
  deriving DecidableEq, Repr

def validateVoiceClonePrefill (prefill : Prefill F) (hiddenSize : ℕ) : Except Exception Unit :=
  if prefill.speakerEmbedding.all (fun embedding => embedding.dims ≠ (hiddenSize : ℤ)) then
    .error (bytes "Qwen3 talker voice clone prefill requires speaker embedding")
  else if prefill.iclMode = prefill.xVectorOnlyMode then
    .error (bytes "Qwen3 talker voice clone prefill requires exactly one prompt mode")
  else if prefill.iclMode ∧ (prefill.referenceCodes.isNone ∨ prefill.referenceIds.isEmpty) then
    .error (bytes "Qwen3 talker ICL prefill requires reference ids and codes")
  else .ok ()

variable (config : Config)

/-- The projected rows of begin, end and padding of the text. -/
def ttsSpecial (weights : Weights F) :
    Except Exception (List F × List F × List F) := do
  let hidden ← lookupRows weights.textEmbedding config.textHiddenSize
    [config.ttsBosTokenId, config.ttsEosTokenId, config.ttsPadTokenId]
  let special ← weights.textProjectHost hidden 3
  return (rowAt special 0 config.hiddenSize, rowAt special 1 config.hiddenSize,
    rowAt special 2 config.hiddenSize)

def textEmbed (weights : Weights F) (ids : List ℤ) :
    Except Exception (List F) := do
  let hidden ← lookupRows weights.textEmbedding config.textHiddenSize ids
  weights.textProjectHost hidden ids.length

def codecPrefix (language given : Bytes) : Except Exception (List ℤ) :=
  if language = bytes "auto" then
    .ok [config.codecNothinkId, config.codecThinkBosId, config.codecThinkEosId]
  else match findIn config.codecLanguageId language with
    | none => .error (bytes "Qwen3 talker unsupported language: " ++ given)
    | some id => .ok [config.codecThinkId, config.codecThinkBosId, id, config.codecThinkEosId]

/-- The codec rows fused with padding, and the row before the last with the beginning of the
text. -/
def fuseCodec (ttsBos ttsPad codecEmbed : List F) :
    Except Exception (List F) := do
  let codecRows := codecEmbed.length / config.hiddenSize
  let padded ← addRows (repeatRow ttsPad (codecRows - 2))
    (codecEmbed.take ((codecRows - 2) * config.hiddenSize))
  let bos ← addRows ttsBos (rowAt codecEmbed (codecRows - 2) config.hiddenSize)
  return padded ++ bos

/-- The text over codec padding, and padding over the last of the codec rows. -/
def fuseText (weights : Weights F) (ttsEos ttsPad codecEmbed : List F)
    (textIds : List ℤ) : Except Exception (List F) := do
  let codecRows := codecEmbed.length / config.hiddenSize
  let text ← textEmbed config weights textIds
  let pads ← lookupRows weights.codecEmbedding config.hiddenSize
    (List.replicate (textIds.length + 1) config.codecPadId)
  let rows ← addRows (text ++ ttsEos) pads
  let bos ← addRows ttsPad (rowAt codecEmbed (codecRows - 1) config.hiddenSize)
  return rows ++ bos

/-- The codec's beginning and the summed frames of the reference. -/
def referenceCodec (weights : Weights F) (refCodes : SpeechCodes) :
    Except Exception (List F) := do
  let bos ← lookupRows weights.codecEmbedding config.hiddenSize [config.codecBosId]
  let groups := refCodes.codeGroups.toNat
  let frames ← (List.range refCodes.frames.toNat).mapM fun frame =>
    addCodeRows weights config.hiddenSize (List.replicate config.hiddenSize 0)
      ((refCodes.codes.drop (frame * groups)).take groups)
  return bos ++ frames.flatten

/-- Text and reference side by side; text that is longer than the reference trails. -/
def fuseReference (config : Config) (header ttsPad textRows refCodec : List F) :
    Except Exception (PromptEmbeddingState F) := do
  let rows := textRows.length / config.hiddenSize
  let refRows := refCodec.length / config.hiddenSize
  if refRows < rows then
    let fused ← addRows (textRows.take refCodec.length) refCodec
    return ⟨header ++ fused, textRows.drop refCodec.length, ttsPad⟩
  else
    let fused ← addRows (textRows ++ repeatRow ttsPad (refRows - rows)) refCodec
    return ⟨header ++ fused, ttsPad, ttsPad⟩

/-- A custom voice speaks its own dialect where the request leaves the language open. -/
def customVoice (weights : Weights F) (prefill : Prefill F) (language : Bytes) :
    Except Exception (Bytes × List F) := do
  let speaker := prefill.speaker.map toLower
  match findIn config.speakerId speaker with
  | none => .error (bytes "Qwen3 custom voice unsupported speaker: " ++ prefill.speaker)
  | some id =>
    match findIn config.speakerDialect speaker with
    | none =>
      .error (bytes "Qwen3 custom voice missing dialect entry for speaker: " ++ prefill.speaker)
    | some dialect =>
      let open_ := language = bytes "chinese" ∨ language = bytes "auto"
      let language := if open_ then dialect.getD language else language
      let embed ← lookupRows weights.codecEmbedding config.hiddenSize [id]
      return (language, embed)

def buildPromptState (weights : Weights F) (prefill : Prefill F) :
    Except Exception (PromptEmbeddingState F) :=
  if prefill.inputIds.length < 8 then
    .error (bytes "Qwen3 talker prefill input ids are too short")
  else do
    let (ttsBos, ttsEos, ttsPad) ← ttsSpecial config weights
    let language := prefill.language.map toLower
    let (language, speakerEmbed) ←
      if prefill.promptMode = .customVoice then customVoice config weights prefill language
      else .ok (language, [])
    let codecIds ← codecPrefix config language prefill.language
    if prefill.promptMode = .voiceDesign ∨ prefill.promptMode = .customVoice then
      let instruct ← if prefill.instructIds.isEmpty then .ok []
        else textEmbed config weights prefill.instructIds
      let role ← textEmbed config weights (prefill.inputIds.take 3)
      let codecEmbed ← lookupRows weights.codecEmbedding config.hiddenSize codecIds
      let tail ← lookupRows weights.codecEmbedding config.hiddenSize
        [config.codecPadId, config.codecBosId]
      let codecEmbed := codecEmbed ++ speakerEmbed ++ tail
      let fused ← fuseCodec config ttsBos ttsPad codecEmbed
      let textIds ← idsBetween prefill.inputIds 3 5
      let text ← fuseText config weights ttsEos ttsPad codecEmbed textIds
      return ⟨instruct ++ role ++ fused ++ text, ttsPad, ttsPad⟩
    else
      validateVoiceClonePrefill prefill config.hiddenSize
      let role ← textEmbed config weights (prefill.inputIds.take 3)
      let codecEmbed ← lookupRows weights.codecEmbedding config.hiddenSize codecIds
      let tail ← lookupRows weights.codecEmbedding config.hiddenSize
        [config.codecPadId, config.codecBosId]
      let codecEmbed := codecEmbed ++ (prefill.speakerEmbedding.map (·.values)).getD [] ++ tail
      let fused ← fuseCodec config ttsBos ttsPad codecEmbed
      let textIds ← idsBetween prefill.inputIds 3 5
      if prefill.xVectorOnlyMode then
        let text ← fuseText config weights ttsEos ttsPad codecEmbed textIds
        return ⟨role ++ fused ++ text, ttsPad, ttsPad⟩
      else
        let refTextIds ← idsBetween prefill.referenceIds 3 2
        let text ← textEmbed config weights (refTextIds ++ textIds)
        let refCodec ← referenceCodec config weights (prefill.referenceCodes.getD ⟨[], 0, 0⟩)
        fuseReference config (role ++ fused) ttsPad (text ++ ttsEos) refCodec

def buildVoiceParts (weights : Weights F) (prefill : Prefill F) :
    Except Exception (VoicePromptParts F) := do
  validateVoiceClonePrefill prefill config.hiddenSize
  let (ttsBos, ttsEos, ttsPad) ← ttsSpecial config weights
  let codecIds ← codecPrefix config (prefill.language.map toLower) prefill.language
  let role ← textEmbed config weights (prefill.inputIds.take 3)
  let codecEmbed ← lookupRows weights.codecEmbedding config.hiddenSize codecIds
  let tail ← lookupRows weights.codecEmbedding config.hiddenSize
    [config.codecPadId, config.codecBosId]
  let codecEmbed := codecEmbed ++ (prefill.speakerEmbedding.map (·.values)).getD [] ++ tail
  let fused ← fuseCodec config ttsBos ttsPad codecEmbed
  let refTextIds ← idsBetween prefill.referenceIds 3 2
  let refTextEmbed ← textEmbed config weights refTextIds
  let refCodec ← referenceCodec config weights (prefill.referenceCodes.getD ⟨[], 0, 0⟩)
  return ⟨ttsBos, ttsEos, ttsPad, role ++ fused, refTextEmbed, refCodec⟩

def buildPromptStateFromParts (weights : Weights F) (prefill : Prefill F)
    (parts : VoicePromptParts F) : Except Exception (PromptEmbeddingState F) := do
  let textIds ← idsBetween prefill.inputIds 3 5
  let text ← textEmbed config weights textIds
  fuseReference config parts.header parts.ttsPad (parts.refTextEmbed ++ text ++ parts.ttsEos)
    parts.refCodec

/-- The prompt of a request that nothing is cached for. -/
def promptOf (weights : Weights F) (request : Prefill F) :
    Except Exception (PromptEmbeddingState F) :=
  if voicePartsUsable request then do
    let parts ← buildVoiceParts config weights request
    buildPromptStateFromParts config weights request parts
  else buildPromptState config weights request

end Floats

/-! ## What the comparisons say -/

theorem optionalEqual_iff {A : Type} {equal : A → A → Bool}
    (h : ∀ lhs rhs, equal lhs rhs = true ↔ lhs = rhs) (lhs rhs : Option A) :
    optionalEqual equal lhs rhs = true ↔ lhs = rhs := by
  cases lhs <;> cases rhs <;> simp [optionalEqual, h]

theorem speechCodesEqual_iff (lhs rhs : SpeechCodes) :
    speechCodesEqual lhs rhs = true ↔ lhs = rhs := by
  cases lhs
  cases rhs
  simp only [speechCodesEqual, Bool.and_eq_true, decide_eq_true_eq, SpeechCodes.mk.injEq]
  tauto

theorem speakerEmbeddingEqual_iff [DecidableEq F] (lhs rhs : SpeakerEmbedding F) :
    speakerEmbeddingEqual lhs rhs = true ↔ lhs = rhs := by
  cases lhs
  cases rhs
  simp only [speakerEmbeddingEqual, Bool.and_eq_true, decide_eq_true_eq, SpeakerEmbedding.mk.injEq]
  tauto

theorem talkerPrefillEqual_iff [DecidableEq F] (lhs rhs : Prefill F) :
    talkerPrefillEqual lhs rhs = true ↔ lhs = rhs := by
  cases lhs
  cases rhs
  simp only [talkerPrefillEqual, Bool.and_eq_true, decide_eq_true_eq,
    optionalEqual_iff speechCodesEqual_iff, optionalEqual_iff speakerEmbeddingEqual_iff,
    Prefill.mk.injEq]
  tauto

theorem buildVoiceParts_reusable [DecidableEq F] [Add F] [Zero F] {lhs rhs : Prefill F}
    (h : voicePartsReusable lhs rhs = true) (config : Config) (weights : Weights F) :
    buildVoiceParts config weights lhs = buildVoiceParts config weights rhs := by
  simp only [voicePartsReusable, Bool.and_eq_true, decide_eq_true_eq,
    optionalEqual_iff speechCodesEqual_iff, optionalEqual_iff speakerEmbeddingEqual_iff] at h
  obtain ⟨⟨⟨⟨⟨⟨⟨⟨⟨_, _⟩, hids⟩, _⟩, hlanguage⟩, hicl⟩, hvector⟩, _, hrole⟩, hcodes⟩, hspeaker⟩ := h
  rw [buildVoiceParts, buildVoiceParts, validateVoiceClonePrefill, validateVoiceClonePrefill, hids,
    hlanguage, hicl, hvector, hrole, hcodes, hspeaker]

end FastTts.Talker
