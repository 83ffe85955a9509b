import FastTts.KvCache
import FastTts.TalkerPrompt

/-!
# Frames

The loop that samples the first code of a frame, has the code predictor fill in the others, delivers
the frame and steps the talker. What it needs of the graphs stands in a `Device`, so that the loop
is the same for the cached graphs and for the states that they stand for.
-/

namespace FastTts.Talker

open Kv

variable {F K V G ε σ : Type}

/-! ## The model -/

structure PrefillResult (F : Type) where
  logits : List F
  lastHidden : List F
  deriving DecidableEq, Repr

/-- What a step graph computes from: its inputs, and the rows of each layer that its mask shows. -/
structure StepInput (F K V : Type) where
  embedding : List F
  position : ℤ
  cacheSlot : ℤ
  shown : List (LayerCache K V)
  deriving DecidableEq

/-- A random number generator and the number of draws from it. -/
structure Draws (G : Type) where
  rng : G
  callIndex : ℕ
  deriving DecidableEq, Repr

/-- The graphs give any function of their inputs; `layer` and `row` number what they leave. -/
structure Model (F K V G : Type) where
  config : Config
  weights : Weights F
  layerCount : ℕ
  predictorLayerCount : ℕ
  layers_pos : 0 < layerCount
  prefill : List F → PrefillResult F
  prefillKey : List F → (layer row : ℕ) → K
  prefillValue : List F → (layer row : ℕ) → V
  step : StepInput F K V → PrefillResult F
  stepKey : StepInput F K V → (layer : ℕ) → K
  stepValue : StepInput F K V → (layer : ℕ) → V
  predictorPrefill : List F → List F
  predictorPrefillKey : List F → (layer row : ℕ) → K
  predictorPrefillValue : List F → (layer row : ℕ) → V
  predictorStep : (group : ℕ) → StepInput F K V → List F
  predictorStepKey : (group : ℕ) → StepInput F K V → (layer : ℕ) → K
  predictorStepValue : (group : ℕ) → StepInput F K V → (layer : ℕ) → V
  negativeInfinity : F
  one : F
  greater : F → F → Bool
  notPositive : F → Bool
  penalized : (value penalty : F) → F
  seeded : (seed : ℕ) → G
  sampleIndex : (logits : List F) → (topK : ℤ) → (topP temperature : F) → G → (seed : ℕ) →
    (callIndex : ℕ) → Except Exception (ℤ × G)

structure GenerationOptions (F : Type) where
  maxNewTokens : ℤ
  doSample : Bool
  subtalkerDoSample : Bool
  temperature : F
  topK : ℤ
  topP : F
  subtalkerTemperature : F
  subtalkerTopK : ℤ
  subtalkerTopP : F
  seed : ℕ

/-- What a callback does: it lets the call go on, stops it, or throws. -/
inductive Answer
  | goOn
  | stop
  | throws (what : Exception)
  deriving DecidableEq, Repr

structure Frame where
  index : ℕ
  codes : List ℤ
  deriving DecidableEq, Repr

/-- The frame callback knows the frames so far, the cancel check how often it was asked. -/
structure Call (F : Type) where
  request : Prefill F
  options : GenerationOptions F
  repetitionPenalty : F
  onFrame : Option (List Frame → Answer)
  cancelled : ℕ → Answer
  collectOutputCodes : Bool

structure TalkerCodes where
  generatedCodes : SpeechCodes
  decoderInputCodes : SpeechCodes
  deriving DecidableEq, Repr

/-! ## Choosing a code -/

def argmaxIndex (greater : F → F → Bool) : List F → Except Exception ℤ
  | [] => .error (bytes "Qwen3 talker cannot select from empty logits")
  | first :: rest =>
    let best := rest.zipIdx.foldl
      (fun best (value, i) => if greater value best.1 then (value, i + 1) else best) (first, 0)
    .ok best.2

section Codes

variable [Add F] [Zero F] [DecidableEq F] (model : Model F K V G)

def applyMainTalkerProcessors (logits : List F)
    (generatedFirstCodes : List ℤ) (step : ℕ) (repetitionPenalty : F) :
    Except Exception (List F) :=
  let vocabSize := model.config.vocabSize
  let eos := model.config.codecEosTokenId
  if logits.length ≠ vocabSize then .error (bytes "Qwen3 talker logits size mismatch")
  else
    let logits := if step < 2 ∧ 0 ≤ eos ∧ eos < (vocabSize : ℤ) then
      logits.set eos.toNat model.negativeInfinity else logits
    let logits := logits.zipIdx.map fun (value, token) =>
      if vocabSize - 1024 ≤ token ∧ (token : ℤ) ≠ eos then model.negativeInfinity else value
    if repetitionPenalty = model.one then .ok logits
    else if model.notPositive repetitionPenalty then
      .error (bytes "Qwen3 talker repetition penalty must be positive")
    else
      .ok (logits.zipIdx.map fun (value, token) =>
        if (token : ℤ) ∈ generatedFirstCodes then model.penalized value repetitionPenalty
        else value)

/-- A draw, or the greatest of the logits. -/
def pickCode (doSample : Bool) (topK : ℤ) (topP temperature : F)
    (seed : ℕ) (logits : List F) (draws : Draws G) : Except Exception (ℤ × Draws G) :=
  if doSample then do
    let (code, rng) ← model.sampleIndex logits topK topP temperature draws.rng seed draws.callIndex
    return (code, ⟨rng, draws.callIndex + 1⟩)
  else do
    let code ← argmaxIndex model.greater logits
    return (code, draws)

def pickFirstCode (options : GenerationOptions F) :
    List F → Draws G → Except Exception (ℤ × Draws G) :=
  pickCode model options.doSample options.topK options.topP options.temperature options.seed

def pickSubtalkerCode (options : GenerationOptions F) :
    List F → Draws G → Except Exception (ℤ × Draws G) :=
  pickCode model options.subtalkerDoSample options.subtalkerTopK options.subtalkerTopP
    options.subtalkerTemperature options.seed

def frameEmbedding (codes : List ℤ) (textHidden : List F) : Except Exception (List F) :=
  if codes.length ≠ model.config.numCodeGroups then
    .error (bytes "Qwen3 talker frame code group count mismatch")
  else if textHidden.length ≠ model.config.hiddenSize then
    .error (bytes "Qwen3 talker frame text hidden size mismatch")
  else addCodeRows model.weights model.config.hiddenSize textHidden codes

def makePrefillEmbeddings (talkerHidden : List F) (firstCode : ℤ) : Except Exception (List F) :=
  if talkerHidden.length ≠ model.config.hiddenSize then
    .error (bytes "Qwen3 code predictor talker hidden shape mismatch")
  else if firstCode < 0 ∨ (model.config.vocabSize : ℤ) ≤ firstCode then
    .error (bytes "Qwen3 code predictor first code out of range")
  else do
    let row ← lookupRows model.weights.codecEmbedding model.config.hiddenSize [firstCode]
    return talkerHidden ++ row

/-- The row of the code of group `group - 1`, for the step of `group`. -/
def groupRow (group : ℕ) (code : ℤ) : Except Exception (List F) :=
  match model.weights.codePredictorEmbeddings[group - 1]? with
  | some table => lookupRows table model.config.hiddenSize [code]
  | none => .error (bytes "vector::_M_range_check")

end Codes

/-! ## The loops -/

/-- What the loops ask for. The graphs are told how many frames there were before. -/
structure Device (F ε σ : Type) where
  thrown : Exception → ε
  deliver : Frame → EStateM ε σ Unit
  predictorPrefill : (frames : ℕ) → List F → EStateM ε σ (List F)
  predictorStep : (frames group : ℕ) → List F → EStateM ε σ (List F)
  step : (frames : ℕ) → List F → EStateM ε σ (PrefillResult F)

def Device.attempt (device : Device F ε σ) {α : Type} : Except Exception α → EStateM ε σ α
  | .ok a => pure a
  | .error e => throw (device.thrown e)

structure Generation (F G : Type) where
  step : ℕ
  current : PrefillResult F
  generatedFirstCodes : List ℤ
  draws : Draws G
  frames : List Frame
  deriving DecidableEq, Repr

section Loops

variable [Add F] [Zero F] [DecidableEq F]

/-- The groups that are left, with the code of the last one. -/
def predictGroups (model : Model F K V G) (device : Device F ε σ) (options : GenerationOptions F)
    (frames : ℕ) :
    List ℕ → (codes : List ℤ) → (code : ℤ) → Draws G → EStateM ε σ (List ℤ × Draws G)
  | [], codes, _, draws => pure (codes, draws)
  | group :: groups, codes, code, draws => do
    let row ← device.attempt (groupRow model group code)
    let logits ← device.predictorStep frames group row
    let (code, draws) ← device.attempt (pickSubtalkerCode model options logits draws)
    predictGroups model device options frames groups (codes ++ [code]) code draws

/-- `CodePredictorGraph::generate`. -/
def predictCodes (model : Model F K V G) (device : Device F ε σ) (options : GenerationOptions F)
    (frames : ℕ) (talkerHidden : List F) (firstCode : ℤ) (draws : Draws G) :
    EStateM ε σ (List ℤ × Draws G) := do
  let embeddings ← device.attempt (makePrefillEmbeddings model talkerHidden firstCode)
  let logits ← device.predictorPrefill frames embeddings
  let (code, draws) ← device.attempt (pickSubtalkerCode model options logits draws)
  predictGroups model device options frames (List.range' 1 (model.config.numCodeGroups - 2))
    [firstCode, code] code draws

def textHidden (model : Model F K V G) (state : PromptEmbeddingState F) (step : ℕ) : List F :=
  if step < state.trailingText.length / model.config.hiddenSize then
    rowAt state.trailingText step model.config.hiddenSize
  else state.ttsPad

/-- Delivers the last of the frames and asks the callback, if there is one. -/
def notify (device : Device F ε σ) (call : Call F) (frame : Frame) (frames : List Frame) :
    EStateM ε σ Answer :=
  match call.onFrame with
  | none => pure .goOn
  | some onFrame => do
    device.deliver frame
    return onFrame frames

def nextFirstCode (model : Model F K V G) (call : Call F) (generation : Generation F G) :
    Except Exception (ℤ × Draws G) := do
  let logits ← applyMainTalkerProcessors model generation.current.logits
    generation.generatedFirstCodes generation.step call.repetitionPenalty
  pickFirstCode model call.options logits generation.draws

/-- The talker's step on a frame. -/
def stepTalker (model : Model F K V G) (device : Device F ε σ) (state : PromptEmbeddingState F)
    (generation : Generation F G) (codes : List ℤ) : EStateM ε σ (PrefillResult F) := do
  let embed ← device.attempt
    (frameEmbedding model codes (textHidden model state generation.step))
  device.step generation.frames.length embed

/-- A frame whose codes are there: it is delivered before the talker's next step. -/
def deliverFrame (model : Model F K V G) (device : Device F ε σ) (call : Call F)
    (state : PromptEmbeddingState F) (next : Generation F G → EStateM ε σ (Generation F G))
    (generation : Generation F G) (firstCode : ℤ) (codes : List ℤ) (draws : Draws G) :
    EStateM ε σ (Generation F G) := do
  let frame : Frame := ⟨generation.frames.length, codes⟩
  let answer ← notify device call frame (generation.frames ++ [frame])
  match answer with
  | .stop => pure { generation with frames := generation.frames ++ [frame] }
  | .throws what => throw (device.thrown what)
  | .goOn => do
    let current ← stepTalker model device state generation codes
    next ⟨generation.step + 1, current, generation.generatedFirstCodes ++ [firstCode], draws,
      generation.frames ++ [frame]⟩

def speakFrame (model : Model F K V G) (device : Device F ε σ) (call : Call F)
    (state : PromptEmbeddingState F) (next : Generation F G → EStateM ε σ (Generation F G))
    (generation : Generation F G) (firstCode : ℤ) (draws : Draws G) :
    EStateM ε σ (Generation F G) := do
  let (codes, draws) ← predictCodes model device call.options generation.frames.length
    generation.current.lastHidden firstCode draws
  deliverFrame model device call state next generation firstCode codes draws

/-- `remaining` is `max_new_tokens - step`. -/
def generateFrames (model : Model F K V G) (device : Device F ε σ) (call : Call F)
    (state : PromptEmbeddingState F) : (remaining : ℕ) → Generation F G →
    EStateM ε σ (Generation F G)
  | 0, generation => pure generation
  | remaining + 1, generation =>
    match call.cancelled generation.step with
    | .stop => pure generation
    | .throws what => throw (device.thrown what)
    | .goOn => do
      let (firstCode, draws) ← device.attempt (nextFirstCode model call generation)
      if firstCode = model.config.codecEosTokenId then pure generation
      else if remaining = 0 then pure generation
      else
        speakFrame model device call state (generateFrames model device call state remaining)
          generation firstCode draws

def collectCodes (model : Model F K V G) (call : Call F) (frames : List Frame) : TalkerCodes :=
  let groups : ℤ := model.config.numCodeGroups
  if call.collectOutputCodes then
    let codes := frames.flatMap (·.codes)
    let reference := (call.request.referenceCodes.map (·.codes)).getD []
    let referenceFrames := (call.request.referenceCodes.map (·.frames)).getD 0
    ⟨⟨codes, frames.length, groups⟩,
      ⟨reference ++ codes, referenceFrames + frames.length, groups⟩⟩
  else ⟨⟨[], 0, groups⟩, ⟨[], 0, groups⟩⟩

end Loops

end FastTts.Talker
