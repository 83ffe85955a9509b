import FastTts.TalkerGraphs

/-!
# The talker's step runtime

Between two calls the runtime keeps the prompt of the last request, the parts of its voice, the
prefill graphs of some prompt lengths with the tag of what they computed last, the step graph and
the graph that copies the rows of a prefill into it. A call that throws leaves all of this as it is
at that moment.
-/

namespace FastTts.Talker

open Kv Qwen

variable {F K V G : Type}

/-! ## What the runtime keeps -/

structure PrefillGraph (K V : Type) where
  serial : ℕ
  promptCapacity : ℕ
  contentTag : ℕ
  layers : Layers K V

structure StepGraph (K V : Type) where
  serial : ℕ
  cache : TransformerKVCache K V

structure PredictorGraph (K V : Type) where
  validSteps : ℕ
  currentEnd : ℤ
  layers : Layers K V

/-- The copies of the first `steps` rows from one graph into another, by their serial numbers. -/
structure TransferGraph where
  source : ℕ
  target : ℕ
  steps : ℕ
  deriving DecidableEq, Repr

structure Limits where
  promptCapacity : ℕ
  generationCapacity : ℕ
  prefillGraphCacheSlots : ℕ
  prompt_pos : 0 < promptCapacity
  generation_pos : 0 < generationCapacity
  slots_pos : 0 < prefillGraphCacheSlots

structure Runtime (F K V : Type) where
  prefillGraphs : CacheSlots ℕ (PrefillGraph K V)
  cachedStepGraph : Option (StepGraph K V)
  codePredictorGraph : Option (PredictorGraph K V)
  cachedPromptPrefill : Option (Prefill F)
  cachedPromptState : Option (PromptEmbeddingState F)
  cachedVoicePartsPrefill : Option (Prefill F)
  cachedVoiceParts : Option (VoicePromptParts F)
  cachedPrefillOutput : Option (PrefillResult F)
  transferGraph : Option TransferGraph
  promptContentTag : ℕ
  nextContentTag : ℕ
  /-- The last serial numbers of both kinds of graphs. -/
  prefillSerial : ℕ
  stepSerial : ℕ

def Runtime.fresh (limits : Limits) : Runtime F K V where
  prefillGraphs := .empty limits.prefillGraphCacheSlots
  cachedStepGraph := none
  codePredictorGraph := none
  cachedPromptPrefill := none
  cachedPromptState := none
  cachedVoicePartsPrefill := none
  cachedVoiceParts := none
  cachedPrefillOutput := none
  transferGraph := none
  promptContentTag := 0
  nextContentTag := 1
  prefillSerial := 0
  stepSerial := 0

/-! ## What can go wrong -/

/-- Where memory or the device can fail a call. -/
inductive Fault
  | promptState
  | voiceRequest
  | promptRequest
  | prefillGraph
  | prefillSlot
  | prefillCompute
  | predictorGraph
  | stepExport (frames : ℕ)
  | stepGraph (frames : ℕ)
  | transferCompute
  | predictorPrefill (frames : ℕ)
  | predictorStep (frames group : ℕ)
  | stepCompute (frames : ℕ)
  deriving DecidableEq, Repr

/-- How a call ends that does not return: at a fault, with an exception of its own, with one of a
cache that has no room, or by running a graph whose tensors are gone. -/
inductive Failure
  | fault (fault : Fault)
  | thrown (what : Exception)
  | cache (what : Exception)
  | dangling
  deriving DecidableEq, Repr

/-- What surrounds a call: the faults it meets, how many members of a request a failing copy gets
done, and the rows that new memory and failed computations hold. -/
structure Env (K V : Type) where
  fails : Fault → Bool
  copied : Fault → ℕ
  key : Fault → (layer row : ℕ) → K
  value : Fault → (layer row : ℕ) → V

/-- The runtime and the frames that went to the callback of this call. -/
structure Progress (F K V : Type) where
  runtime : Runtime F K V
  delivered : List Frame

abbrev Action (F K V α : Type) := EStateM Failure (Progress F K V) α

section Actions

variable {α : Type}

def attempt (env : Env K V) (fault : Fault) : Action F K V Unit :=
  if env.fails fault then throw (.fault fault) else pure ()

def orThrow : Except Exception α → Action F K V α
  | .ok a => pure a
  | .error what => throw (.thrown what)

/-- For the exceptions of a cache. -/
def orOverflow : Except Exception α → Action F K V α
  | .ok a => pure a
  | .error what => throw (.cache what)

def getRuntime : Action F K V (Runtime F K V) := do
  return (← get).runtime

def changeRuntime (f : Runtime F K V → Runtime F K V) : Action F K V Unit :=
  modify fun progress => { progress with runtime := f progress.runtime }

end Actions

/-! ## The prompt -/

section Prompt

variable [DecidableEq F]

def Runtime.heldPrompt (runtime : Runtime F K V) (request : Prefill F) :
    Option (PromptEmbeddingState F) :=
  match runtime.cachedPromptState, runtime.cachedPromptPrefill with
  | some state, some held => if talkerPrefillEqual held request then some state else none
  | _, _ => none

def Runtime.heldVoiceParts (runtime : Runtime F K V) (request : Prefill F) :
    Option (VoicePromptParts F) :=
  match runtime.cachedVoiceParts, runtime.cachedVoicePartsPrefill with
  | some parts, some held => if voicePartsReusable held request then some parts else none
  | _, _ => none

/-- `std::optional = request`: a copy that throws may have been over an earlier request. -/
def copyRequest (env : Env K V) (fault : Fault) (request : Prefill F)
    (old : Runtime F K V → Option (Prefill F))
    (store : Option (Prefill F) → Runtime F K V → Runtime F K V) : Action F K V Unit := do
  if env.fails fault then
    changeRuntime fun runtime =>
      store ((old runtime).map fun held => held.copyOver request (env.copied fault)) runtime
    throw (.fault fault)
  else changeRuntime (store (some request))

variable [Add F] [Zero F]

def ensureVoiceParts (model : Model F K V G) (env : Env K V) (request : Prefill F) :
    Action F K V (VoicePromptParts F) := do
  match (← getRuntime).heldVoiceParts request with
  | some parts => pure parts
  | none => do
    let parts ← orThrow (buildVoiceParts model.config model.weights request)
    changeRuntime ({ · with cachedVoiceParts := some parts })
    copyRequest env .voiceRequest request (·.cachedVoicePartsPrefill)
      fun prefill runtime => { runtime with cachedVoicePartsPrefill := prefill }
    pure parts

def buildRequestPrompt (model : Model F K V G) (env : Env K V) (request : Prefill F) :
    Action F K V (PromptEmbeddingState F) := do
  if voicePartsUsable request then
    let parts ← ensureVoiceParts model env request
    orThrow (buildPromptStateFromParts model.config model.weights request parts)
  else orThrow (buildPromptState model.config model.weights request)

def ensurePromptState (model : Model F K V G) (env : Env K V) (request : Prefill F) :
    Action F K V (PromptEmbeddingState F) := do
  match (← getRuntime).heldPrompt request with
  | some state => pure state
  | none => do
    attempt env .promptState
    let state ← buildRequestPrompt model env request
    changeRuntime ({ · with cachedPromptState := some state })
    copyRequest env .promptRequest request (·.cachedPromptPrefill)
      fun prefill runtime => { runtime with cachedPromptPrefill := prefill }
    changeRuntime fun runtime => { runtime with
      cachedPrefillOutput := none
      promptContentTag := runtime.nextContentTag
      nextContentTag := runtime.nextContentTag + 1 }
    pure state

end Prompt

/-! ## The prefill -/

def changeGraph (promptSteps : ℕ) (f : PrefillGraph K V → PrefillGraph K V) : Action F K V Unit :=
  changeRuntime fun runtime =>
    { runtime with prefillGraphs := runtime.prefillGraphs.write promptSteps f }

def findGraph (promptSteps : ℕ) : Action F K V (Option (PrefillGraph K V)) := do
  let (slots, graph) := (← getRuntime).prefillGraphs.find promptSteps
  changeRuntime ({ · with prefillGraphs := slots })
  return graph

variable (model : Model F K V G) (env : Env K V)

def buildPrefillGraph (promptSteps : ℕ) :
    Action F K V Unit := do
  if promptSteps = 0 then
    throw (.thrown (bytes "Qwen3 talker prefill graph requires positive prompt capacity"))
  else
    attempt env .prefillGraph
    changeRuntime fun runtime => { runtime with prefillSerial := runtime.prefillSerial + 1 }
    let graph : PrefillGraph K V := ⟨(← getRuntime).prefillSerial, promptSteps, 0,
      computedLayers model.layerCount promptSteps (env.key .prefillGraph) (env.value .prefillGraph)⟩
    -- The slot of another length may be gone already when the insertion throws.
    if env.fails .prefillSlot then
      changeRuntime fun runtime => { runtime with prefillGraphs := runtime.prefillGraphs.makeRoom }
      throw (.fault .prefillSlot)
    else changeRuntime fun runtime =>
      { runtime with prefillGraphs := runtime.prefillGraphs.put promptSteps graph }

def ensurePrefillGraph (model : Model F K V G) (limits : Limits) (env : Env K V)
    (promptSteps : ℕ) : Action F K V (PrefillGraph K V) := do
  if limits.promptCapacity < promptSteps then
    throw (.thrown (bytes "Qwen3 talker prompt exceeds step runtime capacity"))
  else
    let graph ← findGraph promptSteps
    match graph with
    | some graph =>
      if graph.promptCapacity = promptSteps then pure graph
      else
        buildPrefillGraph model env promptSteps
        foundGraph (← findGraph promptSteps)
    | none =>
      buildPrefillGraph model env promptSteps
      foundGraph (← findGraph promptSteps)
where
  foundGraph : Option (PrefillGraph K V) → Action F K V (PrefillGraph K V)
    | some graph => pure graph
    | none => throw (.thrown (bytes "Qwen3 talker prefill graph cache insertion failed"))

def prefillLayers (prompt : List F) : Layers K V :=
  computedLayers model.layerCount (prompt.length / model.config.hiddenSize)
    (model.prefillKey prompt) (model.prefillValue prompt)

variable (graph : PrefillGraph K V)

def runComputeResult
    (prompt : List F) : Action F K V (PrefillResult F) := do
  if prompt.length ≠ graph.promptCapacity * model.config.hiddenSize then
    throw (.thrown (bytes "Qwen3 talker prefill embedding size mismatch"))
  else if env.fails .prefillCompute then
    changeGraph graph.promptCapacity fun graph => { graph with
      layers := scrambleLayers (env.key .prefillCompute) (env.value .prefillCompute) graph.layers }
    throw (.fault .prefillCompute)
  else
    changeGraph graph.promptCapacity fun graph =>
      { graph with layers := prefillLayers model prompt }
    pure (model.prefill prompt)

/-- The prefill of the prompt, computed or left over from the last call. -/
def ensurePrefill (model : Model F K V G) (env : Env K V) (graph : PrefillGraph K V)
    (prompt : List F) : Action F K V (PrefillResult F) := do
  let runtime ← getRuntime
  match runtime.cachedPrefillOutput with
  | some output =>
    if graph.contentTag = runtime.promptContentTag then pure output else compute
  | none => compute
where
  compute : Action F K V (PrefillResult F) := do
    let output ← runComputeResult model env graph prompt
    let runtime ← getRuntime
    changeRuntime ({ · with cachedPrefillOutput := some output })
    changeGraph graph.promptCapacity ({ · with contentTag := runtime.promptContentTag })
    pure output

/-! ## The step cache -/

def ensureCodePredictor : Action F K V Unit := do
  match (← getRuntime).codePredictorGraph with
  | some _ => pure ()
  | none =>
    if model.config.numCodeGroups ≤ 1 then
      throw (.thrown (bytes "Qwen3 code predictor requires multiple code groups"))
    else
      attempt env .predictorGraph
      changeRuntime ({ · with codePredictorGraph := some ⟨0, 0,
        computedLayers model.predictorLayerCount model.config.numCodeGroups
          (env.key .predictorGraph) (env.value .predictorGraph)⟩ })

def initialGeneratedStepCacheFrames : ℤ := 128

/-- The capacity of the next step graph; `old` is that of the one before. -/
def nextCacheSteps (maxNewTokens : ℤ) (promptSteps : ℕ) (old : Option ℤ) (required : ℤ) : ℤ :=
  let oldGenerated : ℤ := (old.map fun (steps : ℤ) => max 1 (steps - promptSteps)).getD 0
  let requiredGenerated : ℤ := max 1 (required - promptSteps)
  promptSteps + min maxNewTokens (max requiredGenerated
    (if 0 < oldGenerated then oldGenerated * 2 else initialGeneratedStepCacheFrames))

section StepCache

variable [Inhabited K] [Inhabited V]

/-- The memory of a new step graph is cleared. -/
def clearedCache (model : Model F K V G) (cacheSteps : ℤ) : TransformerKVCache K V :=
  ⟨cacheSteps, 0, 0, List.replicate model.layerCount
    ⟨List.replicate cacheSteps.toNat default, List.replicate cacheSteps.toNat default⟩⟩

def buildStepGraph (model : Model F K V G) (env : Env K V) (frames : ℕ) (cacheSteps : ℤ) :
    Action F K V (StepGraph K V) := do
  changeRuntime ({ · with cachedStepGraph := none })
  attempt env (.stepGraph frames)
  if cacheSteps ≤ 0 then
    throw (.thrown (bytes "Qwen3 talker cached step graph requires positive cache capacity"))
  else
    changeRuntime fun runtime => { runtime with stepSerial := runtime.stepSerial + 1 }
    let graph : StepGraph K V := ⟨(← getRuntime).stepSerial, clearedCache model cacheSteps⟩
    changeRuntime ({ · with cachedStepGraph := some graph })
    pure graph

/-- A step graph that is too small goes, and what it held moves into the next one. -/
def ensureCachedStepCapacity (model : Model F K V G) (env : Env K V) (maxNewTokens : ℤ)
    (promptSteps frames : ℕ) (required : ℤ) : Action F K V Unit := do
  match (← getRuntime).cachedStepGraph with
  | none =>
    let _ ← buildStepGraph model env frames (nextCacheSteps maxNewTokens promptSteps none required)
  | some old =>
    if required ≤ old.cache.cacheSteps then pure ()
    else
      let next := nextCacheSteps maxNewTokens promptSteps (some old.cache.cacheSteps) required
      if 0 < old.cache.validSteps then
        attempt env (.stepExport frames)
        let graph ← buildStepGraph model env frames next
        let cache ← orOverflow (graph.cache.importState old.cache.exportState)
        changeRuntime ({ · with cachedStepGraph := some { graph with cache := cache } })
      else
        let _ ← buildStepGraph model env frames next

end StepCache

/-- The step graph, which is there wherever the source uses it. -/
def stepGraph : Action F K V (StepGraph K V) := do
  match (← getRuntime).cachedStepGraph with
  | some graph => pure graph
  | none => throw .dangling

def setStepCache (graph : StepGraph K V) (cache : TransformerKVCache K V) : Action F K V Unit :=
  changeRuntime ({ · with cachedStepGraph := some { graph with cache := cache } })

/-- The transfer graph for these two graphs, the one that is there or another. -/
def ensureTransferGraph (step : StepGraph K V) (steps : ℕ) :
    Action F K V TransferGraph := do
  let made : TransferGraph := ⟨graph.serial, step.serial, steps⟩
  match (← getRuntime).transferGraph with
  | some transfer =>
    if transfer.source = graph.serial ∧ transfer.target = step.serial then pure transfer
    else
      changeRuntime ({ · with transferGraph := some made })
      pure made
  | none =>
    changeRuntime ({ · with transferGraph := some made })
    pure made

/-- Runs the copies on the graphs that the transfer graph was made for. -/
def computeTransfer (transfer : TransferGraph) : Action F K V Unit := do
  let runtime ← getRuntime
  let step ← stepGraph
  match runtime.prefillGraphs.entries.find? (fun entry => entry.value.serial = transfer.source) with
  | none => throw .dangling
  | some source =>
    if step.serial ≠ transfer.target then throw .dangling
    else if env.fails .transferCompute then
      setStepCache step { step.cache with
        layers := scrambleLayers (env.key .transferCompute) (env.value .transferCompute)
          step.cache.layers }
      throw (.fault .transferCompute)
    else setStepCache step { step.cache with
      layers := copyLayers transfer.steps source.value.layers step.cache.layers }

def transferPrefillState (steps : ℕ) :
    Action F K V Unit := do
  let step ← stepGraph
  if graph.promptCapacity ≠ steps then
    throw (.cache (bytes "Qwen3 talker transfer steps do not match prefill graph"))
  else if step.cache.cacheSteps < steps then
    throw (.cache (bytes "Qwen3 talker transfer exceeds step cache capacity"))
  else
    let transfer ← ensureTransferGraph graph step steps
    computeTransfer env transfer
    let step ← stepGraph
    let cache ← orOverflow (step.cache.markDeviceImport steps)
    setStepCache step cache

/-! ## The graphs of a generation -/

def runStep (frames : ℕ) (embedding : List F) :
    Action F K V (PrefillResult F) := do
  let graph ← stepGraph
  let cache := graph.cache
  if embedding.length ≠ model.config.hiddenSize then
    throw (.thrown (bytes "Qwen3 talker cached step embedding size mismatch"))
  else if cache.cacheSteps ≤ cache.validSteps then
    throw (.cache (bytes "Qwen3 talker cached step exceeds cache capacity"))
  else
    let slot := cache.validSteps.toNat
    let input : StepInput F K V := ⟨embedding, cache.currentEnd, cache.validSteps,
      shownLayers (stepMask cache.cacheSteps.toNat slot) slot cache.layers⟩
    if env.fails (.stepCompute frames) then
      setStepCache graph { cache with
        layers := scrambleLayers (env.key (.stepCompute frames)) (env.value (.stepCompute frames))
          cache.layers }
      throw (.fault (.stepCompute frames))
    else
      let written := { cache with
        layers := writeSlot slot (model.stepKey input) (model.stepValue input) cache.layers }
      let cache ← orOverflow (written.advanceAfterDirectAppend 1)
      setStepCache graph cache
      pure (model.step input)

def predictorGraph : Action F K V (PredictorGraph K V) := do
  match (← getRuntime).codePredictorGraph with
  | some graph => pure graph
  | none => throw .dangling

def setPredictor (graph : PredictorGraph K V) : Action F K V Unit :=
  changeRuntime ({ · with codePredictorGraph := some graph })

def runPredictorPrefill (frames : ℕ)
    (embeddings : List F) : Action F K V (List F) := do
  let graph ← predictorGraph
  let fault := Fault.predictorPrefill frames
  if env.fails fault then
    setPredictor { graph with
      layers := scrambleLayers (env.key fault) (env.value fault) graph.layers }
    throw (.fault fault)
  else
    let made := computedLayers model.predictorLayerCount 2 (model.predictorPrefillKey embeddings)
      (model.predictorPrefillValue embeddings)
    setPredictor ⟨2, 2, copyLayers 2 made graph.layers⟩
    pure (model.predictorPrefill embeddings)

def runPredictorStep (frames group : ℕ)
    (embedding : List F) : Action F K V (List F) := do
  let graph ← predictorGraph
  let groups := model.config.numCodeGroups
  if group = 0 ∨ groups - 1 ≤ group then
    throw (.cache (bytes "Qwen3 code predictor step group out of range"))
  else if embedding.length ≠ model.config.hiddenSize then
    throw (.thrown (bytes "Qwen3 code predictor step embedding size mismatch"))
  else if graph.validSteps = 0 ∨ groups ≤ graph.validSteps then
    throw (.cache (bytes "Qwen3 code predictor cache state is invalid for step"))
  else
    let slot := graph.validSteps
    let input : StepInput F K V := ⟨embedding, graph.currentEnd, slot,
      shownLayers (stepMask groups slot) slot graph.layers⟩
    let fault := Fault.predictorStep frames group
    if env.fails fault then
      setPredictor { graph with
        layers := scrambleLayers (env.key fault) (env.value fault) graph.layers }
      throw (.fault fault)
    else
      setPredictor ⟨slot + 1, graph.currentEnd + 1, writeSlot slot
        (model.predictorStepKey group input) (model.predictorStepValue group input) graph.layers⟩
      pure (model.predictorStep group input)

section Calls

variable [Inhabited K] [Inhabited V] [Add F] [Zero F] [DecidableEq F]

/-- The graphs of a generation. After `frames` frames and the new one, the step graph needs room
for the prompt and all of them. -/
def graphs (model : Model F K V G) (env : Env K V) (maxNewTokens : ℤ) (promptSteps : ℕ) :
    Device F Failure (Progress F K V) where
  thrown := .thrown
  deliver frame := modify fun progress =>
    { progress with delivered := progress.delivered ++ [frame] }
  predictorPrefill := runPredictorPrefill model env
  predictorStep := runPredictorStep model env
  step frames embedding := do
    ensureCachedStepCapacity model env maxNewTokens promptSteps (frames + 1)
      (promptSteps + (frames + 1))
    runStep model env frames embedding

/-- The rest of `Impl::generate`, when the prompt is in `graph`. -/
def generateFrom (model : Model F K V G) (env : Env K V) (call : Call F)
    (state : PromptEmbeddingState F) (graph : PrefillGraph K V) (current : PrefillResult F) :
    Action F K V TalkerCodes := do
  let maxNewTokens := call.options.maxNewTokens
  let promptSteps := state.prompt.length / model.config.hiddenSize
  ensureCodePredictor model env
  ensureCachedStepCapacity model env maxNewTokens promptSteps 0 (promptSteps + 1)
  transferPrefillState env graph promptSteps
  let generation ← generateFrames model (graphs model env maxNewTokens promptSteps) call state
    maxNewTokens.toNat ⟨0, current, [], ⟨model.seeded call.options.seed, 0⟩, []⟩
  return collectCodes model call generation.frames

/-- `Impl::generate`. -/
def generateCall (model : Model F K V G) (limits : Limits) (env : Env K V) (call : Call F) :
    Action F K V TalkerCodes := do
  let maxNewTokens := call.options.maxNewTokens
  if maxNewTokens ≤ 0 ∨ (limits.generationCapacity : ℤ) < maxNewTokens then
    throw (.thrown (bytes "Qwen3 talker generation token count exceeds capacity"))
  else
    let state ← ensurePromptState model env call.request
    let promptSteps := state.prompt.length / model.config.hiddenSize
    if promptSteps = 0 ∨ limits.promptCapacity < promptSteps then
      throw (.thrown (bytes "Qwen3 talker prompt exceeds step runtime capacity"))
    else
      let graph ← ensurePrefillGraph model limits env promptSteps
      let current ← ensurePrefill model env graph state.prompt
      generateFrom model env call state graph current

/-! ## Calls -/

inductive Request (F : Type)
  | generate (prefill : Prefill F) (options : GenerationOptions F) (repetitionPenalty : F)
  | generateStreaming (prefill : Prefill F) (options : GenerationOptions F)
      (onFrame : Option (List Frame → Answer)) (cancelled : Option (ℕ → Answer))
      (repetitionPenalty : F)

/-- What a request asks of `Impl::generate`. -/
def Request.call : Request F → Except Exception (Call F)
  | .generate prefill options penalty =>
    .ok ⟨prefill, options, penalty, none, fun _ => .goOn, true⟩
  | .generateStreaming _ _ none _ _ =>
    .error (bytes "Qwen3 streaming talker requires a frame callback")
  | .generateStreaming prefill options (some onFrame) cancelled penalty =>
    .ok ⟨prefill, options, penalty, some onFrame, cancelled.getD fun _ => .goOn, false⟩

def answerRequest (model : Model F K V G) (limits : Limits) (env : Env K V) (request : Request F) :
    Action F K V TalkerCodes := do
  let call ← orThrow request.call
  generateCall model limits env call

/-- How a call ended, and the frames that its callback got. -/
structure Outcome where
  delivered : List Frame
  result : Except Failure TalkerCodes

/-- A call, and the runtime that it leaves. -/
def perform (model : Model F K V G) (limits : Limits) (runtime : Runtime F K V) (env : Env K V)
    (request : Request F) : Outcome × Runtime F K V :=
  match answerRequest model limits env request ⟨runtime, []⟩ with
  | .ok codes progress => (⟨progress.delivered, .ok codes⟩, progress.runtime)
  | .error failure progress => (⟨progress.delivered, .error failure⟩, progress.runtime)

/-- The number of steps of the graph that goes. -/
def Runtime.releaseCachedStepGraph (runtime : Runtime F K V) : ℤ × Runtime F K V :=
  ((runtime.cachedStepGraph.map (·.cache.cacheSteps)).getD 0,
    { runtime with cachedStepGraph := none })

inductive Event (F K V : Type)
  | call (request : Request F) (env : Env K V)
  | release

def step (model : Model F K V G) (limits : Limits) (runtime : Runtime F K V) :
    Event F K V → Option (Runtime F K V)
  | .call request env => some (perform model limits runtime env request).2
  | .release => some runtime.releaseCachedStepGraph.2

end Calls

end FastTts.Talker
