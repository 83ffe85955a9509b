import FastTts.QwenBatchedDecoder
import FastTts.QwenDecodeRuns

/-!
# The batched runtime

The batched graphs of the runtime take the inputs of all sequences at once. A run in a batch is
followed sequence by sequence, in terms of the causal stack of each.
-/

namespace FastTts.Qwen

open Blocks Kv

variable {T H Q K V : Type}

/-! ## Prefill -/

structure BatchedPrefillResult (H K V : Type) where
  hidden : List H
  state : TransformerBatchedKVState (ℤ × K) V
  seen : List (List (List (List (Seen K V))))

def buildBatchedPrefillGraph (kind : InputKind) (batchSize steps : ℤ) :
    Except Exception BatchedPrefillGraph :=
  match hpositions : qwenPositionIds steps 0, hmask : causalPrefillMaskValues batchSize steps with
  | .ok positions, .ok mask => .ok ⟨kind, batchSize, steps, positions, mask, hpositions, hmask⟩
  | .error e, _ => .error e
  | .ok _, .error e => .error e

def runBatchedPrefill (decoder : Decoder T H Q K V) (graph : BatchedPrefillGraph)
    (hidden : List H) : BatchedPrefillResult H K V :=
  let (traces, out) := buildStackBatched decoder.layers graph.batchSize.toNat graph.steps.toNat
    graph.positions graph.mask hidden
  ⟨out, ⟨graph.batchSize, graph.steps,
    traces.map fun trace => ⟨graph.steps, trace.keys, trace.values⟩⟩,
    traces.map fun trace => trace.seen⟩

namespace Runtime

variable {decoder : Decoder T H Q K V}

def ensureBatchedPrefillGraph (runtime : Runtime decoder) (kind : InputKind)
    (batchSize steps : ℤ) : Except Exception BatchedPrefillGraph :=
  match runtime.batchedPrefillGraph with
  | some graph =>
    if graph.kind = kind ∧ graph.batchSize = batchSize ∧ graph.steps = steps then .ok graph
    else buildBatchedPrefillGraph kind batchSize steps
  | none => buildBatchedPrefillGraph kind batchSize steps

def prefillHiddenBatched (runtime : Runtime decoder) (kind : InputKind) (mismatch : String)
    (hidden : List H) (batchSize steps : ℤ) :
    Except Exception (Runtime decoder × BatchedPrefillResult H K V) :=
  if batchSize ≤ 0 ∨ steps ≤ 0 then
    .error (bytes "QwenCausalDecodeRuntime batched prefill requires positive batch and steps")
  else if (hidden.length : ℤ) ≠ batchSize * steps then .error (bytes mismatch)
  else do
    let graph ← runtime.ensureBatchedPrefillGraph kind batchSize steps
    return ({ runtime with batchedPrefillGraph := some graph },
      runBatchedPrefill decoder graph hidden)

def prefillTokensBatched (runtime : Runtime decoder) (tokenIds : List T) (batchSize steps : ℤ) :
    Except Exception (Runtime decoder × BatchedPrefillResult H K V) :=
  runtime.prefillHiddenBatched .token
    "QwenCausalDecodeRuntime batched prefill token size mismatch"
    (tokenIds.map decoder.embed) batchSize steps

def prefillEmbeddingsBatched (runtime : Runtime decoder) (embeddings : List H)
    (batchSize steps : ℤ) : Except Exception (Runtime decoder × BatchedPrefillResult H K V) :=
  runtime.prefillHiddenBatched .embedding
    "QwenCausalDecodeRuntime batched prefill embedding size mismatch" embeddings batchSize steps

end Runtime

/-! ## Decode -/

structure BatchedDecodeStepResult (H K V : Type) where
  hidden : List H
  seen : List (List (List (Seen K V)))

def buildBatchedDecodeGraph (layerCount : ℕ) (memory : ℕ → LayerCache (ℤ × K) V)
    (kind : InputKind) (batchSize cacheSteps : ℤ) (positive : 0 < cacheSteps) :
    Except Exception (BatchedDecodeGraph K V layerCount) :=
  if hbatch : batchSize ≤ 0 then
    .error (bytes "QwenCausalDecodeRuntime batched decode requires positive batch size")
  else .ok {
    kind := kind
    batchSize := batchSize
    cacheSteps := cacheSteps
    cache := ⟨cacheSteps, batchSize, 0, 0, (List.range layerCount).map memory⟩
    batch_positive := positive_of_not_le hbatch
    positive := positive
    batch_eq := rfl
    capacity_eq := rfl
    layers_eq := by rw [List.length_map, List.length_range] }

def BatchedDecodeGraph.importState [Inhabited K] [Inhabited V] {layerCount : ℕ}
    (graph : BatchedDecodeGraph K V layerCount) (state : TransformerBatchedKVState (ℤ × K) V) :
    Except Exception (BatchedDecodeGraph K V layerCount) :=
  match h : graph.cache.importState state with
  | .error e => .error e
  | .ok cache => .ok { graph with
      cache := cache
      batch_eq := (importState_batched_shape h).2.1.trans graph.batch_eq
      capacity_eq := (importState_batched_shape h).1.trans graph.capacity_eq
      layers_eq := (importState_batched_shape h).2.2.trans graph.layers_eq }

def BatchedDecodeGraph.advance {layerCount : ℕ} (graph : BatchedDecodeGraph K V layerCount)
    (layers : List (LayerCache (ℤ × K) V)) (hlayers : layers.length = layerCount) :
    Except Exception (BatchedDecodeGraph K V layerCount) :=
  match h : TransformerBatchedKVCache.advanceAfterDirectAppend
      { graph.cache with layers := layers } 1 with
  | .error e => .error e
  | .ok cache => .ok { graph with
      cache := cache
      batch_eq := (advance_batched_shape h).2.1.trans graph.batch_eq
      capacity_eq := (advance_batched_shape h).1.trans graph.capacity_eq
      layers_eq := (congrArg List.length (advance_batched_shape h).2.2).trans hlayers }

def runBatchedDecodeStep (decoder : Decoder T H Q K V)
    (graph : BatchedDecodeGraph K V decoder.layers.length) (hidden : List H) :
    Except Exception
      (BatchedDecodeGraph K V decoder.layers.length × BatchedDecodeStepResult H K V) :=
  if graph.cacheSteps ≤ graph.cache.validSteps then
    .error (bytes "QwenCausalDecodeRuntime batched decode cache exhausted")
  else do
    let slots := stepSlots graph.batchSize.toNat graph.cacheSteps.toNat graph.cache.validSteps.toNat
    let mask ← batchedCachedStepMask graph.batchSize graph.cacheSteps graph.cache.validSteps
      graph.cache.validSteps
    let step := buildStaticCacheTailBatched decoder.layers graph.cache.currentEnd slots
      graph.cacheSteps.toNat mask graph.cache.layers hidden
    let graph ← graph.advance step.1 (length_buildStaticCacheTailBatched _ _ _ _ _ _ graph.layers_eq)
    return (graph, ⟨step.2.2, step.2.1⟩)

namespace Runtime

variable {decoder : Decoder T H Q K V} (runtime : Runtime decoder)

def ensureBatchedDecodeGraph (memory : ℕ → LayerCache (ℤ × K) V)
    (kind : InputKind) (cacheSteps batchSize : ℤ) (positive : 0 < cacheSteps) :
    Except Exception (BatchedDecodeGraph K V decoder.layers.length) :=
  match runtime.batchedDecodeGraph with
  | some graph =>
    if graph.kind = kind ∧ cacheSteps ≤ graph.cacheSteps ∧ graph.batchSize = batchSize then
      .ok graph
    else buildBatchedDecodeGraph _ memory kind batchSize cacheSteps positive
  | none => buildBatchedDecodeGraph _ memory kind batchSize cacheSteps positive

def startDecodeBatched [Inhabited K] [Inhabited V] (runtime : Runtime decoder)
    (memory : ℕ → LayerCache (ℤ × K) V) (kind : InputKind)
    (state : TransformerBatchedKVState (ℤ × K) V) (requiredCacheSteps : ℤ) :
    Except Exception (Runtime decoder) :=
  if hrequired : requiredCacheSteps ≤ 0 then
    .error (bytes "QwenCausalDecodeRuntime batched decode requires positive cache capacity")
  else do
    let graph ← runtime.ensureBatchedDecodeGraph memory kind requiredCacheSteps state.batchSize
      (positive_of_not_le hrequired)
    let graph ← graph.importState state
    return { runtime with batchedDecodeGraph := some graph }

def startDecodeTokensBatched [Inhabited K] [Inhabited V] (runtime : Runtime decoder)
    (memory : ℕ → LayerCache (ℤ × K) V) :
    TransformerBatchedKVState (ℤ × K) V → ℤ → Except Exception (Runtime decoder) :=
  runtime.startDecodeBatched memory .token

def startDecodeEmbeddingsBatched [Inhabited K] [Inhabited V] (runtime : Runtime decoder)
    (memory : ℕ → LayerCache (ℤ × K) V) :
    TransformerBatchedKVState (ℤ × K) V → ℤ → Except Exception (Runtime decoder) :=
  runtime.startDecodeBatched memory .embedding

def decodeTokensBatched (tokens : List T) :
    Except Exception (Runtime decoder × BatchedDecodeStepResult H K V) :=
  match runtime.batchedDecodeGraph with
  | none => .error (bytes "QwenCausalDecodeRuntime batched decode graph has not been started")
  | some graph =>
    if graph.kind ≠ .token then
      .error (bytes "QwenCausalDecodeRuntime batched decode graph expects tokens")
    else if (tokens.length : ℤ) ≠ graph.batchSize then
      .error (bytes "QwenCausalDecodeRuntime batched decode token size mismatch")
    else do
      let (graph, out) ← runBatchedDecodeStep decoder graph (tokens.map decoder.embed)
      return ({ runtime with batchedDecodeGraph := some graph }, out)

def decodeEmbeddingsBatched (embeddings : List H) (batchSize : ℤ) :
    Except Exception (Runtime decoder × BatchedDecodeStepResult H K V) :=
  match runtime.batchedDecodeGraph with
  | none => .error (bytes "QwenCausalDecodeRuntime batched decode graph has not been started")
  | some graph =>
    if graph.kind ≠ .embedding then
      .error (bytes "QwenCausalDecodeRuntime batched decode graph expects embeddings")
    else if batchSize ≠ graph.batchSize then
      .error (bytes "QwenCausalDecodeRuntime batched decode embedding batch mismatch")
    else if (embeddings.length : ℤ) ≠ batchSize then
      .error (bytes "QwenCausalDecodeRuntime batched decode embedding size mismatch")
    else do
      let (graph, out) ← runBatchedDecodeStep decoder graph embeddings
      return ({ runtime with batchedDecodeGraph := some graph }, out)

/-! ## Runs -/

def prefillBatched : (kind : InputKind) → List (Input T H kind) →
    ℤ → ℤ → Except Exception (Runtime decoder × BatchedPrefillResult H K V)
  | .token, tokenIds, batchSize, steps => runtime.prefillTokensBatched tokenIds batchSize steps
  | .embedding, embeddings, batchSize, steps =>
    runtime.prefillEmbeddingsBatched embeddings batchSize steps

def startBatched [Inhabited K] [Inhabited V] (runtime : Runtime decoder)
    (memory : ℕ → LayerCache (ℤ × K) V) :
    InputKind → TransformerBatchedKVState (ℤ × K) V → ℤ → Except Exception (Runtime decoder)
  | .token => runtime.startDecodeTokensBatched memory
  | .embedding => runtime.startDecodeEmbeddingsBatched memory

def decodeBatched : (kind : InputKind) → List (Input T H kind) →
    Except Exception (Runtime decoder × BatchedDecodeStepResult H K V)
  | .token, tokens => runtime.decodeTokensBatched tokens
  | .embedding, embeddings => runtime.decodeEmbeddingsBatched embeddings embeddings.length

def decodeEachBatched (kind : InputKind) : Runtime decoder → List (List (Input T H kind)) →
    Except Exception (Runtime decoder × List (BatchedDecodeStepResult H K V))
  | runtime, [] => .ok (runtime, [])
  | runtime, items :: rest => do
    let (runtime, out) ← runtime.decodeBatched kind items
    let (runtime, outs) ← decodeEachBatched kind runtime rest
    return (runtime, out :: outs)

/-- The prompts have `steps` items each; every step brings one item for each of them. -/
def generateBatched [Inhabited K] [Inhabited V] (runtime : Runtime decoder)
    (memory : ℕ → LayerCache (ℤ × K) V) (kind : InputKind) (prompts : List (List (Input T H kind)))
    (steps : ℕ) (rest : List (List (Input T H kind))) (requiredCacheSteps : ℤ) :
    Except Exception
      (Runtime decoder × BatchedPrefillResult H K V × List (BatchedDecodeStepResult H K V)) := do
  let (runtime, first) ← runtime.prefillBatched kind prompts.flatten prompts.length steps
  let runtime ← runtime.startBatched memory kind first.state requiredCacheSteps
  let (runtime, outs) ← runtime.decodeEachBatched kind rest
  return (runtime, first, outs)

def batchedCacheCapacity (kind : InputKind) (requiredCacheSteps batchSize : ℤ) : ℤ :=
  match runtime.batchedDecodeGraph with
  | some graph =>
    if graph.kind = kind ∧ requiredCacheSteps ≤ graph.cacheSteps ∧ graph.batchSize = batchSize then
      graph.cacheSteps
    else requiredCacheSteps
  | none => requiredCacheSteps

end Runtime

/-- The sequences of a batch: every step appends an item to each. -/
def sequences {α : Type} (prompts rest : List (List α)) : List (List α) :=
  rest.foldl (fun rows items => List.zipWith (fun row item => row ++ [item]) rows items) prompts

end FastTts.Qwen
