import FastTts.KvCacheBatched
import FastTts.QwenDecoder

/-!
# The decode runtime

The runtime holds one graph for each use and builds another only when the one it has does not fit.
The positions and the mask of a prefill graph are uploaded when it is built, a decode graph keeps
its cache from one run to the next. The inputs are tokens or embeddings; the embedding of a token is
looked up inside the graph.
-/

namespace FastTts.Qwen

open Blocks Kv

inductive InputKind
  | token
  | embedding
  deriving DecidableEq, Repr

theorem positive_of_not_le {n : ℤ} (h : ¬ n ≤ 0) : 0 < n := Int.not_le.mp h

structure Decoder (T H Q K V : Type) where
  embed : T → H
  layers : List (DecoderLayer H Q K V)
  nonempty : 0 < layers.length

variable {T H Q K V : Type}

abbrev Input (T H : Type) : InputKind → Type
  | .token => T
  | .embedding => H

def Decoder.hidden (decoder : Decoder T H Q K V) : (kind : InputKind) → Input T H kind → H
  | .token, token => decoder.embed token
  | .embedding, embedding => embedding

/-! ## Graphs -/

structure PrefillGraph where
  kind : InputKind
  steps : ℤ
  positions : List ℤ
  mask : List Mask
  positions_eq : qwenPositionIds steps 0 = .ok positions
  mask_eq : causalPrefillMaskValues 1 steps = .ok mask

structure BatchedPrefillGraph where
  kind : InputKind
  batchSize : ℤ
  steps : ℤ
  positions : List ℤ
  mask : List Mask
  positions_eq : qwenPositionIds steps 0 = .ok positions
  mask_eq : causalPrefillMaskValues batchSize steps = .ok mask

structure DecodeGraph (K V : Type) (layerCount : ℕ) where
  kind : InputKind
  cacheSteps : ℤ
  cache : TransformerKVCache (ℤ × K) V
  positive : 0 < cacheSteps
  capacity_eq : cache.cacheSteps = cacheSteps
  layers_eq : cache.layers.length = layerCount

structure BatchedDecodeGraph (K V : Type) (layerCount : ℕ) where
  kind : InputKind
  batchSize : ℤ
  cacheSteps : ℤ
  cache : TransformerBatchedKVCache (ℤ × K) V
  batch_positive : 0 < batchSize
  positive : 0 < cacheSteps
  batch_eq : cache.batchSize = batchSize
  capacity_eq : cache.cacheSteps = cacheSteps
  layers_eq : cache.layers.length = layerCount

structure Runtime (decoder : Decoder T H Q K V) where
  prefillGraph : Option PrefillGraph
  batchedPrefillGraph : Option BatchedPrefillGraph
  decodeGraph : Option (DecodeGraph K V decoder.layers.length)
  batchedDecodeGraph : Option (BatchedDecodeGraph K V decoder.layers.length)

/-! ## Prefill -/

/-- What the rows of the layers have seen is not returned by the source. -/
structure PrefillResult (H K V : Type) where
  hidden : List H
  state : TransformerKVState (ℤ × K) V
  seen : List (List (List (Seen K V)))

def buildPrefillGraph (kind : InputKind) (steps : ℤ) : Except Exception PrefillGraph :=
  match hpositions : qwenPositionIds steps 0, hmask : causalPrefillMaskValues 1 steps with
  | .ok positions, .ok mask => .ok ⟨kind, steps, positions, mask, hpositions, hmask⟩
  | .error e, _ => .error e
  | .ok _, .error e => .error e

def runPrefill (decoder : Decoder T H Q K V) (graph : PrefillGraph) (hidden : List H) :
    PrefillResult H K V :=
  let (traces, out) := buildStack decoder.layers graph.positions graph.mask hidden
  ⟨out, ⟨graph.steps, traces.map fun trace => ⟨graph.steps, trace.keys, trace.values⟩⟩,
    traces.map fun trace => trace.seen⟩

namespace Runtime

variable {decoder : Decoder T H Q K V}

def ensurePrefillGraph (runtime : Runtime decoder) (kind : InputKind) (steps : ℤ) :
    Except Exception PrefillGraph :=
  match runtime.prefillGraph with
  | some graph =>
    if graph.kind = kind ∧ graph.steps = steps then .ok graph else buildPrefillGraph kind steps
  | none => buildPrefillGraph kind steps

def prefillTokens (runtime : Runtime decoder) (tokenIds : List T) :
    Except Exception (Runtime decoder × PrefillResult H K V) :=
  if tokenIds.isEmpty then .error (bytes "QwenCausalDecodeRuntime prefill requires tokens")
  else do
    let graph ← runtime.ensurePrefillGraph .token tokenIds.length
    return ({ runtime with prefillGraph := some graph },
      runPrefill decoder graph (tokenIds.map decoder.embed))

def prefillEmbeddings (runtime : Runtime decoder) (embeddings : List H) (steps : ℤ) :
    Except Exception (Runtime decoder × PrefillResult H K V) :=
  if steps ≤ 0 then
    .error (bytes "QwenCausalDecodeRuntime prefill requires positive embedding steps")
  else if (embeddings.length : ℤ) ≠ steps then
    .error (bytes "QwenCausalDecodeRuntime prefill embedding size mismatch")
  else do
    let graph ← runtime.ensurePrefillGraph .embedding steps
    return ({ runtime with prefillGraph := some graph }, runPrefill decoder graph embeddings)

def prefill (runtime : Runtime decoder) : (kind : InputKind) → List (Input T H kind) →
    Except Exception (Runtime decoder × PrefillResult H K V)
  | .token, tokenIds => runtime.prefillTokens tokenIds
  | .embedding, embeddings => runtime.prefillEmbeddings embeddings embeddings.length

end Runtime

/-! ## Decode -/

structure DecodeStepResult (H K V : Type) where
  hidden : H
  seen : List (List (Seen K V))

/-- What the memory of a new cache holds is not known. -/
def buildDecodeGraph (layerCount : ℕ) (memory : ℕ → LayerCache (ℤ × K) V) (kind : InputKind)
    (cacheSteps : ℤ) (positive : 0 < cacheSteps) : DecodeGraph K V layerCount where
  kind := kind
  cacheSteps := cacheSteps
  cache := ⟨cacheSteps, 0, 0, (List.range layerCount).map memory⟩
  positive := positive
  capacity_eq := rfl
  layers_eq := by rw [List.length_map, List.length_range]

def DecodeGraph.importState [Inhabited K] [Inhabited V] {layerCount : ℕ}
    (graph : DecodeGraph K V layerCount) (state : TransformerKVState (ℤ × K) V) :
    Except Exception (DecodeGraph K V layerCount) :=
  match h : graph.cache.importState state with
  | .error e => .error e
  | .ok cache => .ok { graph with
      cache := cache
      capacity_eq := (importState_shape h).1.trans graph.capacity_eq
      layers_eq := (importState_shape h).2.trans graph.layers_eq }

theorem length_buildStaticCacheTail (layers : List (DecoderLayer H Q K V)) (position : ℤ)
    (slot : ℕ) (mask : List Mask) {caches : List (LayerCache (ℤ × K) V)} (hidden : H)
    (h : caches.length = layers.length) :
    (buildStaticCacheTail layers position slot mask caches hidden).1.length = layers.length := by
  induction layers generalizing caches hidden with
  | nil => rfl
  | cons layer layers ih =>
    cases caches with
    | nil => cases h
    | cons cache caches =>
      rw [buildStaticCacheTail, List.length_cons, List.length_cons]
      exact congrArg (· + 1) (ih _ (Nat.succ.inj h))

def DecodeGraph.advance {layerCount : ℕ} (graph : DecodeGraph K V layerCount)
    (layers : List (LayerCache (ℤ × K) V)) (hlayers : layers.length = layerCount) :
    Except Exception (DecodeGraph K V layerCount) :=
  match h : TransformerKVCache.advanceAfterDirectAppend { graph.cache with layers := layers } 1 with
  | .error e => .error e
  | .ok cache => .ok { graph with
      cache := cache
      capacity_eq := (advance_shape h).1.trans graph.capacity_eq
      layers_eq := (congrArg List.length (advance_shape h).2).trans hlayers }

def runDecodeStep (decoder : Decoder T H Q K V) (graph : DecodeGraph K V decoder.layers.length)
    (hidden : H) :
    Except Exception (DecodeGraph K V decoder.layers.length × DecodeStepResult H K V) :=
  if graph.cacheSteps ≤ graph.cache.validSteps then
    .error (bytes "QwenCausalDecodeRuntime decode cache exhausted")
  else do
    let mask ← cachedStepMask graph.cacheSteps graph.cache.validSteps graph.cache.validSteps
    let step := buildStaticCacheTail decoder.layers graph.cache.currentEnd
      graph.cache.validSteps.toNat mask graph.cache.layers hidden
    let graph ← graph.advance step.1 (length_buildStaticCacheTail _ _ _ _ _ graph.layers_eq)
    return (graph, ⟨step.2.2, step.2.1⟩)

namespace Runtime

variable {decoder : Decoder T H Q K V} (runtime : Runtime decoder)

def ensureDecodeGraph (memory : ℕ → LayerCache (ℤ × K) V)
    (kind : InputKind) (cacheSteps : ℤ) (positive : 0 < cacheSteps) :
    DecodeGraph K V decoder.layers.length :=
  match runtime.decodeGraph with
  | some graph =>
    if graph.kind = kind ∧ cacheSteps ≤ graph.cacheSteps then graph
    else buildDecodeGraph _ memory kind cacheSteps positive
  | none => buildDecodeGraph _ memory kind cacheSteps positive

def startDecode [Inhabited K] [Inhabited V] (runtime : Runtime decoder)
    (memory : ℕ → LayerCache (ℤ × K) V) (kind : InputKind)
    (state : TransformerKVState (ℤ × K) V) (requiredCacheSteps : ℤ) :
    Except Exception (Runtime decoder) :=
  if hrequired : requiredCacheSteps ≤ 0 then
    .error (bytes "QwenCausalDecodeRuntime decode requires positive cache capacity")
  else do
    let graph ← (runtime.ensureDecodeGraph memory kind requiredCacheSteps
      (positive_of_not_le hrequired)).importState state
    return { runtime with decodeGraph := some graph }

def startDecodeTokens [Inhabited K] [Inhabited V] (runtime : Runtime decoder)
    (memory : ℕ → LayerCache (ℤ × K) V) :
    TransformerKVState (ℤ × K) V → ℤ → Except Exception (Runtime decoder) :=
  runtime.startDecode memory .token

def startDecodeEmbeddings [Inhabited K] [Inhabited V] (runtime : Runtime decoder)
    (memory : ℕ → LayerCache (ℤ × K) V) :
    TransformerKVState (ℤ × K) V → ℤ → Except Exception (Runtime decoder) :=
  runtime.startDecode memory .embedding

def decodeHidden (kind : InputKind) (otherKind : String) (hidden : H) :
    Except Exception (Runtime decoder × DecodeStepResult H K V) :=
  match runtime.decodeGraph with
  | none => .error (bytes "QwenCausalDecodeRuntime decode graph has not been started")
  | some graph =>
    if graph.kind ≠ kind then .error (bytes otherKind)
    else do
      let (graph, out) ← runDecodeStep decoder graph hidden
      return ({ runtime with decodeGraph := some graph }, out)

def decodeToken (token : T) : Except Exception (Runtime decoder × DecodeStepResult H K V) :=
  runtime.decodeHidden .token "QwenCausalDecodeRuntime decode graph expects embeddings"
    (decoder.embed token)

def decodeEmbedding (embedding : H) : Except Exception (Runtime decoder × DecodeStepResult H K V) :=
  runtime.decodeHidden .embedding "QwenCausalDecodeRuntime decode graph expects tokens" embedding

/-! ## Runs -/

def start [Inhabited K] [Inhabited V] (runtime : Runtime decoder)
    (memory : ℕ → LayerCache (ℤ × K) V) :
    InputKind → TransformerKVState (ℤ × K) V → ℤ → Except Exception (Runtime decoder)
  | .token => runtime.startDecodeTokens memory
  | .embedding => runtime.startDecodeEmbeddings memory

def decode : (kind : InputKind) → Input T H kind →
    Except Exception (Runtime decoder × DecodeStepResult H K V)
  | .token, token => runtime.decodeToken token
  | .embedding, embedding => runtime.decodeEmbedding embedding

def decodeEach (kind : InputKind) : Runtime decoder → List (Input T H kind) →
    Except Exception (Runtime decoder × List (DecodeStepResult H K V))
  | runtime, [] => .ok (runtime, [])
  | runtime, item :: rest => do
    let (runtime, out) ← runtime.decode kind item
    let (runtime, outs) ← decodeEach kind runtime rest
    return (runtime, out :: outs)

/-- A prefill, and single steps from the state it leaves. -/
def generate [Inhabited K] [Inhabited V] (runtime : Runtime decoder)
    (memory : ℕ → LayerCache (ℤ × K) V) (kind : InputKind) (prompt rest : List (Input T H kind))
    (requiredCacheSteps : ℤ) :
    Except Exception (Runtime decoder × PrefillResult H K V × List (DecodeStepResult H K V)) := do
  let (runtime, first) ← runtime.prefill kind prompt
  let runtime ← runtime.start memory kind first.state requiredCacheSteps
  let (runtime, outs) ← runtime.decodeEach kind rest
  return (runtime, first, outs)

def cacheCapacity (kind : InputKind) (requiredCacheSteps : ℤ) : ℤ :=
  match runtime.decodeGraph with
  | some graph =>
    if graph.kind = kind ∧ requiredCacheSteps ≤ graph.cacheSteps then graph.cacheSteps
    else requiredCacheSteps
  | none => requiredCacheSteps

end Runtime

end FastTts.Qwen
