import FastTts.Stamps
import FastTts.TorchRandom

/-!
# The sampler

`HfSampler::sample` chooses a token from logits, with a scratch that is kept from call to call. The
address of a vector is a number; where `scores_` lies after an assignment is given with the call.
-/

namespace FastTts.HfSampler

open TorchRandom

inductive Failure
  | thrown (exception : Exception)
  | undefined
  deriving DecidableEq, Repr

/-- What the standard library leaves open: in which order `nth_element` leaves the elements around
the one at a place, and what a `discrete_distribution` of some weights draws from a generator. -/
structure Library (D G : Type) where
  nthElement : (ℤ → ℤ → Bool) → ℕ → List ℤ → List ℤ
  discreteDistribution : List D → G → ℕ × G

structure HfSamplingOptions (F : Type) where
  doSample : Bool
  temperature : F
  topK : ℤ
  topP : F
  minTokensToKeep : ℤ
  repetitionPenalty : F

structure TorchCudaSamplingPolicy where
  multiprocessorCount : ℤ
  maxThreadsPerMultiprocessor : ℤ
  cudaFastPath : Bool

structure HfTorchSamplingState where
  policy : Option TorchCudaSamplingPolicy
  seed : UInt64
  callIndex : UInt64
  offsetBlocks : UInt64
  useOffsetBlocks : Bool

structure HfSamplerScratch (F D : Type) where
  scores : List F
  candidates : List ℤ
  weights : List D
  seen : List UInt32
  seenGeneration : UInt32
  probabilitiesReady : Bool
  probabilitiesScoresData : Option ℕ
  probabilitiesScoresSize : ℕ

variable {F D G : Type}

def HfSamplerScratch.fresh : HfSamplerScratch F D := ⟨[], [], [], [], 1, false, none, 0⟩

abbrev ScratchM (F D : Type) := EStateM Failure (HfSamplerScratch F D)

def contextMessage (context message : Bytes) : Exception :=
  if context = [] then message else context ++ bytes " " ++ message

/-- `static_cast<int32_t>` of an index. -/
def tokenOf (index : ℕ) : ℤ := Int.bmod index (2 ^ 32)

namespace HfSamplerScratch

def forgetProbabilities (scratch : HfSamplerScratch F D) : HfSamplerScratch F D :=
  { scratch with
    probabilitiesReady := false
    probabilitiesScoresData := none
    probabilitiesScoresSize := 0 }

def resetVocab (vocabSize : ℕ) (scratch : HfSamplerScratch F D) : HfSamplerScratch F D :=
  let cleared := forgetProbabilities { scratch with candidates := [], weights := [] }
  if scratch.seen.length ≠ vocabSize then
    { cleared with seen := List.replicate vocabSize 0, seenGeneration := 1 }
  else if scratch.seenGeneration = 0 then
    { cleared with seen := List.replicate scratch.seen.length 0, seenGeneration := 1 }
  else cleared

end HfSamplerScratch

open HfSamplerScratch

section Processors

variable (arithmetic : Arithmetic F D) (library : Library D G) (scores : List F)

def finiteTokens : List ℤ :=
  (scores.zipIdx.filter fun entry => arithmetic.float.isFinite entry.1).map fun entry =>
    tokenOf entry.2

/-- The score of a token that is not negative. -/
def scoreAt (token : ℤ) : F := scores.getD token.toNat arithmetic.float.zero

def argmaxFrom (logits : List F) (best : ℕ) : ℕ :=
  (List.range' 1 (logits.length - 1)).foldl (fun best index =>
    if arithmetic.float.less (logits.getD best arithmetic.float.zero)
      (logits.getD index arithmetic.float.zero) then index else best) best

def argmax (logits : List F) (context : Bytes) : Except Failure ℤ :=
  if logits = [] then
    .error (.thrown (contextMessage context (bytes "sampler cannot select from empty logits")))
  else .ok (tokenOf (argmaxFrom arithmetic logits 0))

def penalise (penalty score : F) : F :=
  if arithmetic.float.less score arithmetic.float.zero then arithmetic.float.mul score penalty
  else arithmetic.float.div score penalty

/-- A token of the history: it is skipped where it is no index, or has been seen. -/
def visitToken (vocabSize : ℕ) (generation : UInt32) (penalty : F)
    (state : List UInt32 × List F) (token : ℤ) : List UInt32 × List F :=
  if token < 0 ∨ (vocabSize : ℤ) ≤ token then state
  else Stamps.visit generation (penalise arithmetic penalty) state token.toNat

def applyRepetitionPenalty (history : List ℤ) (penalty : F) : ScratchM F D (List F) :=
  if arithmetic.float.equal penalty arithmetic.float.one ∨ history = [] then pure scores
  else if ¬ arithmetic.float.less arithmetic.float.zero penalty ∨
      ¬ arithmetic.float.isFinite penalty then
    throw (.thrown (bytes "HF sampler repetition_penalty must be finite and positive"))
  else fun scratch =>
    let reset := scratch.resetVocab scores.length
    let visited := history.foldl (visitToken arithmetic scores.length reset.seenGeneration penalty)
      (reset.seen, scores)
    .ok visited.2 (forgetProbabilities
      { reset with seen := visited.1, seenGeneration := reset.seenGeneration + 1 })

def requireMinTokens (minTokensToKeep : ℤ) : ScratchM F D Unit :=
  if minTokensToKeep ≤ 0 then
    throw (.thrown (bytes "HF sampler min_tokens_to_keep must be positive"))
  else pure ()

/-- The scores where those below the one at a place are taken out. -/
def keepFrom (order : List ℤ) (place : ℕ) : Except Failure (List F) :=
  match order[place]? with
  | none => .error .undefined
  | some token =>
    match scores[token.toNat]? with
    | none => .error .undefined
    | some threshold => .ok (scores.map fun score =>
      if arithmetic.float.less score threshold then arithmetic.float.negativeInfinity else score)

def applyTopK (topK minTokensToKeep : ℤ) : ScratchM F D (List F) := do
  requireMinTokens minTokensToKeep
  let keep := min (scores.length : ℤ) (max topK minTokensToKeep)
  if topK ≤ 0 ∨ scores = [] ∨ scores.length ≤ keep then pure scores
  else fun scratch =>
    let order := (List.range scores.length).map tokenOf
    -- An index that does not fit in 32 bits comes out negative, and is read all the same.
    if order.any (· < 0) then .error .undefined { scratch with candidates := order }
    else
      let order := library.nthElement (fun lhs rhs =>
        arithmetic.float.less (scoreAt arithmetic scores rhs) (scoreAt arithmetic scores lhs))
        (keep - 1).toNat order
      match keepFrom arithmetic scores order (keep - 1).toNat with
      | .error failure => .error failure { scratch with candidates := order }
      | .ok kept => .ok kept (forgetProbabilities { scratch with candidates := order })

/-- The order of `apply_top_p`. -/
def tokenBefore (lhs rhs : ℤ) : Bool :=
  if arithmetic.float.equal (scoreAt arithmetic scores lhs) (scoreAt arithmetic scores rhs) then
    lhs < rhs
  else arithmetic.float.less (scoreAt arithmetic scores lhs) (scoreAt arithmetic scores rhs)

def weightOf (maxScore : F) (token : ℤ) : D :=
  arithmetic.double.exp
    (arithmetic.toDouble (arithmetic.float.sub (scoreAt arithmetic scores token) maxScore))

/-- The loop of `apply_top_p`: the mass so far, the scores, and the tokens that are kept with their
weights. They are written over tokens that have been read. -/
structure TopP (F D : Type) where
  cumulative : D
  scores : List F
  kept : List (ℤ × D)

def topPStep (total removeMass : D) (protectedFrom : ℕ) (loop : TopP F D)
    (entry : (ℤ × D) × ℕ) : TopP F D :=
  let cumulative :=
    arithmetic.double.add loop.cumulative (arithmetic.double.div entry.1.2 total)
  if entry.2 < protectedFrom ∧ arithmetic.double.lessEqual cumulative removeMass then
    { loop with
      cumulative := cumulative
      scores := loop.scores.set entry.1.1.toNat arithmetic.float.negativeInfinity }
  else { loop with cumulative := cumulative, kept := loop.kept ++ [entry.1] }

/-- `data` is where the scores lie. -/
def applyTopP (data : ℕ) (topP : F) (minTokensToKeep : ℤ) :
    ScratchM F D (List F) := do
  requireMinTokens minTokensToKeep
  if ¬ arithmetic.float.less topP arithmetic.float.one then pure scores
  else if arithmetic.float.less topP arithmetic.float.zero ∨ ¬ arithmetic.float.isFinite topP then
    throw (.thrown (bytes "HF sampler top_p must be finite and in [0, 1]"))
  else if scores = [] then pure scores
  else fun scratch =>
    let tokens := finiteTokens arithmetic scores
    if tokens = [] then .ok scores { scratch with candidates := tokens }
    else if tokens.any (· < 0) then .error .undefined { scratch with candidates := tokens }
    else
      let sorted := tokens.mergeSort fun lhs rhs => !tokenBefore arithmetic scores rhs lhs
      let maxScore := scoreAt arithmetic scores (sorted.getLastD 0)
      let weights := sorted.map (weightOf arithmetic scores maxScore)
      let total := weights.foldl arithmetic.double.add arithmetic.double.zero
      if ¬ arithmetic.double.less arithmetic.double.zero total ∨
          ¬ arithmetic.double.isFinite total then
        .error (.thrown (bytes "HF sampler top-p probability mass is invalid"))
          { scratch with candidates := sorted, weights := weights }
      else
        let removeMass := arithmetic.double.sub arithmetic.double.one (arithmetic.toDouble topP)
        let protectedFrom := sorted.length - min minTokensToKeep.toNat sorted.length
        let loop := (sorted.zip weights).zipIdx.foldl
          (topPStep arithmetic total removeMass protectedFrom)
          ⟨arithmetic.double.zero, scores, []⟩
        .ok loop.scores { scratch with
          candidates := loop.kept.map Prod.fst
          weights := loop.kept.map Prod.snd
          probabilitiesReady := true
          probabilitiesScoresData := some data
          probabilitiesScoresSize := scores.length }

def applyTemperature (temperature : F) : ScratchM F D (List F) :=
  if ¬ arithmetic.float.less arithmetic.float.zero temperature ∨
      ¬ arithmetic.float.isFinite temperature then
    throw (.thrown (bytes "HF sampler temperature must be finite and positive"))
  else if arithmetic.float.equal temperature arithmetic.float.one then pure scores
  else pure (scores.map fun score => arithmetic.float.div score temperature)

def maxFinite : F :=
  (scores.filter arithmetic.float.isFinite).foldl
    (fun best score => if arithmetic.float.less best score then score else best)
    arithmetic.float.negativeInfinity

def buildCandidates (data : ℕ) (context : Bytes) : ScratchM F D Unit :=
  fun scratch =>
    let tokens := finiteTokens arithmetic scores
    let maxScore := maxFinite arithmetic scores
    if tokens = [] ∨ ¬ arithmetic.float.isFinite maxScore then
      .error (.thrown (contextMessage context (bytes "sampler has no finite logits")))
        { scratch with candidates := tokens, weights := [] }
    else if tokens.any (· < 0) then
      .error .undefined { scratch with candidates := tokens, weights := [] }
    else .ok () { scratch with
      candidates := tokens
      weights := tokens.map (weightOf arithmetic scores maxScore)
      probabilitiesReady := true
      probabilitiesScoresData := some data
      probabilitiesScoresSize := scores.length }

/-! ## The choice of a token -/

/-- The greater rank so far with its token, after one more. -/
def betterOf (best : D × ℤ) (rank : D) (token : ℤ) : D × ℤ :=
  if arithmetic.double.less best.1 rank then (rank, token) else best

/-- A token of the loop over the scores; each draws a number, and those that are not finite are
passed over then. -/
def multinomialStep (maxScore : F) (loop : TorchCpuMt19937 × (D × ℤ)) (entry : F × ℕ) :
    TorchCpuMt19937 × (D × ℤ) :=
  let (exponential, rng) := torchCpuExponentialFloat arithmetic loop.1
  if arithmetic.float.isFinite entry.1 then
    let weight := arithmetic.double.exp
      (arithmetic.toDouble (arithmetic.float.sub entry.1 maxScore))
    let rank := arithmetic.double.div weight (arithmetic.toDouble exponential)
    (rng, betterOf arithmetic loop.2 rank (tokenOf entry.2))
  else (rng, loop.2)

def sampleTorchCpuMultinomial (seed callIndex : UInt64) (context : Bytes) : Except Failure ℤ :=
  let rng := (TorchCpuMt19937.ofSeed seed).discardExponentialDraws
    (callIndex * UInt64.ofNat scores.length)
  let maxScore := maxFinite arithmetic scores
  if ¬ arithmetic.float.isFinite maxScore then
    .error (.thrown (contextMessage context (bytes "sampler has no finite logits")))
  else
    let best := (scores.zipIdx.foldl (multinomialStep arithmetic maxScore)
      (rng, (arithmetic.double.negativeInfinity, -1))).2
    if best.2 < 0 then .error (.thrown
      (contextMessage context (bytes "CPU Torch sampler failed to select a token")))
    else .ok best.2

variable (state : HfTorchSamplingState) (policy : TorchCudaSamplingPolicy)

def exponentialElement (vocabSize : ℕ) (token : ℤ) : Except Exception F :=
  if state.useOffsetBlocks then
    torchCudaTensorIteratorExponentialElementAtOffset arithmetic state.seed
      (UInt64.ofNat vocabSize) (UInt64.ofNat token.toNat) state.offsetBlocks
      policy.multiprocessorCount policy.maxThreadsPerMultiprocessor
  else
    torchCudaTensorIteratorExponentialElement arithmetic state.seed
      (UInt64.ofNat vocabSize) (UInt64.ofNat token.toNat) state.callIndex
      policy.multiprocessorCount policy.maxThreadsPerMultiprocessor

def cudaStep (vocabSize : ℕ)
    (weights : List D) (best : D × ℤ) (entry : ℤ × ℕ) : Except Failure (D × ℤ) :=
  match exponentialElement arithmetic state policy vocabSize entry.1, weights[entry.2]? with
  | .error exception, _ => .error (.thrown exception)
  | .ok _, none => .error .undefined
  | .ok exponential, some weight =>
    .ok (betterOf arithmetic best
      (arithmetic.double.div weight (arithmetic.toDouble exponential)) entry.1)

def sampleCuda (vocabSize : ℕ)
    (candidates : List ℤ) (weights : List D) (context : Bytes) : Except Failure ℤ := do
  let best ← candidates.zipIdx.foldlM (cudaStep arithmetic state policy vocabSize weights)
    (arithmetic.double.negativeInfinity, -1)
  if best.2 < 0 then
    throw (.thrown (contextMessage context (bytes "CUDA sampler failed to select a token")))
  else return best.2

/-- What is worked out from the scratch, which stays as it is. -/
def fromScratch {A : Type} (f : HfSamplerScratch F D → Except Failure A) : ScratchM F D A :=
  fun scratch =>
    match f scratch with
    | .ok a => .ok a scratch
    | .error failure => .error failure scratch

/-- The candidates that are there are those of the scores. -/
def candidatesMatch (useReadyCandidates : Bool) (data vocabSize : ℕ)
    (scratch : HfSamplerScratch F D) : Bool :=
  useReadyCandidates && scratch.probabilitiesReady &&
    scratch.probabilitiesScoresData == some data && scratch.probabilitiesScoresSize == vocabSize

def buildUnlessMatching (data : ℕ) (context : Bytes)
    (useReadyCandidates : Bool) : ScratchM F D Unit := fun scratch =>
  if candidatesMatch useReadyCandidates data scores.length scratch then .ok () scratch
  else buildCandidates arithmetic scores data context scratch

def drawCandidate (fallbackRng : G) (scratch : HfSamplerScratch F D) : Except Failure (ℤ × G) :=
  let (index, fallbackRng) := library.discreteDistribution scratch.weights fallbackRng
  match scratch.candidates[index]? with
  | none => .error .undefined
  | some token => .ok (token, fallbackRng)

def sampleFromProcessedScores (scores : List F) (data : ℕ) (fallbackRng : G)
    (torchState : Option HfTorchSamplingState) (context : Bytes) (useReadyCandidates : Bool) :
    ScratchM F D (ℤ × G) :=
  match torchState with
  | none => do
    buildCandidates arithmetic scores data context
    fromScratch (drawCandidate library fallbackRng)
  | some state =>
    match state.policy.filter (·.cudaFastPath) with
    | some policy => do
      buildUnlessMatching arithmetic scores data context useReadyCandidates
      fromScratch fun scratch => do
        let token ← sampleCuda arithmetic state policy scores.length scratch.candidates
          scratch.weights context
        return (token, fallbackRng)
    | none => fromScratch fun _ => do
      let token ← sampleTorchCpuMultinomial arithmetic scores state.seed state.callIndex context
      return (token, fallbackRng)

/-- A step on the scores of the scratch, which are as before where it throws. -/
def onScores (f : List F → ScratchM F D (List F)) : ScratchM F D Unit := fun scratch =>
  match f scratch.scores scratch with
  | .ok scores scratch => .ok () { scratch with scores := scores }
  | .error failure scratch => .error failure scratch

/-- The arguments of a call; `logitsData` and `scoresData` are where the logits lie and where the
scores of the scratch lie after their assignment. -/
structure SampleCall (F G : Type) where
  logits : List F
  logitsData : ℕ
  scoresData : ℕ
  history : List ℤ
  options : HfSamplingOptions F
  fallbackRng : G
  torchState : Option HfTorchSamplingState
  context : Bytes

/-- The scores are assigned, and the processors run over them. -/
def processScores (call : SampleCall F G) : ScratchM F D Unit := do
  modify fun scratch => { scratch with scores := call.logits, probabilitiesReady := false }
  onScores fun scores =>
    applyRepetitionPenalty arithmetic scores call.history call.options.repetitionPenalty

/-- What is done before a token is drawn from the processed scores. -/
def sampleProcessors (call : SampleCall F G) : ScratchM F D Unit := do
  onScores fun scores => applyTemperature arithmetic scores call.options.temperature
  onScores fun scores =>
    applyTopK arithmetic library scores call.options.topK call.options.minTokensToKeep
  onScores fun scores =>
    applyTopP arithmetic scores call.scoresData call.options.topP call.options.minTokensToKeep

def sample (call : SampleCall F G) : ScratchM F D (ℤ × G) :=
  let options := call.options
  if call.logits = [] then
    throw (.thrown
      (contextMessage call.context (bytes "sampler cannot select from empty logits")))
  else
    let needsRepetitionPenalty :=
      ¬ arithmetic.float.equal options.repetitionPenalty arithmetic.float.one ∧ call.history ≠ []
    let needsSamplingProcessors := options.doSample ∧
      (¬ arithmetic.float.equal options.temperature arithmetic.float.one ∨ 0 < options.topK ∨
        arithmetic.float.less options.topP arithmetic.float.one)
    if ¬ needsRepetitionPenalty ∧ ¬ needsSamplingProcessors then
      if ¬ options.doSample then fromScratch fun _ => do
        let token ← argmax arithmetic call.logits call.context
        return (token, call.fallbackRng)
      else do
        modify fun scratch => { scratch with probabilitiesReady := false }
        sampleFromProcessedScores arithmetic library call.logits call.logitsData call.fallbackRng
          call.torchState call.context false
    else do
      processScores arithmetic call
      if ¬ options.doSample then fromScratch fun scratch => do
        let token ← argmax arithmetic scratch.scores call.context
        return (token, call.fallbackRng)
      else do
        sampleProcessors arithmetic library call
        fun scratch => sampleFromProcessedScores arithmetic library scratch.scores call.scoresData
          call.fallbackRng call.torchState call.context true scratch

end Processors

end FastTts.HfSampler
