import FastTts.Runs
import FastTts.TalkerSteps

/-!
# Calls

A call on a runtime that earlier calls have left behind says what it says on a fresh one. The graphs
follow the specification step by step, since the first rows of the step graph are the rows that the
specification has, and the mask shows no others.
-/

namespace FastTts.Talker

open Kv Program Qwen

variable {F K V G : Type} {model : Model F K V G} {spared : Prop} {env : Env K V}

section Spoken

variable [Add F] [Zero F]

/-! ## The graphs follow -/

/-- After `n` steps. -/
structure Spoken (model : Model F K V G) (promptSteps n : ℕ) (progress : Progress F K V)
    (speech : Speech K V) : Prop where
  holding : Holding model (promptSteps + n) speech.talker.layers progress.runtime
  log : progress.delivered = speech.delivered
  steps : speech.talker.steps = promptSteps + n

/-- In the middle of the next frame, when the code predictor holds `k` rows. -/
structure Coded (model : Model F K V G) (promptSteps n k : ℕ) (progress : Progress F K V)
    (speech : Speech K V) : Prop extends Spoken model promptSteps n progress speech where
  predictor : ∃ graph, progress.runtime.codePredictorGraph = some graph ∧ graph.validSteps = k ∧
    graph.currentEnd = k ∧ heldLayers k graph.layers = speech.predictor.layers
  predictorSteps : speech.predictor.steps = k

variable {s : Progress F K V} {promptSteps n : ℕ}

variable {α β : Type} {graph : PredictorGraph K V} {layers : Layers K V}

omit [Add F] [Zero F] in
theorem bind_run {m : Action F K V α} {k : α → Action F K V β} {a : α} {s' : Progress F K V}
    (h : m s = .ok a s') : (m >>= k) s = k a s' := by
  change EStateM.bind m k s = _
  rw [EStateM.bind, h]

omit [Add F] [Zero F] in
theorem predictorGraph_run (h : s.runtime.codePredictorGraph = some graph) :
    predictorGraph s = .ok graph s := by
  have hget : getRuntime s = .ok s.runtime s := rfl
  rw [predictorGraph, bind_run hget, h]
  rfl

omit [Add F] [Zero F] in
theorem stepGraph_run {graph : StepGraph K V} (h : s.runtime.cachedStepGraph = some graph) :
    stepGraph s = .ok graph s := by
  have hget : getRuntime s = .ok s.runtime s := rfl
  rw [stepGraph, bind_run hget, h]
  rfl

theorem Holding.predictorWritten {steps : ℕ} {runtime : Runtime F K V}
    (h : Holding model steps layers runtime)
    (hgraph : Sized model.predictorLayerCount model.config.numCodeGroups graph.layers) :
    Holding model steps layers { runtime with codePredictorGraph := some graph } := by
  refine ⟨{ h.ready with groups := fun _ => h.ready.groups h.predictor, predictor := ?_ }, rfl,
    h.step⟩
  intro new hnew
  cases hnew
  exact hgraph

theorem follows_broken {fault : Fault} {f : Runtime F K V → Runtime F K V} {m : Action F K V α}
    {n : Saying K V β} {R : α → β → Progress F K V → Speech K V → Prop} {t : Speech K V}
    (hn : (callView model env spared).Extends n)
    (h : ¬ env.fails fault = true → (callView model env spared).Agree R (m s) (n t))
    (hlog : s.delivered = t.delivered) (hready : Ready model (f s.runtime)) :
    (callView model env spared).Agree R
      ((if env.fails fault then do
        changeRuntime f
        throw (.fault fault)
      else m) s) (n t) := by
  split_ifs with hfails
  · exact follows_fault (P := Ready model) hn hfails (fun r hr _ => hr)
      { s with runtime := f s.runtime } t ⟨hready, hlog⟩
  · exact h hfails

theorem follows_runPredictorPrefill (embeddings : List F) :
    (callView model env spared).Follows (Spoken model promptSteps n)
      (runPredictorPrefill model env n embeddings) (sayPredictorPrefill model embeddings)
      fun a b s t => a = b ∧ Coded model promptSteps n 2 s t := by
  intro s t hst
  obtain ⟨graph, hgraph⟩ := Option.isSome_iff_exists.mp hst.holding.predictor
  have hsized := hst.holding.ready.predictor graph hgraph
  have hgroups := hst.holding.ready.groups hst.holding.predictor
  rw [runPredictorPrefill, bind_run (predictorGraph_run hgraph)]
  refine follows_broken (extends_predictorPrefill delivers_callView model embeddings) ?_ hst.log
    (hst.holding.predictorWritten (sized_scramble hsized _ _)).ready
  intro hfails
  refine .value ⟨rfl, ⟨?_, hst.log, hst.steps⟩, ⟨_, rfl, rfl, rfl, ?_⟩, rfl⟩
  · exact hst.holding.predictorWritten (sized_copy (sized_computed _ _ _ _) hsized (by omega))
  · exact heldLayers_copy (sized_computed _ _ _ _) hsized

theorem follows_runPredictorStep {group : ℕ} (hpos : 0 < group)
    (hgroup : group < model.config.numCodeGroups - 1) (embedding : List F) :
    (callView model env spared).Follows (Coded model promptSteps n (group + 1))
      (runPredictorStep model env n group embedding) (sayPredictorStep model group embedding)
      fun a b s t => a = b ∧ Coded model promptSteps n (group + 2) s t := by
  intro s t hst
  obtain ⟨graph, hgraph, hvalid, hcurrent, hlayers⟩ := hst.predictor
  have hready := hst.holding.ready
  have hsized := hready.predictor graph hgraph
  have hrange : ¬ (group = 0 ∨ model.config.numCodeGroups - 1 ≤ group) := by omega
  have hstate : ¬ (graph.validSteps = 0 ∨ model.config.numCodeGroups ≤ graph.validSteps) := by
    omega
  have hslot : group + 1 < model.config.numCodeGroups := by omega
  rw [runPredictorStep, bind_run (predictorGraph_run hgraph), sayPredictorStep]
  dsimp only
  rw [if_neg hrange]
  by_cases hsize : embedding.length ≠ model.config.hiddenSize
  · rw [if_pos hsize, if_pos hsize]
    exact .thrown (fun _ => hready) hst.log
  rw [if_neg hsize, if_neg hsize, if_neg hstate, hvalid, shownLayers_stepMask hslot, hlayers,
    hcurrent]
  have hinput : t.predictor.input embedding =
      ⟨embedding, ((group + 1 : ℕ) : ℤ), ((group + 1 : ℕ) : ℤ), t.predictor.layers⟩ := by
    rw [Rows.input, hst.predictorSteps]
  refine follows_broken ?_ ?_ hst.log
    (hst.holding.predictorWritten (sized_scramble hsized _ _)).ready
  · apply View.Extends.of_eq
    intro speech
    rfl
  intro _
  rw [← hinput]
  refine .value ⟨rfl, ⟨?_, hst.log, hst.steps⟩, ⟨_, rfl, rfl, rfl, ?_⟩, ?_⟩
  · exact hst.holding.predictorWritten (sized_writeSlot hsized _ _ _)
  · rw [heldLayers_writeSlot hsized hslot, hlayers]
    rfl
  · exact congrArg (· + 1) hst.predictorSteps

theorem Holding.grown {required : ℤ} {before after : Runtime F K V}
    (h : Holding model (promptSteps + n) layers before) (hpos : promptSteps ≠ 0)
    (hgrown : Grown model required before after) :
    Holding model (promptSteps + n) layers after ∧ ∃ graph, after.cachedStepGraph = some graph ∧
      required ≤ graph.cache.cacheSteps := by
  have hready := hgrown.ready h.ready
  obtain ⟨old, hold, hvalid, hcurrent, hlayers⟩ := h.step
  obtain ⟨graph, serial, rfl, _, _, hroom, hsame⟩ := hgrown
  have hrows := hsame old hold (by omega)
  have hheld := hrows.rows
  rw [hvalid, Int.toNat_natCast] at hheld
  exact ⟨⟨hready, h.predictor, graph, rfl, hrows.valid.trans hvalid, hrows.current.trans hcurrent,
    hheld.trans hlayers⟩, graph, rfl, hroom⟩

theorem follows_runStep {frames : ℕ} (embedding : List F) :
    (callView model env spared).Follows (fun s t => Spoken model promptSteps n s t ∧
        ∃ graph, s.runtime.cachedStepGraph = some graph ∧
          (promptSteps + (n + 1) : ℤ) ≤ graph.cache.cacheSteps)
      (runStep model env frames embedding) (sayStep model embedding)
      fun a b s t => a = b ∧ Spoken model promptSteps (n + 1) s t := by
  rintro s t ⟨hspoken, graph, hgraph, hroom⟩
  have hready := hspoken.holding.ready
  have hstep := hready.step graph hgraph
  obtain ⟨held, hheld, hvalid, hcurrent, hlayers⟩ := hspoken.holding.step
  cases hgraph.symm.trans hheld
  have hslot : graph.cache.validSteps.toNat = promptSteps + n := by omega
  have hfits : promptSteps + n < graph.cache.cacheSteps.toNat := by omega
  have hfree : ¬ graph.cache.cacheSteps ≤ graph.cache.validSteps := by omega
  have hadvance : ¬ graph.cache.cacheSteps < graph.cache.validSteps + 1 := by omega
  rw [runStep, bind_run (stepGraph_run hgraph), sayStep]
  dsimp only
  by_cases hsize : embedding.length ≠ model.config.hiddenSize
  · rw [if_pos hsize, if_pos hsize]
    exact .thrown (fun _ => hready) hspoken.log
  rw [if_neg hsize, if_neg hsize, if_neg hfree, hslot, shownLayers_stepMask hfits, hlayers]
  have hinput : t.talker.input embedding =
      ⟨embedding, graph.cache.currentEnd, graph.cache.validSteps, t.talker.layers⟩ := by
    rw [Rows.input, hspoken.steps, hcurrent, hvalid]
  refine follows_broken ?_ ?_ hspoken.log
    (hready.stepWritten (hstep.withLayers (sized_scramble hstep.sized _ _)))
  · apply View.Extends.of_eq
    intro speech
    rfl
  intro _
  rw [← hinput, TransformerKVCache.advanceAfterDirectAppend, if_neg (by omega), if_neg hadvance]
  have hwritten := sized_writeSlot hstep.sized (promptSteps + n)
    (model.stepKey (t.talker.input embedding)) (model.stepValue (t.talker.input embedding))
  refine .value ⟨rfl, ⟨?_, hspoken.holding.predictor, _, rfl, ?_, ?_, ?_⟩, hspoken.log, ?_⟩
  · apply hready.stepWritten
    exact ⟨hstep.serial, hstep.positive, by dsimp only; omega, by dsimp only; omega, hwritten⟩
  · dsimp only
    omega
  · dsimp only
    omega
  · rw [← Nat.add_assoc]
    dsimp only
    rw [heldLayers_writeSlot hstep.sized hfits, hlayers]
    rfl
  · exact congrArg (· + 1) hspoken.steps

variable [Inhabited K] [Inhabited V]

theorem follows_step {maxNewTokens : ℤ} (hpos : promptSteps ≠ 0)
    (hmore : n + 1 < maxNewTokens.toNat) (embedding : List F) :
    (callView model env spared).Follows (Spoken model promptSteps n)
      ((graphs model env maxNewTokens promptSteps).step n embedding) (sayStep model embedding)
      fun a b s t => a = b ∧ Spoken model promptSteps (n + 1) s t := by
  intro s t hst
  have hready := hst.holding.ready
  have hrequired : (promptSteps : ℤ) + 1 ≤ promptSteps + (n + 1) := by omega
  have hmax : (promptSteps : ℤ) + (n + 1) ≤ promptSteps + maxNewTokens := by omega
  have hgrow : (callView model env spared).Follows
      (fun s' t' => Quiet (· = s.runtime) s' t' ∧ t' = t)
      (ensureCachedStepCapacity model env maxNewTokens promptSteps (n + 1) (promptSteps + (n + 1)))
      (pure ()) fun _ _ s' t' => Quiet (Grown model (promptSteps + (n + 1)) s.runtime) s' t' ∧
        t' = t :=
    (follows_ensureCachedStepCapacity hready hrequired hmax).fixed t
  refine View.Follows.bind_left hgrow (extends_step delivers_callView model embedding) ?_ s t
    ⟨⟨rfl, hst.log⟩, rfl⟩
  rintro _ s' t' ⟨⟨hgrown, hlog⟩, rfl⟩
  obtain ⟨hholding, hroom⟩ := hst.holding.grown hpos hgrown
  exact follows_runStep embedding s' t' ⟨⟨hholding, hlog, hst.steps⟩, hroom⟩

theorem graphs_follow {promptSteps : ℕ} {maxNewTokens : ℤ} (hpos : promptSteps ≠ 0) :
    FollowsSpeech (callView model env spared) model (graphs model env maxNewTokens promptSteps)
      maxNewTokens.toNat (Spoken model promptSteps) (Coded model promptSteps) where
  delivers := delivers_callView
  thrown := rfl
  safe _ _ _ hst := ⟨fun _ => hst.holding.ready, hst.log⟩
  coded _ _ _ _ hst := hst.toSpoken
  deliver _ frame _ _ hst := .value ⟨hst.holding, congrArg (· ++ [frame]) hst.log, hst.steps⟩
  predictorPrefill _ embeddings := follows_runPredictorPrefill embeddings
  predictorStep _ _ embedding hpos hgroup := follows_runPredictorStep hpos hgroup embedding
  step _ embedding hmore := follows_step hpos hmore embedding

end Spoken

/-! ## Calls that follow -/

section Calls

variable [Add F] [Zero F] {runtime : Runtime F K V} {limits : Limits}

theorem Ready.released (h : Ready model runtime) : Ready model runtime.releaseCachedStepGraph.2 :=
  h.stepReplaced (Nat.le_refl _) nofun

variable {state : PromptEmbeddingState F} {call : Call F} {r₀ : Runtime F K V} {request : Request F}

theorem follows_sayPrompt {α β : Type} {m : Action F K V α} {n : Saying K V β}
    {R : α → β → Progress F K V → Speech K V → Prop}
    (h : (callView model env spared).Follows
      (Spoken model (state.prompt.length / model.config.hiddenSize) 0) m n R) :
    (callView model env spared).Follows
      (Quiet (Holding model (state.prompt.length / model.config.hiddenSize)
        (prefillLayers model state.prompt))) m (sayPrompt model state.prompt >>= fun _ => n) R :=
  fun s t hst => h s { t with talker := ⟨_, prefillLayers model state.prompt⟩ }
    ⟨hst.1, hst.2, rfl⟩

theorem extends_sayPrompt (prompt : List F) :
    (callView model env spared).Extends (sayPrompt model prompt) :=
  .of_eq fun _ => rfl

variable [DecidableEq F]

/-- The copies of the request over those of earlier calls, the one behind the parts of a voice and
the one behind a prompt, do not break off. -/
structure CopySpared (model : Model F K V G) (runtime : Runtime F K V) (env : Env K V)
    (request : Prefill F) : Prop where
  voice : runtime.heldPrompt request = none → env.fails .promptState = false →
    voicePartsUsable request = true → VoiceSpared model runtime env request
  prompt : runtime.heldPrompt request = none → env.fails .promptState = false →
    PromptSpared model runtime env request

theorem extends_speakFrom (call : Call F) (state : PromptEmbeddingState F)
    (current : PrefillResult F) :
    (callView model env spared).Extends (speakFrom model call state current) := by
  apply View.Extends.bind (extends_sayOrThrow _)
  intro _
  apply View.Extends.bind (extends_sayPrompt _)
  intro _
  apply View.Extends.bind (extends_generateFrames delivers_callView model call state _ _)
  intro _
  exact .pure _

variable [Inhabited K] [Inhabited V]

/-- What a call leaves that returns: the rows that the specification has. -/
def Returned (model : Model F K V G) (progress : Progress F K V) (speech : Speech K V) : Prop :=
  ∃ promptSteps n, promptSteps ≠ 0 ∧ Spoken model promptSteps n progress speech

theorem follows_generateFrom {graph : PrefillGraph K V} {current : PrefillResult F}
    (hpos : state.prompt.length / model.config.hiddenSize ≠ 0)
    (hcapacity : graph.promptCapacity = state.prompt.length / model.config.hiddenSize)
    (hmax : 0 < call.options.maxNewTokens) :
    (callView model env spared).Follows (Quiet (Filled model state.prompt graph.serial))
      (generateFrom model env call state graph current) (speakFrom model call state current)
      fun a b s t => a = b ∧ Returned model s t := by
  rw [generateFrom, speakFrom]
  have hframes : (callView model env spared).Extends (do
      let generation ← generateFrames model (speechDevice model) call state
        call.options.maxNewTokens.toNat ⟨0, current, [], ⟨model.seeded call.options.seed, 0⟩, []⟩
      return collectCodes model call generation.frames) :=
    .bind (extends_generateFrames delivers_callView model call state _ _) fun _ => .pure _
  have hprompt : (callView model env spared).Extends (sayPrompt model state.prompt >>= fun _ => _) :=
    .bind (extends_sayPrompt _) fun _ => hframes
  apply View.Follows.bind follows_ensureCodePredictor
  · intro _
    exact hprompt
  rintro _ _ s t ⟨⟨hgroups, hprepared⟩, hlog⟩
  refine follows_then hprompt (follows_ensureFirstCapacity hmax) ?_ s t ⟨hprepared, hlog⟩
  intro _
  apply follows_then hprompt (follows_transferPrefillState rfl hcapacity)
  intro _
  apply follows_sayPrompt
  apply View.Follows.bind_same ((graphs_follow hpos).generateFrames hgroups call state
    call.options.maxNewTokens.toNat ⟨0, current, [], ⟨model.seeded call.options.seed, 0⟩, []⟩
    (Nat.zero_add _))
  · intro _
    exact .pure _
  · intro generation
    apply View.Follows.pure
    rintro s t ⟨n, hst⟩
    exact ⟨rfl, _, n, hpos, hst⟩

theorem follows_generateCall (h : Ready model r₀)
    (hspared : spared → 0 < call.options.maxNewTokens →
      call.options.maxNewTokens ≤ limits.generationCapacity →
      CopySpared model r₀ env call.request) :
    (callView model env spared).Follows (Quiet (· = r₀)) (generateCall model limits env call)
      (speakCall model limits call) fun a b s t => a = b ∧ Returned model s t := by
  rw [generateCall, speakCall]
  by_cases htokens : call.options.maxNewTokens ≤ 0 ∨
      (limits.generationCapacity : ℤ) < call.options.maxNewTokens
  · rw [if_pos htokens, if_pos htokens]
    apply follows_throw
    rintro r rfl _
    exact h
  rw [if_neg htokens, if_neg htokens]
  have hmax : 0 < call.options.maxNewTokens := by omega
  have hspare : spared → CopySpared model r₀ env call.request :=
    fun hspare => hspared hspare hmax (by omega)
  apply View.Follows.bind_same (quiet_same (follows_ensurePromptState h
    (fun hs => (hspare hs).voice) fun hs => (hspare hs).prompt))
  · intro state
    apply View.Extends.ite (.throw _)
    apply View.Extends.bind (extends_sayOrThrow _)
    intro current
    exact extends_speakFrom call state current
  intro state
  apply View.Follows.ite
  · intro _
    exact follows_throw fun r hr _ => hr.ready
  intro hsteps
  obtain ⟨hpos, hroom⟩ := not_or.mp hsteps
  apply follows_then _ (follows_ensurePrefillGraph hpos hroom)
  · rintro graph s t ⟨hfound, hlog⟩
    refine View.Follows.bind_same (quiet_same (follows_ensurePrefill rfl)) ?_ ?_ s t
      ⟨hfound, hlog⟩
    · intro current
      exact extends_speakFrom call state current
    · intro current
      exact follows_generateFrom hpos hfound.capacity hmax
  · apply View.Extends.bind (extends_sayOrThrow _)
    intro current
    exact extends_speakFrom call state current

/-- No call breaks off while it copies its request over that of an earlier call. -/
def Spares (model : Model F K V G) (limits : Limits) (runtime : Runtime F K V) :
    Event F K V → Prop
  | .release => True
  | .call request env => ∀ call, request.call = .ok call → 0 < call.options.maxNewTokens →
      call.options.maxNewTokens ≤ limits.generationCapacity →
      CopySpared model runtime env call.request

theorem follows_answerRequest (h : Ready model r₀) :
    (callView model env (Spares model limits r₀ (.call request env))).Follows (Quiet (· = r₀))
      (answerRequest model limits env request) (speak model limits request)
      fun a b s t => a = b ∧ Returned model s t := by
  rw [answerRequest, speak]
  cases hcall : request.call with
  | error what =>
    apply follows_throw
    rintro r rfl _
    exact h
  | ok call =>
    intro s t hst
    exact follows_generateCall h (fun hspares => hspares call hcall) s t hst

theorem agree_answerRequest (h : Ready model runtime) (limits : Limits) (env : Env K V)
    (request : Request F) :
    (callView model env (Spares model limits runtime (.call request env))).Agree
      (fun a b s t => a = b ∧ Returned model s t)
      (answerRequest model limits env request ⟨runtime, []⟩) (speak model limits request .silent) :=
  follows_answerRequest h _ _ ⟨rfl, rfl⟩

/-! ## Runs -/

theorem Ready.performed (h : Ready model runtime)
    (hspares : Spares model limits runtime (.call request env)) :
    Ready model (perform model limits runtime env request).2 := by
  have hagree := agree_answerRequest h limits env request
  rw [perform]
  generalize answerRequest model limits env request ⟨runtime, []⟩ = r at hagree ⊢
  generalize speak model limits request .silent = r' at hagree
  cases hagree with
  | value hvalue =>
    obtain ⟨_, _, _, _, hspoken⟩ := hvalue
    exact hspoken.holding.ready
  | thrown hsafe _ => exact hsafe hspares
  | broken _ hsafe _ => exact hsafe hspares

theorem ready_step {after : Runtime F K V} {event : Event F K V} (h : Ready model runtime)
    (hspares : Spares model limits runtime event)
    (hstep : step model limits runtime event = some after) : Ready model after := by
  cases event with
  | release =>
    cases hstep
    exact h.released
  | call request env =>
    cases hstep
    exact h.performed hspares

theorem ready_of_reaches
    (h : Reaches (step model limits) (Spares model limits) (.fresh limits) runtime) :
    Ready model runtime :=
  h.invariant (ready_fresh model limits) fun _ _ _ => ready_step

end Calls

end FastTts.Talker
