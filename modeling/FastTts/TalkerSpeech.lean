import FastTts.Programs
import FastTts.TalkerRuntime

/-!
# What a call says

The specification of a call knows no graphs and no caches: the rows of the prompt and of the frames
so far are lists that grow, and every call starts from nothing. Device and specification run the
same loops, so that a device whose operations follow those of the specification generates the same
frames.
-/

namespace FastTts.Talker

open Kv Program

variable {F K V G σ : Type}

/-- The rows of each layer, `steps` of them. -/
structure Rows (K V : Type) where
  steps : ℕ
  layers : Layers K V

def Rows.none : Rows K V := ⟨0, []⟩

def Rows.input (rows : Rows K V) (embedding : List F) : StepInput F K V :=
  ⟨embedding, rows.steps, rows.steps, rows.layers⟩

def Rows.append (rows : Rows K V) (key : ℕ → K) (value : ℕ → V) : Rows K V :=
  ⟨rows.steps + 1, appendLayers key value rows.layers⟩

/-- What was delivered, the rows of the prompt with its frames, and those of one frame's codes. -/
structure Speech (K V : Type) where
  delivered : List Frame
  talker : Rows K V
  predictor : Rows K V

def Speech.silent : Speech K V := ⟨[], .none, .none⟩

abbrev Saying (K V α : Type) := EStateM Exception (Speech K V) α

def sayOrThrow {α : Type} : Except Exception α → Saying K V α
  | .ok a => pure a
  | .error what => throw what

def sayDeliver (frame : Frame) : Saying K V Unit :=
  modify fun speech => { speech with delivered := speech.delivered ++ [frame] }

def sayPredictorPrefill (model : Model F K V G) (embeddings : List F) : Saying K V (List F) := do
  modify fun speech => { speech with predictor := ⟨2, computedLayers model.predictorLayerCount 2
    (model.predictorPrefillKey embeddings) (model.predictorPrefillValue embeddings)⟩ }
  return model.predictorPrefill embeddings

def sayPredictorStep (model : Model F K V G) (group : ℕ) (embedding : List F) :
    Saying K V (List F) := do
  if embedding.length ≠ model.config.hiddenSize then
    throw (bytes "Qwen3 code predictor step embedding size mismatch")
  else
    let input := (← get).predictor.input embedding
    modify fun speech => { speech with
      predictor := speech.predictor.append (model.predictorStepKey group input)
        (model.predictorStepValue group input) }
    return model.predictorStep group input

def sayStep (model : Model F K V G) (embedding : List F) : Saying K V (PrefillResult F) := do
  if embedding.length ≠ model.config.hiddenSize then
    throw (bytes "Qwen3 talker cached step embedding size mismatch")
  else
    let input := (← get).talker.input embedding
    modify fun speech => { speech with
      talker := speech.talker.append (model.stepKey input) (model.stepValue input) }
    return model.step input

def speechDevice (model : Model F K V G) : Device F Exception (Speech K V) where
  thrown := id
  deliver := sayDeliver
  predictorPrefill _ := sayPredictorPrefill model
  predictorStep _ := sayPredictorStep model
  step _ := sayStep model

section Speak

variable [Add F] [Zero F] [DecidableEq F]

def prefillOf (model : Model F K V G) (prompt : List F) : Except Exception (PrefillResult F) :=
  if prompt.length ≠ prompt.length / model.config.hiddenSize * model.config.hiddenSize then
    .error (bytes "Qwen3 talker prefill embedding size mismatch")
  else .ok (model.prefill prompt)

def requireCodeGroups (model : Model F K V G) : Except Exception Unit :=
  if model.config.numCodeGroups ≤ 1 then
    .error (bytes "Qwen3 code predictor requires multiple code groups")
  else .ok ()

def sayPrompt (model : Model F K V G) (prompt : List F) : Saying K V Unit :=
  modify fun speech => { speech with
    talker := ⟨prompt.length / model.config.hiddenSize, prefillLayers model prompt⟩ }

def speakFrom (model : Model F K V G) (call : Call F) (state : PromptEmbeddingState F)
    (current : PrefillResult F) : Saying K V TalkerCodes := do
  sayOrThrow (requireCodeGroups model)
  sayPrompt model state.prompt
  let generation ← generateFrames model (speechDevice model) call state
    call.options.maxNewTokens.toNat ⟨0, current, [], ⟨model.seeded call.options.seed, 0⟩, []⟩
  return collectCodes model call generation.frames

def speakCall (model : Model F K V G) (limits : Limits) (call : Call F) :
    Saying K V TalkerCodes := do
  let maxNewTokens := call.options.maxNewTokens
  if maxNewTokens ≤ 0 ∨ (limits.generationCapacity : ℤ) < maxNewTokens then
    throw (bytes "Qwen3 talker generation token count exceeds capacity")
  else
    let state ← sayOrThrow (promptOf model.config model.weights call.request)
    let promptSteps := state.prompt.length / model.config.hiddenSize
    if promptSteps = 0 ∨ limits.promptCapacity < promptSteps then
      throw (bytes "Qwen3 talker prompt exceeds step runtime capacity")
    else
      let current ← sayOrThrow (prefillOf model state.prompt)
      speakFrom model call state current

def speak (model : Model F K V G) (limits : Limits) (request : Request F) :
    Saying K V TalkerCodes := do
  let call ← sayOrThrow request.call
  speakCall model limits call

end Speak

variable {prompt : List F}

theorem prefillOf_eq {model : Model F K V G} {promptSteps : ℕ}
    (hsteps : prompt.length / model.config.hiddenSize = promptSteps) :
    prefillOf model prompt = if prompt.length ≠ promptSteps * model.config.hiddenSize then
      .error (bytes "Qwen3 talker prefill embedding size mismatch")
    else .ok (model.prefill prompt) := by
  rw [prefillOf, hsteps]

theorem prefillOf_ok {model : Model F K V G} {output : PrefillResult F}
    (h : prefillOf model prompt = .ok output) : output = model.prefill prompt := by
  rw [prefillOf] at h
  split_ifs at h
  cases h
  rfl

/-! ## What is delivered stays delivered -/

section Log

variable {view : View Failure Exception σ (Speech K V) Frame}

/-- The view's log of the specification is what it delivered. -/
def Delivers (view : View Failure Exception σ (Speech K V) Frame) : Prop :=
  ∀ speech, view.specLog speech = speech.delivered

variable {α : Type}

theorem extends_attempt (model : Model F K V G) (result : Except Exception α) :
    view.Extends ((speechDevice model).attempt result) := by
  cases result with
  | ok a => exact .pure a
  | error what => exact .throw what

theorem extends_sayOrThrow (result : Except Exception α) : view.Extends (sayOrThrow result) := by
  cases result with
  | ok a => exact .pure a
  | error what => exact .throw what

section

variable (h : Delivers view)
include h

theorem extends_deliver (frame : Frame) : view.Extends (sayDeliver frame) := by
  intro speech
  rw [h, h]
  exact List.prefix_append _ _

theorem extends_predictorPrefill (model : Model F K V G)
    (embeddings : List F) : view.Extends (sayPredictorPrefill model embeddings) := by
  apply View.Extends.of_eq
  intro speech
  rw [h, h]
  rfl

theorem extends_predictorStep (model : Model F K V G) (group : ℕ)
    (embedding : List F) : view.Extends (sayPredictorStep model group embedding) := by
  apply View.Extends.ite (.throw _)
  apply View.Extends.of_eq
  intro speech
  rw [h, h]
  rfl

theorem extends_step (model : Model F K V G) (embedding : List F) :
    view.Extends (sayStep model embedding) := by
  apply View.Extends.ite (.throw _)
  apply View.Extends.of_eq
  intro speech
  rw [h, h]
  rfl

theorem extends_predictGroups (model : Model F K V G) (options : GenerationOptions F) (frames : ℕ)
    (groups : List ℕ) (codes : List ℤ) (code : ℤ) (draws : Draws G) :
    view.Extends (predictGroups model (speechDevice model) options frames groups codes code
      draws) := by
  induction groups generalizing codes code draws with
  | nil => exact .pure _
  | cons group groups ih =>
    rw [predictGroups]
    apply View.Extends.bind (extends_attempt model _)
    intro row
    apply View.Extends.bind (extends_predictorStep h model group row)
    intro logits
    apply View.Extends.bind (extends_attempt model _)
    intro picked
    exact ih _ _ _

theorem extends_predictCodes (model : Model F K V G) (options : GenerationOptions F) (frames : ℕ)
    (talkerHidden : List F) (firstCode : ℤ) (draws : Draws G) :
    view.Extends (predictCodes model (speechDevice model) options frames talkerHidden firstCode
      draws) := by
  rw [predictCodes]
  apply View.Extends.bind (extends_attempt model _)
  intro embeddings
  apply View.Extends.bind (extends_predictorPrefill h model embeddings)
  intro logits
  apply View.Extends.bind (extends_attempt model _)
  intro picked
  exact extends_predictGroups h model _ _ _ _ _ _

theorem extends_notify (model : Model F K V G) (call : Call F) (frame : Frame)
    (frames : List Frame) : view.Extends (notify (speechDevice model) call frame frames) := by
  rw [notify]
  cases call.onFrame with
  | none => exact .pure _
  | some onFrame => exact .bind (extends_deliver h frame) fun _ => .pure _

end

section Frames

variable [Add F]

theorem extends_stepTalker (h : Delivers view) (model : Model F K V G)
    (state : PromptEmbeddingState F) (generation : Generation F G) (codes : List ℤ) :
    view.Extends (stepTalker model (speechDevice model) state generation codes) :=
  .bind (extends_attempt model _) fun embed => extends_step h model embed

section

variable (h : Delivers view) (model : Model F K V G) (call : Call F)
  (state : PromptEmbeddingState F) {next : Generation F G → Saying K V (Generation F G)}
  (hnext : ∀ generation, view.Extends (next generation)) (generation : Generation F G)
  (firstCode : ℤ)
include h hnext

theorem extends_deliverFrame (codes : List ℤ) (draws : Draws G) :
    view.Extends (deliverFrame model (speechDevice model) call state next generation firstCode
      codes draws) := by
  apply View.Extends.bind (extends_notify h model call _ _)
  intro answer
  cases answer with
  | stop => exact .pure _
  | throws what => exact .throw _
  | goOn => exact .bind (extends_stepTalker h model state generation codes) fun _ => hnext _

theorem extends_speakFrame (draws : Draws G) :
    view.Extends (speakFrame model (speechDevice model) call state next generation firstCode
      draws) := by
  apply View.Extends.bind (extends_predictCodes h model _ _ _ _ _)
  intro predicted
  exact extends_deliverFrame h model call state hnext _ _ _ _

end

theorem extends_generateFrames [Zero F] [DecidableEq F] (h : Delivers view) (model : Model F K V G)
    (call : Call F) (state : PromptEmbeddingState F) (remaining : ℕ) (generation : Generation F G) :
    view.Extends (generateFrames model (speechDevice model) call state remaining generation) := by
  induction remaining generalizing generation with
  | zero => exact .pure _
  | succ remaining ih =>
    rw [generateFrames]
    cases call.cancelled generation.step with
    | stop => exact .pure _
    | throws what => exact .throw _
    | goOn =>
      apply View.Extends.bind (extends_attempt model _)
      intro picked
      apply View.Extends.ite (.pure _)
      apply View.Extends.ite (.pure _)
      exact extends_speakFrame h model call state ih _ _ _

end Frames

end Log

/-! ## Devices that follow -/

/-- `Spoken n` relates the states after `n` steps, `Coded n k` those in the middle of the next
frame, when the code predictor holds `k` rows. -/
structure FollowsSpeech (view : View Failure Exception σ (Speech K V) Frame)
    (model : Model F K V G) (device : Device F Failure σ) (maxNewTokens : ℕ)
    (Spoken : ℕ → σ → Speech K V → Prop) (Coded : ℕ → ℕ → σ → Speech K V → Prop) : Prop where
  delivers : Delivers view
  thrown : device.thrown = view.lift
  safe : ∀ n s t, Spoken n s t → view.safe s ∧ view.log s = view.specLog t
  coded : ∀ n k s t, Coded n k s t → Spoken n s t
  deliver : ∀ n frame, view.Follows (Spoken n) (device.deliver frame) (sayDeliver frame)
    fun _ _ => Spoken n
  predictorPrefill : ∀ n embeddings, view.Follows (Spoken n) (device.predictorPrefill n embeddings)
    (sayPredictorPrefill model embeddings) fun a b s t => a = b ∧ Coded n 2 s t
  predictorStep : ∀ n group embedding, 0 < group → group < model.config.numCodeGroups - 1 →
    view.Follows (Coded n (group + 1)) (device.predictorStep n group embedding)
      (sayPredictorStep model group embedding) fun a b s t => a = b ∧ Coded n (group + 2) s t
  step : ∀ n embedding, n + 1 < maxNewTokens → view.Follows (Spoken n) (device.step n embedding)
    (sayStep model embedding) fun a b s t => a = b ∧ Spoken (n + 1) s t

namespace FollowsSpeech

variable {view : View Failure Exception σ (Speech K V) Frame} {model : Model F K V G}
  {device : Device F Failure σ} {maxNewTokens : ℕ} {Spoken : ℕ → σ → Speech K V → Prop}
  {Coded : ℕ → ℕ → σ → Speech K V → Prop}

theorem attempt (h : FollowsSpeech view model device maxNewTokens Spoken Coded)
    {P : σ → Speech K V → Prop} (hP : ∀ s t, P s t → ∃ n, Spoken n s t) {α : Type}
    (result : Except Exception α) :
    view.Follows P (device.attempt result) ((speechDevice model).attempt result)
      fun a b s t => a = b ∧ P s t := by
  cases result with
  | ok a => exact .pure fun s t hst => ⟨rfl, hst⟩
  | error what =>
    rw [Device.attempt, Device.attempt, h.thrown]
    apply View.Follows.throw
    intro s t hst
    obtain ⟨n, hn⟩ := hP s t hst
    exact h.safe n s t hn

theorem predictGroups (h : FollowsSpeech view model device maxNewTokens Spoken Coded)
    (options : GenerationOptions F) (n left : ℕ) :
    ∀ group, 0 < group → group + left = model.config.numCodeGroups - 1 →
      ∀ (codes : List ℤ) (code : ℤ) (draws : Draws G), view.Follows (Coded n (group + 1))
        (predictGroups model device options n (List.range' group left) codes code draws)
        (predictGroups model (speechDevice model) options n (List.range' group left) codes code
          draws) fun a b s t => a = b ∧ Spoken n s t := by
  induction left with
  | zero =>
    intro group _ _ codes code draws
    exact .pure fun s t hst => ⟨rfl, h.coded _ _ s t hst⟩
  | succ left ih =>
    intro group hgroup hleft codes code draws
    have hcoded : ∀ k s t, Coded n k s t → ∃ n, Spoken n s t :=
      fun k s t hst => ⟨n, h.coded n k s t hst⟩
    rw [List.range'_succ, Talker.predictGroups, Talker.predictGroups]
    apply View.Follows.bind_same (h.attempt (hcoded _) _)
    · intro row
      apply View.Extends.bind (extends_predictorStep h.delivers model group row)
      intro logits
      apply View.Extends.bind (extends_attempt model _)
      intro picked
      exact extends_predictGroups h.delivers model _ _ _ _ _ _
    intro row
    apply View.Follows.bind_same (h.predictorStep n group row hgroup (by omega))
    · intro logits
      apply View.Extends.bind (extends_attempt model _)
      intro picked
      exact extends_predictGroups h.delivers model _ _ _ _ _ _
    intro logits
    apply View.Follows.bind_same (h.attempt (hcoded _) _)
    · intro picked
      exact extends_predictGroups h.delivers model _ _ _ _ _ _
    intro picked
    exact ih (group + 1) (by omega) (by omega) _ _ _

theorem predictCodes (h : FollowsSpeech view model device maxNewTokens Spoken Coded)
    (hgroups : 1 < model.config.numCodeGroups) (options : GenerationOptions F) (n : ℕ)
    (talkerHidden : List F) (firstCode : ℤ) (draws : Draws G) :
    view.Follows (Spoken n)
      (Talker.predictCodes model device options n talkerHidden firstCode draws)
      (Talker.predictCodes model (speechDevice model) options n talkerHidden firstCode draws)
      fun a b s t => a = b ∧ Spoken n s t := by
  have hspoken : ∀ s t, Spoken n s t → ∃ n, Spoken n s t := fun s t hst => ⟨n, hst⟩
  rw [Talker.predictCodes, Talker.predictCodes]
  apply View.Follows.bind_same (h.attempt hspoken _)
  · intro embeddings
    apply View.Extends.bind (extends_predictorPrefill h.delivers model embeddings)
    intro logits
    apply View.Extends.bind (extends_attempt model _)
    intro picked
    exact extends_predictGroups h.delivers model _ _ _ _ _ _
  intro embeddings
  apply View.Follows.bind_same (h.predictorPrefill n embeddings)
  · intro logits
    apply View.Extends.bind (extends_attempt model _)
    intro picked
    exact extends_predictGroups h.delivers model _ _ _ _ _ _
  intro logits
  apply View.Follows.bind_same (h.attempt (fun s t hst => ⟨n, h.coded n 2 s t hst⟩) _)
  · intro picked
    exact extends_predictGroups h.delivers model _ _ _ _ _ _
  intro picked
  exact h.predictGroups options n (model.config.numCodeGroups - 2) 1 (by omega) (by omega) _ _ _

theorem notify (h : FollowsSpeech view model device maxNewTokens Spoken Coded) (n : ℕ)
    (call : Call F) (frame : Frame) (frames : List Frame) :
    view.Follows (Spoken n) (Talker.notify device call frame frames)
      (Talker.notify (speechDevice model) call frame frames)
      fun a b s t => a = b ∧ Spoken n s t := by
  rw [Talker.notify, Talker.notify]
  cases call.onFrame with
  | none => exact .pure fun s t hst => ⟨rfl, hst⟩
  | some onFrame =>
    apply View.Follows.bind (h.deliver n frame) (fun _ => .pure _)
    intro _ _
    exact .pure fun s t hst => ⟨rfl, hst⟩

section Frames

variable [Add F]

/-- What a frame goes on with follows from the next state on. -/
def Continues (view : View Failure Exception σ (Speech K V) Frame)
    (Spoken : ℕ → σ → Speech K V → Prop) (n : ℕ)
    (next : Generation F G → EStateM Failure σ (Generation F G))
    (sayNext : Generation F G → Saying K V (Generation F G)) : Prop :=
  ∀ generation : Generation F G, generation.frames.length = n →
    view.Follows (Spoken n) (next generation) (sayNext generation)
      fun a b s t => a = b ∧ ∃ n, Spoken n s t

theorem stepTalker (h : FollowsSpeech view model device maxNewTokens Spoken Coded)
    (state : PromptEmbeddingState F) (generation : Generation F G) (codes : List ℤ)
    (hmore : generation.frames.length + 1 < maxNewTokens) :
    view.Follows (Spoken generation.frames.length)
      (Talker.stepTalker model device state generation codes)
      (Talker.stepTalker model (speechDevice model) state generation codes)
      fun a b s t => a = b ∧ Spoken (generation.frames.length + 1) s t := by
  apply View.Follows.bind_same (h.attempt (fun s t hst => ⟨_, hst⟩) _)
  · intro embed
    exact extends_step h.delivers model embed
  · intro embed
    exact h.step _ embed hmore

variable {sayNext : Generation F G → Saying K V (Generation F G)}

theorem deliverFrame (h : FollowsSpeech view model device maxNewTokens Spoken Coded) (call : Call F)
    (state : PromptEmbeddingState F) {next : Generation F G → EStateM Failure σ (Generation F G)}
    (generation : Generation F G) (hmore : generation.frames.length + 1 < maxNewTokens)
    (hnext : Continues view Spoken (generation.frames.length + 1) next sayNext)
    (hextends : ∀ generation, view.Extends (sayNext generation)) (firstCode : ℤ) (codes : List ℤ)
    (draws : Draws G) :
    view.Follows (Spoken generation.frames.length)
      (Talker.deliverFrame model device call state next generation firstCode codes draws)
      (Talker.deliverFrame model (speechDevice model) call state sayNext generation firstCode
        codes draws) fun a b s t => a = b ∧ ∃ n, Spoken n s t := by
  apply View.Follows.bind_same (h.notify _ call _ _)
  · intro answer
    cases answer with
    | stop => exact .pure _
    | throws what => exact .throw _
    | goOn =>
      exact .bind (extends_stepTalker h.delivers model state generation codes) fun _ => hextends _
  intro answer
  cases answer with
  | stop => exact .pure fun s t hst => ⟨rfl, _, hst⟩
  | throws what =>
    dsimp only
    rw [h.thrown]
    exact .throw fun s t hst => h.safe _ s t hst
  | goOn =>
    apply View.Follows.bind_same (h.stepTalker state generation codes hmore) (fun _ => hextends _)
    intro current
    apply hnext
    rw [List.length_append, List.length_singleton]

theorem speakFrame (h : FollowsSpeech view model device maxNewTokens Spoken Coded)
    (hgroups : 1 < model.config.numCodeGroups) (call : Call F) (state : PromptEmbeddingState F)
    {next : Generation F G → EStateM Failure σ (Generation F G)} (generation : Generation F G)
    (hmore : generation.frames.length + 1 < maxNewTokens)
    (hnext : Continues view Spoken (generation.frames.length + 1) next sayNext)
    (hextends : ∀ generation, view.Extends (sayNext generation)) (firstCode : ℤ) (draws : Draws G) :
    view.Follows (Spoken generation.frames.length)
      (Talker.speakFrame model device call state next generation firstCode draws)
      (Talker.speakFrame model (speechDevice model) call state sayNext generation firstCode draws)
      fun a b s t => a = b ∧ ∃ n, Spoken n s t := by
  apply View.Follows.bind_same (h.predictCodes hgroups _ _ _ _ _)
  · intro predicted
    exact extends_deliverFrame h.delivers model call state hextends _ _ _ _
  · intro predicted
    exact h.deliverFrame call state generation hmore hnext hextends _ _ _

theorem generateFrames [Zero F] [DecidableEq F]
    (h : FollowsSpeech view model device maxNewTokens Spoken Coded)
    (hgroups : 1 < model.config.numCodeGroups) (call : Call F) (state : PromptEmbeddingState F)
    (remaining : ℕ) : ∀ generation : Generation F G,
      generation.frames.length + remaining = maxNewTokens →
      view.Follows (Spoken generation.frames.length)
        (Talker.generateFrames model device call state remaining generation)
        (Talker.generateFrames model (speechDevice model) call state remaining generation)
        fun a b s t => a = b ∧ ∃ n, Spoken n s t := by
  induction remaining with
  | zero =>
    intro generation _
    exact .pure fun s t hst => ⟨rfl, _, hst⟩
  | succ remaining ih =>
    intro generation hremaining
    rw [Talker.generateFrames, Talker.generateFrames]
    cases call.cancelled generation.step with
    | stop => exact .pure fun s t hst => ⟨rfl, _, hst⟩
    | throws what =>
      rw [h.thrown]
      exact .throw fun s t hst => h.safe _ s t hst
    | goOn =>
      have hextends := extends_generateFrames h.delivers model call state remaining
      apply View.Follows.bind_same (h.attempt (fun s t hst => ⟨_, hst⟩) _)
      · intro picked
        apply View.Extends.ite (.pure _)
        apply View.Extends.ite (.pure _)
        exact extends_speakFrame h.delivers model call state hextends _ _ _
      intro picked
      apply View.Follows.ite
      · intro _
        exact .pure fun s t hst => ⟨rfl, _, hst⟩
      intro _
      apply View.Follows.ite
      · intro _
        exact .pure fun s t hst => ⟨rfl, _, hst⟩
      intro hmore
      apply h.speakFrame hgroups call state generation (by omega) _ hextends
      intro next hlength
      have hnext := ih next (by omega)
      rw [hlength] at hnext
      exact hnext

end Frames

end FollowsSpeech

end FastTts.Talker
