import FastTts.TalkerCalls

/-!
# Histories of calls

Whatever calls a runtime has behind it, the next one speaks as on a fresh runtime, as long as none
of them broke off while it copied its request over that of an earlier call. Where one did, what is
kept of the new request stays paired with the old one, and the old request is answered with it.
-/

namespace FastTts.Talker

open Kv Program

variable {F K V G : Type} [Add F] [Zero F] [DecidableEq F] [Inhabited K] [Inhabited V]

/-! ## Calls compared -/

def Env.Faultless (env : Env K V) : Prop := ∀ fault, env.fails fault = false

/-- The call ended at a fault, and the frames before it are the first ones of `whole`. -/
def Outcome.BrokenOff (outcome : Outcome) (env : Env K V) (whole : Outcome) : Prop :=
  ∃ fault, env.fails fault = true ∧ outcome.result = .error (.fault fault) ∧
    List.IsPrefix outcome.delivered whole.delivered

def Runtime.heldRows (runtime : Runtime F K V) : Option (TransformerKVState K V) :=
  runtime.cachedStepGraph.map (·.cache.exportState)

def Rows.exported (rows : Rows K V) : TransformerKVState K V :=
  ⟨rows.steps, rows.layers.map fun layer => ⟨rows.steps, layer.keyTensor, layer.valueTensor⟩⟩

/-- What a call with this history shares with the same call on a fresh runtime. A call that is
cancelled returns, so that `rows` and `grown` are about every frame of a generation. -/
structure SpeaksAlike (model : Model F K V G) (limits : Limits) (runtime : Runtime F K V)
    (env : Env K V) (request : Request F) : Prop where
  alike : ∀ env' : Env K V, env'.Faultless →
    (perform model limits runtime env request).1 =
      (perform model limits (.fresh limits) env' request).1 ∨
    (perform model limits runtime env request).1.BrokenOff env
      (perform model limits (.fresh limits) env' request).1
  fits : ∀ what, (perform model limits runtime env request).1.result ≠ .error (.cache what)
  connected : (perform model limits runtime env request).1.result ≠ .error .dangling
  rows : ∀ codes progress, answerRequest model limits env request ⟨runtime, []⟩ =
      .ok codes progress → ∃ speech, speak model limits request .silent = .ok codes speech ∧
    progress.runtime.heldRows = some speech.talker.exported
  grown : ∀ codes progress, answerRequest model limits env request ⟨runtime, []⟩ =
      .ok codes progress → ∀ (env' : Env K V) (maxNewTokens required : ℤ) (promptSteps frames : ℕ)
    (after : Progress F K V), (promptSteps : ℤ) + 1 ≤ required →
    required ≤ promptSteps + maxNewTokens →
    ensureCachedStepCapacity model env' maxNewTokens promptSteps frames required progress =
      .ok () after → after.runtime.heldRows = progress.runtime.heldRows

variable {model : Model F K V G} {limits : Limits} {runtime : Runtime F K V} {env : Env K V}
  {request : Request F}

def said (model : Model F K V G) (limits : Limits) (request : Request F) : Outcome :=
  match (speak model limits request .silent : EStateM.Result Exception (Speech K V) _) with
  | .ok codes speech => ⟨speech.delivered, .ok codes⟩
  | .error what speech => ⟨speech.delivered, .error (.thrown what)⟩

theorem Ready.said_or_broken (h : Ready model runtime) (limits : Limits) (env : Env K V)
    (request : Request F) :
    (perform model limits runtime env request).1 = said model limits request ∨
      (perform model limits runtime env request).1.BrokenOff env (said model limits request) := by
  have hagree := agree_answerRequest h limits env request
  rw [perform, said]
  generalize answerRequest model limits env request ⟨runtime, []⟩ = r at hagree ⊢
  generalize speak model limits request .silent = r' at hagree ⊢
  cases hagree with
  | value hvalue =>
    obtain ⟨rfl, _, _, _, hspoken⟩ := hvalue
    left
    dsimp only
    rw [hspoken.log]
  | @thrown what s t _ hlog =>
    have hsame : s.delivered = t.delivered := hlog
    left
    dsimp only
    rw [hsame]
    rfl
  | broken hfault _ hlog =>
    obtain ⟨fault, hfails, rfl⟩ := hfault
    refine Or.inr ⟨fault, hfails, rfl, ?_⟩
    cases r' with
    | ok codes t => exact hlog
    | error what t => exact hlog

theorem said_fresh (limits : Limits) {env : Env K V} (h : env.Faultless) (request : Request F) :
    (perform model limits (.fresh limits) env request).1 = said model limits request := by
  rcases (ready_fresh model limits).said_or_broken limits env request with hsame | hbroken
  · exact hsame
  · obtain ⟨fault, hfails, _⟩ := hbroken
    rw [h fault] at hfails
    cases hfails

omit [Inhabited K] [Inhabited V] in
theorem said_thrown (limits : Limits) (request : Request F) (failure : Failure)
    (h : (said model limits request).result = .error failure) : ∃ what, failure = .thrown what := by
  rw [said] at h
  split at h
  · cases h
  · cases h
    exact ⟨_, rfl⟩

theorem Ready.failure (h : Ready model runtime) {failure : Failure}
    (hresult : (perform model limits runtime env request).1.result = .error failure) :
    (∃ what, failure = .thrown what) ∨ ∃ fault, failure = .fault fault := by
  rcases h.said_or_broken limits env request with hsame | ⟨fault, _, hfault, _⟩
  · rw [hsame] at hresult
    exact .inl (said_thrown limits request failure hresult)
  · rw [hfault] at hresult
    cases hresult
    exact .inr ⟨fault, rfl⟩

variable {steps promptSteps n : ℕ} {speech : Speech K V}

omit [Inhabited K] [Inhabited V] in
theorem exportState_rows {cache : TransformerKVCache K V} (hvalid : cache.validSteps = steps)
    (hcurrent : cache.currentEnd = steps) :
    cache.exportState = Rows.exported ⟨steps, heldLayers steps cache.layers⟩ := by
  rw [TransformerKVCache.exportState, Rows.exported, heldLayers, List.map_map, hvalid, hcurrent,
    Int.toNat_natCast]
  rfl

variable {progress : Progress F K V}

omit [DecidableEq F] [Inhabited K] [Inhabited V] in
theorem Spoken.heldRows (h : Spoken model promptSteps n progress speech) :
    progress.runtime.heldRows = some speech.talker.exported := by
  obtain ⟨graph, hgraph, hvalid, hcurrent, hlayers⟩ := h.holding.step
  rw [Runtime.heldRows, hgraph, Option.map_some, exportState_rows hvalid hcurrent, hlayers,
    ← h.steps]

theorem Ready.returned (h : Ready model runtime) {codes : TalkerCodes}
    (hanswer : answerRequest model limits env request ⟨runtime, []⟩ = .ok codes progress) :
    ∃ speech, speak model limits request .silent = .ok codes speech ∧
      Returned model progress speech := by
  have hagree := agree_answerRequest h limits env request
  rw [hanswer] at hagree
  generalize speak model limits request .silent = r at hagree ⊢
  cases hagree with
  | value hvalue =>
    obtain ⟨rfl, hreturned⟩ := hvalue
    exact ⟨_, rfl, hreturned⟩

omit [DecidableEq F] in
theorem Spoken.grown {after : Progress F K V} (h : Spoken model promptSteps n progress speech)
    (hpos : promptSteps ≠ 0) {maxNewTokens required : ℤ} {frames : ℕ}
    (hrequired : (steps : ℤ) + 1 ≤ required) (hmax : required ≤ steps + maxNewTokens)
    (hgrow : ensureCachedStepCapacity model env maxNewTokens steps frames required progress =
      .ok () after) : after.runtime.heldRows = progress.runtime.heldRows := by
  have hagree : (callView model env True).Agree _
      (ensureCachedStepCapacity model env maxNewTokens steps frames required progress)
      (.ok () speech) :=
    follows_ensureCachedStepCapacity h.holding.ready hrequired hmax progress speech ⟨rfl, h.log⟩
  rw [hgrow] at hagree
  cases hagree with
  | value hvalue =>
    obtain ⟨old, hold, hvalid, _⟩ := h.holding.step
    obtain ⟨graph, serial, hafter, _, _, _, hsame⟩ := hvalue.1
    have hrows := (hsame old hold (by omega)).exportState
    rw [Runtime.heldRows, Runtime.heldRows, hafter, hold, Option.map_some, Option.map_some, hrows]

theorem Ready.speaksAlike (h : Ready model runtime) (limits : Limits) (env : Env K V)
    (request : Request F) : SpeaksAlike model limits runtime env request where
  alike env' hfaultless := by
    rw [said_fresh limits hfaultless request]
    exact h.said_or_broken limits env request
  fits what hwhat := by
    rcases h.failure hwhat with ⟨_, hthrown⟩ | ⟨_, hfault⟩
    · cases hthrown
    · cases hfault
  connected hdangling := by
    rcases h.failure hdangling with ⟨_, hthrown⟩ | ⟨_, hfault⟩
    · cases hthrown
    · cases hfault
  rows codes progress hanswer := by
    obtain ⟨speech, hspeak, _, _, _, hspoken⟩ := h.returned hanswer
    exact ⟨speech, hspeak, hspoken.heldRows⟩
  grown codes progress hanswer env' maxNewTokens required promptSteps frames after hrequired hmax
      hgrow := by
    obtain ⟨_, _, _, _, hpos, hspoken⟩ := h.returned hanswer
    exact hspoken.grown hpos hrequired hmax hgrow

/-- No history of calls shows, if none of them broke off while it copied its request. -/
theorem speaksAlike_of_reaches (model : Model F K V G) (limits : Limits) {runtime : Runtime F K V}
    (h : Reaches (step model limits) (Spares model limits) (.fresh limits) runtime)
    (env : Env K V) (request : Request F) : SpeaksAlike model limits runtime env request :=
  (ready_of_reaches h).speaksAlike limits env request

/-! ## A copy that breaks off -/

/-- Rows are numbers, and the codes of a frame tell whether the rows of the prompt add up to more
than one. -/
def summing : Model ℤ ℕ ℕ Unit where
  config := {
    hiddenSize := 1, textHiddenSize := 1, numCodeGroups := 2, vocabSize := 4, codecBosId := 0
    codecEosTokenId := 3, codecThinkId := 0, codecNothinkId := 0, codecPadId := 0
    codecThinkBosId := 0, codecThinkEosId := 0, codecLanguageId := [], speakerId := []
    speakerDialect := [], ttsBosTokenId := 0, ttsEosTokenId := 0, ttsPadTokenId := 0 }
  weights := {
    codecEmbedding := ⟨1, [[0], [1], [2], [3]], by decide⟩
    codePredictorEmbeddings := [⟨1, [[0], [1], [2], [3]], by decide⟩]
    textEmbedding := ⟨1, [[0], [1], [2], [3]], by decide⟩
    textProjectHost := fun rows _ => .ok rows }
  layerCount := 1
  predictorLayerCount := 1
  layers_pos := Nat.one_pos
  prefill prompt := ⟨[0, 0, 0, 0], [prompt.sum]⟩
  prefillKey _ _ row := row
  prefillValue _ _ row := row
  step input := ⟨[0, 0, 0, 0], input.embedding⟩
  stepKey _ _ := 0
  stepValue _ _ := 0
  predictorPrefill embeddings := [1, embeddings.headD 0]
  predictorPrefillKey _ _ row := row
  predictorPrefillValue _ _ row := row
  predictorStep _ _ := [1]
  predictorStepKey _ _ _ := 0
  predictorStepValue _ _ _ := 0
  negativeInfinity := -1
  one := 1
  greater a b := b < a
  notPositive a := a ≤ 0
  penalized value _ := value
  seeded _ := ()
  sampleIndex _ _ _ _ rng _ _ := .ok (0, rng)

def twoSlots : Limits := ⟨16, 4, 2, by decide, by decide, by decide⟩

def speakText (ids : List ℤ) : Request ℤ :=
  .generateStreaming
    ⟨.voiceDesign, [0, 0, 0] ++ ids ++ [0, 0, 0, 0, 0], [], [], none, none, [], bytes "auto", false,
      false⟩
    ⟨2, false, false, 1, 1, 1, 1, 1, 1, 0⟩ (some fun _ => .goOn) none 1

def faultless : Env ℕ ℕ := ⟨fun _ => false, fun _ => 0, fun _ _ _ => 0, fun _ _ _ => 0⟩

/-- Memory runs out at the second member of the request. -/
def outOfMemory : Env ℕ ℕ := { faultless with
  fails := fun fault => fault = .promptRequest
  copied := fun _ => 1 }

theorem spares_faultless (runtime : Runtime ℤ ℕ ℕ) (request : Request ℤ) :
    Spares summing twoSlots runtime (.call request faultless) := by
  intro call _ _ _
  constructor
  · intro _ _ _ _ _ hfails
    cases hfails
  · intro _ _ _ _ hfails
    cases hfails

theorem speaksAlike_after_text : SpeaksAlike summing twoSlots
    (perform summing twoSlots (.fresh twoSlots) faultless (speakText [0])).2 faultless
    (speakText [1, 1]) :=
  speaksAlike_of_reaches summing twoSlots
    (.next .start (spares_faultless _ (speakText [0])) rfl) faultless (speakText [1, 1])

/-- A call whose copy breaks off leaves its prompt with the request before it, which speaks the
other text from then on. -/
theorem broken_copy_leaks : ¬ ∀ runtime : Runtime ℤ ℕ ℕ,
    Reaches (step summing twoSlots) Always (.fresh twoSlots) runtime →
    ∀ env request, SpeaksAlike summing twoSlots runtime env request := by
  intro hall
  have hfresh : (perform summing twoSlots (.fresh twoSlots) faultless (speakText [0])).1.delivered =
      [⟨0, [0, 0]⟩] := by decide +kernel
  obtain ⟨runtime, hreaches, htest⟩ := exists_run
    [.call (speakText [0]) faultless, .call (speakText [1, 1]) outOfMemory]
    (fun runtime => decide
      ((perform summing twoSlots runtime faultless (speakText [0])).1.delivered = [⟨0, [0, 1]⟩]))
    (show (replay (step summing twoSlots) (fun _ _ => true) (.fresh twoSlots) _).any _ = true by
      decide +kernel)
  have hspoken := of_decide_eq_true htest
  have halike := (hall runtime hreaches faultless (speakText [0])).alike faultless fun _ => rfl
  rcases halike with hsame | ⟨fault, hfails, _⟩
  · rw [hsame, hfresh] at hspoken
    cases hspoken
  · cases hfails

end FastTts.Talker
