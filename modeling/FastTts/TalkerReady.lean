import FastTts.TalkerSpeech

/-!
# Between two calls

What the runtime keeps is what another call with the same request would make: each cached value is
paired with the request it was made for, each prefill graph that has the tag of the prompt holds its
rows, and graphs are told apart by their serial numbers. Every phase of a call keeps this, also
where it throws, unless a copy of a request fails half-way over an earlier one.
-/

namespace FastTts.Talker

open Kv Program

variable {F K V G : Type} [Add F] [Zero F]

/-! ## The invariant -/

structure StepReady (model : Model F K V G) (lastSerial : ℕ) (graph : StepGraph K V) : Prop where
  serial : graph.serial ≤ lastSerial
  positive : 0 < graph.cache.cacheSteps
  valid : 0 ≤ graph.cache.validSteps
  room : graph.cache.validSteps ≤ graph.cache.cacheSteps
  sized : Sized model.layerCount graph.cache.cacheSteps.toNat graph.cache.layers

structure Ready (model : Model F K V G) (runtime : Runtime F K V) : Prop where
  prompt : ∀ held state, runtime.cachedPromptPrefill = some held →
    runtime.cachedPromptState = some state →
    promptOf model.config model.weights held = .ok state
  voice : ∀ held parts, runtime.cachedVoicePartsPrefill = some held →
    runtime.cachedVoiceParts = some parts →
    buildVoiceParts model.config model.weights held = .ok parts
  output : ∀ output, runtime.cachedPrefillOutput = some output →
    runtime.cachedPromptPrefill.isSome ∧ ∃ state, runtime.cachedPromptState = some state ∧
      prefillOf model state.prompt = .ok output
  started : runtime.cachedPromptPrefill.isSome → 0 < runtime.promptContentTag
  tag : runtime.promptContentTag < runtime.nextContentTag
  keyed : runtime.prefillGraphs.Keyed
  slots : runtime.prefillGraphs.capacity ≠ 0
  capacity : ∀ entry ∈ runtime.prefillGraphs.entries, entry.value.promptCapacity = entry.key
  sized : ∀ entry ∈ runtime.prefillGraphs.entries,
    Sized model.layerCount entry.key entry.value.layers
  serial : ∀ entry ∈ runtime.prefillGraphs.entries, entry.value.serial ≤ runtime.prefillSerial
  contentTag : ∀ entry ∈ runtime.prefillGraphs.entries,
    entry.value.contentTag < runtime.nextContentTag
  tagged : ∀ entry ∈ runtime.prefillGraphs.entries,
    entry.value.contentTag = runtime.promptContentTag →
    ∃ state, runtime.cachedPromptState = some state ∧
      runtime.cachedPrefillOutput = some (model.prefill state.prompt) ∧
      entry.value.layers = prefillLayers model state.prompt
  serials : ∀ entry ∈ runtime.prefillGraphs.entries, ∀ other ∈ runtime.prefillGraphs.entries,
    entry.value.serial = other.value.serial → entry.key = other.key
  transfer : ∀ transfer, runtime.transferGraph = some transfer →
    transfer.source ≤ runtime.prefillSerial ∧ transfer.target ≤ runtime.stepSerial
  transferSteps : ∀ transfer, runtime.transferGraph = some transfer →
    ∀ entry ∈ runtime.prefillGraphs.entries, transfer.source = entry.value.serial →
    transfer.steps = entry.key
  step : ∀ graph, runtime.cachedStepGraph = some graph →
    StepReady model runtime.stepSerial graph
  groups : runtime.codePredictorGraph.isSome → 1 < model.config.numCodeGroups
  predictor : ∀ graph, runtime.codePredictorGraph = some graph →
    Sized model.predictorLayerCount model.config.numCodeGroups graph.layers

theorem ready_fresh (model : Model F K V G) (limits : Limits) :
    Ready model (.fresh limits : Runtime F K V) where
  prompt _ _ h := nomatch h
  voice _ _ h := nomatch h
  output _ h := nomatch h
  started h := nomatch h
  tag := Nat.zero_lt_one
  keyed := CacheSlots.keyed_empty _
  slots := limits.slots_pos.ne'
  capacity _ h := nomatch h
  sized _ h := nomatch h
  serial _ h := nomatch h
  contentTag _ h := nomatch h
  tagged _ h := nomatch h
  serials _ h := nomatch h
  transfer _ h := nomatch h
  transferSteps _ h := nomatch h
  step _ h := nomatch h
  groups h := nomatch h
  predictor _ h := nomatch h

/-! ## Following with an invariant -/

/-- A call is compared with what it says; unless the runtime is spared a broken copy, an exception
leaves it ready. -/
def callView (model : Model F K V G) (env : Env K V) (spared : Prop) :
    View Failure Exception (Progress F K V) (Speech K V) Frame where
  lift := .thrown
  fault failure := ∃ fault, env.fails fault = true ∧ failure = .fault fault
  log := (·.delivered)
  specLog := (·.delivered)
  safe progress := spared → Ready model progress.runtime

/-- A relation on runtimes, where both have delivered the same. -/
def Quiet (P : Runtime F K V → Prop) (progress : Progress F K V) (speech : Speech K V) : Prop :=
  P progress.runtime ∧ progress.delivered = speech.delivered

section Rules

variable {model : Model F K V G} {env : Env K V} {spared : Prop} {P Q : Runtime F K V → Prop}

theorem delivers_callView : Delivers (callView model env spared) := fun _ => rfl

theorem follows_change {f : Runtime F K V → Runtime F K V} (h : ∀ r, P r → Q (f r)) :
    (callView model env spared).Follows (Quiet P) (changeRuntime f) (pure ()) fun _ _ => Quiet Q :=
  fun _ _ hst => .value ⟨h _ hst.1, hst.2⟩

theorem follows_get :
    (callView model env spared).Follows (Quiet P) getRuntime (pure ())
      fun runtime _ => Quiet fun r => r = runtime ∧ P r :=
  fun _ _ hst => .value ⟨⟨rfl, hst.1⟩, hst.2⟩

variable {α β : Type} {fault : Fault}

variable {n : Saying K V β} {R : α → β → Progress F K V → Speech K V → Prop} {m : Action F K V α}
  {S : α → Runtime F K V → Prop}

theorem follows_fault (hn : (callView model env spared).Extends n) (hfails : env.fails fault = true)
    (h : ∀ r, P r → spared → Ready model r) :
    (callView model env spared).Follows (Quiet P) (throw (.fault fault)) n R := by
  intro s t hst
  have hfault : (callView model env spared).fault (.fault fault) :=
    ⟨fault, hfails, rfl⟩
  apply View.Agree.broken hfault (h _ hst.1)
  have hlog := hn t
  change List.IsPrefix s.delivered _
  rw [hst.2]
  exact hlog

theorem follows_attempt (h : ∀ r, P r → spared → Ready model r) :
    (callView model env spared).Follows (Quiet P) (attempt env fault) (pure ())
      fun _ _ => Quiet fun r => P r ∧ env.fails fault = false := by
  rw [attempt]
  split_ifs with hfails
  · exact follows_fault (.pure _) hfails h
  · exact .pure fun s t hst => ⟨⟨hst.1, by simpa using hfails⟩, hst.2⟩

theorem follows_throw {what : Exception} (h : ∀ r, P r → spared → Ready model r) :
    (callView model env spared).Follows (Quiet P) (throw (.thrown what)) (throw what) R :=
  .throw fun _ _ hst => ⟨h _ hst.1, hst.2⟩

theorem follows_orThrow {result : Except Exception α} (h : ∀ r, P r → spared → Ready model r) :
    (callView model env spared).Follows (Quiet P) (orThrow result) (sayOrThrow result)
      fun a b => Quiet fun r => (a = b ∧ result = .ok a) ∧ P r := by
  cases result with
  | ok a => exact .pure fun s t hst => ⟨⟨⟨rfl, rfl⟩, hst.1⟩, hst.2⟩
  | error what => exact follows_throw h

theorem follows_ite {c : Prop} [Decidable c] {m' : Action F K V α}
    (h : c → (callView model env spared).Follows (Quiet P) m n R)
    (h' : ¬ c → (callView model env spared).Follows (Quiet P) m' n R) :
    (callView model env spared).Follows (Quiet P) (if c then m else m') n R := by
  split_ifs with hc
  · exact h hc
  · exact h' hc

theorem follows_then {γ : Type} {k : α → Action F K V β} {n : Saying K V γ}
    {R : β → γ → Progress F K V → Speech K V → Prop} (hn : (callView model env spared).Extends n)
    (h : (callView model env spared).Follows (Quiet P) m (pure ()) fun a _ => Quiet (S a))
    (hk : ∀ a, (callView model env spared).Follows (Quiet (S a)) (k a) n R) :
    (callView model env spared).Follows (Quiet P) (m >>= k) n R :=
  .bind_left h hn hk

theorem quiet_same {R : Progress F K V → Speech K V → Prop} {n : Saying K V α}
    (h : (callView model env spared).Follows R m n fun a b => Quiet fun r => a = b ∧ S a r) :
    (callView model env spared).Follows R m n fun a b s t => a = b ∧ Quiet (S a) s t :=
  h.weaken (fun _ _ hst => hst) fun _ _ _ _ hst => ⟨hst.1.1, hst.1.2, hst.2⟩

theorem follows_copyRequest [DecidableEq F] {request : Prefill F}
    {old : Runtime F K V → Option (Prefill F)}
    {store : Option (Prefill F) → Runtime F K V → Runtime F K V}
    (hok : ∀ r, P r → env.fails fault = false → Q (store (some request) r))
    (hfails : ∀ r, P r → env.fails fault = true → spared →
      Ready model (store ((old r).map fun held => held.copyOver request (env.copied fault)) r)) :
    (callView model env spared).Follows (Quiet P) (copyRequest env fault request old store) (pure ())
      fun _ _ => Quiet Q := by
  rw [copyRequest]
  apply follows_ite
  · intro hfault
    apply follows_then (.pure _) (follows_change (Q := fun r => spared → Ready model r) _)
    · intro _
      exact follows_fault (.pure _) hfault fun r hr => hr
    · intro r hr
      exact hfails r hr hfault
  · intro hfault
    apply follows_change
    intro r hr
    exact hok r hr (by simpa using hfault)

end Rules

/-! ## The prompt -/

section Prompt

variable [DecidableEq F] {model : Model F K V G} {spared : Prop} {r₀ : Runtime F K V}
  {env : Env K V} {request : Prefill F}

theorem sayOrThrow_bind {α β : Type} (x : Except Exception α) (f : α → Except Exception β) :
    (sayOrThrow (x >>= f) : Saying K V β) = sayOrThrow x >>= fun a => sayOrThrow (f a) := by
  cases x <;> rfl

/-- The copy of the request over that of an earlier voice does not break off. -/
def VoiceSpared (model : Model F K V G) (runtime : Runtime F K V) (env : Env K V)
    (request : Prefill F) : Prop :=
  runtime.heldVoiceParts request = none →
    (∃ parts, buildVoiceParts model.config model.weights request = .ok parts) →
    env.fails .voiceRequest = true → runtime.cachedVoicePartsPrefill = none

/-- Only what is kept of the voice may have changed. -/
structure Voiced (model : Model F K V G) (env : Env K V) (request : Prefill F)
    (r₀ runtime : Runtime F K V) : Prop where
  same : ∃ prefill parts, runtime = { r₀ with
    cachedVoicePartsPrefill := prefill, cachedVoiceParts := parts }
  ready : Ready model runtime
  copied : voicePartsUsable request = true → r₀.heldVoiceParts request = none →
    env.fails .voiceRequest = false

theorem Ready.heldVoiceParts (h : Ready model r₀) {parts : VoicePromptParts F}
    (hheld : r₀.heldVoiceParts request = some parts) :
    buildVoiceParts model.config model.weights request = .ok parts := by
  rw [Runtime.heldVoiceParts] at hheld
  split at hheld
  · rename_i held prefill hparts hprefill
    split_ifs at hheld with hreusable
    cases hheld
    rw [← buildVoiceParts_reusable hreusable]
    exact h.voice prefill _ hprefill hparts
  · cases hheld

theorem Ready.heldPrompt (h : Ready model r₀) {state : PromptEmbeddingState F}
    (hheld : r₀.heldPrompt request = some state) :
    promptOf model.config model.weights request = .ok state ∧
      r₀.cachedPromptState = some state ∧ r₀.cachedPromptPrefill.isSome := by
  rw [Runtime.heldPrompt] at hheld
  split at hheld
  · rename_i held prefill hstate hprefill
    split_ifs at hheld with hequal
    cases hheld
    rw [talkerPrefillEqual_iff] at hequal
    subst hequal
    refine ⟨h.prompt prefill _ hprefill hstate, hstate, ?_⟩
    rw [hprefill]
    rfl
  · cases hheld

theorem follows_ensureVoiceParts (h : Ready model r₀)
    (hspared : spared → VoiceSpared model r₀ env request) :
    (callView model env spared).Follows (Quiet (· = r₀)) (ensureVoiceParts model env request)
      (sayOrThrow (buildVoiceParts model.config model.weights request))
      fun a b => Quiet fun r => (a = b ∧
        buildVoiceParts model.config model.weights request = .ok a) ∧
        Voiced model env request r₀ r := by
  rw [ensureVoiceParts]
  apply follows_then (extends_sayOrThrow _) follows_get
  intro runtime
  cases hheld : runtime.heldVoiceParts request with
  | some parts =>
    intro s t hst
    obtain ⟨⟨hr, hr₀⟩, hlog⟩ := hst
    rw [← hr, hr₀] at hheld
    have hbuilt := h.heldVoiceParts hheld
    rw [hbuilt]
    refine .value ⟨⟨⟨rfl, rfl⟩, ⟨⟨_, _, hr₀⟩, hr₀ ▸ h, ?_⟩⟩, hlog⟩
    intro _ hnone
    rw [hheld] at hnone
    cases hnone
  | none =>
    apply View.Follows.bind_right (follows_orThrow _)
    · intro parts b
      apply follows_then (.pure _) (follows_change (Q := fun r => (parts = b ∧
        buildVoiceParts model.config model.weights request = .ok parts) ∧
        r₀.heldVoiceParts request = none ∧ r = { r₀ with cachedVoiceParts := some parts }) _)
      · intro _
        apply follows_then (.pure _) (follows_copyRequest
          (Q := fun r => (parts = b ∧
            buildVoiceParts model.config model.weights request = .ok parts) ∧
            Voiced model env request r₀ r) _ _)
        · intro _
          exact .pure fun s t hst => hst
        · rintro r ⟨hbuilt, hnone, rfl⟩ hfails
          refine ⟨hbuilt, ⟨_, _, rfl⟩, ?_, fun _ _ => hfails⟩
          refine { h with voice := ?_ }
          intro held parts' hheld hparts
          cases hheld
          cases hparts
          exact hbuilt.2
        · rintro r ⟨hbuilt, hnone, rfl⟩ hfails hspare
          have hempty := hspared hspare hnone ⟨_, hbuilt.2⟩ hfails
          refine { h with voice := ?_ }
          intro held parts' hheld
          rw [hempty] at hheld
          cases hheld
      · rintro r ⟨hbuilt, hr, hr₀⟩
        rw [← hr, hr₀] at hheld
        rw [hr₀]
        exact ⟨hbuilt, hheld, rfl⟩
    · rintro r ⟨_, hr₀⟩ _
      rw [hr₀]
      exact h

theorem follows_buildRequestPrompt (h : Ready model r₀)
    (hspared : spared → voicePartsUsable request = true → VoiceSpared model r₀ env request) :
    (callView model env spared).Follows (Quiet (· = r₀)) (buildRequestPrompt model env request)
      (sayOrThrow (promptOf model.config model.weights request)) fun a b => Quiet fun r => (a = b ∧
        promptOf model.config model.weights request = .ok a) ∧ Voiced model env request r₀ r := by
  rw [buildRequestPrompt, promptOf]
  split_ifs with husable
  · rw [sayOrThrow_bind]
    apply View.Follows.bind (follows_ensureVoiceParts h fun hspare => hspared hspare husable)
    · intro parts
      exact extends_sayOrThrow _
    · rintro parts b s t ⟨⟨⟨rfl, hbuilt⟩, hvoiced⟩, hlog⟩
      rw [hbuilt]
      exact follows_orThrow (fun r hr _ => hr.ready) s t ⟨hvoiced, hlog⟩
  · apply View.Follows.weaken (follows_orThrow (P := (· = r₀)) _) (fun _ _ hst => hst)
    · rintro state b s t ⟨⟨hbuilt, hr⟩, hlog⟩
      refine ⟨⟨hbuilt, ⟨_, _, hr⟩, hr ▸ h, fun hyes => absurd hyes husable⟩, hlog⟩
    · rintro r rfl _
      exact h

/-- The copy of the request over an earlier one, behind the state that is new already, does not
break off. -/
def PromptSpared (model : Model F K V G) (runtime : Runtime F K V) (env : Env K V)
    (request : Prefill F) : Prop :=
  (∃ state, promptOf model.config model.weights request = .ok state) →
    (voicePartsUsable request = true → runtime.heldVoiceParts request = none →
      env.fails .voiceRequest = false) →
    env.fails .promptRequest = true → runtime.cachedPromptPrefill = none

/-- The prompt of the call is the one that is kept. -/
structure Prompted (model : Model F K V G) (state : PromptEmbeddingState F)
    (runtime : Runtime F K V) : Prop where
  ready : Ready model runtime
  state : runtime.cachedPromptState = some state
  held : runtime.cachedPromptPrefill.isSome

omit [DecidableEq F] in
theorem Ready.unpaired {runtime : Runtime F K V} (h : Ready model runtime)
    (hnone : runtime.cachedPromptPrefill = none) (state : PromptEmbeddingState F) :
    Ready model { runtime with cachedPromptState := some state, cachedPromptPrefill := none } := by
  have hempty : runtime.cachedPrefillOutput = none := by
    cases hheld : runtime.cachedPrefillOutput with
    | none => rfl
    | some output =>
      have hsome := (h.output output hheld).1
      rw [hnone] at hsome
      cases hsome
  refine { h with prompt := ?_, output := ?_, started := ?_, tagged := ?_ }
  · intro held _ hheld
    cases hheld
  · intro output houtput
    cases hempty.symm.trans houtput
  · intro hheld
    cases hheld
  · intro entry hentry htag
    obtain ⟨_, _, houtput, _⟩ := h.tagged entry hentry htag
    cases hempty.symm.trans houtput

omit [DecidableEq F] in
theorem Ready.renewed {runtime : Runtime F K V} (h : Ready model runtime)
    {state : PromptEmbeddingState F}
    (hstate : promptOf model.config model.weights request = .ok state) :
    Ready model { runtime with
      cachedPromptState := some state
      cachedPromptPrefill := some request
      cachedPrefillOutput := none
      promptContentTag := runtime.nextContentTag
      nextContentTag := runtime.nextContentTag + 1 } := by
  refine { h with
    prompt := ?_, output := ?_, started := ?_, tag := ?_, contentTag := ?_, tagged := ?_ }
  · intro held _ hheld hnew
    cases hheld
    cases hnew
    exact hstate
  · intro output houtput
    cases houtput
  · intro _
    exact (Nat.zero_le _).trans_lt h.tag
  · exact Nat.lt_succ_self _
  · intro entry hentry
    exact (h.contentTag entry hentry).trans (Nat.lt_succ_self _)
  · intro entry hentry htag
    exact absurd htag (h.contentTag entry hentry).ne

theorem follows_ensurePromptState (h : Ready model r₀)
    (hvoice : spared → r₀.heldPrompt request = none → env.fails .promptState = false →
      voicePartsUsable request = true → VoiceSpared model r₀ env request)
    (hprompt : spared → r₀.heldPrompt request = none → env.fails .promptState = false →
      PromptSpared model r₀ env request) :
    (callView model env spared).Follows (Quiet (· = r₀)) (ensurePromptState model env request)
      (sayOrThrow (promptOf model.config model.weights request))
      fun a b => Quiet fun r => a = b ∧ Prompted model a r := by
  rw [ensurePromptState]
  apply follows_then (extends_sayOrThrow _) follows_get
  intro runtime
  cases hheld : runtime.heldPrompt request with
  | some state =>
    intro s t hst
    obtain ⟨⟨hr, hr₀⟩, hlog⟩ := hst
    rw [← hr, hr₀] at hheld
    obtain ⟨hstate, hcached, hsome⟩ := h.heldPrompt hheld
    rw [hstate]
    exact .value ⟨⟨rfl, hr₀ ▸ h, hr₀ ▸ hcached, hr₀ ▸ hsome⟩, hlog⟩
  | none =>
    apply follows_then (extends_sayOrThrow _) (follows_attempt _)
    · intro _ s t hst
      obtain ⟨⟨⟨hr, hr₀⟩, hfails⟩, hlog⟩ := hst
      rw [← hr, hr₀] at hheld
      refine View.Follows.bind_right (follows_buildRequestPrompt h
        fun hspare => hvoice hspare hheld hfails) ?_ s t ⟨hr₀, hlog⟩
      intro state b
      apply follows_then (.pure _) (follows_change (Q := fun r => (state = b ∧
        promptOf model.config model.weights request = .ok state) ∧ ∃ r',
        Voiced model env request r₀ r' ∧ r = { r' with cachedPromptState := some state }) _)
      · intro _
        apply follows_then (.pure _) (follows_copyRequest (Q := fun r => (state = b ∧
          promptOf model.config model.weights request = .ok state) ∧ ∃ r', Ready model r' ∧
          r = { r' with cachedPromptState := some state, cachedPromptPrefill := some request }) _ _)
        · intro _
          apply follows_then (.pure _) (follows_change
            (Q := fun r => state = b ∧ Prompted model state r) _)
          · intro _
            exact .pure fun s t hst => hst
          · rintro r ⟨⟨hstate, hpromptOf⟩, r', hready, rfl⟩
            exact ⟨hstate, hready.renewed hpromptOf, rfl, rfl⟩
        · rintro r ⟨hstate, r', hvoiced, rfl⟩ _
          exact ⟨hstate, r', hvoiced.ready, rfl⟩
        · rintro r ⟨hstate, r', hvoiced, rfl⟩ hcopy hspare
          have hnone := hprompt hspare hheld hfails ⟨_, hstate.2⟩ hvoiced.copied hcopy
          have hsame : r'.cachedPromptPrefill = none := by
            obtain ⟨_, _, rfl⟩ := hvoiced.same
            exact hnone
          have hmapped : (r'.cachedPromptPrefill.map fun held =>
              held.copyOver request (env.copied .promptRequest)) = none := by
            rw [hsame]
            rfl
          dsimp only
          rw [hmapped]
          exact hvoiced.ready.unpaired hsame state
      · rintro r ⟨hstate, hvoiced⟩
        exact ⟨hstate, r, hvoiced, rfl⟩
    · rintro r ⟨_, hr₀⟩ _
      rw [hr₀]
      exact h

end Prompt

/-! ## The prefill -/

section Prefill

variable {model : Model F K V G} {spared : Prop} {env : Env K V}
  {state : PromptEmbeddingState F} {promptSteps : ℕ}

variable {runtime : Runtime F K V} {graph : PrefillGraph K V}

section

variable (h : Ready model runtime)
include h

theorem Ready.fewer {slots : CacheSlots ℕ (PrefillGraph K V)}
    (hkeyed : slots.Keyed) (hslots : slots.capacity ≠ 0)
    (hmem : ∀ entry ∈ slots.entries, ∃ old ∈ runtime.prefillGraphs.entries,
      old.key = entry.key ∧ old.value = entry.value) :
    Ready model { runtime with prefillGraphs := slots } := by
  refine { h with
    keyed := hkeyed, slots := hslots, capacity := ?_, sized := ?_, serial := ?_, contentTag := ?_,
    tagged := ?_, serials := ?_, transferSteps := ?_ }
  · intro entry hentry
    obtain ⟨old, hold, hkey, hvalue⟩ := hmem entry hentry
    rw [← hkey, ← hvalue]
    exact h.capacity old hold
  · intro entry hentry
    obtain ⟨old, hold, hkey, hvalue⟩ := hmem entry hentry
    rw [← hkey, ← hvalue]
    exact h.sized old hold
  · intro entry hentry
    obtain ⟨old, hold, hkey, hvalue⟩ := hmem entry hentry
    rw [← hvalue]
    exact h.serial old hold
  · intro entry hentry
    obtain ⟨old, hold, hkey, hvalue⟩ := hmem entry hentry
    rw [← hvalue]
    exact h.contentTag old hold
  · intro entry hentry htag
    obtain ⟨old, hold, hkey, hvalue⟩ := hmem entry hentry
    rw [← hvalue] at htag ⊢
    exact h.tagged old hold htag
  · intro entry hentry other hother hserial
    obtain ⟨old, hold, hkey, hvalue⟩ := hmem entry hentry
    obtain ⟨old', hold', hkey', hvalue'⟩ := hmem other hother
    rw [← hvalue, ← hvalue'] at hserial
    rw [← hkey, ← hkey']
    exact h.serials old hold old' hold' hserial
  · intro transfer htransfer entry hentry hsource
    obtain ⟨old, hold, hkey, hvalue⟩ := hmem entry hentry
    rw [← hvalue] at hsource
    rw [← hkey]
    exact h.transferSteps transfer htransfer old hold hsource

theorem Ready.found (promptSteps : ℕ) :
    Ready model { runtime with prefillGraphs := (runtime.prefillGraphs.find promptSteps).1 } := by
  apply h.fewer (CacheSlots.keyed_find h.keyed promptSteps)
  · rw [CacheSlots.capacity_find]
    exact h.slots
  · intro entry hentry
    exact CacheSlots.mem_find h.keyed hentry

theorem Ready.roomMade :
    Ready model { runtime with prefillGraphs := runtime.prefillGraphs.makeRoom } := by
  apply h.fewer (CacheSlots.keyed_makeRoom h.keyed)
  · rw [CacheSlots.capacity_makeRoom]
    exact h.slots
  · intro entry hentry
    exact ⟨entry, runtime.prefillGraphs.entries_makeRoom.subset hentry, rfl, rfl⟩

theorem Ready.numbered : Ready model { runtime with prefillSerial := runtime.prefillSerial + 1 } :=
  { h with
    serial := fun entry hentry => (h.serial entry hentry).trans (Nat.le_succ _)
    transfer := fun transfer htransfer =>
      ⟨(h.transfer transfer htransfer).1.trans (Nat.le_succ _), (h.transfer transfer htransfer).2⟩ }

theorem Ready.inserted (hstarted : 0 < runtime.promptContentTag)
    {layers : Layers K V} (hlayers : Sized model.layerCount promptSteps layers) :
    Ready model { runtime with
      prefillSerial := runtime.prefillSerial + 1
      prefillGraphs := runtime.prefillGraphs.put promptSteps
        ⟨runtime.prefillSerial + 1, promptSteps, 0, layers⟩ } := by
  refine { h.numbered with
    keyed := CacheSlots.keyed_put h.keyed _ _, slots := ?_, capacity := ?_, sized := ?_,
    serial := ?_, contentTag := ?_, tagged := ?_, serials := ?_, transferSteps := ?_ }
  · rw [CacheSlots.capacity_put]
    exact h.slots
  · intro entry hentry
    rcases CacheSlots.mem_put h.keyed hentry with ⟨hold, _⟩ | ⟨hkey, hvalue⟩
    · exact h.capacity entry hold
    · rw [hkey, hvalue]
  · intro entry hentry
    rcases CacheSlots.mem_put h.keyed hentry with ⟨hold, _⟩ | ⟨hkey, hvalue⟩
    · exact h.sized entry hold
    · rw [hkey, hvalue]
      exact hlayers
  · intro entry hentry
    rcases CacheSlots.mem_put h.keyed hentry with ⟨hold, _⟩ | ⟨hkey, hvalue⟩
    · exact (h.serial entry hold).trans (Nat.le_succ _)
    · rw [hvalue]
  · intro entry hentry
    rcases CacheSlots.mem_put h.keyed hentry with ⟨hold, _⟩ | ⟨hkey, hvalue⟩
    · exact h.contentTag entry hold
    · rw [hvalue]
      exact (Nat.zero_le _).trans_lt h.tag
  · intro entry hentry htag
    rcases CacheSlots.mem_put h.keyed hentry with ⟨hold, _⟩ | ⟨hkey, hvalue⟩
    · exact h.tagged entry hold htag
    · rw [hvalue] at htag
      exact absurd htag hstarted.ne
  · intro entry hentry other hother hserial
    rcases CacheSlots.mem_put h.keyed hentry with ⟨hold, _⟩ | ⟨hkey, hvalue⟩ <;>
      rcases CacheSlots.mem_put h.keyed hother with ⟨hold', _⟩ | ⟨hkey', hvalue'⟩
    · exact h.serials entry hold other hold' hserial
    · have hle := h.serial entry hold
      rw [hserial, hvalue'] at hle
      exact absurd hle (Nat.not_succ_le_self _)
    · have hle := h.serial other hold'
      rw [← hserial, hvalue] at hle
      exact absurd hle (Nat.not_succ_le_self _)
    · rw [hkey, hkey']
  · intro transfer htransfer entry hentry hsource
    rcases CacheSlots.mem_put h.keyed hentry with ⟨hold, _⟩ | ⟨hkey, hvalue⟩
    · exact h.transferSteps transfer htransfer entry hold hsource
    · have hle := (h.transfer transfer htransfer).1
      rw [hsource, hvalue] at hle
      exact absurd hle (Nat.not_succ_le_self _)

end

/-- The slot of the prompt's length holds `graph`. -/
structure Found (model : Model F K V G) (state : PromptEmbeddingState F) (promptSteps : ℕ)
    (graph : PrefillGraph K V) (runtime : Runtime F K V) : Prop
    extends Prompted model state runtime where
  found : runtime.prefillGraphs.get? promptSteps = some graph

theorem follows_findGraph :
    (callView model env spared).Follows (Quiet (Prompted model state)) (findGraph promptSteps)
      (pure ()) fun graph _ => Quiet fun r => Prompted model state r ∧
        r.prefillGraphs.get? promptSteps = graph := by
  intro s t hst
  obtain ⟨hprompted, hlog⟩ := hst
  refine .value ⟨⟨⟨hprompted.ready.found promptSteps, hprompted.state, hprompted.held⟩, ?_⟩, hlog⟩
  exact (CacheSlots.get?_find_self _ _).trans (CacheSlots.get?_find _ _).symm

theorem follows_buildPrefillGraph (hpos : promptSteps ≠ 0) :
    (callView model env spared).Follows (Quiet (Prompted model state))
      (buildPrefillGraph model env promptSteps) (pure ()) fun _ _ => Quiet fun r =>
        Prompted model state r ∧ (r.prefillGraphs.get? promptSteps).isSome := by
  rw [buildPrefillGraph, if_neg hpos]
  apply follows_then (.pure _) (follows_attempt fun r hr _ => hr.ready)
  intro _
  apply follows_then (.pure _) (follows_change (Q := fun r => ∃ r', Prompted model state r' ∧
    r = { r' with prefillSerial := r'.prefillSerial + 1 }) fun r hr => ⟨r, hr.1, rfl⟩)
  intro _
  apply follows_then (.pure _) follows_get
  intro runtime
  apply follows_ite
  · intro hfault
    apply follows_then (.pure _) (follows_change (Q := Ready model) _)
    · intro _
      exact follows_fault (.pure _) hfault fun r hr _ => hr
    · rintro r ⟨_, r', hprompted, rfl⟩
      exact hprompted.ready.numbered.roomMade
  · intro _
    apply follows_change
    rintro r ⟨rfl, r', hprompted, rfl⟩
    have hstarted := hprompted.ready.started hprompted.held
    have hlayers := sized_computed model.layerCount promptSteps (env.key .prefillGraph)
      (env.value .prefillGraph)
    refine ⟨⟨hprompted.ready.inserted hstarted hlayers, hprompted.state, hprompted.held⟩, ?_⟩
    rw [CacheSlots.get?_put hprompted.ready.slots]
    rfl

theorem follows_foundGraph {found : Option (PrefillGraph K V)} :
    (callView model env spared).Follows
      (Quiet fun r => (Prompted model state r ∧ r.prefillGraphs.get? promptSteps = found) ∧
        (r.prefillGraphs.get? promptSteps).isSome) (ensurePrefillGraph.foundGraph found) (pure ())
      fun graph _ => Quiet (Found model state promptSteps graph) := by
  cases found with
  | some graph => exact .pure fun s t hst => ⟨⟨hst.1.1.1, hst.1.1.2⟩, hst.2⟩
  | none =>
    intro s t hst
    obtain ⟨⟨⟨_, hnone⟩, hsome⟩, _⟩ := hst
    rw [hnone] at hsome
    cases hsome

theorem follows_ensurePrefillGraph {limits : Limits} (hpos : promptSteps ≠ 0)
    (hroom : ¬ limits.promptCapacity < promptSteps) :
    (callView model env spared).Follows (Quiet (Prompted model state))
      (ensurePrefillGraph model limits env promptSteps) (pure ())
      fun graph _ => Quiet (Found model state promptSteps graph) := by
  have hbuilt : (callView model env spared).Follows (Quiet (Prompted model state)) (do
      buildPrefillGraph model env promptSteps
      ensurePrefillGraph.foundGraph (← findGraph promptSteps)) (pure ())
      fun graph _ => Quiet (Found model state promptSteps graph) := by
    apply follows_then (.pure _) (follows_buildPrefillGraph hpos)
    intro _
    apply follows_then (S := fun graph r => (Prompted model state r ∧
      r.prefillGraphs.get? promptSteps = graph) ∧ (r.prefillGraphs.get? promptSteps).isSome)
      (.pure _)
    · intro s t hst
      obtain ⟨⟨hprompted, hsome⟩, hlog⟩ := hst
      have hsame := CacheSlots.get?_find_self s.runtime.prefillGraphs promptSteps
      refine .value ⟨⟨⟨⟨hprompted.ready.found promptSteps, hprompted.state, hprompted.held⟩,
        hsame.trans (CacheSlots.get?_find _ _).symm⟩, ?_⟩, hlog⟩
      exact (congrArg Option.isSome hsame).trans hsome
    · intro found
      exact follows_foundGraph
  rw [ensurePrefillGraph, if_neg hroom]
  apply follows_then (.pure _) follows_findGraph
  intro found
  cases found with
  | some graph =>
    apply follows_ite
    · intro _
      exact .pure fun s t hst => ⟨⟨hst.1.1, hst.1.2⟩, hst.2⟩
    · intro _
      exact hbuilt.weaken (fun s t hst => ⟨hst.1.1, hst.2⟩) fun _ _ _ _ hst => hst
  | none => exact hbuilt.weaken (fun s t hst => ⟨hst.1.1, hst.2⟩) fun _ _ _ _ hst => hst

theorem Ready.written (h : Ready model runtime) {f : PrefillGraph K V → PrefillGraph K V}
    (hserial : ∀ graph, (f graph).serial = graph.serial)
    (hcapacity : ∀ graph, (f graph).promptCapacity = graph.promptCapacity)
    (hgraph : ∀ graph, runtime.prefillGraphs.get? promptSteps = some graph →
      Sized model.layerCount promptSteps graph.layers →
      graph.contentTag < runtime.nextContentTag →
      Sized model.layerCount promptSteps (f graph).layers ∧
        (f graph).contentTag < runtime.nextContentTag ∧
        ((f graph).contentTag = runtime.promptContentTag →
          ∃ state, runtime.cachedPromptState = some state ∧
            runtime.cachedPrefillOutput = some (model.prefill state.prompt) ∧
            (f graph).layers = prefillLayers model state.prompt)) :
    Ready model { runtime with
      prefillGraphs := runtime.prefillGraphs.write promptSteps f } := by
  have hmem : ∀ entry ∈ (runtime.prefillGraphs.write promptSteps f).entries,
      ∃ old ∈ runtime.prefillGraphs.entries, old.key = entry.key ∧
        entry.value.serial = old.value.serial ∧
        entry.value.promptCapacity = old.value.promptCapacity := by
    intro entry hentry
    rcases CacheSlots.mem_write h.keyed hentry with ⟨hold, hkey⟩ | ⟨old, hold, hkey, hsame, hvalue⟩
    · exact ⟨entry, hold, rfl, rfl, rfl⟩
    · rw [hvalue, hserial, hcapacity]
      exact ⟨old, hold, hkey.trans hsame.symm, rfl, rfl⟩
  have hwritten : ∀ old ∈ runtime.prefillGraphs.entries, old.key = promptSteps →
      Sized model.layerCount promptSteps (f old.value).layers ∧
        (f old.value).contentTag < runtime.nextContentTag ∧
        ((f old.value).contentTag = runtime.promptContentTag →
          ∃ state, runtime.cachedPromptState = some state ∧
            runtime.cachedPrefillOutput = some (model.prefill state.prompt) ∧
            (f old.value).layers = prefillLayers model state.prompt) := by
    intro old hold hkey
    have hget := CacheSlots.get?_of_mem h.keyed hold
    have hsized := h.sized old hold
    rw [hkey] at hget hsized
    exact hgraph _ hget hsized (h.contentTag old hold)
  refine { h with
    keyed := CacheSlots.keyed_write h.keyed _ _, slots := h.slots, capacity := ?_, sized := ?_,
    serial := ?_, contentTag := ?_, tagged := ?_, serials := ?_, transferSteps := ?_ }
  · intro entry hentry
    obtain ⟨old, hold, hkey, _, hsame⟩ := hmem entry hentry
    rw [hsame, ← hkey]
    exact h.capacity old hold
  · intro entry hentry
    rcases CacheSlots.mem_write h.keyed hentry with ⟨hold, _⟩ | ⟨old, hold, hkey, hsame, hvalue⟩
    · exact h.sized entry hold
    · rw [hsame, hvalue]
      exact (hwritten old hold hkey).1
  · intro entry hentry
    obtain ⟨old, hold, _, hsame, _⟩ := hmem entry hentry
    rw [hsame]
    exact h.serial old hold
  · intro entry hentry
    rcases CacheSlots.mem_write h.keyed hentry with ⟨hold, _⟩ | ⟨old, hold, hkey, _, hvalue⟩
    · exact h.contentTag entry hold
    · rw [hvalue]
      exact (hwritten old hold hkey).2.1
  · intro entry hentry hcurrent
    rcases CacheSlots.mem_write h.keyed hentry with ⟨hold, _⟩ | ⟨old, hold, hkey, _, hvalue⟩
    · exact h.tagged entry hold hcurrent
    · rw [hvalue] at hcurrent ⊢
      exact (hwritten old hold hkey).2.2 hcurrent
  · intro entry hentry other hother hsame
    obtain ⟨old, hold, hkey, holdserial, _⟩ := hmem entry hentry
    obtain ⟨old', hold', hkey', holdserial', _⟩ := hmem other hother
    rw [← hkey, ← hkey']
    exact h.serials old hold old' hold' (holdserial.symm.trans (hsame.trans holdserial'))
  · intro transfer htransfer entry hentry hsource
    obtain ⟨old, hold, hkey, hsame, _⟩ := hmem entry hentry
    rw [← hkey]
    exact h.transferSteps transfer htransfer old hold (hsource.trans hsame)

variable {rows : Layers K V → Layers K V}

theorem Ready.rewritten (h : Ready model runtime)
    (hrows : ∀ layers, Sized model.layerCount promptSteps layers →
      Sized model.layerCount promptSteps (rows layers))
    (hother : ∀ graph, runtime.prefillGraphs.get? promptSteps = some graph →
      graph.contentTag ≠ runtime.promptContentTag) :
    Ready model { runtime with
      prefillGraphs := runtime.prefillGraphs.write promptSteps fun graph =>
        { graph with layers := rows graph.layers } } := by
  apply h.written
  · intro _
    rfl
  · intro _
    rfl
  · intro graph hget hsized htag
    exact ⟨hrows _ hsized, htag, fun hcurrent => absurd hcurrent (hother graph hget)⟩

theorem Ready.retagged (h : Ready model runtime) (hstate : runtime.cachedPromptState = some state)
    (houtput : runtime.cachedPrefillOutput = some (model.prefill state.prompt))
    (hlayers : ∀ graph, runtime.prefillGraphs.get? promptSteps = some graph →
      graph.layers = prefillLayers model state.prompt) :
    Ready model { runtime with
      prefillGraphs := runtime.prefillGraphs.write promptSteps fun graph =>
        { graph with contentTag := runtime.promptContentTag } } := by
  apply h.written
  · intro _
    rfl
  · intro _
    rfl
  · intro graph hget hsized _
    exact ⟨hsized, h.tag, fun _ => ⟨state, hstate, houtput, hlayers graph hget⟩⟩

/-- The graph with this serial number holds the rows of the prompt. -/
structure Filled (model : Model F K V G) (prompt : List F) (serial : ℕ)
    (runtime : Runtime F K V) : Prop where
  ready : Ready model runtime
  filled : ∃ graph, runtime.prefillGraphs.get? (prompt.length / model.config.hiddenSize) =
    some graph ∧ graph.serial = serial ∧ graph.layers = prefillLayers model prompt

/-- Neither the output nor the rows of this graph are those of the prompt yet. -/
structure Unfilled (model : Model F K V G) (state : PromptEmbeddingState F) (promptSteps : ℕ)
    (graph : PrefillGraph K V) (runtime : Runtime F K V) : Prop
    extends Found model state promptSteps graph runtime where
  untagged : graph.contentTag ≠ runtime.promptContentTag

theorem Ready.answered (h : Ready model runtime) (hstate : runtime.cachedPromptState = some state)
    (hheld : runtime.cachedPromptPrefill.isSome)
    (hprefill : prefillOf model state.prompt = .ok (model.prefill state.prompt)) :
    Ready model { runtime with cachedPrefillOutput := some (model.prefill state.prompt) } := by
  refine { h with output := ?_, tagged := ?_ }
  · intro output houtput
    cases houtput
    exact ⟨hheld, state, hstate, hprefill⟩
  · intro entry hentry htag
    obtain ⟨state', hstate', _, hlayers⟩ := h.tagged entry hentry htag
    cases hstate.symm.trans hstate'
    exact ⟨state, hstate, rfl, hlayers⟩

theorem Found.capacity (h : Found model state promptSteps graph runtime) :
    graph.promptCapacity = promptSteps := by
  obtain ⟨entry, hentry, hkey, hvalue⟩ := CacheSlots.mem_of_get? h.found
  rw [← hvalue, h.ready.capacity entry hentry, hkey]

theorem Unfilled.rewritten (h : Unfilled model state promptSteps graph runtime)
    (hrows : ∀ layers, Sized model.layerCount promptSteps layers →
      Sized model.layerCount promptSteps (rows layers)) :
    Ready model { runtime with
      prefillGraphs := runtime.prefillGraphs.write promptSteps fun graph =>
        { graph with layers := rows graph.layers } } := by
  apply h.ready.rewritten hrows
  intro held hheld
  cases h.found.symm.trans hheld
  exact h.untagged

/-- The prompt's rows are in the graph, which does not have its tag yet. -/
def Computed (model : Model F K V G) (state : PromptEmbeddingState F) (promptSteps : ℕ)
    (graph : PrefillGraph K V) (runtime : Runtime F K V) : Prop :=
  ∃ r, Unfilled model state promptSteps graph r ∧ runtime = { r with
    prefillGraphs := r.prefillGraphs.write promptSteps fun graph =>
      { graph with layers := prefillLayers model state.prompt } }

omit [Add F] [Zero F] in
theorem sized_prefillLayers {prompt : List F}
    (hsteps : prompt.length / model.config.hiddenSize = promptSteps) :
    Sized model.layerCount promptSteps (prefillLayers model prompt) := by
  rw [prefillLayers, hsteps]
  exact sized_computed _ _ _ _

theorem follows_runComputeResult
    (hsteps : state.prompt.length / model.config.hiddenSize = promptSteps)
    (hcapacity : graph.promptCapacity = promptSteps) :
    (callView model env spared).Follows (Quiet (Unfilled model state promptSteps graph))
      (runComputeResult model env graph state.prompt) (sayOrThrow (prefillOf model state.prompt))
      fun a b => Quiet fun r => (a = b ∧ prefillOf model state.prompt = .ok a) ∧
        Computed model state promptSteps graph r := by
  rw [runComputeResult, prefillOf_eq hsteps, hcapacity]
  by_cases hsize : state.prompt.length ≠ promptSteps * model.config.hiddenSize
  · rw [if_pos hsize, if_pos hsize]
    exact follows_throw fun r hr _ => hr.ready
  rw [if_neg hsize, if_neg hsize]
  apply follows_ite
  · intro hfault
    apply follows_then (.pure _) (follows_change (Q := Ready model) _)
    · intro _
      exact follows_fault (.pure _) hfault fun r hr _ => hr
    · intro r hr
      exact hr.rewritten fun layers hlayers => sized_scramble hlayers _ _
  · intro _
    apply follows_then (.pure _) (follows_change (Q := Computed model state promptSteps graph)
      fun r hr => ⟨r, hr, rfl⟩)
    intro _
    exact .pure fun s t hst => ⟨⟨⟨rfl, rfl⟩, hst.1⟩, hst.2⟩

theorem Computed.filled (h : Computed model state promptSteps graph runtime)
    (hsteps : state.prompt.length / model.config.hiddenSize = promptSteps)
    (hprefill : prefillOf model state.prompt = .ok (model.prefill state.prompt)) :
    Filled model state.prompt graph.serial { runtime with
      cachedPrefillOutput := some (model.prefill state.prompt)
      prefillGraphs := runtime.prefillGraphs.write promptSteps fun graph =>
        { graph with contentTag := runtime.promptContentTag } } := by
  obtain ⟨r, hr, rfl⟩ := h
  have hget := CacheSlots.get?_write r.prefillGraphs promptSteps fun graph =>
    { graph with layers := prefillLayers model state.prompt }
  have hget' := CacheSlots.get?_write (r.prefillGraphs.write promptSteps fun graph =>
      { graph with layers := prefillLayers model state.prompt }) promptSteps fun graph =>
    { graph with contentTag := r.promptContentTag }
  rw [hr.found, Option.map_some] at hget
  rw [hget, Option.map_some] at hget'
  constructor
  · have hrows : Ready model { r with
        prefillGraphs := r.prefillGraphs.write promptSteps fun graph =>
          { graph with layers := prefillLayers model state.prompt } } :=
      hr.rewritten fun _ _ => sized_prefillLayers hsteps
    apply (hrows.answered hr.state hr.held hprefill).retagged hr.state rfl
    intro graph' hgraph'
    cases hget.symm.trans hgraph'
    rfl
  · rw [hsteps]
    exact ⟨_, hget', rfl, rfl⟩

section

variable (hsteps : state.prompt.length / model.config.hiddenSize = promptSteps)
include hsteps

theorem follows_compute (hcapacity : graph.promptCapacity = promptSteps) :
    (callView model env spared).Follows (Quiet (Unfilled model state promptSteps graph))
      (ensurePrefill.compute model env graph state.prompt) (sayOrThrow (prefillOf model state.prompt))
      fun a b => Quiet fun r => a = b ∧ Filled model state.prompt graph.serial r := by
  rw [ensurePrefill.compute]
  apply View.Follows.bind_right (follows_runComputeResult hsteps hcapacity)
  intro output b
  apply follows_then (.pure _) follows_get
  intro runtime
  apply follows_then (.pure _) (follows_change (Q := fun r => (output = b ∧
    prefillOf model state.prompt = .ok output) ∧ ∃ r', Computed model state promptSteps graph r' ∧
    r' = runtime ∧ r = { r' with cachedPrefillOutput := some output }) _)
  · intro _
    rw [hcapacity]
    apply follows_then (.pure _) (follows_change (Q := fun r => output = b ∧
      Filled model state.prompt graph.serial r) _)
    · intro _
      exact .pure fun s t hst => hst
    · rintro r ⟨⟨hsame, hprefill⟩, r', hcomputed, rfl, rfl⟩
      have houtput := prefillOf_ok hprefill
      subst houtput
      exact ⟨hsame, hcomputed.filled hsteps hprefill⟩
  · rintro r ⟨hr, hprefill, hcomputed⟩
    exact ⟨hprefill, r, hcomputed, hr, rfl⟩

theorem follows_ensurePrefill :
    (callView model env spared).Follows (Quiet (Found model state promptSteps graph))
      (ensurePrefill model env graph state.prompt) (sayOrThrow (prefillOf model state.prompt))
      fun a b => Quiet fun r => a = b ∧ Filled model state.prompt graph.serial r := by
  rw [ensurePrefill]
  apply follows_then (extends_sayOrThrow _) follows_get
  intro runtime
  cases houtput : runtime.cachedPrefillOutput with
  | some output =>
    apply follows_ite
    · intro htag s t hst
      obtain ⟨⟨rfl, hfound⟩, hlog⟩ := hst
      obtain ⟨_, state', hstate', hprefill⟩ := hfound.ready.output output houtput
      cases hfound.state.symm.trans hstate'
      rw [hprefill]
      refine .value ⟨⟨rfl, hfound.ready, graph, ?_, rfl, ?_⟩, hlog⟩
      · rw [hsteps]
        exact hfound.found
      · obtain ⟨entry, hentry, _, hvalue⟩ := CacheSlots.mem_of_get? hfound.found
        rw [← hvalue] at htag ⊢
        obtain ⟨state'', hstate'', _, hlayers⟩ := hfound.ready.tagged entry hentry htag
        cases hfound.state.symm.trans hstate''
        exact hlayers
    · rintro htag s t ⟨⟨rfl, hfound⟩, hlog⟩
      exact follows_compute hsteps hfound.capacity s t ⟨⟨hfound, htag⟩, hlog⟩
  | none =>
    rintro s t ⟨⟨rfl, hfound⟩, hlog⟩
    refine follows_compute hsteps hfound.capacity s t ⟨⟨hfound, ?_⟩, hlog⟩
    intro htag
    obtain ⟨entry, hentry, _, hvalue⟩ := CacheSlots.mem_of_get? hfound.found
    rw [← hvalue] at htag
    obtain ⟨_, _, hsome, _⟩ := hfound.ready.tagged entry hentry htag
    cases houtput.symm.trans hsome

end

end Prefill

end FastTts.Talker
