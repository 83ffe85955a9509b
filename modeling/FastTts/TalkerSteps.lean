import FastTts.TalkerReady

/-!
# The step cache of a call

A step graph that grows keeps the rows that count, and the copies of a prefill land in the graph
they were made for. From there on the first rows of the step graph are those of the prompt and of
the frames so far.
-/

namespace FastTts.Talker

open Kv Program

variable {F K V G : Type} {model : Model F K V G} {spared : Prop} {env : Env K V}

/-! ## The code predictor -/

section Predictor

variable [Add F] [Zero F]

/-- Everything but the step graph is there. -/
structure Prepared (model : Model F K V G) (prompt : List F) (serial : ℕ)
    (runtime : Runtime F K V) : Prop extends Filled model prompt serial runtime where
  predictor : runtime.codePredictorGraph.isSome

theorem follows_ensureCodePredictor {prompt : List F} {serial : ℕ} :
    (callView model env spared).Follows (Quiet (Filled model prompt serial))
      (ensureCodePredictor model env) (sayOrThrow (requireCodeGroups model))
      fun _ _ => Quiet fun r => 1 < model.config.numCodeGroups ∧ Prepared model prompt serial r := by
  rw [ensureCodePredictor]
  apply follows_then (extends_sayOrThrow _) follows_get
  intro runtime
  cases hpredictor : runtime.codePredictorGraph with
  | some graph =>
    intro s t hst
    obtain ⟨⟨rfl, hfilled⟩, hlog⟩ := hst
    have hsome : s.runtime.codePredictorGraph.isSome := by
      rw [hpredictor]
      rfl
    have hgroups := hfilled.ready.groups hsome
    have hspec : requireCodeGroups model = .ok () := if_neg (by omega)
    rw [hspec]
    exact .value ⟨⟨hgroups, hfilled, hsome⟩, hlog⟩
  | none =>
    by_cases hgroups : model.config.numCodeGroups ≤ 1
    · rw [requireCodeGroups, if_pos hgroups, if_pos hgroups]
      exact follows_throw fun r hr _ => hr.2.ready
    · rw [requireCodeGroups, if_neg hgroups, if_neg hgroups]
      apply follows_then (.pure _) (follows_attempt fun r hr _ => hr.2.ready)
      intro _
      apply follows_change
      rintro r ⟨⟨_, hfilled⟩, _⟩
      refine ⟨by omega, ⟨?_, hfilled.filled⟩, rfl⟩
      refine { hfilled.ready with groups := fun _ => by omega, predictor := ?_ }
      intro graph hgraph
      cases hgraph
      exact sized_computed _ _ _ _

end Predictor

/-! ## Growing -/

/-- The rows that count are the same. -/
structure SameRows (old new : TransformerKVCache K V) : Prop where
  valid : new.validSteps = old.validSteps
  current : new.currentEnd = old.currentEnd
  rows : heldLayers old.validSteps.toNat new.layers = heldLayers old.validSteps.toNat old.layers

theorem SameRows.exportState {old new : TransformerKVCache K V} (h : SameRows old new) :
    new.exportState = old.exportState := by
  have hlayers : ∀ layers : Layers K V, (layers.map fun layer => KVLayerState.mk old.validSteps
      (layer.keyTensor.take old.validSteps.toNat) (layer.valueTensor.take old.validSteps.toNat)) =
      (heldLayers old.validSteps.toNat layers).map fun layer =>
        KVLayerState.mk old.validSteps layer.keyTensor layer.valueTensor := by
    intro layers
    rw [heldLayers, List.map_map]
    rfl
  rw [TransformerKVCache.exportState, TransformerKVCache.exportState, h.valid, h.current, hlayers,
    hlayers, h.rows]

/-- The runtime has a step graph with room for `required` rows; one that held rows has moved. -/
structure Grown (model : Model F K V G) (required : ℤ) (before after : Runtime F K V) : Prop where
  grown : ∃ graph serial, after = { before with
      cachedStepGraph := some graph, stepSerial := serial } ∧
    before.stepSerial ≤ serial ∧ StepReady model serial graph ∧
    required ≤ graph.cache.cacheSteps ∧
    ∀ old, before.cachedStepGraph = some old → 0 < old.cache.validSteps →
      SameRows old.cache graph.cache

theorem le_nextCacheSteps {maxNewTokens required : ℤ} {promptSteps : ℕ} {old : Option ℤ}
    (hpos : (promptSteps : ℤ) + 1 ≤ required) (hmax : required ≤ promptSteps + maxNewTokens) :
    required ≤ nextCacheSteps maxNewTokens promptSteps old required := by
  rw [nextCacheSteps]
  generalize (if 0 < (old.map fun steps => max 1 (steps - (promptSteps : ℤ))).getD 0 then
    (old.map fun steps => max 1 (steps - (promptSteps : ℤ))).getD 0 * 2
    else initialGeneratedStepCacheFrames) = more
  omega

theorem fits_exportState {serial : ℕ} {graph : StepGraph K V} (h : StepReady model serial graph)
    {cacheSteps : ℤ} (hroom : graph.cache.cacheSteps ≤ cacheSteps) :
    graph.cache.exportState.Fits graph.cache.validSteps.toNat model.layerCount cacheSteps := by
  have hvalid := Int.toNat_of_nonneg h.valid
  have hsteps := h.room
  have hpos := h.positive
  have hle : graph.cache.validSteps.toNat ≤ graph.cache.cacheSteps.toNat := by omega
  constructor
  · rw [TransformerKVCache.exportState, List.length_map]
    exact h.sized.count
  · exact model.layers_pos
  · intro layer hlayer
    obtain ⟨source, hsource, rfl⟩ := List.mem_map.mp hlayer
    rw [List.length_take, h.sized.key source hsource, Nat.min_eq_left hle]
  · intro layer hlayer
    obtain ⟨source, hsource, rfl⟩ := List.mem_map.mp hlayer
    rw [List.length_take, h.sized.value source hsource, Nat.min_eq_left hle]
  · omega
  · omega
  · intro layer hlayer
    obtain ⟨source, hsource, rfl⟩ := List.mem_map.mp hlayer
    exact hvalid.symm

section StepCache

variable [Inhabited K] [Inhabited V]

theorem sized_cleared (model : Model F K V G) (cacheSteps : ℤ) :
    Sized model.layerCount cacheSteps.toNat (clearedCache model cacheSteps).layers := by
  constructor
  · exact List.length_replicate
  · intro layer hlayer
    rw [List.eq_of_mem_replicate hlayer, List.length_replicate]
  · intro layer hlayer
    rw [List.eq_of_mem_replicate hlayer, List.length_replicate]

theorem stepReady_cleared {cacheSteps : ℤ} (h : 0 < cacheSteps) (serial : ℕ) :
    StepReady model serial ⟨serial, clearedCache model cacheSteps⟩ where
  serial := le_rfl
  positive := h
  valid := Int.le_refl 0
  room := Int.le_of_lt h
  sized := sized_cleared model cacheSteps

variable {cacheSteps required : ℤ}

variable {R : Type} {r₀ before after : Runtime F K V} {frames : ℕ} {maxNewTokens : ℤ}

theorem length_padded [Inhabited R] {rows : List R} (h : rows.length ≤ cacheSteps.toNat) :
    (padded rows cacheSteps).length = cacheSteps.toNat := by
  rw [padded, List.length_append, List.length_replicate]
  omega

theorem take_padded [Inhabited R] {rows : List R} {steps : ℕ} (cacheSteps : ℤ)
    (h : (rows.take steps).length = steps) :
    (padded (rows.take steps) cacheSteps).take steps = rows.take steps := by
  rw [padded, List.take_append_of_le_length h.ge, List.take_take, Nat.min_self]

theorem import_exportState {serial : ℕ} {graph : StepGraph K V} (h : StepReady model serial graph)
    (hroom : graph.cache.cacheSteps ≤ cacheSteps) (newSerial : ℕ) :
    ∃ cache, (clearedCache model cacheSteps).importState graph.cache.exportState = .ok cache ∧
      SameRows graph.cache cache ∧ StepReady model newSerial ⟨newSerial, cache⟩ ∧
      cache.cacheSteps = cacheSteps := by
  have hfits := fits_exportState h hroom
  have hcount : (clearedCache model cacheSteps).layers.length = model.layerCount :=
    (sized_cleared model cacheSteps).count
  rw [← hcount] at hfits
  have himport : (clearedCache model cacheSteps).importState graph.cache.exportState = .ok _ :=
    importState_ok hfits
  have hvalid := Int.toNat_of_nonneg h.valid
  refine ⟨_, himport, ⟨hvalid, rfl, ?_⟩, ⟨le_rfl, ?_, ?_, ?_, ?_⟩, rfl⟩
  · rw [heldLayers, heldLayers, TransformerKVCache.exportState, List.map_map, List.map_map]
    apply List.map_congr_left
    intro layer hlayer
    have hkey := hfits.key _ (List.mem_map_of_mem hlayer)
    have hvalue := hfits.value _ (List.mem_map_of_mem hlayer)
    simp only [Function.comp]
    rw [take_padded _ hkey, take_padded _ hvalue]
  · exact Int.lt_of_lt_of_le h.positive hroom
  · exact Int.natCast_nonneg _
  · exact hfits.room
  · constructor
    · rw [List.length_map]
      exact hfits.layers.trans hcount
    · intro layer hlayer
      obtain ⟨source, hsource, rfl⟩ := List.mem_map.mp hlayer
      apply length_padded
      rw [hfits.key source hsource]
      exact Int.toNat_le_toNat (Int.le_trans h.room hroom)
    · intro layer hlayer
      obtain ⟨source, hsource, rfl⟩ := List.mem_map.mp hlayer
      apply length_padded
      rw [hfits.value source hsource]
      exact Int.toNat_le_toNat (Int.le_trans h.room hroom)

variable [Add F] [Zero F]

omit [Inhabited K] [Inhabited V] in
theorem Ready.stepReplaced {runtime : Runtime F K V} (h : Ready model runtime) {serial : ℕ}
    {graph : Option (StepGraph K V)} (hserial : runtime.stepSerial ≤ serial)
    (hgraph : ∀ new, graph = some new → StepReady model serial new) :
    Ready model { runtime with cachedStepGraph := graph, stepSerial := serial } :=
  { h with
    transfer := fun transfer htransfer =>
      ⟨(h.transfer transfer htransfer).1, (h.transfer transfer htransfer).2.trans hserial⟩
    step := hgraph }

/-- The runtime behind `before` whose step graph is new. -/
def Built (model : Model F K V G) (cacheSteps : ℤ) (before : Runtime F K V)
    (graph : StepGraph K V) (after : Runtime F K V) : Prop :=
  graph = ⟨before.stepSerial + 1, clearedCache model cacheSteps⟩ ∧ after = { before with
    cachedStepGraph := some graph, stepSerial := before.stepSerial + 1 }

theorem follows_buildStepGraph (h : Ready model r₀) (hpos : 0 < cacheSteps) :
    (callView model env spared).Follows (Quiet (· = r₀)) (buildStepGraph model env frames cacheSteps)
      (pure ()) fun graph _ => Quiet (Built model cacheSteps r₀ graph) := by
  have hcleared : Ready model { r₀ with cachedStepGraph := none } :=
    h.stepReplaced (Nat.le_refl _) nofun
  rw [buildStepGraph]
  apply follows_then (.pure _) (follows_change (Q := fun r => r = { r₀ with
    cachedStepGraph := none }) _)
  · intro _
    apply follows_then (.pure _) (follows_attempt _)
    · intro _
      rw [if_neg (Int.not_le.mpr hpos)]
      apply follows_then (.pure _) (follows_change (Q := fun r => r = { r₀ with
        cachedStepGraph := none, stepSerial := r₀.stepSerial + 1 }) _)
      · intro _
        apply follows_then (.pure _) follows_get
        intro runtime
        apply follows_then (.pure _) (follows_change (Q := Built model cacheSteps r₀
          ⟨runtime.stepSerial, clearedCache model cacheSteps⟩) _)
        · intro _
          exact .pure fun s t hst => hst
        · rintro r ⟨rfl, rfl⟩
          exact ⟨rfl, rfl⟩
      · rintro r ⟨rfl, _⟩
        rfl
    · rintro r rfl _
      exact hcleared
  · rintro r rfl
    rfl

omit [Add F] [Zero F] in
theorem Built.grown {graph : StepGraph K V} (h : Built model cacheSteps before graph after)
    (hrequired : required ≤ cacheSteps) (hpos : 0 < cacheSteps)
    (hempty : ∀ old, before.cachedStepGraph = some old → ¬ 0 < old.cache.validSteps) :
    Grown model required before after := by
  obtain ⟨rfl, rfl⟩ := h
  exact ⟨_, _, rfl, Nat.le_succ _, stepReady_cleared hpos _, hrequired,
    fun old hold hvalid => absurd hvalid (hempty old hold)⟩

theorem follows_ensureCachedStepCapacity (h : Ready model r₀) {promptSteps : ℕ}
    (hpos : (promptSteps : ℤ) + 1 ≤ required) (hmax : required ≤ promptSteps + maxNewTokens) :
    (callView model env spared).Follows (Quiet (· = r₀))
      (ensureCachedStepCapacity model env maxNewTokens promptSteps frames required) (pure ())
      fun _ _ => Quiet (Grown model required r₀) := by
  have hnext : ∀ old, required ≤ nextCacheSteps maxNewTokens promptSteps old required ∧
      0 < nextCacheSteps maxNewTokens promptSteps old required := by
    intro old
    have hle : required ≤ nextCacheSteps maxNewTokens promptSteps old required :=
      le_nextCacheSteps hpos hmax
    omega
  rw [ensureCachedStepCapacity]
  apply follows_then (.pure _) follows_get
  intro runtime
  cases hheld : runtime.cachedStepGraph with
  | none =>
    intro s t hst
    obtain ⟨⟨hr, hr₀⟩, hlog⟩ := hst
    rw [← hr, hr₀] at hheld
    refine follows_then (.pure _) (follows_buildStepGraph h (hnext none).2) ?_ s t ⟨hr₀, hlog⟩
    intro graph
    apply View.Follows.pure
    rintro s t ⟨hbuilt, hlog⟩
    refine ⟨hbuilt.grown (hnext none).1 (hnext none).2 ?_, hlog⟩
    intro old hold
    cases hheld.symm.trans hold
  | some old =>
    intro s t hst
    obtain ⟨⟨hr, hr₀⟩, hlog⟩ := hst
    rw [← hr, hr₀] at hheld
    have hready := h.step old hheld
    have hsteps := hnext (some old.cache.cacheSteps)
    dsimp only
    by_cases hrun : required ≤ old.cache.cacheSteps
    · rw [if_pos hrun]
      refine .value ⟨⟨old, r₀.stepSerial, ?_, Nat.le_refl _, hready, hrun, ?_⟩, hlog⟩
      · rw [hr₀, ← hheld]
      · intro held hsame _
        cases hheld.symm.trans hsame
        exact ⟨rfl, rfl, rfl⟩
    rw [if_neg hrun]
    by_cases hvalid : 0 < old.cache.validSteps
    · rw [if_pos hvalid]
      obtain ⟨cache, himport, hsame, hcache, hcapacity⟩ := import_exportState hready
        (Int.le_trans (Int.le_of_lt (Int.not_le.mp hrun)) hsteps.1) (r₀.stepSerial + 1)
      refine follows_then (.pure _) (follows_attempt (P := (· = r₀)) ?_) ?_ s t ⟨hr₀, hlog⟩
      · rintro r rfl _
        exact h
      intro _
      apply follows_then (.pure _)
        ((follows_buildStepGraph h hsteps.2).weaken _ fun _ _ _ _ hst => hst)
      · rintro graph s t ⟨⟨rfl, hruntime⟩, hlog⟩
        rw [himport]
        refine .value ⟨⟨_, r₀.stepSerial + 1, ?_, Nat.le_succ _, hcache, ?_, ?_⟩, hlog⟩
        · dsimp only
          rw [hruntime]
        · rw [hcapacity]
          exact hsteps.1
        · intro held hheld' _
          cases hheld.symm.trans hheld'
          exact hsame
      · intro s t hst
        exact ⟨hst.1.1, hst.2⟩
    · rw [if_neg hvalid]
      refine follows_then (.pure _) (follows_buildStepGraph h hsteps.2) ?_ s t ⟨hr₀, hlog⟩
      intro graph
      apply View.Follows.pure
      rintro s t ⟨hbuilt, hlog⟩
      refine ⟨hbuilt.grown hsteps.1 hsteps.2 ?_, hlog⟩
      intro held hsame
      cases hheld.symm.trans hsame
      exact hvalid

/-- Everything is there, and the step graph has room for `required` rows. -/
structure Stepped (model : Model F K V G) (prompt : List F) (serial : ℕ) (required : ℤ)
    (runtime : Runtime F K V) : Prop extends Prepared model prompt serial runtime where
  step : ∃ graph, runtime.cachedStepGraph = some graph ∧ required ≤ graph.cache.cacheSteps

omit [Inhabited K] [Inhabited V] in
theorem Grown.ready (h : Grown model required before after) (hbefore : Ready model before) :
    Ready model after := by
  obtain ⟨graph, serial, rfl, hserial, hgraph, _, _⟩ := h
  apply hbefore.stepReplaced hserial
  intro new hnew
  cases hnew
  exact hgraph

theorem follows_ensureFirstCapacity {prompt : List F} {serial : ℕ} {promptSteps : ℕ}
    (hmax : 0 < maxNewTokens) :
    (callView model env spared).Follows (Quiet (Prepared model prompt serial))
      (ensureCachedStepCapacity model env maxNewTokens promptSteps 0 (promptSteps + 1)) (pure ())
      fun _ _ => Quiet (Stepped model prompt serial (promptSteps + 1)) := by
  rintro s t ⟨hprepared, hlog⟩
  have hmore : (promptSteps : ℤ) + 1 ≤ promptSteps + maxNewTokens := by omega
  refine (follows_ensureCachedStepCapacity hprepared.ready (Int.le_refl _) hmore).weaken
    (fun _ _ hst => hst) ?_ s t ⟨rfl, hlog⟩
  rintro _ _ s' t' ⟨hgrown, hlog'⟩
  have hready := hgrown.ready hprepared.ready
  obtain ⟨graph, stepSerial, hafter, _, _, hroom, _⟩ := hgrown
  rw [hafter] at hready
  refine ⟨?_, hlog'⟩
  rw [hafter]
  exact ⟨⟨⟨hready, hprepared.filled⟩, hprepared.predictor⟩, graph, rfl, hroom⟩

end StepCache

/-! ## The copies of a prefill -/

section Transfer

variable [Add F] [Zero F] {prompt : List F} {serial : ℕ} {promptSteps : ℕ}

theorem follows_stepGraph {P : Runtime F K V → Prop}
    (h : ∀ r, P r → ∃ graph, r.cachedStepGraph = some graph) :
    (callView model env spared).Follows (Quiet P) stepGraph (pure ())
      fun graph _ => Quiet fun r => r.cachedStepGraph = some graph ∧ P r := by
  rw [stepGraph]
  apply follows_then (.pure _) follows_get
  intro runtime s t hst
  obtain ⟨⟨hr, hP⟩, hlog⟩ := hst
  obtain ⟨graph, hgraph⟩ := h _ hP
  have hruntime : runtime.cachedStepGraph = some graph := hr ▸ hgraph
  rw [hruntime]
  exact .value ⟨⟨hgraph, hP⟩, hlog⟩

variable {runtime : Runtime F K V} {graph : PrefillGraph K V} {step : StepGraph K V}

section

variable (h : Ready model runtime) (hgraph : runtime.prefillGraphs.get? promptSteps = some graph)
include h hgraph

theorem Ready.findSerial :
    ∃ entry, runtime.prefillGraphs.entries.find?
      (fun entry => entry.value.serial = graph.serial) = some entry ∧ entry.value = graph := by
  obtain ⟨entry, hentry, hkey, hvalue⟩ := CacheSlots.mem_of_get? hgraph
  cases hfind : runtime.prefillGraphs.entries.find?
      fun entry => entry.value.serial = graph.serial with
  | none =>
    have hno := List.find?_eq_none.mp hfind entry hentry
    rw [hvalue] at hno
    simp at hno
  | some found =>
    have hmem := List.mem_of_find?_eq_some hfind
    have hserial : found.value.serial = graph.serial := by
      simpa using List.find?_some hfind
    have hsame := h.serials found hmem entry hentry (by rw [hserial, hvalue])
    have hget := CacheSlots.get?_of_mem h.keyed hmem
    rw [hsame, hkey, hgraph] at hget
    exact ⟨found, rfl, (Option.some.inj hget).symm⟩

theorem Ready.transferMade (hstep : runtime.cachedStepGraph = some step) :
    Ready model { runtime with
      transferGraph := some ⟨graph.serial, step.serial, promptSteps⟩ } := by
  obtain ⟨entry, hentry, hkey, hvalue⟩ := CacheSlots.mem_of_get? hgraph
  refine { h with transfer := ?_, transferSteps := ?_ }
  · intro transfer htransfer
    cases htransfer
    rw [← hvalue]
    exact ⟨h.serial entry hentry, (h.step step hstep).serial⟩
  · intro transfer htransfer other hother hsource
    cases htransfer
    rw [← hvalue] at hsource
    rw [← hkey]
    exact h.serials entry hentry other hother hsource

end

/-- The copies of the prompt's rows can run. -/
structure Connected (model : Model F K V G) (prompt : List F) (promptSteps : ℕ)
    (graph : StepGraph K V) (transfer : TransferGraph) (runtime : Runtime F K V) : Prop where
  ready : Ready model runtime
  predictor : runtime.codePredictorGraph.isSome
  step : runtime.cachedStepGraph = some graph
  room : (promptSteps : ℤ) + 1 ≤ graph.cache.cacheSteps
  filled : ∃ graph, runtime.prefillGraphs.get? promptSteps = some graph ∧
    graph.serial = transfer.source ∧ graph.layers = prefillLayers model prompt
  target : transfer.target = graph.serial
  steps : transfer.steps = promptSteps

theorem follows_ensureTransferGraph (hsteps : prompt.length / model.config.hiddenSize = promptSteps)
    (hroom : (promptSteps : ℤ) + 1 ≤ step.cache.cacheSteps) :
    (callView model env spared).Follows
      (Quiet fun r => r.cachedStepGraph = some step ∧ Prepared model prompt graph.serial r)
      (ensureTransferGraph graph step promptSteps) (pure ())
      fun transfer _ => Quiet (Connected model prompt promptSteps step transfer) := by
  have hmade : (callView model env spared).Follows
      (Quiet fun r => r.cachedStepGraph = some step ∧ Prepared model prompt graph.serial r)
      (do
        changeRuntime ({ · with
          transferGraph := some ⟨graph.serial, step.serial, promptSteps⟩ })
        pure ⟨graph.serial, step.serial, promptSteps⟩) (pure ())
      fun transfer _ => Quiet (Connected model prompt promptSteps step transfer) := by
    apply follows_then (.pure _) (follows_change (Q := Connected model prompt promptSteps step
      ⟨graph.serial, step.serial, promptSteps⟩) _)
    · intro _
      exact .pure fun s t hst => hst
    · rintro r ⟨hstep, hprepared⟩
      have hfilled := hprepared.filled
      rw [hsteps] at hfilled
      obtain ⟨held, hheld, hserial, _⟩ := id hfilled
      have hready := hprepared.ready.transferMade hheld hstep
      rw [hserial] at hready
      exact ⟨hready, hprepared.predictor, hstep, hroom, hfilled, rfl, rfl⟩
  rw [ensureTransferGraph]
  apply follows_then (.pure _) follows_get
  intro runtime
  cases htransfer : runtime.transferGraph with
  | none =>
    exact hmade.weaken (fun s t hst => ⟨hst.1.2, hst.2⟩) fun _ _ _ _ hst => hst
  | some transfer =>
    apply follows_ite
    · rintro ⟨hsource, htarget⟩ s t ⟨⟨hr, hstep, hprepared⟩, hlog⟩
      rw [← hr] at htransfer
      have hfilled := hprepared.filled
      rw [hsteps, ← hsource] at hfilled
      obtain ⟨held, hheld, hserial, _⟩ := id hfilled
      obtain ⟨entry, hentry, hkey, hvalue⟩ := CacheSlots.mem_of_get? hheld
      have hcount := hprepared.ready.transferSteps transfer htransfer entry hentry
        (by rw [hvalue, hserial])
      exact .value ⟨⟨hprepared.ready, hprepared.predictor, hstep, hroom, hfilled, htarget,
        hcount.trans hkey⟩, hlog⟩
    · intro _
      exact hmade.weaken (fun s t hst => ⟨hst.1.2, hst.2⟩) fun _ _ _ _ hst => hst

/-- The step graph holds `steps` rows, which are `layers`. -/
structure Holding (model : Model F K V G) (steps : ℕ) (layers : Layers K V)
    (runtime : Runtime F K V) : Prop where
  ready : Ready model runtime
  predictor : runtime.codePredictorGraph.isSome
  step : ∃ graph, runtime.cachedStepGraph = some graph ∧ graph.cache.validSteps = steps ∧
    graph.cache.currentEnd = steps ∧ heldLayers steps graph.cache.layers = layers

omit [Add F] [Zero F] in
theorem StepReady.withLayers {lastSerial : ℕ} {graph : StepGraph K V}
    (h : StepReady model lastSerial graph) {layers : Layers K V}
    (hlayers : Sized model.layerCount graph.cache.cacheSteps.toNat layers) :
    StepReady model lastSerial { graph with cache := { graph.cache with layers := layers } } :=
  ⟨h.serial, h.positive, h.valid, h.room, hlayers⟩

theorem Ready.stepWritten (h : Ready model runtime) {graph : StepGraph K V}
    (hgraph : StepReady model runtime.stepSerial graph) :
    Ready model { runtime with cachedStepGraph := some graph } := by
  apply h.stepReplaced (Nat.le_refl _)
  intro new hnew
  cases hnew
  exact hgraph

variable {transfer : TransferGraph}

theorem Connected.sized (h : Connected model prompt promptSteps step transfer runtime)
    (hsteps : prompt.length / model.config.hiddenSize = promptSteps) :
    Sized model.layerCount step.cache.cacheSteps.toNat
      (copyLayers transfer.steps (prefillLayers model prompt) step.cache.layers) := by
  have hready := h.ready.step step h.step
  have hroom := h.room
  rw [h.steps]
  exact sized_copy (sized_prefillLayers hsteps) hready.sized (by omega)

/-- The step graph with the rows of the prompt over its own. -/
def Copied (model : Model F K V G) (prompt : List F) (promptSteps : ℕ) (step : StepGraph K V)
    (runtime : Runtime F K V) : Prop :=
  ∃ r transfer, Connected model prompt promptSteps step transfer r ∧ runtime = { r with
    cachedStepGraph := some { step with cache := { step.cache with
      layers := copyLayers promptSteps (prefillLayers model prompt) step.cache.layers } } }

theorem follows_computeTransfer :
    (callView model env spared).Follows (Quiet (Connected model prompt promptSteps step transfer))
      (computeTransfer env transfer) (pure ())
      fun _ _ => Quiet (Copied model prompt promptSteps step) := by
  rw [computeTransfer]
  apply follows_then (.pure _) follows_get
  intro runtime
  apply follows_then (.pure _) (follows_stepGraph fun r hr => ⟨step, hr.2.step⟩)
  intro graph s t hst
  obtain ⟨⟨hgraph, hr, hconnected⟩, hlog⟩ := hst
  have hsame := hconnected.step.symm.trans hgraph
  cases hsame
  obtain ⟨held, hheld, hserial, hlayers⟩ := hconnected.filled
  rw [← hserial, ← hr]
  obtain ⟨entry, hentry, hvalue⟩ := hconnected.ready.findSerial hheld
  rw [hentry]
  have htarget : ¬ step.serial ≠ transfer.target := fun hne => hne hconnected.target.symm
  have hstep := hconnected.ready.step step hgraph
  dsimp only
  rw [if_neg htarget]
  refine follows_ite (P := Connected model prompt promptSteps step transfer) ?_ ?_ s t
    ⟨hconnected, hlog⟩
  · intro hfault
    apply follows_then (.pure _) (follows_change (Q := Ready model) _)
    · intro _
      exact follows_fault (.pure _) hfault fun r hr _ => hr
    · intro r hr
      exact hr.ready.stepWritten
        ((hr.ready.step step hr.step).withLayers (sized_scramble hstep.sized _ _))
  · intro _
    apply follows_change
    intro r hr
    refine ⟨r, transfer, hr, ?_⟩
    rw [hvalue, hlayers, hconnected.steps]

theorem Copied.holding (h : Copied model prompt promptSteps step runtime)
    (hsteps : prompt.length / model.config.hiddenSize = promptSteps) :
    ∃ graph cache, runtime.cachedStepGraph = some graph ∧
      graph.cache.markDeviceImport promptSteps = .ok cache ∧
      Holding model promptSteps (prefillLayers model prompt) { runtime with
        cachedStepGraph := some { graph with cache := cache } } := by
  obtain ⟨r, transfer, hconnected, rfl⟩ := h
  have hroom := hconnected.room
  have hsized := hconnected.sized hsteps
  have hready := hconnected.ready.step step hconnected.step
  have hfits : ¬ ((promptSteps : ℤ) < 0 ∨ step.cache.cacheSteps < promptSteps) := by omega
  rw [hconnected.steps] at hsized
  refine ⟨_, _, rfl, if_neg hfits, ?_, hconnected.predictor, _, rfl, rfl, rfl, ?_⟩
  · apply hconnected.ready.stepWritten
    exact ⟨hready.serial, hready.positive, Int.natCast_nonneg _,
      Int.le_trans (Int.le_of_lt (Int.lt_succ _)) hroom, hsized⟩
  · exact heldLayers_copy (sized_prefillLayers hsteps) hready.sized

theorem follows_transferPrefillState
    (hsteps : prompt.length / model.config.hiddenSize = promptSteps)
    (hcapacity : graph.promptCapacity = promptSteps) :
    (callView model env spared).Follows
      (Quiet (Stepped model prompt graph.serial (promptSteps + 1)))
      (transferPrefillState env graph promptSteps) (pure ())
      fun _ _ => Quiet (Holding model promptSteps (prefillLayers model prompt)) := by
  rw [transferPrefillState]
  have hthere : ∀ r, Stepped model prompt graph.serial (promptSteps + 1) r →
      ∃ step, r.cachedStepGraph = some step := by
    intro r hr
    obtain ⟨step, hstep, _⟩ := hr.step
    exact ⟨step, hstep⟩
  have hcopied : ∀ step r, Copied model prompt promptSteps step r →
      ∃ graph, r.cachedStepGraph = some graph := by
    intro step r hr
    obtain ⟨graph, _, hgraph, _⟩ := hr.holding hsteps
    exact ⟨graph, hgraph⟩
  apply follows_then (.pure _) (follows_stepGraph hthere)
  intro step
  rw [if_neg (not_not_intro hcapacity)]
  intro s t hst
  obtain ⟨⟨hstep, hstepped⟩, hlog⟩ := hst
  obtain ⟨held, hheld, hroom⟩ := hstepped.step
  cases hheld.symm.trans hstep
  rw [if_neg (by omega)]
  refine follows_then (.pure _) (follows_ensureTransferGraph hsteps hroom) ?_ s t
    ⟨⟨hstep, hstepped.toPrepared⟩, hlog⟩
  intro transfer
  apply follows_then (.pure _) follows_computeTransfer
  intro _
  apply follows_then (.pure _) (follows_stepGraph (hcopied step))
  rintro graph' s' t' ⟨⟨hgraph', hcopied⟩, hlog'⟩
  obtain ⟨copied, cache, hcached, hmark, hholding⟩ := hcopied.holding hsteps
  cases hcached.symm.trans hgraph'
  rw [hmark]
  exact .value ⟨hholding, hlog'⟩

end Transfer

end FastTts.Talker
