import FastTts.QwenDecodeRuntime

/-!
# Runs of the decode runtime

After `t` positions the cache holds the first `t` rows of every layer of the whole sequence, whatever
its other slots hold. A prefill and the import bring it there for the length of the prompt, and each
step brings it one position further.
-/

namespace FastTts.Qwen

open Blocks Kv

variable {T H Q K V : Type}

/-! ## The prefill -/

variable {n : ℕ} {hidden : List H}

theorem PrefillGraph.inputs {graph : PrefillGraph} (hn : 0 < n) (h : graph.steps = n) :
    graph.positions = ids n ∧ graph.mask = causalSquare n := by
  have hpositions := graph.positions_eq
  have hmask := graph.mask_eq
  rw [h, qwenPositionIds_eq hn] at hpositions
  rw [h, causalPrefillMaskValues_one hn] at hmask
  exact ⟨(Except.ok.inj hpositions).symm, (Except.ok.inj hmask).symm⟩

theorem buildPrefillGraph_ok (kind : InputKind) (hn : 0 < n) :
    ∃ graph, buildPrefillGraph kind n = .ok graph ∧ graph.steps = n := by
  unfold buildPrefillGraph
  split
  · exact ⟨_, rfl, rfl⟩
  · rename_i hpositions
    rw [qwenPositionIds_eq hn] at hpositions
    cases hpositions
  · rename_i hmask
    rw [causalPrefillMaskValues_one hn] at hmask
    cases hmask

namespace Runtime

variable {decoder : Decoder T H Q K V}

theorem ensurePrefillGraph_ok (runtime : Runtime decoder) (kind : InputKind) {n : ℕ} (hn : 0 < n) :
    ∃ graph, runtime.ensurePrefillGraph kind n = .ok graph ∧ graph.steps = n := by
  rw [ensurePrefillGraph]
  cases runtime.prefillGraph with
  | none => exact buildPrefillGraph_ok kind hn
  | some graph =>
    dsimp only
    split_ifs with hfits
    · exact ⟨graph, rfl, hfits.2⟩
    · exact buildPrefillGraph_ok kind hn

theorem prefill_ok (runtime : Runtime decoder) (kind : InputKind) {items : List (Input T H kind)}
    (hitems : 0 < items.length) : ∃ graph : PrefillGraph, graph.steps = items.length ∧
      runtime.prefill kind items = .ok ({ runtime with prefillGraph := some graph },
        runPrefill decoder graph (items.map (decoder.hidden kind))) := by
  obtain ⟨graph, hgraph, hsteps⟩ := runtime.ensurePrefillGraph_ok kind hitems
  refine ⟨graph, hsteps, ?_⟩
  cases kind with
  | token =>
    have hsome : ¬ items.isEmpty = true := by
      intro hempty
      rw [List.isEmpty_iff.mp hempty] at hitems
      exact absurd hitems (Nat.lt_irrefl 0)
    rw [prefill, prefillTokens, if_neg hsome, hgraph]
    rfl
  | embedding =>
    have hpos : ¬ (items.length : ℤ) ≤ 0 := by omega
    have hsame : List.map (decoder.hidden .embedding) items = items := List.map_id items
    rw [prefill, prefillEmbeddings, if_neg hpos, if_neg (fun hne => hne rfl), hgraph, hsame]
    rfl

end Runtime

/-- The prefill of a whole sequence. -/
structure PrefillResult.Causal (decoder : Decoder T H Q K V) (hidden : List H)
    (result : PrefillResult H K V) : Prop where
  out : result.hidden = (causalStack decoder.layers hidden).2
  currentEnd : result.state.currentEnd = hidden.length
  traces : ∃ traces, List.Forall₂ (LayerTrace.Causal hidden.length) traces
      (causalStack decoder.layers hidden).1 ∧
    result.state.layers = traces.map (fun trace => ⟨hidden.length, trace.keys, trace.values⟩) ∧
    result.seen = traces.map fun trace => trace.seen

theorem runPrefill_causal (decoder : Decoder T H Q K V) {graph : PrefillGraph}
    (hhidden : 0 < hidden.length) (hsteps : graph.steps = hidden.length) :
    (runPrefill decoder graph hidden).Causal decoder hidden := by
  obtain ⟨hpositions, hmask⟩ := PrefillGraph.inputs hhidden hsteps
  obtain ⟨htraces, hout⟩ := buildStack_causal decoder.layers hidden
  rw [runPrefill, hpositions, hmask, hsteps]
  exact ⟨hout, rfl, _, htraces, rfl, rfl⟩

/-! ## The import -/

theorem holds_padded [Inhabited K] [Inhabited V] {slots : ℕ} {trace : LayerTrace K V}
    {seen : List (Seen K V)} (h : trace.Causal n (seen.take n)) (hroom : n ≤ slots) :
    Holds slots n ⟨padded trace.keys slots, padded trace.values slots⟩ seen := by
  have hkeys : trace.keys.length ≤ slots := by
    rw [h.keys]
    exact hroom
  have hvalues : trace.values.length ≤ slots := by
    rw [h.values]
    exact hroom
  refine ⟨length_padded hkeys, length_padded hvalues, ?_⟩
  have hlen : (triples trace.keys trace.values).length = n := by
    rw [triples, List.length_zipWith, h.keys, h.values, Nat.min_self]
  have hsplit : triples (padded trace.keys slots) (padded trace.values slots) =
      triples trace.keys trace.values ++ triples
        (List.replicate ((slots : ℤ).toNat - trace.keys.length) default)
        (List.replicate ((slots : ℤ).toNat - trace.values.length) default) :=
    List.zipWith_append (h.keys.trans h.values.symm)
  rw [hsplit, List.take_left' hlen, h.triples]

/-- Where the cache of a decode graph stands in the whole sequence. -/
structure DecodeGraph.StandsAt (decoder : Decoder T H Q K V) (whole : List H) (t : ℕ)
    (graph : DecodeGraph K V decoder.layers.length) : Prop where
  validSteps : graph.cache.validSteps = t
  currentEnd : graph.cache.currentEnd = t
  layers : List.Forall₂ (Holds graph.cacheSteps.toNat t) graph.cache.layers
    (causalStack decoder.layers whole).1

structure Runtime.StandsAt {decoder : Decoder T H Q K V} (kind : InputKind) (cacheSteps : ℤ)
    (whole : List H) (t : ℕ) (graph : DecodeGraph K V decoder.layers.length)
    (runtime : Runtime decoder) : Prop where
  decodeGraph : runtime.decodeGraph = some graph
  kind : graph.kind = kind
  cacheSteps : graph.cacheSteps = cacheSteps
  standsAt : graph.StandsAt decoder whole t

theorem length_causalStack_layers (layers : List (DecoderLayer H Q K V)) (hidden : List H) :
    (causalStack layers hidden).1.length = layers.length := by
  induction layers generalizing hidden with
  | nil => rfl
  | cons layer layers ih =>
    rw [causalStack, List.length_cons, List.length_cons, ih]

theorem PrefillResult.Causal.fits {decoder : Decoder T H Q K V} {result : PrefillResult H K V}
    (h : result.Causal decoder hidden) {cacheSteps : ℤ} (hpos : 0 < cacheSteps)
    (hroom : (hidden.length : ℤ) ≤ cacheSteps) :
    result.state.Fits hidden.length decoder.layers.length cacheSteps := by
  obtain ⟨traces, htraces, hlayers, _⟩ := h.traces
  have hmem : ∀ layer ∈ result.state.layers, layer.key.length = hidden.length ∧
      layer.value.length = hidden.length ∧ layer.validSteps = hidden.length := by
    intro layer hlayer
    rw [hlayers] at hlayer
    obtain ⟨trace, htrace, rfl⟩ := List.mem_map.mp hlayer
    obtain ⟨seen, _, hcausal⟩ := exists_of_forall₂ htraces trace htrace
    exact ⟨hcausal.keys, hcausal.values, rfl⟩
  constructor
  · rw [hlayers, List.length_map, htraces.length_eq, length_causalStack_layers]
  · exact decoder.nonempty
  · exact fun layer hlayer => (hmem layer hlayer).1
  · exact fun layer hlayer => (hmem layer hlayer).2.1
  · exact hroom
  · exact hpos
  · exact fun layer hlayer => (hmem layer hlayer).2.2

variable {layerCount t : ℕ} {whole : List H}

theorem DecodeGraph.importState_eq [Inhabited K] [Inhabited V] {graph : DecodeGraph K V layerCount}
    {state : TransformerKVState (ℤ × K) V} {cache : TransformerKVCache (ℤ × K) V}
    (h : graph.cache.importState state = .ok cache) :
    ∃ graph', graph.importState state = .ok graph' ∧ graph'.kind = graph.kind ∧
      graph'.cacheSteps = graph.cacheSteps ∧ graph'.cache = cache := by
  unfold DecodeGraph.importState
  split
  · rename_i e herror
    rw [h] at herror
    cases herror
  · rename_i cache' hcache
    obtain rfl := Except.ok.inj (h.symm.trans hcache)
    exact ⟨_, rfl, rfl, rfl, rfl⟩

theorem importState_graph_ok [Inhabited K] [Inhabited V] {decoder : Decoder T H Q K V}
    {graph : DecodeGraph K V decoder.layers.length} {first : PrefillResult H K V}
    (hn : n ≤ whole.length) (hfirst : first.Causal decoder (whole.take n))
    (hroom : (n : ℤ) ≤ graph.cacheSteps) :
    ∃ graph', graph.importState first.state = .ok graph' ∧ graph'.kind = graph.kind ∧
      graph'.cacheSteps = graph.cacheSteps ∧ graph'.StandsAt decoder whole n := by
  have hlength : (whole.take n).length = n := List.length_take_of_le hn
  have hnat : (graph.cacheSteps.toNat : ℤ) = graph.cacheSteps :=
    Int.toNat_of_nonneg (Int.le_of_lt graph.positive)
  have hslots : n ≤ graph.cacheSteps.toNat := by omega
  have hfits : first.state.Fits n graph.cache.layers.length graph.cache.cacheSteps := by
    have hwhole := hfirst.fits graph.positive (hlength.symm ▸ hroom)
    rw [hlength] at hwhole
    rw [graph.layers_eq, graph.capacity_eq]
    exact hwhole
  obtain ⟨graph', hgraph, hkind, hsteps, hcache⟩ :=
    DecodeGraph.importState_eq (importState_ok hfits)
  obtain ⟨traces, htraces, hlayers, _⟩ := hfirst.traces
  refine ⟨graph', hgraph, hkind, hsteps, ?_, ?_, ?_⟩
  · rw [hcache]
  · rw [hcache, ← hlength]
    exact hfirst.currentEnd
  · rw [hcache, hsteps, hlayers, List.map_map, graph.capacity_eq, List.forall₂_map_left_iff]
    rw [hlength, causalStack_take, List.forall₂_map_right_iff] at htraces
    refine htraces.imp fun trace seen hcausal => ?_
    have hholds := holds_padded hcausal hslots
    rw [hnat] at hholds
    exact hholds

namespace Runtime

variable {decoder : Decoder T H Q K V} {required : ℤ}

theorem ensureDecodeGraph_fits (runtime : Runtime decoder) (memory : ℕ → LayerCache (ℤ × K) V)
    (kind : InputKind) (hrequired : 0 < required) :
    (runtime.ensureDecodeGraph memory kind required hrequired).kind = kind ∧
      (runtime.ensureDecodeGraph memory kind required hrequired).cacheSteps =
        runtime.cacheCapacity kind required := by
  rw [ensureDecodeGraph, cacheCapacity]
  cases runtime.decodeGraph with
  | none => exact ⟨rfl, rfl⟩
  | some graph =>
    dsimp only
    split_ifs with hfits
    · exact ⟨hfits.1, rfl⟩
    · exact ⟨rfl, rfl⟩

section

variable [Inhabited K] [Inhabited V] (runtime : Runtime decoder) (memory : ℕ → LayerCache (ℤ × K) V)
  (kind : InputKind)

theorem start_eq : runtime.start memory kind = runtime.startDecode memory kind := by
  cases kind <;> rfl

theorem startDecode_ok {whole : List H} {n : ℕ} {first : PrefillResult H K V}
    (hn : n ≤ whole.length) (hfirst : first.Causal decoder (whole.take n))
    (hrequired : 0 < required) (hroom : (n : ℤ) ≤ runtime.cacheCapacity kind required) :
    ∃ runtime' graph, runtime.startDecode memory kind first.state required = .ok runtime' ∧
      runtime'.StandsAt kind (runtime.cacheCapacity kind required) whole n graph := by
  obtain ⟨hkind, hcapacity⟩ := runtime.ensureDecodeGraph_fits memory kind hrequired
  rw [← hcapacity] at hroom
  obtain ⟨graph, hgraph, hsame, hsteps, hstands⟩ := importState_graph_ok hn hfirst hroom
  rw [startDecode, dif_neg (Int.not_le.mpr hrequired), hgraph]
  exact ⟨_, graph, rfl, rfl, hsame.trans hkind, hsteps.trans hcapacity, hstands⟩

end

end Runtime

/-! ## The steps -/

theorem DecodeGraph.advance_eq {graph : DecodeGraph K V layerCount}
    {layers : List (LayerCache (ℤ × K) V)} (hlayers : layers.length = layerCount)
    (hroom : graph.cache.validSteps < graph.cacheSteps) :
    ∃ graph', graph.advance layers hlayers = .ok graph' ∧ graph'.kind = graph.kind ∧
      graph'.cacheSteps = graph.cacheSteps ∧ graph'.cache.validSteps = graph.cache.validSteps + 1 ∧
      graph'.cache.currentEnd = graph.cache.currentEnd + 1 ∧ graph'.cache.layers = layers := by
  have hfull : ¬ graph.cache.cacheSteps < graph.cache.validSteps + 1 := by
    rw [graph.capacity_eq]
    omega
  have hadvance : TransformerKVCache.advanceAfterDirectAppend
      { graph.cache with layers := layers } 1 =
      .ok ⟨graph.cache.cacheSteps, graph.cache.validSteps + 1, graph.cache.currentEnd + 1, layers⟩ := by
    rw [TransformerKVCache.advanceAfterDirectAppend, if_neg (by decide), if_neg hfull]
  unfold DecodeGraph.advance
  split
  · rename_i e herror
    rw [hadvance] at herror
    cases herror
  · rename_i cache hcache
    obtain rfl := Except.ok.inj (hadvance.symm.trans hcache)
    exact ⟨_, rfl, rfl, rfl, rfl, rfl, rfl⟩

theorem runDecodeStep_ok {decoder : Decoder T H Q K V} {h : H}
    {graph : DecodeGraph K V decoder.layers.length} (ht : whole[t]? = some h)
    (hstands : graph.StandsAt decoder whole t) (hroom : (t : ℤ) < graph.cacheSteps) :
    ∃ graph' out, runDecodeStep decoder graph h = .ok (graph', out) ∧
      graph'.kind = graph.kind ∧ graph'.cacheSteps = graph.cacheSteps ∧
      graph'.StandsAt decoder whole (t + 1) ∧
      out.seen = (causalStack decoder.layers whole).1.map (List.take (t + 1)) ∧
      (causalStack decoder.layers whole).2[t]? = some out.hidden := by
  have hslots : t < graph.cacheSteps.toNat := by omega
  have hmask := cachedStepMask_eq hslots
  rw [Int.toNat_of_nonneg (Int.le_of_lt graph.positive)] at hmask
  obtain ⟨caches, out, hstack, hcaches, hout⟩ :=
    buildStaticCacheTail_causal decoder.layers ht hslots hstands.layers
  have hmore : ¬ graph.cacheSteps ≤ (t : ℤ) := Int.not_le.mpr hroom
  have hlength := length_buildStaticCacheTail decoder.layers (t : ℤ) t
    (shownRow graph.cacheSteps.toNat (t + 1)) h graph.layers_eq
  obtain ⟨graph', hgraph, hkind, hsteps, hvalid, hend, hlayers⟩ :=
    DecodeGraph.advance_eq hlength (hstands.validSteps ▸ hroom)
  refine ⟨graph', ⟨out, (causalStack decoder.layers whole).1.map (List.take (t + 1))⟩, ?_, hkind,
    hsteps, ⟨?_, ?_, ?_⟩, rfl, hout⟩
  · rw [runDecodeStep]
    simp only [hstands.validSteps, hstands.currentEnd, if_neg hmore, hmask, Int.toNat_natCast]
    change (graph.advance _ hlength >>= _) = _
    rw [hgraph, hstack]
    rfl
  · rw [hvalid, hstands.validSteps]
    rfl
  · rw [hend, hstands.currentEnd]
    rfl
  · rw [hsteps, hlayers, hstack]
    exact hcaches

namespace Runtime

variable {decoder : Decoder T H Q K V}

variable {kind : InputKind} {graph : DecodeGraph K V decoder.layers.length}

theorem decode_eq (runtime : Runtime decoder) (item : Input T H kind)
    (hgraph : runtime.decodeGraph = some graph) (hkind : graph.kind = kind) :
    runtime.decode kind item = do
      let (graph, out) ← runDecodeStep decoder graph (decoder.hidden kind item)
      return ({ runtime with decodeGraph := some graph }, out) := by
  have hsame : ¬ graph.kind ≠ kind := fun hne => hne hkind
  cases kind with
  | token => simp only [decode, decodeToken, decodeHidden, hgraph, if_neg hsame, Decoder.hidden]
  | embedding =>
    simp only [decode, decodeEmbedding, decodeHidden, hgraph, if_neg hsame, Decoder.hidden]

variable {runtime : Runtime decoder} {cacheSteps : ℤ} {whole : List H} {t : ℕ}

theorem decode_ok {item : Input T H kind} (ht : whole[t]? = some (decoder.hidden kind item))
    (hstands : runtime.StandsAt kind cacheSteps whole t graph) (hroom : (t : ℤ) < cacheSteps) :
    ∃ runtime' graph' out, runtime.decode kind item = .ok (runtime', out) ∧
      runtime'.StandsAt kind cacheSteps whole (t + 1) graph' ∧
      out.seen = (causalStack decoder.layers whole).1.map (List.take (t + 1)) ∧
      (causalStack decoder.layers whole).2[t]? = some out.hidden := by
  have hmore : (t : ℤ) < graph.cacheSteps := by
    rw [hstands.cacheSteps]
    exact hroom
  obtain ⟨graph', out, hstep, hkind, hsteps, hnext, hseen, hout⟩ :=
    runDecodeStep_ok ht hstands.standsAt hmore
  refine ⟨{ runtime with decodeGraph := some graph' }, graph', out, ?_,
    ⟨rfl, hkind.trans hstands.kind, hsteps.trans hstands.cacheSteps, hnext⟩, hseen, hout⟩
  rw [runtime.decode_eq item hstands.decodeGraph hstands.kind, hstep]
  rfl

theorem decodeEach_ok (rest : List (Input T H kind))
    (hrest : whole.drop t = rest.map (decoder.hidden kind))
    (hstands : runtime.StandsAt kind cacheSteps whole t graph)
    (hroom : (t + rest.length : ℕ) ≤ cacheSteps) :
    ∃ runtime' outs, runtime.decodeEach kind rest = .ok (runtime', outs) ∧
      outs.length = rest.length ∧ ∀ i out, outs[i]? = some out →
        out.seen = (causalStack decoder.layers whole).1.map (List.take (t + i + 1)) ∧
        (causalStack decoder.layers whole).2[t + i]? = some out.hidden := by
  induction rest generalizing runtime t graph with
  | nil => exact ⟨runtime, [], rfl, rfl, fun i out hout => by cases hout⟩
  | cons item rest ih =>
    rw [List.length_cons] at hroom
    have ht : whole[t]? = some (decoder.hidden kind item) := by
      have hhead := congrArg List.head? hrest
      rw [List.head?_drop] at hhead
      exact hhead
    have hdrop : whole.drop (t + 1) = rest.map (decoder.hidden kind) := by
      have htail := congrArg List.tail hrest
      rw [List.tail_drop] at htail
      exact htail
    obtain ⟨next, graph', out, hdecode, hnext, hseen, hout⟩ :=
      decode_ok ht hstands (by omega)
    obtain ⟨last, outs, heach, hlength, houts⟩ := ih hdrop hnext (by omega)
    refine ⟨last, out :: outs, ?_, congrArg (· + 1) hlength, ?_⟩
    · rw [decodeEach, hdecode]
      change (decodeEach kind next rest >>= _) = _
      rw [heach]
      rfl
    · intro i other hother
      cases i with
      | zero =>
        obtain rfl := Option.some.inj hother
        exact ⟨hseen, hout⟩
      | succ i =>
        have hlater := houts i other hother
        rw [Nat.add_right_comm t 1 i] at hlater
        exact hlater

end Runtime

/-! ## Against the prefill of the whole sequence -/

/-- A step attends to what a row of the prefill sees: in every layer the rows that the prefill leaves
for the positions up to its own, each once. -/
structure DecodeStepResult.AttendsAs (whole : PrefillResult H K V) (t : ℕ)
    (out : DecodeStepResult H K V) : Prop where
  row : out.seen = whole.seen.map fun rows => rows.getD t []
  rows : out.seen = whole.state.layers.map fun layer => (triples layer.key layer.value).take (t + 1)
  positions : ∀ seen ∈ out.seen, seen.map (fun entry => entry.position) = ids (t + 1)
  hidden : whole.hidden[t]? = some out.hidden

theorem map_eq_of_forall₂ {α β γ : Type} {R : α → β → Prop} {l : List α} {l' : List β}
    {f : α → γ} {g : β → γ} (h : List.Forall₂ R l l') (hfg : ∀ a b, R a b → f a = g b) :
    l.map f = l'.map g := by
  induction h with
  | nil => rfl
  | cons hab _ ih => rw [List.map_cons, List.map_cons, hfg _ _ hab, ih]

theorem positions_causalStack (layers : List (DecoderLayer H Q K V)) (hidden : List H) :
    ∀ seen ∈ (causalStack layers hidden).1,
      seen.map (fun entry => entry.position) = ids hidden.length := by
  induction layers generalizing hidden with
  | nil => exact fun seen hseen => absurd hseen List.not_mem_nil
  | cons layer layers ih =>
    intro seen hseen
    rw [causalStack] at hseen
    rcases List.mem_cons.mp hseen with rfl | hseen
    · apply List.ext_getElem?
      intro p
      rw [causalTriples, List.getElem?_map, List.getElem?_mapIdx]
      rcases Nat.lt_or_ge p hidden.length with hp | hp
      · rw [getElem?_ids hp, List.getElem?_eq_getElem hp]
        rfl
      · rw [List.getElem?_eq_none hp, List.getElem?_eq_none (by rw [length_ids]; exact hp)]
        rfl
    · have hrest := ih (causalLayer layer hidden) seen hseen
      rw [length_causalLayer] at hrest
      exact hrest

theorem attendsAs_of_causal {decoder : Decoder T H Q K V} {whole : PrefillResult H K V}
    {out : DecodeStepResult H K V} (hwhole : whole.Causal decoder hidden)
    (hseen : out.seen = (causalStack decoder.layers hidden).1.map (List.take (t + 1)))
    (hout : (causalStack decoder.layers hidden).2[t]? = some out.hidden) :
    out.AttendsAs whole t := by
  have ht : t < hidden.length := by
    rw [← length_causalStack decoder.layers hidden]
    exact (List.getElem?_eq_some_iff.mp hout).choose
  obtain ⟨traces, htraces, hlayers, hrows⟩ := hwhole.traces
  constructor
  · rw [hseen, hrows, List.map_map]
    refine (map_eq_of_forall₂ htraces fun trace seen hcausal => ?_).symm
    rw [Function.comp_apply, hcausal.rows, List.getD_eq_getElem?_getD, List.getElem?_map,
      List.getElem?_range ht]
    rfl
  · rw [hseen, hlayers, List.map_map]
    refine (map_eq_of_forall₂ htraces fun trace seen hcausal => ?_).symm
    rw [Function.comp_apply, hcausal.triples]
  · intro seen hmem
    rw [hseen] at hmem
    obtain ⟨all, hall, rfl⟩ := List.mem_map.mp hmem
    rw [List.map_take, positions_causalStack _ _ all hall, take_ids ht]
  · rw [hwhole.out]
    exact hout

namespace Runtime

variable {decoder : Decoder T H Q K V}

theorem prefill_causal (runtime : Runtime decoder) {kind : InputKind}
    {items : List (Input T H kind)} (hitems : 0 < items.length) :
    ∃ graph result, runtime.prefill kind items =
        .ok ({ runtime with prefillGraph := some graph }, result) ∧
      result.Causal decoder (items.map (decoder.hidden kind)) := by
  obtain ⟨graph, hsteps, hprefill⟩ := runtime.prefill_ok kind hitems
  refine ⟨graph, _, hprefill, runPrefill_causal decoder ?_ ?_⟩
  · rw [List.length_map]
    exact hitems
  · rw [List.length_map]
    exact hsteps

theorem generate_ok [Inhabited K] [Inhabited V] (runtime : Runtime decoder)
    (memory : ℕ → LayerCache (ℤ × K) V) {kind : InputKind} {prompt rest : List (Input T H kind)}
    {required : ℤ} (hprompt : 0 < prompt.length) (hrequired : 0 < required)
    (hroom : (prompt.length + rest.length : ℕ) ≤ runtime.cacheCapacity kind required) :
    ∃ final first outs, runtime.generate memory kind prompt rest required =
        .ok (final, first, outs) ∧ outs.length = rest.length ∧ ∀ i out, outs[i]? = some out →
        out.seen = (causalStack decoder.layers ((prompt ++ rest).map (decoder.hidden kind))).1.map
          (List.take (prompt.length + i + 1)) ∧
        (causalStack decoder.layers ((prompt ++ rest).map (decoder.hidden kind))).2[
          prompt.length + i]? = some out.hidden := by
  obtain ⟨graph, first, hprefill, hfirst⟩ := runtime.prefill_causal hprompt
  have hmap : (prompt ++ rest).map (decoder.hidden kind) =
      prompt.map (decoder.hidden kind) ++ rest.map (decoder.hidden kind) := List.map_append
  have hlength : (prompt.map (decoder.hidden kind)).length = prompt.length := List.length_map ..
  have htake : ((prompt ++ rest).map (decoder.hidden kind)).take prompt.length =
      prompt.map (decoder.hidden kind) := by
    rw [hmap, List.take_left' hlength]
  have hdrop : ((prompt ++ rest).map (decoder.hidden kind)).drop prompt.length =
      rest.map (decoder.hidden kind) := by
    rw [hmap, List.drop_left' hlength]
  generalize (prompt ++ rest).map (decoder.hidden kind) = whole at htake hdrop
  have hn : prompt.length ≤ whole.length := by
    rw [← hlength, ← htake]
    exact List.length_take_le' ..
  rw [← htake] at hfirst
  have hstarts : (prompt.length : ℤ) ≤ runtime.cacheCapacity kind required := by omega
  obtain ⟨started, decode, hstart, hstands⟩ := Runtime.startDecode_ok
    { runtime with prefillGraph := some graph } memory kind hn hfirst hrequired hstarts
  obtain ⟨final, outs, heach, houts, hsteps⟩ := decodeEach_ok rest hdrop hstands hroom
  refine ⟨final, first, outs, ?_, houts, hsteps⟩
  rw [generate, hprefill]
  change (start _ memory kind first.state required >>= _) = _
  rw [start_eq, hstart]
  change (decodeEach kind started rest >>= _) = _
  rw [heach]
  rfl

end Runtime

end FastTts.Qwen
