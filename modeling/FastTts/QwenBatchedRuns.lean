import FastTts.QwenBatchedRuntime

/-!
# Runs in a batch

What holds of the single runs holds of every sequence of a batch: the rows of all of them are at the
same position after every step.
-/

namespace FastTts.Qwen

open Blocks Kv

variable {T H Q K V : Type}

/-! ## Sequences -/

variable {n : ℕ} {rows : List (List H)}

variable {α : Type} {graph : BatchedPrefillGraph} {batch layerCount t : ℕ}

theorem appended_rows {rows prompts : List (List α)} {items : List α}
    (hprompts : ∀ row ∈ prompts, row.length = n) (hitems : items.length = prompts.length)
    (hrows : rows.map (List.take (n + 1)) =
      List.zipWith (fun row item => row ++ [item]) prompts items) :
    rows.map (List.take n) = prompts ∧
      List.Forall₂ (fun row item => row[n]? = some item) rows items := by
  induction prompts generalizing rows items with
  | nil =>
    rw [List.zipWith_nil_left, List.map_eq_nil_iff] at hrows
    rw [hrows, List.eq_nil_of_length_eq_zero hitems]
    exact ⟨rfl, .nil⟩
  | cons prompt prompts ih =>
    cases items with
    | nil => cases hitems
    | cons item items =>
      cases rows with
      | nil => cases hrows
      | cons row rows =>
        rw [List.map_cons, List.zipWith_cons_cons, List.cons.injEq] at hrows
        obtain ⟨hrow, hrest⟩ := hrows
        have hlength := hprompts prompt List.mem_cons_self
        obtain ⟨hmap, hall⟩ := ih (fun r hr => hprompts r (List.mem_cons_of_mem _ hr))
          (Nat.succ.inj hitems) hrest
        have htake : row.take n = prompt := by
          have hshort := congrArg (List.take n) hrow
          rw [List.take_take, Nat.min_eq_left (Nat.le_succ n), List.take_left' hlength] at hshort
          exact hshort
        have hitem : row[n]? = some item := by
          have hget := congrArg (fun r => r[n]?) hrow
          rw [List.getElem?_take_of_succ, List.getElem?_append_right (Nat.le_of_eq hlength), hlength,
            Nat.sub_self] at hget
          exact hget
        refine ⟨?_, .cons hitem hall⟩
        rw [List.map_cons, htake, hmap]

theorem sequences_rows (rest : List (List α)) {prompts : List (List α)}
    (hprompts : ∀ row ∈ prompts, row.length = n)
    (hrest : ∀ items ∈ rest, items.length = prompts.length) :
    (sequences prompts rest).map (List.take n) = prompts ∧
      (∀ row ∈ sequences prompts rest, row.length = n + rest.length) ∧
      ∀ i items, rest[i]? = some items →
        List.Forall₂ (fun row item => row[n + i]? = some item) (sequences prompts rest) items := by
  induction rest generalizing prompts n with
  | nil =>
    refine ⟨?_, hprompts, fun i items hitems => by cases hitems⟩
    rw [sequences, List.foldl_nil]
    have hsame : prompts.map (List.take n) = prompts.map id :=
      List.map_congr_left fun row hrow => List.take_of_length_le (Nat.le_of_eq (hprompts row hrow))
    rw [hsame, List.map_id]
  | cons items rest ih =>
    have hitems := hrest items List.mem_cons_self
    have hnext : ∀ row ∈ List.zipWith (fun row item => row ++ [item]) prompts items,
        row.length = n + 1 := by
      intro row hrow
      obtain ⟨i, hi, rfl⟩ := List.getElem_of_mem hrow
      rw [List.getElem_zipWith, List.length_append, hprompts _ (List.getElem_mem _)]
      rfl
    have hcount : (List.zipWith (fun row item => row ++ [item]) prompts items).length =
        prompts.length := by
      rw [List.length_zipWith, hitems, Nat.min_self]
    obtain ⟨htake, hlength, hlater⟩ := ih hnext fun later hlater =>
      (hrest later (List.mem_cons_of_mem _ hlater)).trans hcount.symm
    obtain ⟨hstart, hfirst⟩ := appended_rows hprompts hitems htake
    refine ⟨hstart, ?_, ?_⟩
    · intro row hrow
      rw [hlength row hrow, List.length_cons]
      omega
    · intro i other hother
      cases i with
      | zero =>
        obtain rfl := Option.some.inj hother
        exact hfirst
      | succ i =>
        have hrow := hlater i other hother
        rw [Nat.add_right_comm n 1 i] at hrow
        exact hrow

/-! ## The prefill -/

theorem BatchedPrefillGraph.inputs (hbatch : 0 < batch) (hn : 0 < n)
    (hsize : graph.batchSize = batch) (h : graph.steps = n) :
    graph.positions = ids n ∧ graph.mask = (List.replicate batch (causalSquare n)).flatten := by
  have hpositions := graph.positions_eq
  have hmask := graph.mask_eq
  rw [h, qwenPositionIds_eq hn] at hpositions
  rw [h, hsize, causalPrefillMaskValues_eq hbatch hn] at hmask
  exact ⟨(Except.ok.inj hpositions).symm, (Except.ok.inj hmask).symm⟩

theorem buildBatchedPrefillGraph_ok (kind : InputKind) (hbatch : 0 < batch) (hn : 0 < n) :
    ∃ graph, buildBatchedPrefillGraph kind batch n = .ok graph ∧
      graph.batchSize = batch ∧ graph.steps = n := by
  unfold buildBatchedPrefillGraph
  split
  · exact ⟨_, rfl, rfl, rfl⟩
  · rename_i hpositions
    rw [qwenPositionIds_eq hn] at hpositions
    cases hpositions
  · rename_i hmask
    rw [causalPrefillMaskValues_eq hbatch hn] at hmask
    cases hmask

namespace Runtime

variable {decoder : Decoder T H Q K V} {batch : ℕ}

theorem ensureBatchedPrefillGraph_ok (runtime : Runtime decoder) (kind : InputKind) {n : ℕ}
    (hbatch : 0 < batch) (hn : 0 < n) :
    ∃ graph, runtime.ensureBatchedPrefillGraph kind batch n = .ok graph ∧
      graph.batchSize = batch ∧ graph.steps = n := by
  rw [ensureBatchedPrefillGraph]
  cases runtime.batchedPrefillGraph with
  | none => exact buildBatchedPrefillGraph_ok kind hbatch hn
  | some graph =>
    dsimp only
    split_ifs with hfits
    · exact ⟨graph, rfl, hfits.2⟩
    · exact buildBatchedPrefillGraph_ok kind hbatch hn

theorem prefillBatched_ok (runtime : Runtime decoder) (kind : InputKind) {n : ℕ}
    {items : List (Input T H kind)} (hbatch : 0 < batch) (hn : 0 < n)
    (hitems : items.length = batch * n) : ∃ graph : BatchedPrefillGraph, graph.batchSize = batch ∧
      graph.steps = n ∧ runtime.prefillBatched kind items batch n =
        .ok ({ runtime with batchedPrefillGraph := some graph },
          runBatchedPrefill decoder graph (items.map (decoder.hidden kind))) := by
  obtain ⟨graph, hgraph, hsize, hsteps⟩ := runtime.ensureBatchedPrefillGraph_ok kind hbatch hn
  refine ⟨graph, hsize, hsteps, ?_⟩
  have hpos : ¬ ((batch : ℤ) ≤ 0 ∨ (n : ℤ) ≤ 0) := by omega
  have hsame : ¬ (((items.map (decoder.hidden kind)).length : ℤ) ≠ (batch : ℤ) * n) := by
    rw [List.length_map, hitems]
    simp
  cases kind with
  | token =>
    rw [prefillBatched, prefillTokensBatched, prefillHiddenBatched, if_neg hpos]
    change (if ((items.map (decoder.hidden .token)).length : ℤ) ≠ (batch : ℤ) * n then _ else _) = _
    rw [if_neg hsame, hgraph]
    rfl
  | embedding =>
    have hid : List.map (decoder.hidden .embedding) items = items := List.map_id items
    rw [hid] at hsame ⊢
    rw [prefillBatched, prefillEmbeddingsBatched, prefillHiddenBatched, if_neg hpos, if_neg hsame,
      hgraph]
    rfl

end Runtime

structure BatchedPrefillResult.Causal (decoder : Decoder T H Q K V) (rows : List (List H)) (n : ℕ)
    (result : BatchedPrefillResult H K V) : Prop where
  batchSize : result.state.batchSize = rows.length
  currentEnd : result.state.currentEnd = n
  traces : ∃ traces, List.Forall₂ (List.Forall₂ (LayerTrace.Causal n)) traces
      (causalStackRows decoder.layers rows).1 ∧
    result.state.layers =
      traces.map fun trace => ⟨n, (gather trace).keys, (gather trace).values⟩

theorem runBatchedPrefill_causal (decoder : Decoder T H Q K V) (hbatch : 0 < rows.length)
    (hn : 0 < n) (hrows : ∀ row ∈ rows, row.length = n) (hsize : graph.batchSize = rows.length)
    (hsteps : graph.steps = n) :
    (runBatchedPrefill decoder graph rows.flatten).Causal decoder rows n := by
  obtain ⟨hpositions, hmask⟩ := BatchedPrefillGraph.inputs hbatch hn hsize hsteps
  obtain ⟨traces, hstack, htraces⟩ := buildStackBatched_causal decoder.layers hrows
  rw [runBatchedPrefill, hpositions, hmask, hsteps, hsize, Int.toNat_natCast, Int.toNat_natCast,
    hstack]
  refine ⟨rfl, rfl, traces, htraces, ?_⟩
  dsimp only
  rw [List.map_map]
  rfl

/-! ## The import -/

theorem holdsRows_import [Inhabited K] [Inhabited V] {slots : ℕ} {traces : List (LayerTrace K V)}
    {seen : List (List (Seen K V))}
    (h : List.Forall₂ (LayerTrace.Causal n) traces (seen.map (List.take n))) (hroom : n ≤ slots) :
    HoldsRows slots n ⟨importRows traces.length slots n (gather traces).keys,
      importRows traces.length slots n (gather traces).values⟩ seen := by
  have hsizes : ∀ trace ∈ traces, trace.keys.length = n ∧ trace.values.length = n := by
    intro trace htrace
    obtain ⟨_, _, hcausal⟩ := exists_of_forall₂ h trace htrace
    exact ⟨hcausal.keys, hcausal.values⟩
  have hkeyLengths : ∀ row ∈ traces.map fun trace => trace.keys, row.length = n := by
    intro row hrow
    obtain ⟨trace, htrace, rfl⟩ := List.mem_map.mp hrow
    exact (hsizes trace htrace).1
  have hvalueLengths : ∀ row ∈ traces.map fun trace => trace.values, row.length = n := by
    intro row hrow
    obtain ⟨trace, htrace, rfl⟩ := List.mem_map.mp hrow
    exact (hsizes trace htrace).2
  have hkeys := importRows_flatten hkeyLengths hroom
  have hvalues := importRows_flatten hvalueLengths hroom
  rw [List.length_map, List.map_map] at hkeys hvalues
  refine ⟨traces.map fun trace => ⟨padded trace.keys slots, padded trace.values slots⟩, ?_, ?_⟩
  · rw [gather, hkeys, hvalues, join, List.map_map, List.map_map]
    rfl
  · rw [List.forall₂_map_left_iff]
    rw [List.forall₂_map_right_iff] at h
    exact h.imp fun trace seen hcausal => holds_padded hcausal hroom

structure BatchedDecodeGraph.StandsAt (decoder : Decoder T H Q K V) (rows : List (List H)) (t : ℕ)
    (graph : BatchedDecodeGraph K V decoder.layers.length) : Prop where
  batchSize : graph.batchSize = rows.length
  validSteps : graph.cache.validSteps = t
  currentEnd : graph.cache.currentEnd = t
  layers : List.Forall₂ (HoldsRows graph.cacheSteps.toNat t) graph.cache.layers
    (causalStackRows decoder.layers rows).1

structure Runtime.StandsAtBatched {decoder : Decoder T H Q K V} (kind : InputKind)
    (cacheSteps : ℤ) (rows : List (List H)) (t : ℕ)
    (graph : BatchedDecodeGraph K V decoder.layers.length) (runtime : Runtime decoder) : Prop where
  decodeGraph : runtime.batchedDecodeGraph = some graph
  kind : graph.kind = kind
  cacheSteps : graph.cacheSteps = cacheSteps
  standsAt : graph.StandsAt decoder rows t

theorem BatchedPrefillResult.Causal.fits {decoder : Decoder T H Q K V}
    {result : BatchedPrefillResult H K V} (h : result.Causal decoder rows n) {cacheSteps : ℤ}
    (hroom : (n : ℤ) ≤ cacheSteps) :
    result.state.Fits n decoder.layers.length rows.length cacheSteps := by
  obtain ⟨traces, htraces, hlayers⟩ := h.traces
  have hmem : ∀ layer ∈ result.state.layers, layer.key.length = rows.length * n ∧
      layer.value.length = rows.length * n ∧ layer.validSteps = n := by
    intro layer hlayer
    rw [hlayers] at hlayer
    obtain ⟨trace, htrace, rfl⟩ := List.mem_map.mp hlayer
    obtain ⟨seen, hseen, hcausal⟩ := exists_of_forall₂ htraces trace htrace
    have hcount : trace.length = rows.length := by
      rw [hcausal.length_eq, rows_causalStackRows _ _ seen hseen]
    rw [← hcount]
    refine ⟨?_, ?_, rfl⟩
    · rw [gather, length_flatten (n := n), List.length_map]
      intro row hrow
      obtain ⟨one, hone, rfl⟩ := List.mem_map.mp hrow
      obtain ⟨_, _, hrow⟩ := exists_of_forall₂ hcausal one hone
      exact hrow.keys
    · rw [gather, length_flatten (n := n), List.length_map]
      intro row hrow
      obtain ⟨one, hone, rfl⟩ := List.mem_map.mp hrow
      obtain ⟨_, _, hrow⟩ := exists_of_forall₂ hcausal one hone
      exact hrow.values
  constructor
  · rw [hlayers, List.length_map, htraces.length_eq, length_causalStackRows]
  · exact decoder.nonempty
  · exact h.batchSize
  · exact fun layer hlayer => (hmem layer hlayer).1
  · exact fun layer hlayer => (hmem layer hlayer).2.1
  · exact hroom
  · exact fun layer hlayer => (hmem layer hlayer).2.2

theorem BatchedDecodeGraph.importState_eq [Inhabited K] [Inhabited V]
    {graph : BatchedDecodeGraph K V layerCount} {state : TransformerBatchedKVState (ℤ × K) V}
    {cache : TransformerBatchedKVCache (ℤ × K) V} (h : graph.cache.importState state = .ok cache) :
    ∃ graph', graph.importState state = .ok graph' ∧ graph'.kind = graph.kind ∧
      graph'.batchSize = graph.batchSize ∧ graph'.cacheSteps = graph.cacheSteps ∧
      graph'.cache = cache := by
  unfold BatchedDecodeGraph.importState
  split
  · rename_i e herror
    rw [h] at herror
    cases herror
  · rename_i cache' hcache
    obtain rfl := Except.ok.inj (h.symm.trans hcache)
    exact ⟨_, rfl, rfl, rfl, rfl, rfl⟩

theorem importState_batchedGraph_ok [Inhabited K] [Inhabited V] {decoder : Decoder T H Q K V}
    {graph : BatchedDecodeGraph K V decoder.layers.length} {first : BatchedPrefillResult H K V}
    (hsize : graph.batchSize = rows.length)
    (hfirst : first.Causal decoder (rows.map (List.take n)) n)
    (hroom : (n : ℤ) ≤ graph.cacheSteps) :
    ∃ graph', graph.importState first.state = .ok graph' ∧ graph'.kind = graph.kind ∧
      graph'.cacheSteps = graph.cacheSteps ∧ graph'.StandsAt decoder rows n := by
  have hslots : n ≤ graph.cacheSteps.toNat := by omega
  have hfits : first.state.Fits n graph.cache.layers.length rows.length graph.cache.cacheSteps := by
    have hwhole := hfirst.fits hroom
    rw [List.length_map] at hwhole
    rw [graph.layers_eq, graph.capacity_eq]
    exact hwhole
  obtain ⟨graph', hgraph, hkind, hbatch, hsteps, hcache⟩ :=
    BatchedDecodeGraph.importState_eq (importState_batched_ok (graph.batch_eq.trans hsize) hfits)
  obtain ⟨traces, htraces, hlayers⟩ := hfirst.traces
  refine ⟨graph', hgraph, hkind, hsteps, hbatch.trans hsize, ?_, ?_, ?_⟩
  · rw [hcache]
  · rw [hcache]
    exact hfirst.currentEnd
  · rw [hcache, hsteps, hlayers, List.map_map, graph.capacity_eq, List.forall₂_map_left_iff]
    have hcounts : ∀ trace ∈ traces, trace.length = rows.length := by
      intro trace htrace
      obtain ⟨seen, hseen, hcausal⟩ := exists_of_forall₂ htraces trace htrace
      rw [hcausal.length_eq, rows_causalStackRows _ _ seen hseen, List.length_map]
    rw [causalStackRows_take, List.forall₂_map_right_iff] at htraces
    generalize (causalStackRows decoder.layers rows).1 = seens at htraces ⊢
    clear hlayers
    induction htraces with
    | nil => exact .nil
    | @cons trace seen traces seens hcausal _ ih =>
      refine .cons ?_ (ih fun trace htrace => hcounts trace (List.mem_cons_of_mem _ htrace))
      have hholds := holdsRows_import hcausal hslots
      rw [hcounts trace List.mem_cons_self] at hholds
      exact hholds

namespace Runtime

variable {decoder : Decoder T H Q K V} {required : ℤ}

theorem ensureBatchedDecodeGraph_ok (runtime : Runtime decoder) (memory : ℕ → LayerCache (ℤ × K) V)
    (kind : InputKind) {batch : ℤ} (hrequired : 0 < required) (hbatch : 0 < batch) :
    ∃ graph, runtime.ensureBatchedDecodeGraph memory kind required batch hrequired = .ok graph ∧
      graph.kind = kind ∧ graph.batchSize = batch ∧
      graph.cacheSteps = runtime.batchedCacheCapacity kind required batch := by
  have hbuild : ∃ graph, buildBatchedDecodeGraph decoder.layers.length memory kind batch required
      hrequired = .ok graph ∧ graph.kind = kind ∧ graph.batchSize = batch ∧
      graph.cacheSteps = required := by
    rw [buildBatchedDecodeGraph, dif_neg (Int.not_le.mpr hbatch)]
    exact ⟨_, rfl, rfl, rfl, rfl⟩
  rw [ensureBatchedDecodeGraph, batchedCacheCapacity]
  cases runtime.batchedDecodeGraph with
  | none => exact hbuild
  | some graph =>
    dsimp only
    split_ifs with hfits
    · exact ⟨graph, rfl, hfits.1, hfits.2.2, rfl⟩
    · exact hbuild

theorem startBatched_ok [Inhabited K] [Inhabited V] (runtime : Runtime decoder)
    (memory : ℕ → LayerCache (ℤ × K) V) (kind : InputKind) {rows : List (List H)} {n : ℕ}
    {first : BatchedPrefillResult H K V} (hbatch : 0 < rows.length)
    (hfirst : first.Causal decoder (rows.map (List.take n)) n) (hrequired : 0 < required)
    (hroom : (n : ℤ) ≤ runtime.batchedCacheCapacity kind required rows.length) :
    ∃ runtime' graph, runtime.startBatched memory kind first.state required = .ok runtime' ∧
      runtime'.StandsAtBatched kind (runtime.batchedCacheCapacity kind required rows.length) rows n
        graph := by
  have hsize : first.state.batchSize = rows.length := by
    rw [hfirst.batchSize, List.length_map]
  obtain ⟨graph, hensure, hkind, hbatchSize, hcapacity⟩ :=
    runtime.ensureBatchedDecodeGraph_ok memory kind hrequired (Int.natCast_pos.mpr hbatch)
  rw [← hcapacity] at hroom
  obtain ⟨graph', hgraph, hsame, hsteps, hstands⟩ :=
    importState_batchedGraph_ok hbatchSize hfirst hroom
  have hstart : runtime.startBatched memory kind = runtime.startDecodeBatched memory kind := by
    cases kind <;> rfl
  refine ⟨{ runtime with batchedDecodeGraph := some graph' }, graph', ?_, rfl, hsame.trans hkind,
    hsteps.trans hcapacity, hstands⟩
  rw [hstart, startDecodeBatched, dif_neg (Int.not_le.mpr hrequired), hsize, hensure]
  change (graph.importState first.state >>= _) = _
  rw [hgraph]
  rfl

end Runtime

/-! ## The steps -/

/-- What a step of all sequences returns. -/
structure BatchedDecodeStepResult.Causal (decoder : Decoder T H Q K V) (rows : List (List H)) (t : ℕ)
    (out : BatchedDecodeStepResult H K V) : Prop where
  seen : out.seen = (causalStackRows decoder.layers rows).1.map (List.map (List.take (t + 1)))
  hidden : List.Forall₂ (fun row h => row[t]? = some h) (causalStackRows decoder.layers rows).2
    out.hidden

theorem BatchedDecodeGraph.advance_eq {graph : BatchedDecodeGraph K V layerCount}
    {layers : List (LayerCache (ℤ × K) V)} (hlayers : layers.length = layerCount)
    (hroom : graph.cache.validSteps < graph.cacheSteps) :
    ∃ graph', graph.advance layers hlayers = .ok graph' ∧ graph'.kind = graph.kind ∧
      graph'.batchSize = graph.batchSize ∧ graph'.cacheSteps = graph.cacheSteps ∧
      graph'.cache.validSteps = graph.cache.validSteps + 1 ∧
      graph'.cache.currentEnd = graph.cache.currentEnd + 1 ∧ graph'.cache.layers = layers := by
  have hfull : ¬ graph.cache.cacheSteps < graph.cache.validSteps + 1 := by
    rw [graph.capacity_eq]
    omega
  have hadvance : TransformerBatchedKVCache.advanceAfterDirectAppend
      { graph.cache with layers := layers } 1 =
      .ok ⟨graph.cache.cacheSteps, graph.cache.batchSize, graph.cache.validSteps + 1,
        graph.cache.currentEnd + 1, layers⟩ := by
    rw [TransformerBatchedKVCache.advanceAfterDirectAppend, if_neg (by decide), if_neg hfull]
  unfold BatchedDecodeGraph.advance
  split
  · rename_i e herror
    rw [hadvance] at herror
    cases herror
  · rename_i cache hcache
    obtain rfl := Except.ok.inj (hadvance.symm.trans hcache)
    exact ⟨_, rfl, rfl, rfl, rfl, rfl, rfl, rfl⟩

theorem runBatchedDecodeStep_ok {decoder : Decoder T H Q K V} {hidden : List H}
    {graph : BatchedDecodeGraph K V decoder.layers.length}
    (ht : List.Forall₂ (fun row h => row[t]? = some h) rows hidden)
    (hstands : graph.StandsAt decoder rows t) (hroom : (t : ℤ) < graph.cacheSteps) :
    ∃ graph' out, runBatchedDecodeStep decoder graph hidden = .ok (graph', out) ∧
      graph'.kind = graph.kind ∧ graph'.cacheSteps = graph.cacheSteps ∧
      graph'.StandsAt decoder rows (t + 1) ∧ out.Causal decoder rows t := by
  have hslots : t < graph.cacheSteps.toNat := by omega
  have hcount : graph.batchSize = hidden.length := by
    rw [hstands.batchSize, ht.length_eq]
  have hbatch : 0 < hidden.length := by
    have hpos := graph.batch_positive
    omega
  have hmask := batchedCachedStepMask_eq hbatch hslots
  rw [Int.toNat_of_nonneg (Int.le_of_lt graph.positive)] at hmask
  obtain ⟨caches, next, hstack, hcaches, hout⟩ :=
    buildStaticCacheTailBatched_causal decoder.layers hslots ht hstands.layers
  have hmore : ¬ graph.cacheSteps ≤ (t : ℤ) := Int.not_le.mpr hroom
  have hlength := length_buildStaticCacheTailBatched decoder.layers (t : ℤ)
    (stepSlots hidden.length graph.cacheSteps.toNat t) graph.cacheSteps.toNat
    (List.replicate hidden.length (shownRow graph.cacheSteps.toNat (t + 1))).flatten hidden
    graph.layers_eq
  obtain ⟨graph', hgraph, hkind, hsize, hsteps, hvalid, hend, hlayers⟩ :=
    BatchedDecodeGraph.advance_eq hlength (hstands.validSteps ▸ hroom)
  refine ⟨graph', ⟨next, (causalStackRows decoder.layers rows).1.map
    (List.map (List.take (t + 1)))⟩, ?_, hkind, hsteps,
    ⟨hsize.trans hstands.batchSize, ?_, ?_, ?_⟩, rfl, hout⟩
  · rw [runBatchedDecodeStep]
    simp only [hstands.validSteps, hstands.currentEnd, hcount, if_neg hmore, hmask,
      Int.toNat_natCast]
    change (graph.advance _ hlength >>= _) = _
    rw [hgraph, hstack]
    rfl
  · rw [hvalid, hstands.validSteps]
    rfl
  · rw [hend, hstands.currentEnd]
    rfl
  · rw [hsteps, hlayers, hstack]
    exact hcaches

namespace Runtime

variable {decoder : Decoder T H Q K V}

variable {runtime : Runtime decoder} {kind : InputKind} {cacheSteps : ℤ} {t : ℕ}
  {graph : BatchedDecodeGraph K V decoder.layers.length}

theorem decodeBatched_ok {rows : List (List H)} {items : List (Input T H kind)}
    (ht : List.Forall₂ (fun row h => row[t]? = some h) rows (items.map (decoder.hidden kind)))
    (hstands : runtime.StandsAtBatched kind cacheSteps rows t graph)
    (hroom : (t : ℤ) < cacheSteps) :
    ∃ runtime' graph' out, runtime.decodeBatched kind items = .ok (runtime', out) ∧
      runtime'.StandsAtBatched kind cacheSteps rows (t + 1) graph' ∧ out.Causal decoder rows t := by
  have hmore : (t : ℤ) < graph.cacheSteps := by
    rw [hstands.cacheSteps]
    exact hroom
  obtain ⟨graph', out, hstep, hkind, hsteps, hnext, hout⟩ :=
    runBatchedDecodeStep_ok ht hstands.standsAt hmore
  refine ⟨{ runtime with batchedDecodeGraph := some graph' }, graph', out, ?_,
    ⟨rfl, hkind.trans hstands.kind, hsteps.trans hstands.cacheSteps, hnext⟩, hout⟩
  have hcount : (items.length : ℤ) = graph.batchSize := by
    rw [hstands.standsAt.batchSize, ht.length_eq, List.length_map]
  have hgraph := hstands.decodeGraph
  have hsame := hstands.kind
  cases kind with
  | token =>
    change runBatchedDecodeStep decoder graph (items.map decoder.embed) = _ at hstep
    rw [decodeBatched, decodeTokensBatched, hgraph]
    change (if graph.kind ≠ .token then _ else if (items.length : ℤ) ≠ graph.batchSize then _
      else _) = _
    rw [if_neg (fun hne => hne hsame), if_neg (fun hne => hne hcount), hstep]
    rfl
  | embedding =>
    have hid : List.map (decoder.hidden .embedding) items = items := List.map_id items
    rw [hid] at hstep
    rw [decodeBatched, decodeEmbeddingsBatched, hgraph]
    change (if graph.kind ≠ .embedding then _ else if (items.length : ℤ) ≠ graph.batchSize then _
      else if (items.length : ℤ) ≠ items.length then _ else _) = _
    rw [if_neg (fun hne => hne hsame), if_neg (fun hne => hne hcount), if_neg (fun hne => hne rfl),
      hstep]
    rfl

theorem decodeEachBatched_ok {rows : List (List H)} (rest : List (List (Input T H kind)))
    (hrest : ∀ i items, rest[i]? = some items →
      List.Forall₂ (fun row h => row[t + i]? = some h) rows (items.map (decoder.hidden kind)))
    (hstands : runtime.StandsAtBatched kind cacheSteps rows t graph)
    (hroom : (t + rest.length : ℕ) ≤ cacheSteps) :
    ∃ runtime' outs, runtime.decodeEachBatched kind rest = .ok (runtime', outs) ∧
      outs.length = rest.length ∧ ∀ (i : ℕ) (out : BatchedDecodeStepResult H K V),
        outs[i]? = some out → out.Causal decoder rows (t + i) := by
  induction rest generalizing runtime t graph with
  | nil => exact ⟨runtime, [], rfl, rfl, fun i out hout => by cases hout⟩
  | cons items rest ih =>
    rw [List.length_cons] at hroom
    obtain ⟨next, graph', out, hdecode, hnext, hout⟩ :=
      decodeBatched_ok (hrest 0 items rfl) hstands (by omega)
    have hlater : ∀ i items, rest[i]? = some items →
        List.Forall₂ (fun row h => row[t + 1 + i]? = some h) rows
          (items.map (decoder.hidden kind)) := by
      intro i other hother
      rw [Nat.add_right_comm]
      exact hrest (i + 1) other hother
    obtain ⟨last, outs, heach, hlength, houts⟩ := ih hlater hnext (by omega)
    refine ⟨last, out :: outs, ?_, congrArg (· + 1) hlength, ?_⟩
    · rw [decodeEachBatched, hdecode]
      change (decodeEachBatched kind next rest >>= _) = _
      rw [heach]
      rfl
    · intro i other hother
      cases i with
      | zero =>
        obtain rfl := Option.some.inj hother
        exact hout
      | succ i =>
        have hcausal := houts i other hother
        rw [Nat.add_right_comm t 1 i] at hcausal
        exact hcausal

end Runtime

/-! ## Against the prefill of each sequence -/

theorem sequences_hidden {decoder : Decoder T H Q K V} {kind : InputKind}
    (prompts rest : List (List (Input T H kind))) :
    sequences (prompts.map (List.map (decoder.hidden kind)))
        (rest.map (List.map (decoder.hidden kind))) =
      (sequences prompts rest).map (List.map (decoder.hidden kind)) := by
  induction rest generalizing prompts with
  | nil => rfl
  | cons items rest ih =>
    have hnext : List.zipWith (fun row item => row ++ [item])
        (prompts.map (List.map (decoder.hidden kind))) (items.map (decoder.hidden kind)) =
        (List.zipWith (fun row item => row ++ [item]) prompts items).map
          (List.map (decoder.hidden kind)) := by
      rw [List.zipWith_map, List.map_zipWith]
      congr 1
      funext row item
      rw [List.map_append]
      rfl
    have hrest := ih (List.zipWith (fun row item => row ++ [item]) prompts items)
    rw [sequences] at hrest
    rw [sequences, List.map_cons, List.foldl_cons, hnext, hrest]
    rfl

theorem BatchedDecodeStepResult.Causal.row {decoder : Decoder T H Q K V} {b : ℕ} {row : List H}
    {out : BatchedDecodeStepResult H K V} (h : out.Causal decoder rows t)
    (hrow : rows[b]? = some row) :
    out.seen.map (fun seen => seen.getD b []) =
        (causalStack decoder.layers row).1.map (List.take (t + 1)) ∧
      ∃ hidden, out.hidden[b]? = some hidden ∧
        (causalStack decoder.layers row).2[t]? = some hidden := by
  obtain ⟨hseen, hout⟩ := causalStackRows_row decoder.layers rows b
  rw [List.getD_eq_getElem?_getD (l := rows), hrow, Option.getD_some] at hseen hout
  constructor
  · rw [h.seen, ← hseen, List.map_map, List.map_map]
    apply List.map_congr_left
    intro seen _
    rw [Function.comp_apply, Function.comp_apply, List.getD_eq_getElem?_getD,
      List.getD_eq_getElem?_getD, List.getElem?_map]
    cases seen[b]? <;> rfl
  · have hb : b < (causalStackRows decoder.layers rows).2.length := by
      rw [length_causalStackRows_out]
      exact (List.getElem?_eq_some_iff.mp hrow).choose
    have hhidden := h.hidden
    rw [List.forall₂_iff_get] at hhidden
    have hb' : b < out.hidden.length := hhidden.1 ▸ hb
    refine ⟨out.hidden[b], List.getElem?_eq_getElem hb', ?_⟩
    rw [← hout, List.getD_eq_getElem?_getD, List.getElem?_eq_getElem hb, Option.getD_some]
    exact hhidden.2 b hb hb'

namespace Runtime

variable {decoder : Decoder T H Q K V}

theorem generateBatched_ok [Inhabited K] [Inhabited V] (runtime : Runtime decoder)
    (memory : ℕ → LayerCache (ℤ × K) V) {kind : InputKind}
    {prompts rest : List (List (Input T H kind))} {n : ℕ} {required : ℤ}
    (hbatch : 0 < prompts.length) (hn : 0 < n) (hprompts : ∀ prompt ∈ prompts, prompt.length = n)
    (hrest : ∀ items ∈ rest, items.length = prompts.length) (hrequired : 0 < required)
    (hroom : (n + rest.length : ℕ) ≤ runtime.batchedCacheCapacity kind required prompts.length) :
    ∃ final first outs, runtime.generateBatched memory kind prompts n rest required =
        .ok (final, first, outs) ∧ outs.length = rest.length ∧
      ∀ (i : ℕ) (out : BatchedDecodeStepResult H K V), outs[i]? = some out → out.Causal decoder
        ((sequences prompts rest).map (List.map (decoder.hidden kind))) (n + i) := by
  obtain ⟨graph, hsize, hsteps, hprefill⟩ := runtime.prefillBatched_ok kind hbatch hn
    (length_flatten hprompts)
  have hhiddenLengths : ∀ row ∈ prompts.map (List.map (decoder.hidden kind)), row.length = n := by
    intro row hrow
    obtain ⟨prompt, hprompt, rfl⟩ := List.mem_map.mp hrow
    rw [List.length_map]
    exact hprompts prompt hprompt
  obtain ⟨htake, _, hitems⟩ := sequences_rows (rest.map (List.map (decoder.hidden kind)))
    hhiddenLengths (by
      intro items hitems
      obtain ⟨before, hbefore, rfl⟩ := List.mem_map.mp hitems
      rw [List.length_map, List.length_map]
      exact hrest before hbefore)
  rw [sequences_hidden] at htake hitems
  have hcount : ((sequences prompts rest).map (List.map (decoder.hidden kind))).length =
      prompts.length := by
    have hlength := congrArg List.length htake
    simpa only [List.length_map] using hlength
  generalize (sequences prompts rest).map (List.map (decoder.hidden kind)) = rows
    at htake hitems hcount
  have hflat : prompts.flatten.map (decoder.hidden kind) = (rows.map (List.take n)).flatten := by
    rw [htake, List.map_flatten]
  have hrows : (rows.map (List.take n)).length = prompts.length := by
    rw [List.length_map, hcount]
  have hpos : 0 < (rows.map (List.take n)).length := by
    rw [hrows]
    exact hbatch
  have hfirst := runBatchedPrefill_causal decoder hpos hn (by rw [htake]; exact hhiddenLengths)
    (by rw [hrows]; exact hsize) hsteps
  rw [← hflat] at hfirst
  have hstarts : (n : ℤ) ≤ runtime.batchedCacheCapacity kind required rows.length := by
    rw [hcount]
    omega
  obtain ⟨started, decode, hstart, hstands⟩ := startBatched_ok
    { runtime with batchedPrefillGraph := some graph } memory kind (by rw [hcount]; exact hbatch)
    hfirst hrequired hstarts
  obtain ⟨final, outs, heach, hlength, houts⟩ := decodeEachBatched_ok rest (by
    intro i items hi
    apply hitems i
    rw [List.getElem?_map, hi]
    rfl) hstands (by rw [hcount]; exact hroom)
  refine ⟨final, runBatchedPrefill decoder graph (prompts.flatten.map (decoder.hidden kind)), outs,
    ?_, hlength, houts⟩
  rw [generateBatched, hprefill]
  change (startBatched _ memory kind _ required >>= _) = _
  rw [hstart]
  change (decodeEachBatched kind started rest >>= _) = _
  rw [heach]
  rfl

end Runtime

def countLayer : DecoderLayer ℕ ℕ ℕ ℕ where
  query position hidden := position.toNat + hidden
  key hidden := hidden
  value hidden := hidden + 1
  output hidden query seen := hidden + query + Multiset.card seen

def twoLayers : Decoder ℕ ℕ ℕ ℕ ℕ where
  embed token := token
  layers := [countLayer, countLayer]
  nonempty := by decide

/-- The graphs of earlier runs, with their rows. -/
def usedRuntime : Runtime twoLayers where
  prefillGraph := none
  batchedPrefillGraph := none
  decodeGraph := some ⟨.token, 6, ⟨6, 3, 3, List.replicate 2
    ⟨List.replicate 6 (4, 9), List.replicate 6 9⟩⟩, by decide, rfl, rfl⟩
  batchedDecodeGraph := some ⟨.token, 2, 4, ⟨4, 2, 1, 1, List.replicate 2
    ⟨List.replicate 8 (4, 9), List.replicate 8 9⟩⟩, by decide, by decide, rfl, rfl, rfl⟩

end FastTts.Qwen
