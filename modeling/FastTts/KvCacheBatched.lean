import FastTts.Blocks
import FastTts.KvCache

/-!
# The batched cache

A tensor holds the rows of all batches one after the other: `cache_steps` of them for each batch in
the cache, `valid_steps` in a state. An import spreads the rows out again.
-/

namespace FastTts.Kv

open Blocks

variable {K V R : Type}

structure TransformerBatchedKVCache (K V : Type) where
  cacheSteps : ℤ
  batchSize : ℤ
  validSteps : ℤ
  currentEnd : ℤ
  layers : List (LayerCache K V)
  deriving DecidableEq

def copyAt (target : List R) (offset : ℕ) (source : List R) : List R :=
  target.take offset ++ source ++ target.drop (offset + source.length)

/-- What the scratch vector holds after the copies of all batches. -/
def importRows [Inhabited R] (batchSize cacheSteps copySteps : ℕ) (source : List R) : List R :=
  (List.range batchSize).foldl
    (fun scratch batch => copyAt scratch (batch * cacheSteps) (slice copySteps batch source))
    (List.replicate (batchSize * cacheSteps) default)

def importBatchedLayer [Inhabited K] [Inhabited V] (cacheSteps batchSize stateSteps : ℤ)
    (source : KVLayerState K V) : Except Exception (LayerCache K V) :=
  if source.validSteps ≠ stateSteps then
    .error (bytes "TransformerBatchedKVCache requires consistent valid_steps across all layers")
  else if source.key.length ≠ source.value.length ∨
      (source.key.length : ℤ) ≠ batchSize * stateSteps then
    .error (bytes ("TransformerBatchedKVCache source tensors do not match " ++
      "batch * valid_steps * row_elems"))
  else .ok ⟨importRows batchSize.toNat cacheSteps.toNat stateSteps.toNat source.key,
    importRows batchSize.toNat cacheSteps.toNat stateSteps.toNat source.value⟩

def TransformerBatchedKVCache.importState [Inhabited K] [Inhabited V]
    (cache : TransformerBatchedKVCache K V) (state : TransformerBatchedKVState K V) :
    Except Exception (TransformerBatchedKVCache K V) :=
  if state.batchSize ≠ cache.batchSize then
    .error (bytes "TransformerBatchedKVCache state batch size does not match cache batch size")
  else if cache.layers.isEmpty then
    .ok { cache with currentEnd := state.currentEnd, validSteps := 0 }
  else if state.layers.length ≠ cache.layers.length then
    .error (bytes "TransformerBatchedKVCache state layer count does not match cache layer count")
  else if cache.cacheSteps < state.steps then
    .error (bytes "TransformerBatchedKVCache state valid_steps exceeds cache capacity")
  else do
    let layers ← state.layers.mapM fun source =>
      importBatchedLayer cache.cacheSteps cache.batchSize state.steps source
    return { cache with currentEnd := state.currentEnd, validSteps := state.steps, layers := layers }

def TransformerBatchedKVCache.advanceAfterDirectAppend (cache : TransformerBatchedKVCache K V)
    (steps : ℤ) : Except Exception (TransformerBatchedKVCache K V) :=
  if steps ≤ 0 then .ok cache
  else if cache.cacheSteps < cache.validSteps + steps then
    .error (bytes "TransformerBatchedKVCache direct append exceeds cache capacity")
  else .ok { cache with
    validSteps := cache.validSteps + steps
    currentEnd := cache.currentEnd + steps }

/-! ## Rows in their places -/

variable {cacheSteps steps : ℕ} {state : TransformerBatchedKVState K V}
  {cache : TransformerBatchedKVCache K V}

theorem length_padded [Inhabited R] {rows : List R} (h : rows.length ≤ cacheSteps) :
    (padded rows cacheSteps).length = cacheSteps := by
  rw [padded, List.length_append, List.length_replicate, Int.toNat_natCast]
  omega

theorem copyAt_row [Inhabited R] (before after : List R) {row : List R}
    (h : row.length ≤ cacheSteps) :
    copyAt (before ++ List.replicate cacheSteps default ++ after) before.length row =
      before ++ padded row cacheSteps ++ after := by
  have hsplit : List.replicate cacheSteps (default : R) =
      List.replicate row.length default ++ List.replicate (cacheSteps - row.length) default := by
    rw [← List.replicate_add]
    congr 1
    omega
  have hzeros : (List.replicate row.length (default : R)).length = row.length :=
    List.length_replicate
  rw [copyAt, padded, hsplit, Int.toNat_natCast]
  generalize List.replicate row.length (default : R) = zeros at hzeros
  rw [← List.append_assoc before zeros, List.append_assoc (before ++ zeros), ← List.drop_drop,
    List.append_assoc before, List.take_left, List.drop_left, ← hzeros, List.drop_left]
  simp

theorem importRows_flatten [Inhabited R] {rows : List (List R)}
    (hrows : ∀ row ∈ rows, row.length = steps) (hsteps : steps ≤ cacheSteps) :
    importRows rows.length cacheSteps steps rows.flatten =
      (rows.map fun row => padded row cacheSteps).flatten := by
  have hzeros : List.replicate (rows.length * cacheSteps) (default : R) =
      (List.replicate rows.length (List.replicate cacheSteps default)).flatten :=
    List.flatten_replicate_replicate.symm
  have hslices : rows.map (fun row => padded row cacheSteps) =
      (List.range rows.length).map fun b => padded (slice steps b rows.flatten) cacheSteps := by
    conv_lhs => rw [← rowsOf_flatten hrows, rowsOf]
    rw [List.map_map]
    rfl
  have hlength : ∀ b < rows.length, (slice steps b rows.flatten).length = steps := by
    intro b hb
    rw [slice_flatten hrows, List.getD_eq_getElem?_getD, List.getElem?_eq_getElem hb,
      Option.getD_some]
    exact hrows _ (List.getElem_mem hb)
  rw [importRows, hzeros, hslices]
  apply foldl_rows (n := cacheSteps)
  · intro b hb
    apply length_padded
    rw [hlength b hb]
    exact hsteps
  · intro b hb before after hbefore
    rw [← hbefore]
    apply copyAt_row
    rw [hlength b hb]
    exact hsteps

/-! ## States that fit -/

structure TransformerBatchedKVState.Fits (state : TransformerBatchedKVState K V)
    (steps layerCount batch : ℕ) (cacheSteps : ℤ) : Prop where
  layers : state.layers.length = layerCount
  nonempty : 0 < layerCount
  batchSize : state.batchSize = batch
  key : ∀ layer ∈ state.layers, layer.key.length = batch * steps
  value : ∀ layer ∈ state.layers, layer.value.length = batch * steps
  room : (steps : ℤ) ≤ cacheSteps
  steps : ∀ layer ∈ state.layers, layer.validSteps = steps

variable {batch : ℕ} {cache' : TransformerBatchedKVCache K V}

theorem TransformerBatchedKVState.Fits.steps_eq {layerCount : ℕ} {cacheSteps : ℤ}
    (h : state.Fits steps layerCount batch cacheSteps) : state.steps = steps := by
  have hpos := h.nonempty
  rw [← h.layers] at hpos
  cases hlayers : state.layers with
  | nil =>
    rw [hlayers] at hpos
    exact absurd hpos (Nat.lt_irrefl 0)
  | cons layer rest =>
    rw [TransformerBatchedKVState.steps, hlayers]
    apply h.steps
    rw [hlayers]
    exact List.mem_cons_self

theorem importState_batched_ok [Inhabited K] [Inhabited V] (hbatch : cache.batchSize = batch)
    (h : state.Fits steps cache.layers.length batch cache.cacheSteps) :
    cache.importState state = .ok ⟨cache.cacheSteps, cache.batchSize, steps, state.currentEnd,
      state.layers.map fun layer => ⟨importRows batch cache.cacheSteps.toNat steps layer.key,
        importRows batch cache.cacheSteps.toNat steps layer.value⟩⟩ := by
  have hsame : ¬ state.batchSize ≠ cache.batchSize := by
    rw [h.batchSize, hbatch]
    exact fun hne => hne rfl
  have hsome : ¬ cache.layers.isEmpty = true := by
    intro hempty
    have hpos := h.nonempty
    rw [List.isEmpty_iff.mp hempty] at hpos
    exact absurd hpos (Nat.lt_irrefl 0)
  have hcount : ¬ state.layers.length ≠ cache.layers.length := fun hne => hne h.layers
  have hroom : ¬ cache.cacheSteps < state.steps := by
    rw [h.steps_eq]
    exact Int.not_lt.mpr h.room
  have hlayers : state.layers.mapM (fun source =>
      importBatchedLayer cache.cacheSteps cache.batchSize state.steps source) =
      .ok (state.layers.map fun layer =>
        LayerCache.mk (importRows batch cache.cacheSteps.toNat steps layer.key)
          (importRows batch cache.cacheSteps.toNat steps layer.value)) := by
    apply mapM_ok
    intro source hsource
    have hsteps : ¬ source.validSteps ≠ (steps : ℤ) := fun hne => hne (h.steps source hsource)
    have hsizes : ¬ (source.key.length ≠ source.value.length ∨
        (source.key.length : ℤ) ≠ batch * steps) := by
      rw [h.key source hsource, h.value source hsource]
      simp
    rw [h.steps_eq, hbatch, importBatchedLayer, if_neg hsteps, if_neg hsizes, Int.toNat_natCast,
      Int.toNat_natCast]
  rw [TransformerBatchedKVCache.importState, if_neg hsame, if_neg hsome, if_neg hcount,
    if_neg hroom, hlayers, h.steps_eq]
  rfl

/-! ## What an operation keeps -/

theorem importState_batched_shape [Inhabited K] [Inhabited V]
    (h : cache.importState state = .ok cache') :
    cache'.cacheSteps = cache.cacheSteps ∧ cache'.batchSize = cache.batchSize ∧
      cache'.layers.length = cache.layers.length := by
  rw [TransformerBatchedKVCache.importState] at h
  split_ifs at h with hbatch hempty hcount hroom
  · cases h
    exact ⟨rfl, rfl, rfl⟩
  · obtain ⟨layers, hlayers, h⟩ := except_bind_ok h
    cases h
    refine ⟨rfl, rfl, ?_⟩
    rw [(mapM_getElem? hlayers).1, not_not.mp hcount]

theorem advance_batched_shape {steps : ℤ} (h : cache.advanceAfterDirectAppend steps = .ok cache') :
    cache'.cacheSteps = cache.cacheSteps ∧ cache'.batchSize = cache.batchSize ∧
      cache'.layers = cache.layers := by
  rw [TransformerBatchedKVCache.advanceAfterDirectAppend] at h
  split_ifs at h
  · cases h
    exact ⟨rfl, rfl, rfl⟩
  · cases h
    exact ⟨rfl, rfl, rfl⟩

end FastTts.Kv
