import FastTts.Json

/-!
# Key/value caches

`TransformerKVCache` and its batched twin. A tensor is the list of its rows of `step_elems` (or
`row_elems`) numbers; `default` is the row of zeros.
-/

namespace FastTts.Kv

variable {K V : Type}

/-! ## States -/

structure KVLayerState (K V : Type) where
  validSteps : ℤ
  key : List K
  value : List V
  deriving DecidableEq

structure TransformerKVState (K V : Type) where
  currentEnd : ℤ
  layers : List (KVLayerState K V)
  deriving DecidableEq

def TransformerKVState.steps (state : TransformerKVState K V) : ℤ :=
  (state.layers.head?.map (·.validSteps)).getD 0

structure TransformerBatchedKVState (K V : Type) where
  batchSize : ℤ
  currentEnd : ℤ
  layers : List (KVLayerState K V)
  deriving DecidableEq

def TransformerBatchedKVState.steps (state : TransformerBatchedKVState K V) : ℤ :=
  (state.layers.head?.map (·.validSteps)).getD 0

/-! ## The cache -/

structure LayerCache (K V : Type) where
  keyTensor : List K
  valueTensor : List V
  deriving DecidableEq

structure TransformerKVCache (K V : Type) where
  cacheSteps : ℤ
  validSteps : ℤ
  currentEnd : ℤ
  layers : List (LayerCache K V)
  deriving DecidableEq

def padded {R : Type} [Inhabited R] (rows : List R) (cacheSteps : ℤ) : List R :=
  rows ++ List.replicate (cacheSteps.toNat - rows.length) default

/-- The rest of the tensors is filled with zeros. -/
def importLayer [Inhabited K] [Inhabited V] (cacheSteps stateSteps : ℤ) (source : KVLayerState K V)
    (cache : LayerCache K V) : Except Exception (LayerCache K V) :=
  if source.validSteps ≠ stateSteps then
    .error (bytes "TransformerKVCache requires consistent valid_steps across all layers")
  else if source.key.length ≠ source.value.length then
    .error (bytes "TransformerKVCache source key/value sizes must match")
  else if (source.key.length : ℤ) ≠ source.validSteps then
    .error (bytes "TransformerKVCache source tensors do not match valid_steps * step_elems")
  else if 0 < cacheSteps then .ok ⟨padded source.key cacheSteps, padded source.value cacheSteps⟩
  else .ok cache

def TransformerKVCache.importState [Inhabited K] [Inhabited V] (cache : TransformerKVCache K V)
    (state : TransformerKVState K V) : Except Exception (TransformerKVCache K V) :=
  if cache.layers.isEmpty then .ok { cache with currentEnd := state.currentEnd, validSteps := 0 }
  else if state.layers.length ≠ cache.layers.length then
    .error (bytes "TransformerKVCache state layer count does not match cache layer count")
  else if cache.cacheSteps < state.steps then
    .error (bytes "TransformerKVCache state valid_steps exceeds cache capacity")
  else do
    let layers ← (state.layers.zip cache.layers).mapM fun (source, layer) =>
      importLayer cache.cacheSteps state.steps source layer
    return { cache with currentEnd := state.currentEnd, validSteps := state.steps, layers := layers }

def TransformerKVCache.exportState (cache : TransformerKVCache K V) : TransformerKVState K V :=
  ⟨cache.currentEnd, cache.layers.map fun layer => ⟨cache.validSteps,
    layer.keyTensor.take cache.validSteps.toNat, layer.valueTensor.take cache.validSteps.toNat⟩⟩

def TransformerKVCache.advanceAfterDirectAppend (cache : TransformerKVCache K V) (steps : ℤ) :
    Except Exception (TransformerKVCache K V) :=
  if steps ≤ 0 then .ok cache
  else if cache.cacheSteps < cache.validSteps + steps then
    .error (bytes "TransformerKVCache direct append exceeds cache capacity")
  else .ok { cache with
    validSteps := cache.validSteps + steps
    currentEnd := cache.currentEnd + steps }

def TransformerKVCache.retainPrefix (cache : TransformerKVCache K V) (prefixSteps : ℤ) :
    Except Exception (TransformerKVCache K V) :=
  if prefixSteps < 0 ∨ cache.validSteps < prefixSteps then
    .error (bytes "TransformerKVCache prefix length exceeds current state")
  else .ok { cache with validSteps := prefixSteps, currentEnd := prefixSteps }

/-- The first rows of the tensors were written on the device. -/
def TransformerKVCache.markDeviceImport (cache : TransformerKVCache K V) (steps : ℤ) :
    Except Exception (TransformerKVCache K V) :=
  if steps < 0 ∨ cache.cacheSteps < steps then
    .error (bytes "TransformerKVCache device import exceeds cache capacity")
  else .ok { cache with validSteps := steps, currentEnd := steps }

/-! ## States that fit -/

/-- Every layer holds the same number of rows, no more than the cache has room for. -/
structure TransformerKVState.Fits (state : TransformerKVState K V) (steps layerCount : ℕ)
    (cacheSteps : ℤ) : Prop where
  layers : state.layers.length = layerCount
  nonempty : 0 < layerCount
  key : ∀ layer ∈ state.layers, layer.key.length = steps
  value : ∀ layer ∈ state.layers, layer.value.length = steps
  room : (steps : ℤ) ≤ cacheSteps
  positive : 0 < cacheSteps
  steps : ∀ layer ∈ state.layers, layer.validSteps = steps

variable {state : TransformerKVState K V} {cache : TransformerKVCache K V}

variable {steps : ℕ} {cache' : TransformerKVCache K V}

theorem TransformerKVState.Fits.steps_eq {layerCount : ℕ} {cacheSteps : ℤ}
    (h : state.Fits steps layerCount cacheSteps) : state.steps = steps := by
  have hpos := h.nonempty
  rw [← h.layers] at hpos
  cases hlayers : state.layers with
  | nil =>
    rw [hlayers] at hpos
    exact absurd hpos (Nat.lt_irrefl 0)
  | cons layer rest =>
    rw [TransformerKVState.steps, hlayers]
    apply h.steps
    rw [hlayers]
    exact List.mem_cons_self

theorem mapM_zip_ok {α β γ : Type} {l : List α} {l' : List β}
    {f : α × β → Except Exception γ} {g : α → γ} (hlen : l.length = l'.length)
    (h : ∀ a ∈ l, ∀ b, f (a, b) = .ok (g a)) : (l.zip l').mapM f = .ok (l.map g) := by
  have hall : (l.zip l').mapM f = .ok ((l.zip l').map (g ∘ Prod.fst)) := by
    apply mapM_ok
    rintro ⟨a, b⟩ hmem
    exact h a (List.of_mem_zip hmem).1 b
  rw [hall, ← List.map_map, List.map_fst_zip (Nat.le_of_eq hlen)]

theorem importState_ok [Inhabited K] [Inhabited V]
    (h : state.Fits steps cache.layers.length cache.cacheSteps) :
    cache.importState state = .ok ⟨cache.cacheSteps, steps, state.currentEnd,
      state.layers.map fun layer =>
        ⟨padded layer.key cache.cacheSteps, padded layer.value cache.cacheSteps⟩⟩ := by
  have hsome : ¬ cache.layers.isEmpty = true := by
    intro hempty
    have hpos := h.nonempty
    rw [List.isEmpty_iff.mp hempty] at hpos
    exact absurd hpos (Nat.lt_irrefl 0)
  have hcount : ¬ state.layers.length ≠ cache.layers.length := fun hne => hne h.layers
  have hroom : ¬ cache.cacheSteps < state.steps := by
    rw [h.steps_eq]
    exact Int.not_lt.mpr h.room
  rw [TransformerKVCache.importState, if_neg hsome, if_neg hcount, if_neg hroom]
  have hlayers : (state.layers.zip cache.layers).mapM (fun (source, layer) =>
      importLayer cache.cacheSteps state.steps source layer) =
      .ok (state.layers.map fun layer =>
        LayerCache.mk (padded layer.key cache.cacheSteps) (padded layer.value cache.cacheSteps)) := by
    apply mapM_zip_ok h.layers
    intro source hsource layer
    have hsteps : ¬ source.validSteps ≠ state.steps := by
      rw [h.steps_eq]
      exact fun hne => hne (h.steps source hsource)
    have hsizes : ¬ source.key.length ≠ source.value.length := by
      rw [h.key source hsource, h.value source hsource]
      exact fun hne => hne rfl
    have hwhole : ¬ (source.key.length : ℤ) ≠ source.validSteps := by
      rw [h.key source hsource, h.steps source hsource]
      exact fun hne => hne rfl
    simp only [importLayer, if_neg hsteps, if_neg hsizes, if_neg hwhole, if_pos h.positive]
  rw [hlayers, h.steps_eq]
  rfl

/-! ## What an operation keeps -/

theorem importState_shape [Inhabited K] [Inhabited V] (h : cache.importState state = .ok cache') :
    cache'.cacheSteps = cache.cacheSteps ∧ cache'.layers.length = cache.layers.length := by
  rw [TransformerKVCache.importState] at h
  split_ifs at h with hempty hcount hroom
  · cases h
    exact ⟨rfl, rfl⟩
  · obtain ⟨layers, hlayers, h⟩ := except_bind_ok h
    cases h
    refine ⟨rfl, ?_⟩
    rw [(mapM_getElem? hlayers).1, List.length_zip, not_not.mp hcount, Nat.min_self]

theorem advance_shape {steps : ℤ} (h : cache.advanceAfterDirectAppend steps = .ok cache') :
    cache'.cacheSteps = cache.cacheSteps ∧ cache'.layers = cache.layers := by
  rw [TransformerKVCache.advanceAfterDirectAppend] at h
  split_ifs at h
  · cases h
    exact ⟨rfl, rfl⟩
  · cases h
    exact ⟨rfl, rfl⟩

end FastTts.Kv
