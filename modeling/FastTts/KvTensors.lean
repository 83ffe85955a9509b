import FastTts.JsonWriting
import FastTts.KvCacheBatched

/-!
# The tensors of the key/value caches

`TransformerKVCache` and `TransformerBatchedKVCache` with every number of their tensors, and with
what a call has changed when it throws. An import assigns the counters before it looks at the
layers, and writes one layer after the other. A number that leaves `int64_t` and a copy out of range
are undefined.
-/

namespace FastTts.KvTensors

open Kv (copyAt padded)
open JsonText (natText intText)

inductive TensorType
  | f32
  | f16
  | bf16
  | other
  deriving DecidableEq, Repr

/-- `elements` is what the shape says; `data` is what reading the tensor gives. -/
structure TensorValue (F : Type) where
  name : Bytes
  type : TensorType
  elements : ℤ
  data : List F
  deriving DecidableEq

structure TransformerKVCacheOptions where
  allowF16Storage : Bool
  allowBf16Storage : Bool
  deriving DecidableEq, Repr

inductive Failure
  | thrown (exception : Exception)
  | undefined
  deriving DecidableEq, Repr

/-- What a number becomes that is stored in a narrower format. -/
structure Narrowing (F : Type) where
  toF16 : F → F
  toBf16 : F → F

def throwing {α : Type} (text : String) : Except Failure α := .error (.thrown (bytes text))

def int64 (n : ℤ) : Except Failure ℤ :=
  if -2 ^ 63 ≤ n ∧ n < 2 ^ 63 then .ok n else .error .undefined

/-- `static_cast<size_t>` -/
def toSize (n : ℤ) : ℕ := (n % 2 ^ 64).toNat

variable {F : Type} (narrowing : Narrowing F) (options : TransformerKVCacheOptions)

def validateCacheTensor (tensor : TensorValue F) : Except Failure Unit :=
  if tensor.type = .f32 then .ok ()
  else if options.allowF16Storage ∧ tensor.type = .f16 then .ok ()
  else if options.allowBf16Storage ∧ tensor.type = .bf16 then .ok ()
  else if options.allowF16Storage ∨ options.allowBf16Storage then
    throwing "TransformerKVCache supports only f32/f16/bf16 cache tensors when enabled"
  else throwing "TransformerKVCache requires f32 cache tensors"

/-- `write_tensor_f32` and its siblings. -/
def writeTensor (name : String) (narrow : F → F) (tensor : TensorValue F) (values : List F) :
    Except Failure (TensorValue F) :=
  if tensor.elements ≠ values.length then
    .error (.thrown (bytes (name ++ " value count does not match tensor shape for tensor '") ++
      tensor.name ++ bytes "': expected " ++ intText tensor.elements ++ bytes ", got " ++
      natText values.length))
  else .ok { tensor with data := values.map narrow }

def writeCacheTensor (tensor : TensorValue F) (values : List F) :
    Except Failure (TensorValue F) := do
  validateCacheTensor options tensor
  if tensor.type = .f32 then writeTensor "write_tensor_f32" id tensor values
  else if options.allowF16Storage ∧ tensor.type = .f16 then
    writeTensor "write_tensor_f16" narrowing.toF16 tensor values
  else if options.allowBf16Storage ∧ tensor.type = .bf16 then
    writeTensor "write_tensor_bf16" narrowing.toBf16 tensor values
  else throwing "TransformerKVCache requires f32 cache tensors"

def readCacheTensor (tensor : TensorValue F) : Except Failure (List F) := do
  validateCacheTensor options tensor
  return tensor.data

structure KVLayerState (F : Type) where
  validSteps : ℤ
  key : List F
  value : List F
  deriving DecidableEq

structure LayerCache (F : Type) where
  keyTensor : TensorValue F
  valueTensor : TensorValue F
  deriving DecidableEq

/-! ## The layers of a state -/

/-- What an import does with one layer: `plan` checks the layer of the state and says what the
tensors are to hold, if anything; then the tensors are written. It gives the layer that is left and
the failure that ends the import, if there is one. -/
def importLayer (plan : KVLayerState F → Except Failure (Option (List F × List F)))
    (source : KVLayerState F) (layer : LayerCache F) : LayerCache F × Option Failure :=
  match plan source with
  | .error failure => (layer, some failure)
  | .ok none => (layer, none)
  | .ok (some (key, value)) =>
    match writeCacheTensor narrowing options layer.keyTensor key with
    | .error failure => (layer, some failure)
    | .ok keyTensor =>
      match writeCacheTensor narrowing options layer.valueTensor value with
      | .error failure => (⟨keyTensor, layer.valueTensor⟩, some failure)
      | .ok valueTensor => (⟨keyTensor, valueTensor⟩, none)

/-- The loop over the layers of the state and of the cache. -/
def importLayers (plan : KVLayerState F → Except Failure (Option (List F × List F))) :
    List (KVLayerState F × LayerCache F) → List (LayerCache F) × Option Failure
  | [] => ([], none)
  | pair :: pairs =>
    match (importLayer narrowing options plan pair.1 pair.2).2 with
    | some failure =>
      ((importLayer narrowing options plan pair.1 pair.2).1 :: pairs.map Prod.snd, some failure)
    | none =>
      ((importLayer narrowing options plan pair.1 pair.2).1 :: (importLayers plan pairs).1,
        (importLayers plan pairs).2)

/-! ## One sequence -/

structure TransformerKVState (F : Type) where
  currentEnd : ℤ
  layers : List (KVLayerState F)
  deriving DecidableEq

/-- A cache that was constructed: there was room for its tensors in `int64_t`. -/
structure TransformerKVCache (F : Type) where
  cacheSteps : ℤ
  stepElems : ℤ
  validSteps : ℤ
  currentEnd : ℤ
  options : TransformerKVCacheOptions
  layers : List (LayerCache F)
  cacheSteps_nonneg : 0 ≤ cacheSteps
  stepElems_pos : 0 < stepElems
  elems_lt : cacheSteps * stepElems < 2 ^ 63

def TransformerKVState.steps (state : TransformerKVState F) : ℤ :=
  (state.layers.head?.map (·.validSteps)).getD 0

variable [Inhabited F]

/-- `default` is `0.0F`, and the scratch vectors are as long as the tensors of the cache. -/
def TransformerKVCache.plan (cache : TransformerKVCache F) (stateSteps : ℤ)
    (source : KVLayerState F) :
    Except Failure (Option (List F × List F)) := do
  if source.validSteps ≠ stateSteps then
    throwing "TransformerKVCache requires consistent valid_steps across all layers"
  else do
    let product ← int64 (source.validSteps * cache.stepElems)
    if source.key.length ≠ source.value.length then
      throwing "TransformerKVCache source key/value sizes must match"
    else if source.key.length ≠ toSize product then
      throwing "TransformerKVCache source tensors do not match valid_steps * step_elems"
    else if cache.cacheSteps ≤ 0 then return none
    else if cache.cacheSteps * cache.stepElems < source.key.length then .error .undefined
    else return some (padded source.key (cache.cacheSteps * cache.stepElems),
      padded source.value (cache.cacheSteps * cache.stepElems))

def TransformerKVCache.importState (cache : TransformerKVCache F) (state : TransformerKVState F) :
    EStateM.Result Failure (TransformerKVCache F) Unit :=
  if cache.layers.isEmpty then .ok () { cache with currentEnd := state.currentEnd, validSteps := 0 }
  else if state.layers.length ≠ cache.layers.length then
    .error (.thrown (bytes "TransformerKVCache state layer count does not match cache layer count"))
      { cache with currentEnd := state.currentEnd }
  else if cache.cacheSteps < state.steps then
    .error (.thrown (bytes "TransformerKVCache state valid_steps exceeds cache capacity"))
      { cache with currentEnd := state.currentEnd }
  else
    let imported := importLayers narrowing cache.options (cache.plan state.steps)
      (state.layers.zip cache.layers)
    let after := { cache with
      currentEnd := state.currentEnd, validSteps := state.steps, layers := imported.1 }
    match imported.2 with
    | some failure => .error failure after
    | none => .ok () after

/-- `export_state` for one layer, with the number of elements that are kept. -/
def TransformerKVCache.exportLayer (cache : TransformerKVCache F) (keepElems : ℕ)
    (layer : LayerCache F) : Except Failure (KVLayerState F) :=
  if keepElems = 0 then .ok ⟨cache.validSteps, [], []⟩
  else do
    let keyValues ← readCacheTensor cache.options layer.keyTensor
    let valueValues ← readCacheTensor cache.options layer.valueTensor
    if keyValues.length < keepElems ∨ valueValues.length < keepElems then .error .undefined
    else return ⟨cache.validSteps, keyValues.take keepElems, valueValues.take keepElems⟩

def TransformerKVCache.exportState (cache : TransformerKVCache F) :
    Except Failure (TransformerKVState F) := do
  let product ← int64 (cache.validSteps * cache.stepElems)
  let layers ← cache.layers.mapM (cache.exportLayer (toSize product))
  return ⟨cache.currentEnd, layers⟩

def TransformerKVCache.advanceAfterDirectAppend (cache : TransformerKVCache F) (steps : ℤ) :
    Except Failure (TransformerKVCache F) :=
  if steps ≤ 0 then .ok cache
  else do
    let sum ← int64 (cache.validSteps + steps)
    if cache.cacheSteps < sum then
      throwing "TransformerKVCache direct append exceeds cache capacity"
    else do
      let currentEnd ← int64 (cache.currentEnd + steps)
      return { cache with validSteps := sum, currentEnd := currentEnd }

def TransformerKVCache.retainPrefix (cache : TransformerKVCache F) (prefixSteps : ℤ) :
    Except Failure (TransformerKVCache F) :=
  if prefixSteps < 0 ∨ cache.validSteps < prefixSteps then
    throwing "TransformerKVCache prefix length exceeds current state"
  else .ok { cache with validSteps := prefixSteps, currentEnd := prefixSteps }

def TransformerKVCache.markDeviceImport (cache : TransformerKVCache F) (steps : ℤ) :
    Except Failure (TransformerKVCache F) :=
  if steps < 0 ∨ cache.cacheSteps < steps then
    throwing "TransformerKVCache device import exceeds cache capacity"
  else .ok { cache with validSteps := steps, currentEnd := steps }

/-! ## A batch of sequences -/

structure TransformerBatchedKVState (F : Type) where
  batchSize : ℤ
  currentEnd : ℤ
  layers : List (KVLayerState F)
  deriving DecidableEq

/-- A cache that was constructed, again with room for its tensors. -/
structure TransformerBatchedKVCache (F : Type) where
  cacheSteps : ℤ
  batchSize : ℤ
  rowElems : ℤ
  validSteps : ℤ
  currentEnd : ℤ
  options : TransformerKVCacheOptions
  layers : List (LayerCache F)
  cacheSteps_pos : 0 < cacheSteps
  batchSize_pos : 0 < batchSize
  rowElems_pos : 0 < rowElems
  elems_lt : batchSize * (cacheSteps * rowElems) < 2 ^ 63

def TransformerBatchedKVState.steps (state : TransformerBatchedKVState F) : ℤ :=
  (state.layers.head?.map (·.validSteps)).getD 0

/-- The elements of one batch in a tensor of the cache. -/
def TransformerBatchedKVCache.batchElems (cache : TransformerBatchedKVCache F) : ℕ :=
  (cache.cacheSteps * cache.rowElems).toNat

/-- `std::copy` of `count` elements, which is undefined where a range is not inside its vector. -/
def copyRange (target : List F) (source : List F) (sourceOffset count targetOffset : ℕ) :
    Except Failure (List F) :=
  if sourceOffset + count ≤ source.length ∧ targetOffset + count ≤ target.length then
    .ok (copyAt target targetOffset ((source.drop sourceOffset).take count))
  else .error .undefined

/-- The loop over the batches, with the distances of the batches in both vectors. -/
def copyBatches (batches : ℕ) (source : List F) (sourceStride count targetStride : ℕ)
    (target : List F) : Except Failure (List F) :=
  (List.range batches).foldlM (fun target batch =>
    copyRange target source (batch * sourceStride % 2 ^ 64) count (batch * targetStride % 2 ^ 64))
    target

def TransformerBatchedKVCache.plan (cache : TransformerBatchedKVCache F) (stateSteps : ℤ)
    (copyElems : ℕ) (source : KVLayerState F) : Except Failure (Option (List F × List F)) :=
  if source.validSteps ≠ stateSteps then
    throwing "TransformerBatchedKVCache requires consistent valid_steps across all layers"
  else if source.key.length ≠ source.value.length ∨
      source.key.length ≠ cache.batchSize.toNat * copyElems % 2 ^ 64 then
    throwing ("TransformerBatchedKVCache source tensors do not match " ++
      "batch * valid_steps * row_elems")
  else do
    let scratch := List.replicate (cache.batchSize.toNat * cache.batchElems) default
    let key ← copyBatches cache.batchSize.toNat source.key copyElems copyElems cache.batchElems
      scratch
    let value ← copyBatches cache.batchSize.toNat source.value copyElems copyElems cache.batchElems
      scratch
    return some (key, value)

def TransformerBatchedKVCache.importState (cache : TransformerBatchedKVCache F)
    (state : TransformerBatchedKVState F) :
    EStateM.Result Failure (TransformerBatchedKVCache F) Unit :=
  if state.batchSize ≠ cache.batchSize then
    .error (.thrown (bytes
      "TransformerBatchedKVCache state batch size does not match cache batch size")) cache
  else if cache.layers.isEmpty then
    .ok () { cache with currentEnd := state.currentEnd, validSteps := 0 }
  else if state.layers.length ≠ cache.layers.length then
    .error (.thrown (bytes
      "TransformerBatchedKVCache state layer count does not match cache layer count"))
      { cache with currentEnd := state.currentEnd }
  else if cache.cacheSteps < state.steps then
    .error (.thrown (bytes "TransformerBatchedKVCache state valid_steps exceeds cache capacity"))
      { cache with currentEnd := state.currentEnd }
  else
    let counted := { cache with currentEnd := state.currentEnd, validSteps := state.steps }
    match int64 (state.steps * cache.rowElems) with
    | .error failure => .error failure counted
    | .ok product =>
      let imported := importLayers narrowing cache.options (cache.plan state.steps (toSize product))
        (state.layers.zip cache.layers)
      match imported.2 with
      | some failure => .error failure { counted with layers := imported.1 }
      | none => .ok () { counted with layers := imported.1 }

def TransformerBatchedKVCache.exportLayer (cache : TransformerBatchedKVCache F) (copyElems : ℕ)
    (layer : LayerCache F) : Except Failure (KVLayerState F) := do
  let out := List.replicate (cache.batchSize.toNat * copyElems % 2 ^ 64) default
  if copyElems = 0 then return ⟨cache.validSteps, out, out⟩
  else do
    let keyValues ← readCacheTensor cache.options layer.keyTensor
    let valueValues ← readCacheTensor cache.options layer.valueTensor
    let key ← copyBatches cache.batchSize.toNat keyValues cache.batchElems copyElems copyElems out
    let value ← copyBatches cache.batchSize.toNat valueValues cache.batchElems copyElems copyElems
      out
    return ⟨cache.validSteps, key, value⟩

def TransformerBatchedKVCache.exportState (cache : TransformerBatchedKVCache F) :
    Except Failure (TransformerBatchedKVState F) := do
  let product ← int64 (cache.validSteps * cache.rowElems)
  let layers ← cache.layers.mapM (cache.exportLayer (toSize product))
  return ⟨cache.batchSize, cache.currentEnd, layers⟩

def TransformerBatchedKVCache.advanceAfterDirectAppend (cache : TransformerBatchedKVCache F)
    (steps : ℤ) : Except Failure (TransformerBatchedKVCache F) :=
  if steps ≤ 0 then .ok cache
  else do
    let sum ← int64 (cache.validSteps + steps)
    if cache.cacheSteps < sum then
      throwing "TransformerBatchedKVCache direct append exceeds cache capacity"
    else do
      let currentEnd ← int64 (cache.currentEnd + steps)
      return { cache with validSteps := sum, currentEnd := currentEnd }

variable {narrowing}

/-! ## What an import that throws has changed -/

section Layers

variable {options} {plan : KVLayerState F → Except Failure (Option (List F × List F))}

omit [Inhabited F] in
theorem importLayers_throw {passed rest : List (KVLayerState F × LayerCache F)}
    {pair : KVLayerState F × LayerCache F} {failure : Failure}
    (hpassed : ∀ p ∈ passed, (importLayer narrowing options plan p.1 p.2).2 = none)
    (hpair : (importLayer narrowing options plan pair.1 pair.2).2 = some failure) :
    importLayers narrowing options plan (passed ++ pair :: rest) =
      (passed.map (fun p => (importLayer narrowing options plan p.1 p.2).1) ++
        (importLayer narrowing options plan pair.1 pair.2).1 :: rest.map Prod.snd,
          some failure) := by
  induction passed with
  | nil => rw [List.nil_append, importLayers, hpair]; rfl
  | cons first passed ih =>
    have hfirst := hpassed first List.mem_cons_self
    have hrest := ih fun p hp => hpassed p (List.mem_cons_of_mem first hp)
    rw [List.cons_append, importLayers, hfirst, hrest]
    rfl

variable (pairs : List (KVLayerState F × LayerCache F))

variable (narrowing options plan) in
omit [Inhabited F] in
theorem importLayers_cases :
    ((∀ p ∈ pairs, (importLayer narrowing options plan p.1 p.2).2 = none) ∧
      importLayers narrowing options plan pairs =
        (pairs.map fun p => (importLayer narrowing options plan p.1 p.2).1, none)) ∨
    ∃ passed pair rest failure, pairs = passed ++ pair :: rest ∧
      (∀ p ∈ passed, (importLayer narrowing options plan p.1 p.2).2 = none) ∧
      (importLayer narrowing options plan pair.1 pair.2).2 = some failure := by
  induction pairs with
  | nil => exact .inl ⟨by simp, rfl⟩
  | cons first pairs ih =>
    cases hfirst : (importLayer narrowing options plan first.1 first.2).2 with
    | some failure => exact .inr ⟨[], first, pairs, failure, rfl, by simp, hfirst⟩
    | none =>
      rcases ih with ⟨hall, hresult⟩ | ⟨passed, pair, rest, failure, rfl, hpassed, hpair⟩
      · refine .inl ⟨?_, ?_⟩
        · intro p hp
          rcases List.mem_cons.mp hp with rfl | hp
          · exact hfirst
          · exact hall p hp
        · rw [importLayers, hfirst, hresult]
          rfl
      · refine .inr ⟨first :: passed, pair, rest, failure, rfl, ?_, hpair⟩
        intro p hp
        rcases List.mem_cons.mp hp with rfl | hp
        · exact hfirst
        · exact hpassed p hp

variable (narrowing options plan) in
/-- Where a layer makes the import throw, the layers up to it hold what is written to them. -/
def LayersHeld (pairs : List (KVLayerState F × LayerCache F)) : Prop :=
  ∀ passed pair rest, pairs = passed ++ pair :: rest →
    (∀ p ∈ passed, (importLayer narrowing options plan p.1 p.2).2 = none) →
    (∃ exception, (importLayer narrowing options plan pair.1 pair.2).2 = some (.thrown exception)) →
    (∀ p ∈ passed, (importLayer narrowing options plan p.1 p.2).1 = p.2) ∧
      (importLayer narrowing options plan pair.1 pair.2).1 = pair.2

variable (narrowing options plan) in
/-- A layer makes the import throw. -/
def LayersThrow (pairs : List (KVLayerState F × LayerCache F)) : Prop :=
  ∃ passed pair rest exception, pairs = passed ++ pair :: rest ∧
    (∀ p ∈ passed, (importLayer narrowing options plan p.1 p.2).2 = none) ∧
    (importLayer narrowing options plan pair.1 pair.2).2 = some (.thrown exception)

omit [Inhabited F] in
theorem importLayers_keeps_iff (counters : Prop) :
    (∀ exception, (importLayers narrowing options plan pairs).2 = some (.thrown exception) →
      counters ∧ (importLayers narrowing options plan pairs).1 = pairs.map Prod.snd) ↔
      (LayersThrow narrowing options plan pairs → counters) ∧
        LayersHeld narrowing options plan pairs := by
  constructor
  · intro h
    constructor
    · rintro ⟨passed, pair, rest, exception, rfl, hpassed, hpair⟩
      exact (h exception (by rw [importLayers_throw hpassed hpair])).1
    · rintro passed pair rest rfl hpassed ⟨exception, hpair⟩
      have hsame := (h exception (by rw [importLayers_throw hpassed hpair])).2
      rw [importLayers_throw hpassed hpair, List.map_append, List.map_cons] at hsame
      obtain ⟨hbefore, hlast⟩ := List.append_inj hsame (by simp)
      exact ⟨List.map_inj_left.mp hbefore, (List.cons.inj hlast).1⟩
  · rintro ⟨hcounters, hheld⟩ exception hthrown
    rcases importLayers_cases narrowing options plan pairs with
      ⟨-, hresult⟩ | ⟨passed, pair, rest, failure, rfl, hpassed, hpair⟩
    · rw [hresult] at hthrown
      cases hthrown
    · rw [importLayers_throw hpassed hpair] at hthrown ⊢
      rw [Option.some_inj.mp hthrown] at hpair
      obtain ⟨hbefore, hlast⟩ := hheld passed pair rest rfl hpassed ⟨exception, hpair⟩
      refine ⟨hcounters ⟨passed, pair, rest, exception, rfl, hpassed, hpair⟩, ?_⟩
      rw [List.map_append, List.map_cons, List.map_inj_left.mpr hbefore, hlast]

end Layers

section Single

variable (narrowing) (cache : TransformerKVCache F) (state : TransformerKVState F)

/-- An import that throws leaves the cache as it was. -/
def TransformerKVCache.KeepsOnThrow : Prop :=
  ∀ exception after, cache.importState narrowing state = .error (.thrown exception) after →
    after = cache

/-- What the import assigns and writes up to the place where it throws was there before. -/
def TransformerKVCache.Harmless : Prop :=
  cache.layers ≠ [] →
    if state.layers.length ≠ cache.layers.length ∨ cache.cacheSteps < state.steps then
      state.currentEnd = cache.currentEnd
    else
      (LayersThrow narrowing cache.options (cache.plan state.steps)
          (state.layers.zip cache.layers) →
        state.currentEnd = cache.currentEnd ∧ state.steps = cache.validSteps) ∧
      LayersHeld narrowing cache.options (cache.plan state.steps) (state.layers.zip cache.layers)

variable {narrowing cache state}

omit [Inhabited F] in
theorem TransformerKVCache.with_eq_iff {currentEnd validSteps : ℤ} {layers : List (LayerCache F)} :
    { cache with currentEnd := currentEnd, validSteps := validSteps, layers := layers } = cache ↔
      (currentEnd = cache.currentEnd ∧ validSteps = cache.validSteps) ∧ layers = cache.layers := by
  constructor
  · intro h
    exact ⟨⟨congrArg (·.currentEnd) h, congrArg (·.validSteps) h⟩, congrArg (·.layers) h⟩
  · rintro ⟨⟨rfl, rfl⟩, rfl⟩
    rfl

omit [Inhabited F] in
theorem TransformerKVCache.end_eq_iff {currentEnd : ℤ} :
    { cache with currentEnd := currentEnd } = cache ↔ currentEnd = cache.currentEnd := by
  constructor
  · intro h
    exact congrArg (·.currentEnd) h
  · rintro rfl
    rfl

theorem TransformerKVCache.keepsOnThrow_iff :
    cache.KeepsOnThrow narrowing state ↔ cache.Harmless narrowing state := by
  unfold TransformerKVCache.KeepsOnThrow TransformerKVCache.Harmless TransformerKVCache.importState
  by_cases hempty : cache.layers = []
  · simp [hempty]
  have hlayers : ¬ cache.layers.isEmpty = true := by simpa using hempty
  rw [if_neg hlayers, imp_iff_right hempty]
  by_cases hcount : state.layers.length ≠ cache.layers.length
  · rw [if_pos hcount, if_pos (Or.inl hcount), ← end_eq_iff]
    simp
  by_cases hroom : cache.cacheSteps < state.steps
  · rw [if_neg hcount, if_pos hroom, if_pos (Or.inr hroom), ← end_eq_iff]
    simp
  have hzip : (state.layers.zip cache.layers).map Prod.snd = cache.layers :=
    List.map_snd_zip (by omega)
  rw [if_neg hcount, if_neg hroom, if_neg (not_or.mpr ⟨hcount, hroom⟩), ← importLayers_keeps_iff,
    hzip]
  dsimp only
  refine forall_congr' fun exception => ?_
  rw [← with_eq_iff]
  cases (importLayers narrowing cache.options (cache.plan state.steps)
    (state.layers.zip cache.layers)).2 with
  | none => simp
  | some failure => simp [eq_comm]

end Single

section Batched

variable (narrowing) (cache : TransformerBatchedKVCache F) (state : TransformerBatchedKVState F)

/-- An import that throws leaves the cache as it was. -/
def TransformerBatchedKVCache.KeepsOnThrow : Prop :=
  ∀ exception after, cache.importState narrowing state = .error (.thrown exception) after →
    after = cache

/-- What the import assigns and writes up to the place where it throws was there before. A batch
size that does not match is found before anything is assigned. -/
def TransformerBatchedKVCache.Harmless : Prop :=
  state.batchSize = cache.batchSize → cache.layers ≠ [] →
    if state.layers.length ≠ cache.layers.length ∨ cache.cacheSteps < state.steps then
      state.currentEnd = cache.currentEnd
    else ∀ product, int64 (state.steps * cache.rowElems) = .ok product →
      (LayersThrow narrowing cache.options (cache.plan state.steps (toSize product))
          (state.layers.zip cache.layers) →
        state.currentEnd = cache.currentEnd ∧ state.steps = cache.validSteps) ∧
      LayersHeld narrowing cache.options (cache.plan state.steps (toSize product))
        (state.layers.zip cache.layers)

variable {narrowing cache state}

omit [Inhabited F] in
theorem TransformerBatchedKVCache.with_eq_iff {currentEnd validSteps : ℤ}
    {layers : List (LayerCache F)} :
    { cache with currentEnd := currentEnd, validSteps := validSteps, layers := layers } = cache ↔
      (currentEnd = cache.currentEnd ∧ validSteps = cache.validSteps) ∧ layers = cache.layers := by
  constructor
  · intro h
    exact ⟨⟨congrArg (·.currentEnd) h, congrArg (·.validSteps) h⟩, congrArg (·.layers) h⟩
  · rintro ⟨⟨rfl, rfl⟩, rfl⟩
    rfl

omit [Inhabited F] in
theorem TransformerBatchedKVCache.end_eq_iff {currentEnd : ℤ} :
    { cache with currentEnd := currentEnd } = cache ↔ currentEnd = cache.currentEnd := by
  constructor
  · intro h
    exact congrArg (·.currentEnd) h
  · rintro rfl
    rfl

theorem int64_error {n : ℤ} {failure : Failure} (h : int64 n = .error failure) :
    failure = .undefined := by
  unfold int64 at h
  split_ifs at h
  exact (Except.error.inj h).symm

theorem TransformerBatchedKVCache.keepsOnThrow_iff :
    cache.KeepsOnThrow narrowing state ↔ cache.Harmless narrowing state := by
  unfold TransformerBatchedKVCache.KeepsOnThrow TransformerBatchedKVCache.Harmless
    TransformerBatchedKVCache.importState
  by_cases hbatch : state.batchSize = cache.batchSize
  swap
  · simp [hbatch, eq_comm]
  by_cases hempty : cache.layers = []
  · simp [hempty, hbatch]
  have hlayers : ¬ cache.layers.isEmpty = true := by simpa using hempty
  rw [if_neg (not_not.mpr hbatch), if_neg hlayers, imp_iff_right hbatch, imp_iff_right hempty]
  by_cases hcount : state.layers.length ≠ cache.layers.length
  · rw [if_pos hcount, if_pos (Or.inl hcount), ← end_eq_iff]
    simp
  by_cases hroom : cache.cacheSteps < state.steps
  · rw [if_neg hcount, if_pos hroom, if_pos (Or.inr hroom), ← end_eq_iff]
    simp
  have hzip : (state.layers.zip cache.layers).map Prod.snd = cache.layers :=
    List.map_snd_zip (by omega)
  rw [if_neg hcount, if_neg hroom, if_neg (not_or.mpr ⟨hcount, hroom⟩)]
  cases hproduct : int64 (state.steps * cache.rowElems) with
  | error failure =>
    rw [int64_error hproduct]
    simp
  | ok product =>
    simp only [Except.ok.injEq, forall_eq']
    rw [← importLayers_keeps_iff, hzip]
    refine forall_congr' fun exception => ?_
    rw [← with_eq_iff]
    cases (importLayers narrowing cache.options (cache.plan state.steps (toSize product))
      (state.layers.zip cache.layers)).2 with
    | none => simp
    | some failure => simp [eq_comm]

end Batched

def plainNumbers : Narrowing ℤ := ⟨id, id⟩

def oneStep : TensorValue ℤ := ⟨bytes "cache", .f32, 1, [0]⟩

theorem oneStep_nonneg : (0 : ℤ) ≤ 1 := by decide

theorem oneElem_pos : (0 : ℤ) < 1 := by decide

theorem oneStep_lt : (1 : ℤ) * 1 < 2 ^ 63 := by decide

/-- Two layers with room for one step of one number. -/
def twoLayers : TransformerKVCache ℤ where
  cacheSteps := 1
  stepElems := 1
  validSteps := 0
  currentEnd := 0
  options := ⟨false, false⟩
  layers := [⟨oneStep, oneStep⟩, ⟨oneStep, oneStep⟩]
  cacheSteps_nonneg := oneStep_nonneg
  stepElems_pos := oneElem_pos
  elems_lt := oneStep_lt

/-- The second layer does not have as many steps as the first one. -/
def mixedState : TransformerKVState ℤ := ⟨5, [⟨1, [7], [8]⟩, ⟨0, [], []⟩]⟩

end FastTts.KvTensors
