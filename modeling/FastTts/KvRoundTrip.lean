import FastTts.KvTensors

/-!
# An import is exported again

What a cache with `f32` tensors accepts it gives back: the batched cache spreads the rows of the
batches over its tensors and collects them from there. The operations that succeed keep the number
of valid steps within the capacity.
-/

namespace FastTts.KvTensors

open Blocks Kv

variable {F : Type} [Inhabited F]

/-! ## Copies of batches -/

/-- The rows that a loop over the batches reads, each with zeros behind it. -/
def spread (batches : ℕ) (source : List F) (sourceStride count targetStride : ℕ) : List (List F) :=
  (List.range batches).map fun batch =>
    padded ((source.drop (batch * sourceStride)).take count) targetStride

variable {source : List F} {count sourceStride targetStride : ℕ} {n : ℤ} {tensor : TensorValue F}
  {plan : KVLayerState F → Except Failure (Option (List F × List F))}

omit [Inhabited F] in
theorem length_row {offset : ℕ} (h : offset + count ≤ source.length) :
    ((source.drop offset).take count).length = count := by
  rw [List.length_take, List.length_drop]
  omega

theorem length_spread {batches : ℕ}
    (hsource : ∀ batch < batches, batch * sourceStride + count ≤ source.length)
    (hcount : count ≤ targetStride) :
    (spread batches source sourceStride count targetStride).flatten.length =
    batches * targetStride := by
  rw [length_flatten, spread, List.length_map, List.length_range]
  intro row hrow
  obtain ⟨batch, hbatch, rfl⟩ := List.mem_map.mp hrow
  apply length_padded
  rw [length_row (hsource batch (List.mem_range.mp hbatch))]
  exact hcount

theorem spread_succ (done : ℕ) (source : List F) (sourceStride count targetStride : ℕ) :
    spread (done + 1) source sourceStride count targetStride =
      spread done source sourceStride count targetStride ++
        [padded ((source.drop (done * sourceStride)).take count) targetStride] := by
  rw [spread, List.range_succ, List.map_append]
  rfl

theorem copyRange_next {before : List F} {done : ℕ} (left : ℕ)
    (hsource : done * sourceStride + count ≤ source.length) (hcount : count ≤ targetStride)
    (hbefore : before.length = done * targetStride) :
    copyRange (before ++ List.replicate (targetStride + left) default) source
      (done * sourceStride) count (done * targetStride) =
      .ok (before ++ padded ((source.drop (done * sourceStride)).take count) targetStride ++
        List.replicate left default) := by
  have hroom : done * targetStride + count ≤
      (before ++ List.replicate (targetStride + left) default).length := by
    rw [List.length_append, List.length_replicate, hbefore]
    omega
  have hrow := length_row hsource
  rw [copyRange, if_pos ⟨hsource, hroom⟩, ← hbefore, List.replicate_add, ← List.append_assoc,
    copyAt_row before _ (by rw [hrow]; exact hcount)]

theorem copyBatches_ok {batches : ℕ}
    (hsource : ∀ batch < batches, batch * sourceStride + count ≤ source.length)
    (hcount : count ≤ targetStride) (hsources : batches * sourceStride < 2 ^ 64)
    (htargets : batches * targetStride < 2 ^ 64) :
    copyBatches batches source sourceStride count targetStride
      (List.replicate (batches * targetStride) default) =
      .ok (spread batches source sourceStride count targetStride).flatten := by
  have hdone : ∀ done ≤ batches, (List.range done).foldlM (fun target batch =>
      copyRange target source (batch * sourceStride % 2 ^ 64) count (batch * targetStride % 2 ^ 64))
      (List.replicate (batches * targetStride) default) =
      .ok ((spread done source sourceStride count targetStride).flatten ++
        List.replicate ((batches - done) * targetStride) default) := by
    intro done hdone
    induction done with
    | zero => rfl
    | succ done ih =>
      have hlength := length_spread (fun batch (hbatch : batch < done) => hsource batch (by omega))
        hcount
      have hsourceMod : done * sourceStride % 2 ^ 64 = done * sourceStride :=
        Nat.mod_eq_of_lt (lt_of_le_of_lt (Nat.mul_le_mul_right _ (by omega)) hsources)
      have htargetMod : done * targetStride % 2 ^ 64 = done * targetStride :=
        Nat.mod_eq_of_lt (lt_of_le_of_lt (Nat.mul_le_mul_right _ (by omega)) htargets)
      have hleft : (batches - done) * targetStride =
          targetStride + (batches - (done + 1)) * targetStride := by
        rw [show batches - done = batches - (done + 1) + 1 by omega, Nat.add_mul, Nat.one_mul,
          Nat.add_comm]
      have hnext := copyRange_next ((batches - (done + 1)) * targetStride) (hsource done hdone)
        hcount hlength
      rw [List.range_succ, List.foldlM_append, ih (by omega), spread_succ, List.flatten_append,
        List.flatten_singleton, hleft]
      simp only [List.foldlM_cons, List.foldlM_nil, bind, Except.bind, hsourceMod, htargetMod,
        hnext]
      rfl
  have hall := hdone batches le_rfl
  rw [Nat.sub_self, Nat.zero_mul, List.replicate_zero, List.append_nil] at hall
  exact hall

/-! ## Layers that are accepted -/

theorem int64_ok {product : ℤ} (h : int64 n = .ok product) :
    product = n ∧ -2 ^ 63 ≤ n ∧ n < 2 ^ 63 := by
  unfold int64 at h
  split_ifs at h with hrange
  exact ⟨(Except.ok.inj h).symm, hrange⟩

theorem toSize_eq (hfirst : 0 ≤ n) (hlast : n < 2 ^ 63) : toSize n = n.toNat := by
  unfold toSize
  rw [Int.emod_eq_of_lt hfirst (by omega)]

theorem nonneg_of_toSize (hrange : -2 ^ 63 ≤ n) (hsize : toSize n < 2 ^ 63) : 0 ≤ n := by
  unfold toSize at hsize
  omega

variable {narrowing : Narrowing F} {options : TransformerKVCacheOptions}

def LayerCache.IsF32 (layer : LayerCache F) : Prop :=
  layer.keyTensor.type = .f32 ∧ layer.valueTensor.type = .f32

def LayerCache.withData (layer : LayerCache F) (key value : List F) : LayerCache F :=
  ⟨{ layer.keyTensor with data := key }, { layer.valueTensor with data := value }⟩

omit [Inhabited F] in
theorem validateCacheTensor_f32 (h : tensor.type = .f32) :
    validateCacheTensor options tensor = .ok () := if_pos h

omit [Inhabited F] in
theorem writeCacheTensor_ok {written : TensorValue F} (htype : tensor.type = .f32) {values : List F}
    (h : writeCacheTensor narrowing options tensor values = .ok written) :
    written = { tensor with data := values } := by
  rw [writeCacheTensor, validateCacheTensor_f32 htype] at h
  change (if tensor.type = .f32 then _ else _) = _ at h
  rw [if_pos htype, writeTensor] at h
  split_ifs at h with hcount
  rw [← Except.ok.inj h, List.map_id]

variable {layer : LayerCache F} {pairs : List (KVLayerState F × LayerCache F)}

omit [Inhabited F] in
theorem importLayer_ok {source : KVLayerState F} (hf32 : layer.IsF32)
    (h : (importLayer narrowing options plan source layer).2 = none) :
    (plan source = .ok none ∧ (importLayer narrowing options plan source layer).1 = layer) ∨
      ∃ key value, plan source = .ok (some (key, value)) ∧
        (importLayer narrowing options plan source layer).1 = layer.withData key value := by
  unfold importLayer at h ⊢
  cases hplan : plan source with
  | error failure => simp [hplan] at h
  | ok planned =>
    rw [hplan] at h
    cases planned with
    | none => exact .inl ⟨rfl, rfl⟩
    | some data =>
      obtain ⟨key, value⟩ := data
      refine .inr ⟨key, value, rfl, ?_⟩
      cases hkey : writeCacheTensor narrowing options layer.keyTensor key with
      | error failure => simp [hkey] at h
      | ok keyTensor =>
        cases hvalue : writeCacheTensor narrowing options layer.valueTensor value with
        | error failure => simp [hkey, hvalue] at h
        | ok valueTensor =>
          simp only [hkey, hvalue, writeCacheTensor_ok hf32.1 hkey,
            writeCacheTensor_ok hf32.2 hvalue]
          rfl

omit [Inhabited F] in
theorem readCacheTensor_f32 (h : tensor.type = .f32) :
    readCacheTensor options tensor = .ok tensor.data := by
  rw [readCacheTensor, validateCacheTensor_f32 h]
  rfl

omit [Inhabited F] in
theorem importLayers_ok (h : (importLayers narrowing options plan pairs).2 = none) :
    (∀ p ∈ pairs, (importLayer narrowing options plan p.1 p.2).2 = none) ∧
      (importLayers narrowing options plan pairs).1 =
        pairs.map fun p => (importLayer narrowing options plan p.1 p.2).1 := by
  rcases importLayers_cases narrowing options plan pairs with
    ⟨hall, hresult⟩ | ⟨passed, pair, rest, failure, rfl, hpassed, hpair⟩
  · rw [hresult]
    exact ⟨hall, rfl⟩
  · rw [importLayers_throw hpassed hpair] at h
    cases h

omit [Inhabited F] in
theorem mapM_layers {imported : KVLayerState F × LayerCache F → LayerCache F}
    {exported : LayerCache F → Except Failure (KVLayerState F)}
    (h : ∀ p ∈ pairs, exported (imported p) = .ok p.1) :
    (pairs.map imported).mapM exported = .ok (pairs.map Prod.fst) := by
  rw [List.mapM_map]
  exact mapM_ok h

omit [Inhabited F] in
theorem plan_of_import {options : TransformerKVCacheOptions} {source : KVLayerState F}
    (h : (importLayer narrowing options plan source layer).2 = none) :
    ∃ planned, plan source = .ok planned := by
  cases hplan : plan source with
  | error failure => simp [importLayer, hplan] at h
  | ok planned => exact ⟨planned, rfl⟩

omit [Inhabited F] in
theorem zip_some {sources : List (KVLayerState F)} {layers : List (LayerCache F)}
    (hcount : sources.length = layers.length) (hsome : layers ≠ []) :
    ∃ p, p ∈ sources.zip layers := by
  apply List.exists_mem_of_ne_nil
  intro hnil
  have hlength := congrArg List.length hnil
  rw [List.length_zip, List.length_nil] at hlength
  have hpos := List.length_pos_iff.mpr hsome
  omega

/-! ## One sequence -/

section Single

variable {cache : TransformerKVCache F} {state : TransformerKVState F} {source : KVLayerState F}

theorem TransformerKVCache.plan_ok {stateSteps : ℤ} {planned : Option (List F × List F)}
    (h : cache.plan stateSteps source = .ok planned) :
    source.validSteps = stateSteps ∧ ∃ product, int64 (stateSteps * cache.stepElems) = .ok product ∧
      source.key.length = source.value.length ∧ source.key.length = toSize product ∧
      ((cache.cacheSteps ≤ 0 ∧ planned = none) ∨ (0 < cache.cacheSteps ∧
        (source.key.length : ℤ) ≤ cache.cacheSteps * cache.stepElems ∧
        planned = some (padded source.key (cache.cacheSteps * cache.stepElems),
          padded source.value (cache.cacheSteps * cache.stepElems)))) := by
  unfold TransformerKVCache.plan at h
  by_cases hsteps : source.validSteps = stateSteps
  swap
  · rw [if_pos hsteps] at h
    cases h
  rw [if_neg (not_not.mpr hsteps)] at h
  subst hsteps
  obtain ⟨product, hproduct, h⟩ := except_bind_ok h
  split_ifs at h with hsizes hcount hcapacity hroom
  · cases h
  · cases h
  · exact ⟨rfl, product, hproduct, by omega, by omega, .inl ⟨hcapacity, (Except.ok.inj h).symm⟩⟩
  · exact ⟨rfl, product, hproduct, by omega, by omega,
      .inr ⟨by omega, by omega, (Except.ok.inj h).symm⟩⟩

theorem take_padded (items : List F) (n : ℤ) : (padded items n).take items.length = items := by
  rw [padded, List.take_left]

theorem length_le_padded {items : List F} {n : ℤ} : items.length ≤ (padded items n).length := by
  rw [padded, List.length_append]
  omega

variable {layer : LayerCache F}

theorem TransformerKVCache.exportLayer_padded (hf32 : layer.IsF32)
    (hsizes : source.key.length = source.value.length) (hsome : ¬ source.key.length = 0)
    {after : TransformerKVCache F} (hsteps : after.validSteps = source.validSteps) {elems : ℤ} :
    after.exportLayer source.key.length
      (layer.withData (padded source.key elems) (padded source.value elems)) = .ok source := by
  have hkeyType : (layer.withData (padded source.key elems)
      (padded source.value elems)).keyTensor.type = .f32 := hf32.1
  have hvalueType : (layer.withData (padded source.key elems)
      (padded source.value elems)).valueTensor.type = .f32 := hf32.2
  have hlong : ¬ ((padded source.key elems).length < source.key.length ∨
      (padded source.value elems).length < source.key.length) := by
    have hfirst : source.key.length ≤ (padded source.key elems).length := length_le_padded
    have hsecond : source.value.length ≤ (padded source.value elems).length := length_le_padded
    omega
  have hvalueTake : (padded source.value elems).take source.key.length = source.value := by
    rw [hsizes]
    exact take_padded _ _
  rw [TransformerKVCache.exportLayer, hsteps, if_neg hsome, readCacheTensor_f32 hkeyType,
    readCacheTensor_f32 hvalueType]
  simp only [bind, Except.bind]
  change (if (padded source.key elems).length < source.key.length ∨
      (padded source.value elems).length < source.key.length then _ else
    Except.ok (KVLayerState.mk source.validSteps ((padded source.key elems).take source.key.length)
      ((padded source.value elems).take source.key.length))) = _
  rw [if_neg hlong, take_padded, hvalueTake]

theorem TransformerKVCache.exportLayer_imported (hf32 : layer.IsF32)
    (hvector : source.key.length < 2 ^ 63) {stateSteps : ℤ} (hroom : stateSteps ≤ cache.cacheSteps)
    (h : (importLayer narrowing cache.options (cache.plan stateSteps) source layer).2 = none)
    {after : TransformerKVCache F} (hsteps : after.validSteps = stateSteps) {product : ℤ}
    (hproduct : int64 (stateSteps * cache.stepElems) = .ok product) :
    after.exportLayer (toSize product)
      (importLayer narrowing cache.options (cache.plan stateSteps) source layer).1 =
        .ok source := by
  obtain ⟨planned, hplan, himported⟩ : ∃ planned, cache.plan stateSteps source = .ok planned ∧
      (importLayer narrowing cache.options (cache.plan stateSteps) source layer).1 =
        match planned with
        | none => layer
        | some (key, value) => layer.withData key value := by
    rcases importLayer_ok hf32 h with ⟨hplan, hlayer⟩ | ⟨key, value, hplan, hlayer⟩
    · exact ⟨_, hplan, hlayer⟩
    · exact ⟨_, hplan, hlayer⟩
  obtain ⟨hvalid, product', hproduct', hsizes, hcount, hcases⟩ := cache.plan_ok hplan
  rw [hproduct] at hproduct'
  obtain rfl := Except.ok.inj hproduct'
  rw [← hvalid] at hsteps
  rw [← hcount, himported]
  by_cases hempty : source.key.length = 0
  · have hkey := List.eq_nil_of_length_eq_zero hempty
    have hvalue := List.eq_nil_of_length_eq_zero (hsizes.symm.trans hempty)
    rw [TransformerKVCache.exportLayer, hsteps, if_pos hempty]
    obtain ⟨validSteps, key, value⟩ := source
    subst hkey hvalue
    rfl
  rcases hcases with ⟨hnone, -⟩ | ⟨hsome, hlength, rfl⟩
  · -- without room there is no step, and so no element
    obtain ⟨rfl, hrange⟩ := int64_ok hproduct
    have hnonneg := nonneg_of_toSize hrange.1 (by omega)
    have hle := mul_nonpos_of_nonpos_of_nonneg (show stateSteps ≤ 0 by omega) cache.stepElems_pos.le
    have hzero : stateSteps * cache.stepElems = 0 := by omega
    rw [hzero] at hcount
    exact absurd hcount hempty
  · exact exportLayer_padded hf32 hsizes hempty hsteps

theorem TransformerKVCache.importState_ok {after : TransformerKVCache F}
    (h : cache.importState narrowing state = .ok () after) (hsome : cache.layers ≠ []) :
    state.layers.length = cache.layers.length ∧ state.steps ≤ cache.cacheSteps ∧
      (importLayers narrowing cache.options (cache.plan state.steps)
        (state.layers.zip cache.layers)).2 = none ∧
      after = { cache with
        currentEnd := state.currentEnd, validSteps := state.steps
        layers := (importLayers narrowing cache.options (cache.plan state.steps)
          (state.layers.zip cache.layers)).1 } := by
  have hlayers : ¬ cache.layers.isEmpty = true := by simpa using hsome
  unfold TransformerKVCache.importState at h
  rw [if_neg hlayers] at h
  split_ifs at h with hcount hroom
  dsimp only at h
  cases himported : (importLayers narrowing cache.options (cache.plan state.steps)
      (state.layers.zip cache.layers)).2 with
  | some failure =>
    rw [himported] at h
    cases h
  | none =>
    rw [himported] at h
    cases h
    exact ⟨not_not.mp hcount, not_lt.mp hroom, rfl, rfl⟩

theorem TransformerKVCache.export_import {after : TransformerKVCache F} (hsome : cache.layers ≠ [])
    (hf32 : ∀ layer ∈ cache.layers, layer.IsF32)
    (hvectors : ∀ layer ∈ state.layers, layer.key.length < 2 ^ 63)
    (h : cache.importState narrowing state = .ok () after) : after.exportState = .ok state := by
  obtain ⟨hcount, hroom, himported, rfl⟩ := cache.importState_ok h hsome
  obtain ⟨hall, hlayers⟩ := importLayers_ok himported
  have hfst : (state.layers.zip cache.layers).map Prod.fst = state.layers :=
    List.map_fst_zip (by omega)
  obtain ⟨product, hproduct⟩ : ∃ product, int64 (state.steps * cache.stepElems) = .ok product := by
    obtain ⟨p, hp⟩ := zip_some hcount hsome
    obtain ⟨planned, hplan⟩ := plan_of_import (hall p hp)
    obtain ⟨-, product, hproduct, -⟩ := cache.plan_ok hplan
    exact ⟨product, hproduct⟩
  rw [TransformerKVCache.exportState]
  simp only [hproduct, bind, Except.bind]
  rw [hlayers, mapM_layers, hfst]
  · rfl
  · intro p hp
    exact exportLayer_imported (hf32 _ (List.of_mem_zip hp).2) (hvectors _ (List.of_mem_zip hp).1)
      hroom
      (hall p hp) rfl hproduct

end Single

/-! ## A batch of sequences -/

section Batched

variable {cache : TransformerBatchedKVCache F} {state : TransformerBatchedKVState F}

variable {batches copyElems : ℕ} {stateSteps : ℤ}

omit [Inhabited F] in
theorem copyBatches_bound (hsome : 0 < batches) {source target copied : List F}
    {sourceStride count targetStride : ℕ}
    (h : copyBatches batches source sourceStride count targetStride target = .ok copied) :
    count ≤ source.length ∧ count ≤ target.length := by
  obtain ⟨others, rfl⟩ : ∃ others, batches = others + 1 := ⟨batches - 1, by omega⟩
  rw [copyBatches, List.range_succ_eq_map, List.foldlM_cons, Nat.zero_mul, Nat.zero_mul,
    Nat.zero_mod] at h
  obtain ⟨first, hfirst, -⟩ := except_bind_ok h
  unfold copyRange at hfirst
  split_ifs at hfirst with hranges
  omega

theorem TransformerBatchedKVCache.plan_ok {source : KVLayerState F}
    {planned : Option (List F × List F)}
    (h : cache.plan stateSteps copyElems source = .ok planned) :
    source.validSteps = stateSteps ∧ source.key.length = source.value.length ∧
      source.key.length = cache.batchSize.toNat * copyElems % 2 ^ 64 ∧ ∃ key value,
        copyBatches cache.batchSize.toNat source.key copyElems copyElems cache.batchElems
          (List.replicate (cache.batchSize.toNat * cache.batchElems) default) = .ok key ∧
        copyBatches cache.batchSize.toNat source.value copyElems copyElems cache.batchElems
          (List.replicate (cache.batchSize.toNat * cache.batchElems) default) = .ok value ∧
        planned = some (key, value) := by
  unfold TransformerBatchedKVCache.plan at h
  split_ifs at h with hsteps hsizes
  · cases h
  · cases h
  · rw [not_or, not_not, not_not] at hsizes
    obtain ⟨key, hkey, h⟩ := except_bind_ok h
    obtain ⟨value, hvalue, h⟩ := except_bind_ok h
    exact ⟨not_not.mp hsteps, hsizes.1, hsizes.2, key, value, hkey, hvalue, (Except.ok.inj h).symm⟩

omit [Inhabited F] in
theorem TransformerBatchedKVCache.tensor_lt (cache : TransformerBatchedKVCache F) :
    cache.batchSize.toNat * cache.batchElems < 2 ^ 63 := by
  have hlt := cache.elems_lt
  have hbatch := cache.batchSize_pos
  have hrow := mul_pos cache.cacheSteps_pos cache.rowElems_pos
  have hcast : ((cache.batchSize.toNat * cache.batchElems : ℕ) : ℤ) =
      cache.batchSize * (cache.cacheSteps * cache.rowElems) := by
    rw [batchElems, Nat.cast_mul, Int.toNat_of_nonneg hbatch.le, Int.toNat_of_nonneg hrow.le]
  omega

variable {product : ℤ} {stride : ℕ} {items : List F}

omit [Inhabited F] in
theorem TransformerBatchedKVCache.copyElems_le (hroom : stateSteps ≤ cache.cacheSteps)
    (hproduct : int64 (stateSteps * cache.rowElems) = .ok product)
    (hsize : toSize product < 2 ^ 63) : toSize product ≤ cache.batchElems := by
  obtain ⟨rfl, hrange⟩ := int64_ok hproduct
  have hnonneg := nonneg_of_toSize hrange.1 hsize
  have hle := mul_le_mul_of_nonneg_right hroom cache.rowElems_pos.le
  rw [toSize_eq hnonneg hrange.2, batchElems]
  omega

theorem spread_spread (hlength : items.length = batches * copyElems)
    (hstride : copyElems ≤ stride) :
    (spread batches (spread batches items copyElems copyElems stride).flatten stride copyElems
      copyElems).flatten = items := by
  have hinside : ∀ batch < batches, batch * copyElems + copyElems ≤ items.length := by
    intro batch hbatch
    rw [hlength, ← Nat.succ_mul]
    exact Nat.mul_le_mul_right _ hbatch
  have hwide : ∀ row ∈ spread batches items copyElems copyElems stride, row.length = stride := by
    intro row hrow
    obtain ⟨batch, hbatch, rfl⟩ := List.mem_map.mp hrow
    apply length_padded
    rw [length_row (hinside batch (List.mem_range.mp hbatch))]
    exact hstride
  have hrows : spread batches (spread batches items copyElems copyElems stride).flatten stride
      copyElems copyElems = rowsOf copyElems batches items := by
    apply List.map_congr_left
    intro batch hbatch
    rw [List.mem_range] at hbatch
    have hrow := length_row (hinside batch hbatch)
    have hget : (spread batches items copyElems copyElems stride).getD batch [] =
        padded ((items.drop (batch * copyElems)).take copyElems) stride := by
      rw [spread, List.getD_eq_getElem?_getD, List.getElem?_map, List.getElem?_range hbatch]
      rfl
    have hslice := slice_flatten hwide batch
    rw [slice, hget] at hslice
    have htake := congrArg (List.take copyElems) hslice
    rw [List.take_take, Nat.min_eq_left hstride] at htake
    have hback := take_padded ((items.drop (batch * copyElems)).take copyElems) stride
    rw [hrow] at hback
    rw [htake, hback, padded, hrow, Int.toNat_natCast, Nat.sub_self, List.replicate_zero,
      List.append_nil, slice]
  rw [hrows, flatten_rowsOf, ← hlength, List.take_length]

theorem copyBatches_back (hstride : copyElems ≤ stride) (htensor : batches * stride < 2 ^ 63)
    {data : List F} (hlength : items.length = batches * copyElems)
    (h : copyBatches batches items copyElems copyElems stride
      (List.replicate (batches * stride) default) = .ok data) :
    copyBatches batches data stride copyElems copyElems
      (List.replicate (batches * copyElems) default) = .ok items := by
  have hcopies : batches * copyElems ≤ batches * stride := Nat.mul_le_mul_left _ hstride
  have hinside : ∀ batch < batches, batch * copyElems + copyElems ≤ items.length := by
    intro batch hbatch
    rw [hlength, ← Nat.succ_mul]
    exact Nat.mul_le_mul_right _ hbatch
  rw [copyBatches_ok hinside hstride (by omega) (by omega)] at h
  obtain rfl := Except.ok.inj h
  have hdata := length_spread hinside hstride
  have hback : ∀ batch < batches, batch * stride + copyElems ≤
      (spread batches items copyElems copyElems stride).flatten.length := by
    intro batch hbatch
    have hstep := Nat.mul_le_mul_right stride (Nat.succ_le_of_lt hbatch)
    rw [Nat.succ_mul] at hstep
    omega
  rw [copyBatches_ok hback le_rfl (by omega) (by omega), spread_spread hlength hstride]

theorem TransformerBatchedKVCache.exportLayer_imported {source : KVLayerState F}
    {layer : LayerCache F} (hf32 : layer.IsF32) (hroom : stateSteps ≤ cache.cacheSteps)
    (hproduct : int64 (stateSteps * cache.rowElems) = .ok product)
    (h : (importLayer narrowing cache.options (cache.plan stateSteps (toSize product)) source
      layer).2 = none) {after : TransformerBatchedKVCache F}
    (hsteps : after.validSteps = stateSteps) (hbatchSize : after.batchSize = cache.batchSize)
    (helems : after.batchElems = cache.batchElems) :
    after.exportLayer (toSize product)
      (importLayer narrowing cache.options (cache.plan stateSteps (toSize product)) source
        layer).1 = .ok source := by
  have hbatch : 0 < cache.batchSize.toNat := by
    have := cache.batchSize_pos
    omega
  have htensor := cache.tensor_lt
  obtain ⟨planned, hplan⟩ := plan_of_import h
  obtain ⟨hvalid, hsizes, hcount, key, value, hkey, hvalue, rfl⟩ := cache.plan_ok hplan
  have himported : (importLayer narrowing cache.options (cache.plan stateSteps (toSize product))
      source layer).1 = layer.withData key value := by
    rcases importLayer_ok hf32 h with ⟨hnone, -⟩ | ⟨key', value', hsome, hlayer⟩
    · rw [hplan] at hnone
      cases hnone
    · rw [hplan] at hsome
      cases hsome
      exact hlayer
  have hbound := (copyBatches_bound hbatch hkey).2
  rw [List.length_replicate] at hbound
  have hcopy := copyElems_le hroom hproduct (by omega)
  have hcopies : cache.batchSize.toNat * toSize product ≤
      cache.batchSize.toNat * cache.batchElems :=
    Nat.mul_le_mul_left _ hcopy
  rw [Nat.mod_eq_of_lt (by omega)] at hcount
  rw [himported, TransformerBatchedKVCache.exportLayer, hsteps, hbatchSize, helems,
    Nat.mod_eq_of_lt (by omega)]
  by_cases hempty : toSize product = 0
  · rw [hempty, Nat.mul_zero] at hcount
    have hkeyNil := List.eq_nil_of_length_eq_zero hcount
    have hvalueNil := List.eq_nil_of_length_eq_zero (hsizes.symm.trans hcount)
    rw [if_pos hempty, hempty, Nat.mul_zero]
    obtain ⟨validSteps, sourceKey, sourceValue⟩ := source
    subst hkeyNil hvalueNil hvalid
    rfl
  · have hkeyBack := copyBatches_back hcopy htensor hcount hkey
    have hvalueBack := copyBatches_back hcopy htensor (hsizes.symm.trans hcount) hvalue
    have hkeyType : (layer.withData key value).keyTensor.type = .f32 := hf32.1
    have hvalueType : (layer.withData key value).valueTensor.type = .f32 := hf32.2
    rw [if_neg hempty, readCacheTensor_f32 hkeyType, readCacheTensor_f32 hvalueType]
    simp only [bind, Except.bind, LayerCache.withData]
    rw [hkeyBack, hvalueBack]
    simp only [← hvalid]
    rfl

theorem TransformerBatchedKVCache.importState_ok {after : TransformerBatchedKVCache F}
    (h : cache.importState narrowing state = .ok () after) (hsome : cache.layers ≠ []) :
    state.batchSize = cache.batchSize ∧ state.layers.length = cache.layers.length ∧
      state.steps ≤ cache.cacheSteps ∧
      ∃ product, int64 (state.steps * cache.rowElems) = .ok product ∧
      (importLayers narrowing cache.options (cache.plan state.steps (toSize product))
        (state.layers.zip cache.layers)).2 = none ∧
      after = { cache with
        currentEnd := state.currentEnd, validSteps := state.steps
        layers := (importLayers narrowing cache.options (cache.plan state.steps (toSize product))
          (state.layers.zip cache.layers)).1 } := by
  have hlayers : ¬ cache.layers.isEmpty = true := by simpa using hsome
  unfold TransformerBatchedKVCache.importState at h
  rw [if_neg hlayers] at h
  split_ifs at h with hbatch hcount hroom
  dsimp only at h
  cases hproduct : int64 (state.steps * cache.rowElems) with
  | error failure =>
    rw [hproduct] at h
    cases h
  | ok product =>
    rw [hproduct] at h
    dsimp only at h
    cases himported : (importLayers narrowing cache.options
        (cache.plan state.steps (toSize product))
        (state.layers.zip cache.layers)).2 with
    | some failure =>
      rw [himported] at h
      cases h
    | none =>
      rw [himported] at h
      cases h
      exact ⟨not_not.mp hbatch, not_not.mp hcount, not_lt.mp hroom, product, rfl, himported, rfl⟩

theorem TransformerBatchedKVCache.export_import {after : TransformerBatchedKVCache F}
    (hsome : cache.layers ≠ []) (hf32 : ∀ layer ∈ cache.layers, layer.IsF32)
    (h : cache.importState narrowing state = .ok () after) : after.exportState = .ok state := by
  obtain ⟨hbatch, hcount, hroom, product, hproduct, himported, rfl⟩ := cache.importState_ok h hsome
  obtain ⟨hall, hlayers⟩ := importLayers_ok himported
  have hfst : (state.layers.zip cache.layers).map Prod.fst = state.layers :=
    List.map_fst_zip (by omega)
  rw [TransformerBatchedKVCache.exportState]
  simp only [hproduct, bind, Except.bind]
  rw [hlayers, mapM_layers, hfst, ← hbatch]
  · rfl
  · intro p hp
    exact exportLayer_imported (hf32 _ (List.of_mem_zip hp).2) hroom hproduct (hall p hp) rfl rfl
      rfl

end Batched

/-! ## The counters -/

/-- What a vector has room for. -/
def TransformerKVState.Vectors (state : TransformerKVState F) : Prop :=
  ∀ layer ∈ state.layers, layer.key.length < 2 ^ 63

inductive KVCall (F : Type)
  | importState (state : TransformerKVState F)
  | advanceAfterDirectAppend (steps : ℤ)
  | retainPrefix (prefixSteps : ℤ)
  | markDeviceImport (steps : ℤ)

def KVCall.after (narrowing : Narrowing F) (cache : TransformerKVCache F) :
    KVCall F → Option (TransformerKVCache F)
  | importState state =>
    match cache.importState narrowing state with
    | .ok () after => some after
    | .error _ _ => none
  | advanceAfterDirectAppend steps => (cache.advanceAfterDirectAppend steps).toOption
  | retainPrefix prefixSteps => (cache.retainPrefix prefixSteps).toOption
  | markDeviceImport steps => (cache.markDeviceImport steps).toOption

theorem TransformerKVCache.steps_nonneg {cache after : TransformerKVCache F}
    {state : TransformerKVState F} (hvectors : state.Vectors) (hsome : cache.layers ≠ [])
    (h : cache.importState narrowing state = .ok () after) : 0 ≤ state.steps := by
  obtain ⟨hcount, -, himported, -⟩ := cache.importState_ok h hsome
  obtain ⟨p, hp⟩ := zip_some hcount hsome
  obtain ⟨planned, hplan⟩ := plan_of_import ((importLayers_ok himported).1 p hp)
  obtain ⟨-, product, hproduct, -, hlength, -⟩ := cache.plan_ok hplan
  obtain ⟨rfl, hrange⟩ := int64_ok hproduct
  have hvector := hvectors _ (List.of_mem_zip hp).1
  have hnonneg := nonneg_of_toSize hrange.1 (by omega)
  by_contra hnegative
  have hproductNegative := mul_neg_of_neg_of_pos (not_le.mp hnegative) cache.stepElems_pos
  omega

def TransformerKVCache.Within (cache : TransformerKVCache F) : Prop :=
  0 ≤ cache.validSteps ∧ cache.validSteps ≤ cache.cacheSteps

omit [Inhabited F] in
theorem toOption_some {ε α : Type} {x : Except ε α} {a : α} (h : x.toOption = some a) :
    x = .ok a := by
  cases x with
  | error e => cases h
  | ok b => rw [Option.some_inj.mp h]

omit [Inhabited F] in
theorem TransformerKVCache.advance_within {cache after : TransformerKVCache F}
    (hwithin : cache.Within)
    {steps : ℤ} (h : cache.advanceAfterDirectAppend steps = .ok after) : after.Within := by
  unfold TransformerKVCache.advanceAfterDirectAppend at h
  by_cases hnone : steps ≤ 0
  · rw [if_pos hnone] at h
    rwa [← Except.ok.inj h]
  rw [if_neg hnone] at h
  obtain ⟨sum, hsum, h⟩ := except_bind_ok h
  obtain ⟨rfl, -⟩ := int64_ok hsum
  split_ifs at h with hfull
  · cases h
  obtain ⟨currentEnd, -, h⟩ := except_bind_ok h
  obtain rfl := Except.ok.inj h
  have hfirst := hwithin.1
  exact ⟨by dsimp only; omega, not_lt.mp hfull⟩

theorem KVCall.within {cache after : TransformerKVCache F} (hwithin : cache.Within)
    {call : KVCall F} (hvectors : ∀ state, call = .importState state → state.Vectors)
    (h : call.after narrowing cache = some after) : after.Within := by
  cases call with
  | importState state =>
    cases hrun : cache.importState narrowing state with
    | error failure left => simp [KVCall.after, hrun] at h
    | ok value left =>
      simp only [KVCall.after, hrun, Option.some.injEq] at h
      subst h
      by_cases hsome : cache.layers = []
      · have hempty : cache.importState narrowing state =
            .ok () { cache with currentEnd := state.currentEnd, validSteps := 0 } := by
          simp [TransformerKVCache.importState, hsome]
        rw [hempty] at hrun
        cases hrun
        exact ⟨le_rfl, cache.cacheSteps_nonneg⟩
      · have hnonneg := TransformerKVCache.steps_nonneg (hvectors state rfl) hsome hrun
        obtain ⟨-, hroom, -, rfl⟩ := cache.importState_ok hrun hsome
        exact ⟨hnonneg, hroom⟩
  | advanceAfterDirectAppend steps =>
    exact TransformerKVCache.advance_within hwithin (toOption_some h)
  | retainPrefix prefixSteps =>
    have hok := toOption_some h
    unfold TransformerKVCache.retainPrefix at hok
    split_ifs at hok with houtside
    · cases hok
    · cases hok
      rw [not_or, not_lt, not_lt] at houtside
      exact ⟨houtside.1, le_trans houtside.2 hwithin.2⟩
  | markDeviceImport steps =>
    have hok := toOption_some h
    unfold TransformerKVCache.markDeviceImport at hok
    split_ifs at hok with houtside
    · cases hok
    · cases hok
      rw [not_or, not_lt, not_lt] at houtside
      exact houtside

theorem KVCall.run_within {cache after : TransformerKVCache F} (hwithin : cache.Within)
    {calls : List (KVCall F)} (hvectors : ∀ state, .importState state ∈ calls → state.Vectors)
    (h : calls.foldlM (fun cache call => call.after narrowing cache) cache = some after) :
    after.Within := by
  induction calls generalizing cache with
  | nil =>
    rw [← Option.some_inj.mp h]
    exact hwithin
  | cons call calls ih =>
    rw [List.foldlM_cons] at h
    obtain ⟨next, hnext, hrest⟩ := Option.bind_eq_some_iff.mp h
    refine ih (call.within hwithin ?_ hnext) ?_ hrest
    · rintro state rfl
      exact hvectors state List.mem_cons_self
    · intro state hstate
      exact hvectors state (List.mem_cons_of_mem call hstate)

inductive BatchedKVCall (F : Type)
  | importState (state : TransformerBatchedKVState F)
  | advanceAfterDirectAppend (steps : ℤ)

def BatchedKVCall.after (narrowing : Narrowing F) (cache : TransformerBatchedKVCache F) :
    BatchedKVCall F → Option (TransformerBatchedKVCache F)
  | importState state =>
    match cache.importState narrowing state with
    | .ok () after => some after
    | .error _ _ => none
  | advanceAfterDirectAppend steps => (cache.advanceAfterDirectAppend steps).toOption

def TransformerBatchedKVCache.Within (cache : TransformerBatchedKVCache F) : Prop :=
  0 ≤ cache.validSteps ∧ cache.validSteps ≤ cache.cacheSteps

theorem TransformerBatchedKVCache.steps_nonneg {cache after : TransformerBatchedKVCache F}
    {state : TransformerBatchedKVState F} (hsome : cache.layers ≠ [])
    (h : cache.importState narrowing state = .ok () after) : 0 ≤ state.steps := by
  obtain ⟨-, hcount, -, product, hproduct, himported, -⟩ := cache.importState_ok h hsome
  obtain ⟨p, hp⟩ := zip_some hcount hsome
  obtain ⟨planned, hplan⟩ := plan_of_import ((importLayers_ok himported).1 p hp)
  obtain ⟨-, -, -, key, value, hkey, -⟩ := cache.plan_ok hplan
  have hbatch := cache.batchSize_pos
  have hbound := (copyBatches_bound (by omega) hkey).2
  have htensor := cache.tensor_lt
  rw [List.length_replicate] at hbound
  obtain ⟨rfl, hrange⟩ := int64_ok hproduct
  have hnonneg := nonneg_of_toSize hrange.1 (by omega)
  by_contra hnegative
  have hproductNegative := mul_neg_of_neg_of_pos (not_le.mp hnegative) cache.rowElems_pos
  omega

theorem BatchedKVCall.within {cache after : TransformerBatchedKVCache F} (hwithin : cache.Within)
    {call : BatchedKVCall F} (h : call.after narrowing cache = some after) : after.Within := by
  cases call with
  | importState state =>
    cases hrun : cache.importState narrowing state with
    | error failure left => simp [BatchedKVCall.after, hrun] at h
    | ok value left =>
      simp only [BatchedKVCall.after, hrun, Option.some.injEq] at h
      subst h
      by_cases hsome : cache.layers = []
      · by_cases hbatch : state.batchSize = cache.batchSize
        · have hempty : cache.importState narrowing state =
              .ok () { cache with currentEnd := state.currentEnd, validSteps := 0 } := by
            simp [TransformerBatchedKVCache.importState, hsome, hbatch]
          rw [hempty] at hrun
          cases hrun
          exact ⟨le_rfl, cache.cacheSteps_pos.le⟩
        · simp [TransformerBatchedKVCache.importState, hbatch] at hrun
      · have hnonneg := TransformerBatchedKVCache.steps_nonneg hsome hrun
        obtain ⟨-, -, hroom, product, -, -, rfl⟩ := cache.importState_ok hrun hsome
        exact ⟨hnonneg, hroom⟩
  | advanceAfterDirectAppend steps =>
    have hok := toOption_some h
    unfold TransformerBatchedKVCache.advanceAfterDirectAppend at hok
    by_cases hnone : steps ≤ 0
    · rw [if_pos hnone] at hok
      rwa [← Except.ok.inj hok]
    rw [if_neg hnone] at hok
    obtain ⟨sum, hsum, hok⟩ := except_bind_ok hok
    obtain ⟨rfl, -⟩ := int64_ok hsum
    split_ifs at hok with hfull
    · cases hok
    obtain ⟨currentEnd, -, hok⟩ := except_bind_ok hok
    obtain rfl := Except.ok.inj hok
    have hfirst := hwithin.1
    exact ⟨by dsimp only; omega, not_lt.mp hfull⟩

theorem BatchedKVCall.run_within {cache after : TransformerBatchedKVCache F}
    (hwithin : cache.Within) {calls : List (BatchedKVCall F)}
    (h : calls.foldlM (fun cache call => call.after narrowing cache) cache = some after) :
    after.Within := by
  induction calls generalizing cache with
  | nil =>
    rw [← Option.some_inj.mp h]
    exact hwithin
  | cons call calls ih =>
    rw [List.foldlM_cons] at h
    obtain ⟨next, hnext, hrest⟩ := Option.bind_eq_some_iff.mp h
    exact ih (call.within hwithin hnext) hrest

/-! ## Both caches -/

/-- What both caches accept with `f32` tensors they export again, and calls that succeed keep the
number of valid steps within the capacity of a cache that was constructed. -/
theorem kvCaches_roundTrip (narrowing : Narrowing F) :
    (∀ cache : TransformerKVCache F, cache.layers ≠ [] → (∀ layer ∈ cache.layers, layer.IsF32) →
      ∀ state : TransformerKVState F, state.Vectors → ∀ after,
        cache.importState narrowing state = .ok () after → after.exportState = .ok state) ∧
    (∀ cache : TransformerBatchedKVCache F, cache.layers ≠ [] →
      (∀ layer ∈ cache.layers, layer.IsF32) → ∀ (state : TransformerBatchedKVState F) after,
        cache.importState narrowing state = .ok () after → after.exportState = .ok state) ∧
    (∀ cache : TransformerKVCache F, cache.validSteps = 0 → ∀ calls : List (KVCall F),
      (∀ state, .importState state ∈ calls → state.Vectors) → ∀ after,
        calls.foldlM (fun cache call => call.after narrowing cache) cache = some after →
          0 ≤ after.validSteps ∧ after.validSteps ≤ after.cacheSteps) ∧
    ∀ cache : TransformerBatchedKVCache F, cache.validSteps = 0 →
      ∀ (calls : List (BatchedKVCall F)) after,
        calls.foldlM (fun cache call => call.after narrowing cache) cache = some after →
          0 ≤ after.validSteps ∧ after.validSteps ≤ after.cacheSteps := by
  refine ⟨?_, ?_, ?_, ?_⟩
  · intro cache hsome hf32 state hvectors after h
    exact cache.export_import hsome hf32 hvectors h
  · intro cache hsome hf32 state after h
    exact cache.export_import hsome hf32 h
  · intro cache hstart calls hvectors after h
    exact KVCall.run_within ⟨hstart.ge, hstart.le.trans cache.cacheSteps_nonneg⟩ hvectors h
  · intro cache hstart calls after h
    exact BatchedKVCall.run_within ⟨hstart.ge, hstart.le.trans cache.cacheSteps_pos.le⟩ h

theorem twoSteps_pos : (0 : ℤ) < 2 := by decide

theorem twoSteps_lt : (2 : ℤ) * (2 * 1) < 2 ^ 63 := by decide

/-- A batch of two sequences with room for two steps of one number. -/
def twoSequences : TransformerBatchedKVCache ℤ where
  cacheSteps := 2
  batchSize := 2
  rowElems := 1
  validSteps := 0
  currentEnd := 0
  options := ⟨false, false⟩
  layers := [⟨⟨bytes "cache", .f32, 4, [0, 0, 0, 0]⟩, ⟨bytes "cache", .f32, 4, [0, 0, 0, 0]⟩⟩]
  cacheSteps_pos := twoSteps_pos
  batchSize_pos := twoSteps_pos
  rowElems_pos := oneElem_pos
  elems_lt := twoSteps_lt

theorem kvCaches_roundTrip_two :
    (∃ after, twoLayers.importState plainNumbers ⟨3, [⟨1, [7], [8]⟩, ⟨1, [5], [6]⟩]⟩ =
        .ok () after ∧
      after.exportState = .ok ⟨3, [⟨1, [7], [8]⟩, ⟨1, [5], [6]⟩]⟩) ∧
    (∃ after, twoSequences.importState plainNumbers ⟨2, 9, [⟨1, [5, 6], [7, 8]⟩]⟩ = .ok () after ∧
      after.layers.map (·.keyTensor.data) = [[5, 0, 6, 0]] ∧
      after.exportState = .ok ⟨2, 9, [⟨1, [5, 6], [7, 8]⟩]⟩) ∧
    ∃ after, [KVCall.markDeviceImport 1, .retainPrefix 0, .advanceAfterDirectAppend 1].foldlM
        (fun cache call => call.after plainNumbers cache) twoLayers = some after ∧
      0 ≤ after.validSteps ∧ after.validSteps ≤ after.cacheSteps := by
  refine ⟨⟨_, rfl, ?_⟩, ⟨_, rfl, rfl, ?_⟩, ⟨_, rfl, ?_⟩⟩
  · exact (kvCaches_roundTrip plainNumbers).1 twoLayers (by simp [twoLayers])
      (by simp [twoLayers, oneStep, LayerCache.IsF32]) _ (by simp [TransformerKVState.Vectors]) _
        rfl
  · exact (kvCaches_roundTrip plainNumbers).2.1 twoSequences (by simp [twoSequences])
      (by simp [twoSequences, LayerCache.IsF32]) _ _ rfl
  · exact (kvCaches_roundTrip plainNumbers).2.2.1 twoLayers rfl
      [.markDeviceImport 1, .retainPrefix 0, .advanceAfterDirectAppend 1] (by simp) _ rfl

end FastTts.KvTensors
