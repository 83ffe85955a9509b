import FastTts.KvTensors

/-!
# The rolling cache of the flow decoder

`RollingFlowKVCache` keeps the last steps of each layer at the end of its buffers, as bytes. The
number of bytes of a block is a product of `size_t`: it comes round at `2 ^ 64`, and a block that is
far too short is accepted for a number of steps that is large enough.
-/

namespace FastTts.FlowKvCache

open Blocks
open KvTensors (TensorType)

structure FlowKVLayerCache where
  type : TensorType
  keyBytes : Bytes
  valueBytes : Bytes
  validSteps : ℤ
  capacitySteps : ℤ
  stepValues : ℤ
  stepBytes : ℕ
  deriving DecidableEq

/-- `lengthError` is that of a vector that would be too long. -/
inductive Failure
  | thrown (exception : Exception)
  | lengthError
  | undefined
  deriving DecidableEq, Repr

def sizeProduct (a b : ℕ) : ℕ := a * b % 2 ^ 64

/-- `ggml_type_size` of the types that are accepted. -/
def typeSize : TensorType → ℕ
  | .f32 => 4
  | .f16 => 2
  | .bf16 => 2
  | .other => 0

def resetLayer (type : TensorType) (stepValues capacity : ℤ) : Except Failure FlowKVLayerCache :=
  if capacity ≤ 0 then
    .error (.thrown (bytes "RollingFlowKVCache requires positive layer capacity"))
  else
    let stepBytes := sizeProduct stepValues.toNat (typeSize type)
    let size := sizeProduct capacity.toNat stepBytes
    if 2 ^ 63 ≤ size then .error .lengthError
    else .ok
      { type := type
        keyBytes := List.replicate size 0
        valueBytes := List.replicate size 0
        validSteps := 0
        capacitySteps := capacity
        stepValues := stepValues
        stepBytes := stepBytes }

/-- Nothing is left of the layers before; a reset that throws leaves some of them. -/
def reset (layerCapacities : List ℤ) (stepValues : ℤ) (type : TensorType) :
    Except Failure (List FlowKVLayerCache) :=
  if type = .other then
    .error (.thrown (bytes "RollingFlowKVCache supports only f32/f16/bf16 cache storage"))
  else if stepValues ≤ 0 then
    .error (.thrown (bytes "RollingFlowKVCache requires positive step values"))
  else layerCapacities.mapM (resetLayer type stepValues)

def clearValidSteps (layers : List FlowKVLayerCache) : List FlowKVLayerCache :=
  layers.map fun layer => { layer with
    keyBytes := List.replicate layer.keyBytes.length 0
    valueBytes := List.replicate layer.valueBytes.length 0
    validSteps := 0 }

/-- The blocks are no longer than a vector can be. -/
structure AppendCall where
  layerIndex : ℕ
  currentKey : Bytes
  currentValue : Bytes
  currentSteps : ℤ
  appendSteps : ℤ
  label : Bytes
  key_lt : currentKey.length < 2 ^ 63
  value_lt : currentValue.length < 2 ^ 63

/-- The steps from `start` on, collected one by one. -/
def storedSteps (buffer : Bytes) (start stepBytes count : ℕ) : Except Failure Bytes :=
  (List.range count).foldlM (fun logical step =>
    if sizeProduct (start + step) stepBytes + stepBytes ≤ buffer.length then
      .ok (logical ++ (buffer.drop (sizeProduct (start + step) stepBytes)).take stepBytes)
    else .error .undefined) []

def withBlock (logical block : Bytes) (size : ℕ) : Except Failure Bytes :=
  if size ≤ block.length then .ok (logical ++ block.take size) else .error .undefined

/-- All that comes before the layer is changed: the checks, and the steps of the layer with those of
the block behind them. -/
def logicalSteps (cache : FlowKVLayerCache) (call : AppendCall) : Except Failure (Bytes × Bytes) :=
  if call.currentSteps ≤ 0 ∨ call.appendSteps ≤ 0 ∨ call.currentSteps < call.appendSteps then
    .error (.thrown (call.label ++ bytes " received invalid KV append size"))
  else if call.currentKey.length ≠ sizeProduct call.currentSteps.toNat cache.stepBytes ∨
      call.currentValue.length ≠ sizeProduct call.currentSteps.toNat cache.stepBytes then
    .error (.thrown (call.label ++ bytes " current KV shape mismatch"))
  else if 2 ^ 63 ≤ cache.validSteps + call.appendSteps then .error .undefined
  else if 2 ^ 63 ≤ sizeProduct (cache.validSteps + call.appendSteps).toNat cache.stepBytes then
    .error .lengthError
  else do
    let start := (cache.capacitySteps - cache.validSteps).toNat
    let size := sizeProduct call.appendSteps.toNat cache.stepBytes
    let storedKey ← storedSteps cache.keyBytes start cache.stepBytes cache.validSteps.toNat
    let storedValue ← storedSteps cache.valueBytes start cache.stepBytes cache.validSteps.toNat
    let logicalKey ← withBlock storedKey call.currentKey size
    let logicalValue ← withBlock storedValue call.currentValue size
    if cache.stepBytes = 0 then .error .undefined else return (logicalKey, logicalValue)

/-- The last bytes at the end of a buffer that is filled with zeros. -/
def tailAligned (buffer logical : Bytes) (size : ℕ) : Bytes :=
  List.replicate (buffer.length - size) 0 ++ logical.drop (logical.length - size)

def appendToLayer (call : AppendCall) (cache : FlowKVLayerCache) :
    EStateM.Result Failure FlowKVLayerCache Unit :=
  match logicalSteps cache call with
  | .error failure => .error failure cache
  | .ok (logicalKey, logicalValue) =>
    let newValid := min cache.capacitySteps (logicalKey.length / cache.stepBytes : ℕ)
    let size := sizeProduct newValid.toNat cache.stepBytes
    let filled := { cache with
      validSteps := newValid
      keyBytes := List.replicate cache.keyBytes.length 0
      valueBytes := List.replicate cache.valueBytes.length 0 }
    if logicalKey.length < size ∨ logicalValue.length < size ∨ cache.keyBytes.length < size ∨
        cache.valueBytes.length < size then .error .undefined filled
    else .ok () { filled with
      keyBytes := tailAligned cache.keyBytes logicalKey size
      valueBytes := tailAligned cache.valueBytes logicalValue size }

def appendTailBytes (call : AppendCall) (layers : List FlowKVLayerCache) :
    EStateM.Result Failure (List FlowKVLayerCache) Unit :=
  match layers[call.layerIndex]? with
  | none => .error (.thrown (bytes "RollingFlowKVCache layer index is out of range")) layers
  | some layer =>
    match appendToLayer call layer with
    | .ok () after => .ok () (layers.set call.layerIndex after)
    | .error failure after => .error failure (layers.set call.layerIndex after)

/-- The blocks of a call of the size that is asked for hold the steps that are appended. -/
def AppendCall.Holds (call : AppendCall) (stepBytes : ℕ) : Prop :=
  call.currentKey.length = sizeProduct call.currentSteps.toNat stepBytes →
    call.currentValue.length = sizeProduct call.currentSteps.toNat stepBytes →
    call.appendSteps.toNat * stepBytes ≤ call.currentKey.length

/-- The rows of a buffer: the last of the steps that were appended, and zeros before them. -/
def alignedRows (capacity stepBytes : ℕ) (steps : List Bytes) : List Bytes :=
  List.replicate (capacity - steps.length) (List.replicate stepBytes 0) ++ steps.rtake capacity

/-- A layer after these steps have been appended to it. -/
structure Aligned (capacity : ℤ) (stepBytes : ℕ) (keys values : List Bytes)
    (layer : FlowKVLayerCache) : Prop where
  capacitySteps : layer.capacitySteps = capacity
  stepBytes_eq : layer.stepBytes = stepBytes
  validSteps : layer.validSteps = min capacity keys.length
  values_length : values.length = keys.length
  key_length : ∀ row ∈ keys, row.length = stepBytes
  value_length : ∀ row ∈ values, row.length = stepBytes
  keyBytes : layer.keyBytes = (alignedRows capacity.toNat stepBytes keys).flatten
  valueBytes : layer.valueBytes = (alignedRows capacity.toNat stepBytes values).flatten

section Rows

variable {capacity stepBytes : ℕ} {steps : List Bytes}

theorem length_alignedRows : (alignedRows capacity stepBytes steps).length = capacity := by
  rw [alignedRows, List.rtake, List.length_append, List.length_replicate, List.length_drop]
  omega

theorem length_of_mem_alignedRows (h : ∀ row ∈ steps, row.length = stepBytes) :
    ∀ row ∈ alignedRows capacity stepBytes steps, row.length = stepBytes := by
  intro row hrow
  rw [alignedRows, List.mem_append] at hrow
  rcases hrow with hzero | hstep
  · rw [List.eq_of_mem_replicate hzero, List.length_replicate]
  · exact h row (List.mem_of_mem_drop hstep)

theorem drop_alignedRows :
    (alignedRows capacity stepBytes steps).drop (capacity - min capacity steps.length) =
      steps.rtake capacity := by
  rw [alignedRows]
  apply List.drop_left'
  rw [List.length_replicate]
  omega

theorem storedSteps_flatten {rows : List Bytes} (h : ∀ row ∈ rows, row.length = stepBytes)
    (hroom : rows.length * stepBytes < 2 ^ 64) {start count : ℕ}
    (hall : start + count = rows.length) :
    storedSteps rows.flatten start stepBytes count = .ok (rows.drop start).flatten := by
  have hloop : ∀ done ≤ count, storedSteps rows.flatten start stepBytes done =
      .ok ((rows.drop start).take done).flatten := by
    intro done hdone
    induction done with
    | zero => rfl
    | succ done ih =>
      have hrow : start + done < rows.length := by omega
      have hlast : (start + done + 1) * stepBytes ≤ rows.length * stepBytes :=
        Nat.mul_le_mul_right stepBytes hrow
      rw [Nat.succ_mul] at hlast
      have hoffset : sizeProduct (start + done) stepBytes = (start + done) * stepBytes :=
        Nat.mod_eq_of_lt (by omega)
      have hread := slice_flatten h (start + done)
      rw [slice, List.getD_eq_getElem?_getD, List.getElem?_eq_getElem hrow,
        Option.getD_some] at hread
      have hnext : (rows.drop start).take (done + 1) = (rows.drop start).take done ++
          [rows[start + done]] := by
        rw [List.take_add_one, List.getElem?_drop, List.getElem?_eq_getElem hrow]
        rfl
      have hbefore := ih (by omega)
      rw [storedSteps] at hbefore
      rw [storedSteps, List.range_succ, List.foldlM_append, hbefore, hnext, List.flatten_append,
        List.flatten_singleton, ← hread, ← hoffset]
      have hinside : sizeProduct (start + done) stepBytes + stepBytes ≤ rows.flatten.length := by
        rw [hoffset, length_flatten h]
        exact hlast
      simp only [List.foldlM_cons, List.foldlM_nil, bind, Except.bind, if_pos hinside]
      rfl
  have hend := hloop count (Nat.le_refl count)
  rwa [List.take_of_length_le (by rw [List.length_drop]; omega)] at hend

theorem storedSteps_alignedRows (h : ∀ row ∈ steps, row.length = stepBytes)
    (hroom : capacity * stepBytes < 2 ^ 63) :
    storedSteps (alignedRows capacity stepBytes steps).flatten
        (capacity - min capacity steps.length) stepBytes (min capacity steps.length) =
      .ok (steps.rtake capacity).flatten := by
  rw [storedSteps_flatten (length_of_mem_alignedRows h), drop_alignedRows]
  · rw [length_alignedRows]
    omega
  · rw [length_alignedRows]
    omega

variable {added : List Bytes}

variable (capacity) in
theorem length_of_mem_stored (h : ∀ row ∈ steps, row.length = stepBytes)
    (hadded : ∀ row ∈ added, row.length = stepBytes) :
    ∀ row ∈ steps.rtake capacity ++ added, row.length = stepBytes := by
  intro row hrow
  rw [List.mem_append] at hrow
  rcases hrow with hstored | hnew
  · exact h row (List.mem_of_mem_drop hstored)
  · exact hadded row hnew

theorem length_stored :
    (steps.rtake capacity ++ added).length = min capacity steps.length + added.length := by
  rw [List.length_append, List.rtake, List.length_drop]
  omega

theorem tailAligned_rows {buffer : Bytes} (h : ∀ row ∈ steps, row.length = stepBytes)
    (hadded : ∀ row ∈ added, row.length = stepBytes)
    (hbuffer : buffer.length = capacity * stepBytes) :
    tailAligned buffer (steps.rtake capacity ++ added).flatten
        (min capacity (min capacity steps.length + added.length) * stepBytes) =
      (alignedRows capacity stepBytes (steps ++ added)).flatten := by
  have hrows := length_of_mem_stored capacity h hadded
  have hzeros : capacity - min capacity (min capacity steps.length + added.length) =
      capacity - (steps ++ added).length := by
    rw [List.length_append]
    omega
  have htail : (steps.rtake capacity ++ added).drop (min capacity steps.length + added.length -
      min capacity (min capacity steps.length + added.length)) =
      (steps ++ added).rtake capacity := by
    rw [← rtake_rtake_append, List.rtake.eq_1 (steps.rtake capacity ++ added), length_stored]
    congr 1
    omega
  rw [tailAligned, hbuffer, length_flatten hrows, length_stored, ← Nat.sub_mul, ← Nat.sub_mul,
    hzeros, drop_flatten hrows, htail, alignedRows, List.flatten_append,
    List.flatten_replicate_replicate]

end Rows

section Step

variable {capacity : ℤ} {stepBytes : ℕ} {keys values : List Bytes} {layer : FlowKVLayerCache}
  {call : AppendCall}

/-- What `reset` leaves for the sizes where no product comes round. -/
structure Sizes (capacity : ℤ) (stepBytes : ℕ) : Prop where
  capacity_pos : 0 < capacity
  two_le : 2 ≤ stepBytes
  room : capacity.toNat * stepBytes < 2 ^ 63

def appended (stepBytes : ℕ) (appendSteps : ℤ) (block : Bytes) : List Bytes :=
  rowsOf stepBytes appendSteps.toNat block

theorem withBlock_eq {stored block : Bytes} {appendSteps : ℤ}
    (h : appendSteps.toNat * stepBytes ≤ block.length) :
    withBlock stored block (appendSteps.toNat * stepBytes) =
      .ok (stored ++ (appended stepBytes appendSteps block).flatten) := by
  rw [withBlock, if_pos h, appended, flatten_rowsOf]

section

variable (hsizes : Sizes capacity stepBytes) (h : Aligned capacity stepBytes keys values layer)
include hsizes h

theorem validSteps_add_lt (hkey : call.appendSteps.toNat * stepBytes ≤ call.currentKey.length) :
    ¬ 2 ^ 63 ≤ layer.validSteps + call.appendSteps := by
  have hpos := hsizes.capacity_pos
  have hroom := hsizes.room
  have hkeyLt := call.key_lt
  have hvalid := h.validSteps
  have hcapacity : capacity.toNat * 2 ≤ capacity.toNat * stepBytes :=
    Nat.mul_le_mul_left _ hsizes.two_le
  have happend : call.appendSteps.toNat * 2 ≤ call.appendSteps.toNat * stepBytes :=
    Nat.mul_le_mul_left _ hsizes.two_le
  omega

theorem logicalSteps_checked (hsteps : ¬ (call.currentSteps ≤ 0 ∨ call.appendSteps ≤ 0 ∨
      call.currentSteps < call.appendSteps))
    (hshape : ¬ (call.currentKey.length ≠ sizeProduct call.currentSteps.toNat layer.stepBytes ∨
      call.currentValue.length ≠ sizeProduct call.currentSteps.toNat layer.stepBytes))
    (hlong : ¬ 2 ^ 63 ≤ sizeProduct (layer.validSteps + call.appendSteps).toNat layer.stepBytes)
    (hkey : call.appendSteps.toNat * stepBytes ≤ call.currentKey.length)
    (hvalue : call.appendSteps.toNat * stepBytes ≤ call.currentValue.length) :
    logicalSteps layer call = .ok ((keys.rtake capacity.toNat ++
          appended stepBytes call.appendSteps call.currentKey).flatten,
        (values.rtake capacity.toNat ++
          appended stepBytes call.appendSteps call.currentValue).flatten) := by
  have hpos := hsizes.capacity_pos
  have hroom := hsizes.room
  have hkeyLt := call.key_lt
  have hvalid := h.validSteps
  have hsize : sizeProduct call.appendSteps.toNat stepBytes = call.appendSteps.toNat * stepBytes :=
    Nat.mod_eq_of_lt (by omega)
  have hsum := validSteps_add_lt hsizes h hkey
  have hstepBytes : ¬ layer.stepBytes = 0 := by
    have htwo := hsizes.two_le
    rw [h.stepBytes_eq]
    omega
  have hcount : layer.validSteps.toNat = min capacity.toNat keys.length := by omega
  have hstart : (layer.capacitySteps - layer.validSteps).toNat =
      capacity.toNat - min capacity.toNat keys.length := by
    rw [h.capacitySteps]
    omega
  have hstoredKey := storedSteps_alignedRows h.key_length hroom
  have hstoredValue := storedSteps_alignedRows h.value_length hroom
  rw [h.values_length] at hstoredValue
  rw [logicalSteps, if_neg hsteps, if_neg hshape, if_neg hsum, if_neg hlong]
  simp only [hcount, hstart, h.stepBytes_eq, hsize, h.keyBytes, h.valueBytes, hstoredKey,
    hstoredValue, withBlock_eq hkey, withBlock_eq hvalue, bind, Except.bind]
  rw [h.stepBytes_eq] at hstepBytes
  rw [if_neg hstepBytes, List.flatten_append, List.flatten_append]
  rfl

theorem logicalSteps_of_aligned (hholds : call.Holds stepBytes) :
    (∃ failure, logicalSteps layer call = .error failure ∧ failure ≠ .undefined) ∨
      (0 < call.appendSteps ∧ call.appendSteps.toNat * stepBytes ≤ call.currentKey.length ∧
        call.appendSteps.toNat * stepBytes ≤ call.currentValue.length ∧ logicalSteps layer call =
          .ok ((keys.rtake capacity.toNat ++
              appended stepBytes call.appendSteps call.currentKey).flatten,
            (values.rtake capacity.toNat ++
              appended stepBytes call.appendSteps call.currentValue).flatten)) := by
  by_cases hsteps : call.currentSteps ≤ 0 ∨ call.appendSteps ≤ 0 ∨
      call.currentSteps < call.appendSteps
  · rw [logicalSteps, if_pos hsteps]
    exact Or.inl ⟨_, rfl, by simp⟩
  by_cases hshape : call.currentKey.length ≠ sizeProduct call.currentSteps.toNat layer.stepBytes ∨
      call.currentValue.length ≠ sizeProduct call.currentSteps.toNat layer.stepBytes
  · rw [logicalSteps, if_neg hsteps, if_pos hshape]
    exact Or.inl ⟨_, rfl, by simp⟩
  obtain ⟨hkeySize, hvalueSize⟩ := not_or.mp hshape
  rw [not_not, h.stepBytes_eq] at hkeySize hvalueSize
  have hkey := hholds hkeySize hvalueSize
  have hvalue := hkey
  rw [hkeySize, ← hvalueSize] at hvalue
  have hsum := validSteps_add_lt hsizes h hkey
  by_cases hlong : 2 ^ 63 ≤
      sizeProduct (layer.validSteps + call.appendSteps).toNat layer.stepBytes
  · rw [logicalSteps, if_neg hsteps, if_neg hshape, if_neg hsum, if_pos hlong]
    exact Or.inl ⟨_, rfl, by simp⟩
  exact Or.inr ⟨by omega, hkey, hvalue,
    logicalSteps_checked hsizes h hsteps hshape hlong hkey hvalue⟩

end

theorem Aligned.length_keyBytes (h : Aligned capacity stepBytes keys values layer) :
    layer.keyBytes.length = capacity.toNat * stepBytes := by
  rw [h.keyBytes, length_flatten (length_of_mem_alignedRows h.key_length), length_alignedRows]

theorem Aligned.length_valueBytes (h : Aligned capacity stepBytes keys values layer) :
    layer.valueBytes.length = capacity.toNat * stepBytes := by
  rw [h.valueBytes, length_flatten (length_of_mem_alignedRows h.value_length), length_alignedRows]

section

variable (hsizes : Sizes capacity stepBytes) (h : Aligned capacity stepBytes keys values layer)
include hsizes h

theorem appendToLayer_eq {newKeys newValues : List Bytes} {total : ℕ}
    (hkeys : ∀ row ∈ newKeys, row.length = stepBytes) (hkeysTotal : newKeys.length = total)
    (hvalues : ∀ row ∈ newValues, row.length = stepBytes) (hvaluesTotal : newValues.length = total)
    (hlogical : logicalSteps layer call = .ok (newKeys.flatten, newValues.flatten)) :
    appendToLayer call layer = .ok () { layer with
      validSteps := (min capacity.toNat total : ℕ)
      keyBytes :=
        tailAligned layer.keyBytes newKeys.flatten (min capacity.toNat total * stepBytes)
      valueBytes :=
        tailAligned layer.valueBytes newValues.flatten (min capacity.toNat total * stepBytes) } :=
    by
  have hpos := hsizes.capacity_pos
  have htwo := hsizes.two_le
  have hroom := hsizes.room
  have hvalid : min capacity (total : ℤ) = (min capacity.toNat total : ℕ) := by omega
  have hcapacity : min capacity.toNat total * stepBytes ≤ capacity.toNat * stepBytes :=
    Nat.mul_le_mul_right _ (Nat.min_le_left _ _)
  have htotal : min capacity.toNat total * stepBytes ≤ total * stepBytes :=
    Nat.mul_le_mul_right _ (Nat.min_le_right _ _)
  have hsize : sizeProduct (min capacity.toNat total) stepBytes =
      min capacity.toNat total * stepBytes := Nat.mod_eq_of_lt (by omega)
  have hdiv : total * stepBytes / stepBytes = total := Nat.mul_div_cancel _ (by omega)
  simp only [appendToLayer, hlogical, length_flatten hkeys, length_flatten hvalues, hkeysTotal,
    hvaluesTotal, h.stepBytes_eq, h.capacitySteps, hdiv, hvalid, Int.toNat_natCast, hsize,
    h.length_keyBytes, h.length_valueBytes]
  rw [if_neg (by omega)]

theorem appendToLayer_of_aligned (hholds : call.Holds stepBytes) :
    (∃ failure, appendToLayer call layer = .error failure layer ∧ failure ≠ .undefined) ∨
      ∃ after, appendToLayer call layer = .ok () after ∧
        Aligned capacity stepBytes (keys ++ appended stepBytes call.appendSteps call.currentKey)
          (values ++ appended stepBytes call.appendSteps call.currentValue) after := by
  rcases logicalSteps_of_aligned hsizes h hholds with
    ⟨failure, hfailure, hdefined⟩ | ⟨happend, hkey, hvalue, hlogical⟩
  · refine Or.inl ⟨failure, ?_, hdefined⟩
    rw [appendToLayer, hfailure]
  have hpos := hsizes.capacity_pos
  have hnewKey : ∀ row ∈ appended stepBytes call.appendSteps call.currentKey,
      row.length = stepBytes := fun row hrow => length_of_mem_rowsOf hkey hrow
  have hnewValue : ∀ row ∈ appended stepBytes call.appendSteps call.currentValue,
      row.length = stepBytes := fun row hrow => length_of_mem_rowsOf hvalue hrow
  have htotalKey : (keys.rtake capacity.toNat ++
      appended stepBytes call.appendSteps call.currentKey).length =
      min capacity.toNat keys.length + call.appendSteps.toNat := by
    rw [length_stored, appended, length_rowsOf]
  have htotalValue : (values.rtake capacity.toNat ++
      appended stepBytes call.appendSteps call.currentValue).length =
      min capacity.toNat keys.length + call.appendSteps.toNat := by
    rw [length_stored, appended, length_rowsOf, h.values_length]
  have hafter := appendToLayer_eq hsizes h
    (length_of_mem_stored capacity.toNat h.key_length hnewKey) htotalKey
    (length_of_mem_stored capacity.toNat h.value_length hnewValue) htotalValue hlogical
  have htailKey := tailAligned_rows h.key_length hnewKey h.length_keyBytes
  have htailValue := tailAligned_rows h.value_length hnewValue h.length_valueBytes
  rw [← length_stored, htotalKey] at htailKey
  rw [← length_stored, htotalValue] at htailValue
  rw [htailKey, htailValue] at hafter
  refine Or.inr ⟨_, hafter, h.capacitySteps, h.stepBytes_eq, ?_, ?_, ?_, ?_, rfl, rfl⟩
  · simp only [List.length_append, appended, length_rowsOf]
    omega
  · simp only [List.length_append, appended, length_rowsOf, h.values_length]
  · intro row hrow
    rw [List.mem_append] at hrow
    exact hrow.elim (h.key_length row) (hnewKey row)
  · intro row hrow
    rw [List.mem_append] at hrow
    exact hrow.elim (h.value_length row) (hnewValue row)

end

theorem flatten_alignedRows_nil (capacity stepBytes : ℕ) :
    (alignedRows capacity stepBytes []).flatten = List.replicate (capacity * stepBytes) 0 := by
  rw [alignedRows, List.rtake_nil, List.append_nil, List.flatten_replicate_replicate]
  rfl

theorem resetLayer_aligned {type : TensorType} {stepValues : ℤ} (htype : type ≠ .other)
    (hvalues : 0 < stepValues)
    (hfits : capacity.toNat * (stepValues.toNat * typeSize type) < 2 ^ 64)
    (hreset : resetLayer type stepValues capacity = .ok layer) :
    Sizes capacity (stepValues.toNat * typeSize type) ∧
      Aligned capacity (stepValues.toNat * typeSize type) [] [] layer := by
  unfold resetLayer at hreset
  by_cases hcapacity : capacity ≤ 0
  · rw [if_pos hcapacity] at hreset
    cases hreset
  rw [if_neg hcapacity] at hreset
  have htwo : 2 ≤ typeSize type := by cases type <;> simp [typeSize] at htype ⊢
  have hstep : 1 * typeSize type ≤ stepValues.toNat * typeSize type :=
    Nat.mul_le_mul_right _ (by omega)
  have hone : 1 * (stepValues.toNat * typeSize type) ≤
      capacity.toNat * (stepValues.toNat * typeSize type) := Nat.mul_le_mul_right _ (by omega)
  have hstepBytes : sizeProduct stepValues.toNat (typeSize type) =
      stepValues.toNat * typeSize type := Nat.mod_eq_of_lt (by omega)
  have hsize : sizeProduct capacity.toNat (stepValues.toNat * typeSize type) =
      capacity.toNat * (stepValues.toNat * typeSize type) := Nat.mod_eq_of_lt hfits
  simp only [hstepBytes, hsize] at hreset
  by_cases hlong : 2 ^ 63 ≤ capacity.toNat * (stepValues.toNat * typeSize type)
  · rw [if_pos hlong] at hreset
    cases hreset
  rw [if_neg hlong] at hreset
  cases hreset
  refine ⟨⟨by omega, by omega, by omega⟩, rfl, rfl, ?_, rfl, by simp, by simp, ?_, ?_⟩
  · simp only [List.length_nil]
    omega
  · exact (flatten_alignedRows_nil _ _).symm
  · exact (flatten_alignedRows_nil _ _).symm

theorem clear_aligned (hsizes : Sizes capacity stepBytes)
    (h : Aligned capacity stepBytes keys values layer) :
    Aligned capacity stepBytes [] [] { layer with
      keyBytes := List.replicate layer.keyBytes.length 0
      valueBytes := List.replicate layer.valueBytes.length 0
      validSteps := 0 } := by
  have hpos := hsizes.capacity_pos
  refine ⟨h.capacitySteps, h.stepBytes_eq, ?_, rfl, by simp, by simp, ?_, ?_⟩
  · simp only [List.length_nil]
    omega
  · rw [flatten_alignedRows_nil, h.length_keyBytes]
  · rw [flatten_alignedRows_nil, h.length_valueBytes]

end Step

/-! ## Runs -/

inductive CacheCall
  | append (call : AppendCall)
  | clearValidSteps

/-- The layers, with the calls that were accepted since they were empty. -/
structure Run where
  layers : List FlowKVLayerCache
  accepted : List AppendCall

def runCall (state : Run) : CacheCall → Run
  | .append call =>
    match appendTailBytes call state.layers with
    | .ok () after => ⟨after, state.accepted ++ [call]⟩
    | .error _ after => ⟨after, state.accepted⟩
  | .clearValidSteps => ⟨clearValidSteps state.layers, []⟩

/-- The steps that were appended to a layer, of the keys or of the values. -/
def stepsOf (stepBytes i : ℕ) (block : AppendCall → Bytes) (accepted : List AppendCall) :
    List Bytes :=
  (accepted.filter fun call => call.layerIndex = i).flatMap fun call =>
    appended stepBytes call.appendSteps (block call)

/-- Every layer holds the last of what was appended to it. -/
def RunAligned (capacities : List ℤ) (stepBytes : ℕ) (state : Run) : Prop :=
  state.layers.length = capacities.length ∧
    ∀ i capacity, capacities[i]? = some capacity → ∃ layer, state.layers[i]? = some layer ∧
      Aligned capacity stepBytes (stepsOf stepBytes i AppendCall.currentKey state.accepted)
        (stepsOf stepBytes i AppendCall.currentValue state.accepted) layer

def CacheCall.Holds (stepBytes : ℕ) : CacheCall → Prop
  | .append call => call.Holds stepBytes
  | .clearValidSteps => True

section Runs

variable {capacities : List ℤ} {stepBytes : ℕ} {state : Run}

theorem stepsOf_append (i : ℕ) (block : AppendCall → Bytes) (accepted : List AppendCall)
    (call : AppendCall) :
    stepsOf stepBytes i block (accepted ++ [call]) = stepsOf stepBytes i block accepted ++
        (if call.layerIndex = i then appended stepBytes call.appendSteps (block call) else []) := by
  unfold stepsOf
  rw [List.filter_append, List.flatMap_append]
  congr 1
  by_cases hindex : call.layerIndex = i
  · simp [hindex]
  · simp [hindex]

section

variable (hsizes : ∀ capacity ∈ capacities, Sizes capacity stepBytes)
  (h : RunAligned capacities stepBytes state)
include hsizes h

theorem appendTailBytes_of_aligned {call : AppendCall} (hholds : call.Holds stepBytes) :
    (∃ failure, appendTailBytes call state.layers = .error failure state.layers ∧
        failure ≠ .undefined) ∨ ∃ after, appendTailBytes call state.layers = .ok () after ∧
        RunAligned capacities stepBytes ⟨after, state.accepted ++ [call]⟩ := by
  obtain ⟨hlength, hlayers⟩ := h
  cases hlayer : state.layers[call.layerIndex]? with
  | none =>
    rw [appendTailBytes, hlayer]
    exact Or.inl ⟨_, rfl, by simp⟩
  | some layer =>
    obtain ⟨hindex, hget⟩ := List.getElem?_eq_some_iff.mp hlayer
    rw [hlength] at hindex
    have hcapacity := List.getElem?_eq_getElem hindex
    obtain ⟨layer', hlayer', haligned⟩ := hlayers _ _ hcapacity
    rw [hlayer] at hlayer'
    cases hlayer'
    rcases appendToLayer_of_aligned (hsizes _ (List.getElem_mem hindex)) haligned hholds with
      ⟨failure, hfailure, hdefined⟩ | ⟨after, hafter, hmore⟩
    · refine Or.inl ⟨failure, ?_, hdefined⟩
      simp only [appendTailBytes, hlayer, hfailure]
      rw [← hget, List.set_getElem_self]
    · refine Or.inr ⟨state.layers.set call.layerIndex after, ?_, ?_, ?_⟩
      · simp only [appendTailBytes, hlayer, hafter]
      · rw [List.length_set, hlength]
      · intro i capacity hi
        rw [stepsOf_append, stepsOf_append]
        by_cases hsame : call.layerIndex = i
        · subst hsame
          rw [hcapacity] at hi
          cases hi
          rw [if_pos rfl, if_pos rfl]
          exact ⟨after, List.getElem?_set_self (by omega), hmore⟩
        · rw [if_neg hsame, if_neg hsame, List.append_nil, List.append_nil,
            List.getElem?_set_ne hsame]
          exact hlayers i capacity hi

theorem runCall_aligned (call : CacheCall) (hholds : call.Holds stepBytes) :
    RunAligned capacities stepBytes (runCall state call) := by
  cases call with
  | append call =>
    rcases appendTailBytes_of_aligned hsizes h hholds with
      ⟨failure, hfailure, _⟩ | ⟨after, hafter, hmore⟩
    · simpa only [runCall, hfailure] using h
    · simpa only [runCall, hafter] using hmore
  | clearValidSteps =>
    obtain ⟨hlength, hlayers⟩ := h
    refine ⟨?_, ?_⟩
    · rw [runCall, clearValidSteps, List.length_map, hlength]
    · intro i capacity hi
      obtain ⟨layer, hlayer, haligned⟩ := hlayers i capacity hi
      refine ⟨_, ?_, clear_aligned (hsizes capacity (List.mem_of_getElem? hi)) haligned⟩
      rw [runCall, clearValidSteps, List.getElem?_map, hlayer, Option.map_some]

theorem run_aligned (calls : List CacheCall) (hholds : ∀ call ∈ calls, call.Holds stepBytes) :
    RunAligned capacities stepBytes (calls.foldl runCall state) := by
  induction calls generalizing state with
  | nil => exact h
  | cons call calls ih =>
    exact ih (runCall_aligned hsizes h call (hholds call List.mem_cons_self))
      fun c hc => hholds c (List.mem_cons_of_mem call hc)

end

variable {type : TensorType} {stepValues : ℤ} {layers : List FlowKVLayerCache}

section

variable
  (hfits : ∀ capacity ∈ capacities, capacity.toNat * (stepValues.toNat * typeSize type) < 2 ^ 64)
  (hreset : reset capacities stepValues type = .ok layers)
include hfits hreset

theorem reset_aligned :
    (∀ capacity ∈ capacities, Sizes capacity (stepValues.toNat * typeSize type)) ∧
      RunAligned capacities (stepValues.toNat * typeSize type) ⟨layers, []⟩ := by
  unfold reset at hreset
  by_cases htype : type = .other
  · rw [if_pos htype] at hreset
    cases hreset
  rw [if_neg htype] at hreset
  by_cases hvalues : stepValues ≤ 0
  · rw [if_pos hvalues] at hreset
    cases hreset
  rw [if_neg hvalues] at hreset
  obtain ⟨hlength, hget⟩ := mapM_getElem? hreset
  have heach : ∀ (i : ℕ) capacity, capacities[i]? = some capacity →
      ∃ layer, layers[i]? = some layer ∧ Sizes capacity (stepValues.toNat * typeSize type) ∧
      Aligned capacity (stepValues.toNat * typeSize type) [] [] layer := by
    intro i capacity hi
    obtain ⟨layer, hlayer, hreset⟩ := hget i capacity hi
    exact ⟨layer, hlayer, resetLayer_aligned htype (by omega)
      (hfits capacity (List.mem_of_getElem? hi)) hreset⟩
  refine ⟨?_, hlength, ?_⟩
  · intro capacity hcapacity
    obtain ⟨i, hi⟩ := List.getElem?_of_mem hcapacity
    obtain ⟨layer, _, hsizes, _⟩ := heach i capacity hi
    exact hsizes
  · intro i capacity hi
    obtain ⟨layer, hlayer, _, haligned⟩ := heach i capacity hi
    exact ⟨layer, hlayer, haligned⟩

/-- In every run since a reset without a product that comes round, with blocks that hold the steps
that are appended, every layer holds the last of them, right-aligned; a further call is rejected
only without a change. -/
theorem appendTailBytes_run (calls : List CacheCall)
    (hholds : ∀ call ∈ calls, call.Holds (stepValues.toNat * typeSize type)) :
    let after := calls.foldl runCall ⟨layers, []⟩
    RunAligned capacities (stepValues.toNat * typeSize type) after ∧
      ∀ call : AppendCall, call.Holds (stepValues.toNat * typeSize type) → ∀ failure left,
        appendTailBytes call after.layers = .error failure left →
          failure ≠ .undefined ∧ left = after.layers := by
  obtain ⟨hsizes, hempty⟩ := reset_aligned hfits hreset
  have hrun := run_aligned hsizes hempty calls hholds
  refine ⟨hrun, ?_⟩
  intro call hcall failure left hleft
  rcases appendTailBytes_of_aligned hsizes hrun hcall with
    ⟨failure', hfailure, hdefined⟩ | ⟨after, hafter, _⟩
  · rw [hfailure] at hleft
    cases hleft
    exact ⟨hdefined, rfl⟩
  · rw [hafter] at hleft
    cases hleft

end

end Runs

/-- A call with blocks of a number of steps of four bytes. -/
def wordCall (block : Bytes) (h : block.length < 2 ^ 63) (currentSteps appendSteps : ℤ) :
    AppendCall :=
  ⟨0, block, block, currentSteps, appendSteps, bytes "flow", h, h⟩

theorem eightBytes : (bytes "abcdefgh").length < 2 ^ 63 := by decide

theorem twentyBytes : (bytes "abcdefghijklmnopqrst").length < 2 ^ 63 := by decide

def emptyLayer (capacity : ℕ) : FlowKVLayerCache :=
  ⟨.f32, List.replicate (capacity * 4) 0, List.replicate (capacity * 4) 0, 0, capacity, 1, 4⟩

def twoCalls : List CacheCall :=
  [.append (wordCall (bytes "abcdefgh") eightBytes 2 2),
    .append (wordCall (bytes "abcdefgh") eightBytes 2 1)]

theorem appendTailBytes_run_twice :
    RunAligned [2] 4 (twoCalls.foldl runCall ⟨[emptyLayer 2], []⟩) ∧
      ∃ layer, (twoCalls.foldl runCall ⟨[emptyLayer 2], []⟩).layers = [layer] ∧
        layer.validSteps = 2 ∧ layer.keyBytes = bytes "efghabcd" := by
  have hfits : ∀ capacity ∈ [(2 : ℤ)],
      capacity.toNat * ((1 : ℤ).toNat * typeSize .f32) < 2 ^ 64 := by decide
  have hholds : ∀ call ∈ twoCalls, call.Holds ((1 : ℤ).toNat * typeSize .f32) := by
    intro call hcall
    rcases List.mem_pair.mp hcall with rfl | rfl
    · intro _ _
      decide
    · intro _ _
      decide
  exact ⟨(appendTailBytes_run hfits rfl twoCalls hholds).1, _, rfl, rfl, rfl⟩

/-- `2 ^ 62 + 5` steps of four bytes come round to twenty bytes. -/
def wrappingCall : AppendCall :=
  wordCall (bytes "abcdefghijklmnopqrst") twentyBytes 4611686018427387909 4611686018427387906

theorem logicalSteps_wraps :
    logicalSteps (emptyLayer 4) wrappingCall = .ok (bytes "abcdefgh", bytes "abcdefgh") := by
  unfold logicalSteps
  rw [if_neg (by decide), if_neg (by decide), if_neg (by decide), if_neg (by decide)]
  rfl

/-- Two steps are appended, for the `2 ^ 62 + 2` that were asked for. -/
theorem appendTailBytes_wraps :
    let twoSteps := List.replicate 8 0 ++ bytes "abcdefgh"
    let after : FlowKVLayerCache := ⟨.f32, twoSteps, twoSteps, 2, 4, 1, 4⟩
    reset [4] 1 .f32 = .ok [emptyLayer 4] ∧
      appendTailBytes wrappingCall [emptyLayer 4] = .ok () [after] ∧
      ¬ RunAligned [4] 4 ⟨[after], [wrappingCall]⟩ := by
  intro twoSteps after
  refine ⟨rfl, ?_, ?_⟩
  · have hlayer : [emptyLayer 4][wrappingCall.layerIndex]? = some (emptyLayer 4) := rfl
    simp only [appendTailBytes, hlayer, appendToLayer, logicalSteps_wraps]
    rfl
  · rintro ⟨_, hlayers⟩
    obtain ⟨layer, hlayer, haligned⟩ := hlayers 0 4 rfl
    cases hlayer
    have hvalid : (2 : ℤ) =
        min 4 ((stepsOf 4 0 AppendCall.currentKey ([] ++ [wrappingCall])).length : ℤ) :=
      haligned.validSteps
    have hindex : wrappingCall.layerIndex = 0 := rfl
    have hlength : (appended 4 wrappingCall.appendSteps wrappingCall.currentKey).length =
        4611686018427387906 := length_rowsOf 4 _ _
    rw [stepsOf_append, if_pos hindex, List.length_append, hlength] at hvalid
    omega

end FastTts.FlowKvCache
