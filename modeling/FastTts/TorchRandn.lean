import FastTts.StridedLoop
import FastTts.TorchRandom

/-!
# Normal numbers in the layout of a device

`fill_torch_cuda_tensor_iterator_randn` runs on the host as the kernel of the device does: a thread
goes over the tensor with a stride and takes four elements from each block of the generator.
-/

namespace FastTts.TorchRandom

variable {F D : Type}

structure TorchCudaSamplingPolicy where
  multiprocessorCount : ℤ
  maxThreadsPerMultiprocessor : ℤ
  cudaFastPath : Bool
  cudaDeviceIndex : ℤ
  deriving DecidableEq, Repr

inductive TorchRandnPrecision
  | float32
  | bfloat16
  deriving DecidableEq, Repr

/-- What `box_muller` and the rounding do with a `float`. -/
structure NormalOps (F : Type) where
  sqrt : F → F
  sin : F → F
  cos : F → F
  bits : F → UInt32
  ofBits : UInt32 → F
  kInvTwoPow32TwoPi : F
  minusTwo : F

section Values

variable (arithmetic : Arithmetic F D) (normal : NormalOps F)

def boxMuller (uniform0 uniform1 : UInt32) : F × F :=
  let float := arithmetic.float
  let radiusInput := float.add (float.mul (float.ofNat uniform0.toNat) arithmetic.kInvTwoPow32)
    (float.mul arithmetic.kInvTwoPow32 arithmetic.half)
  let angle := float.add (float.mul (float.ofNat uniform1.toNat) normal.kInvTwoPow32TwoPi)
    (float.mul normal.kInvTwoPow32TwoPi arithmetic.half)
  let radius := normal.sqrt (float.mul normal.minusTwo (float.log radiusInput))
  (float.mul radius (normal.sin angle), float.mul radius (normal.cos angle))

def roundToBfloat16 (value : F) : F :=
  let bits := normal.bits value
  normal.ofBits ((bits + ((0x7FFF : UInt32) + ((bits >>> 16) &&& 1))) &&& 0xFFFF0000)

def rounded (precision : TorchRandnPrecision) (value : F) : F :=
  match precision with
  | .float32 => value
  | .bfloat16 => roundToBfloat16 normal value

/-- The four numbers of a block. -/
def normals (precision : TorchRandnPrecision) (random : Philox4) : F × F × F × F :=
  let (normal0, normal1) := boxMuller arithmetic normal random.x random.y
  let (normal2, normal3) := boxMuller arithmetic normal random.z random.w
  (rounded normal precision normal0, rounded normal precision normal1,
    rounded normal precision normal2, rounded normal precision normal3)

end Values

def torchCudaTensorIteratorStride (totalElements : UInt64) (policy : TorchCudaSamplingPolicy) :
    Except Exception UInt64 :=
  if policy.multiprocessorCount ≤ 0 ∨ policy.maxThreadsPerMultiprocessor ≤ 0 then
    .error (bytes "torch CUDA TensorIterator randn requires CUDA device properties")
  else
    .ok (gridStride totalElements policy.multiprocessorCount policy.maxThreadsPerMultiprocessor)

/-- The block of the generator under a counter and a sequence. -/
def philoxBlock (seed counter sequence : UInt64) : Philox4 :=
  philox4x32_10 ⟨counter.toUInt32, (counter >>> 32).toUInt32, sequence.toUInt32,
    (sequence >>> 32).toUInt32⟩ seed

def loopCount (total stride : UInt64) : UInt64 := (total + stride * 4 - 1) / (stride * 4)

/-- A stride from `2 ^ 63` on is a negative `int64_t`. -/
def parallelCount (stride : UInt64) : ℕ := if stride.toNat < 2 ^ 63 then stride.toNat else 0

def sequences (stride : UInt64) : List UInt64 :=
  (List.range (parallelCount stride)).map UInt64.ofNat

def loopIndices (total stride : UInt64) : List UInt64 :=
  (List.range (loopCount total stride).toNat).map UInt64.ofNat

/-- The first element that a thread takes in a pass. -/
def firstIndex (stride sequence loopIndex : UInt64) : UInt64 := loopIndex * 4 * stride + sequence

section Writes

variable (arithmetic : Arithmetic F D) (normal : NormalOps F)

def writeInside (total index : UInt64) (value : F) : List (UInt64 × F) :=
  if index < total then [(index, value)] else []

def passWrites (seed offsetBlocks total stride : UInt64) (precision : TorchRandnPrecision)
    (sequence loopIndex : UInt64) : List (UInt64 × F) :=
  let first := firstIndex stride sequence loopIndex
  if total ≤ first then []
  else
    let (normal0, normal1, normal2, normal3) := normals arithmetic normal precision
      (philoxBlock seed (offsetBlocks + loopIndex) sequence)
    let second := first + stride
    let third := second + stride
    let fourth := third + stride
    (first, normal0) :: (writeInside total second normal1 ++ writeInside total third normal2 ++
      writeInside total fourth normal3)

/-- What the threads write, thread by thread. -/
def tensorWrites (seed offsetBlocks total stride : UInt64) (precision : TorchRandnPrecision) :
    List (UInt64 × F) :=
  (sequences stride).flatMap fun sequence =>
    (loopIndices total stride).flatMap
      (passWrites arithmetic normal seed offsetBlocks total stride precision sequence)

/-- The counters and the sequences of the blocks that the threads draw. -/
def tensorBlocks (offsetBlocks total stride : UInt64) : List (UInt64 × UInt64) :=
  (sequences stride).flatMap fun sequence =>
    ((loopIndices total stride).filter (firstIndex stride sequence · < total)).map fun loopIndex =>
      (offsetBlocks + loopIndex, sequence)

def applyWrites (output : List F) (writes : List (UInt64 × F)) : List F :=
  writes.foldl (fun output write => output.set write.1.toNat write.2) output

/-- The threads run in parallel, so their writes come in the order of a schedule. A build without
the device has no fast path. -/
def fillTorchCudaTensorIteratorRandn
    (fillCuda : Option (List F → UInt64 → UInt64 → UInt64 → TorchCudaSamplingPolicy →
      TorchRandnPrecision → Except Exception (List F)))
    (schedule : List (UInt64 × F) → List (UInt64 × F)) (output : Option (List F))
    (count seed offsetBlocks : UInt64) (policy : TorchCudaSamplingPolicy)
    (precision : TorchRandnPrecision) : Except Exception (Option (List F)) :=
  match output with
  | none =>
    if count ≠ 0 then
      .error (bytes "torch CUDA TensorIterator randn output pointer is null")
    else .ok none
  | some output =>
    if count = 0 then .ok (some output)
    else if policy.cudaFastPath then
      match fillCuda with
      | some fill => (fill output count seed offsetBlocks policy precision).map some
      | none => .error (bytes ("torch CUDA TensorIterator randn fast path was requested " ++
          "but CUDA runtime was not built"))
    else do
      let stride ← torchCudaTensorIteratorStride count policy
      .ok (some (applyWrites output (schedule
        (tensorWrites arithmetic normal seed offsetBlocks count stride precision))))

end Writes

/-! ## Where an element comes from -/

/-- The block of an element and its place in it. -/
structure Placement where
  counter : UInt64
  sequence : UInt64
  component : UInt64
  deriving DecidableEq, Repr

def placementOf (offsetBlocks stride index : UInt64) : Placement :=
  ⟨offsetBlocks + index / (4 * stride), index % stride, index / stride % 4⟩

def Placement.normal (arithmetic : Arithmetic F D) (normal : NormalOps F) (seed : UInt64)
    (precision : TorchRandnPrecision) (place : Placement) : F :=
  let (normal0, normal1, normal2, normal3) := normals arithmetic normal precision
    (philoxBlock seed place.counter place.sequence)
  if place.component = 0 then normal0
  else if place.component = 1 then normal1
  else if place.component = 2 then normal2
  else normal3

/-- No sum and no product over a tensor comes round. -/
structure Fits (total stride : UInt64) : Prop where
  elements : 0 < total.toNat
  lanes : 0 < stride.toNat
  room : total.toNat + 4 * stride.toNat ≤ 2 ^ 64

variable {total stride : UInt64}

theorem Fits.toNat_four_mul (h : Fits total stride) : (4 * stride).toNat = 4 * stride.toNat := by
  have hroom := h.room
  have hsome := h.elements
  rw [UInt64.toNat_mul, Nat.mod_eq_of_lt]
  · rfl
  · change 4 * stride.toNat < 2 ^ 64
    omega

theorem Fits.toNat_loopCount (h : Fits total stride) :
    (loopCount total stride).toNat = (total.toNat - 1) / (4 * stride.toNat) + 1 := by
  obtain ⟨hsome, hlanes, hroom⟩ := h
  have hfour : (stride * 4).toNat = 4 * stride.toNat := by
    rw [UInt64.mul_comm]
    exact Fits.toNat_four_mul ⟨hsome, hlanes, hroom⟩
  have hsum : (total + stride * 4 - 1).toNat = total.toNat - 1 + 4 * stride.toNat := by
    have hone : (1 : UInt64).toNat = 1 := rfl
    rw [UInt64.toNat_sub, UInt64.toNat_add, hfour, hone]
    omega
  rw [loopCount, UInt64.toNat_div, hsum, hfour, Nat.add_div_right _ (by omega)]

variable {pass : ℕ}

section

variable (h : Fits total stride)
include h

theorem Fits.pass_lt (hpass : pass < (loopCount total stride).toNat) :
    pass * (4 * stride.toNat) < total.toNat := by
  have hsome := h.elements
  have hlanes := h.lanes
  rw [h.toNat_loopCount, Nat.lt_succ_iff, Nat.le_div_iff_mul_le (by omega)] at hpass
  omega

theorem Fits.total_le : total.toNat ≤ (loopCount total stride).toNat * (4 * stride.toNat) := by
  have hpos : 0 < 4 * stride.toNat := by
    have hlanes := h.lanes
    omega
  have hmod := Nat.lt_div_mul_add hpos (a := total.toNat - 1)
  rw [h.toNat_loopCount, Nat.add_mul, Nat.one_mul]
  omega

theorem Fits.parallelCount_eq : parallelCount stride = stride.toNat := by
  have hroom := h.room
  exact if_pos (by omega)

theorem Fits.toNat_firstIndex {sequence loopIndex : UInt64} (hlane : sequence.toNat < stride.toNat)
    (hpass : loopIndex.toNat < (loopCount total stride).toNat) :
    (firstIndex stride sequence loopIndex).toNat =
      StridedLoop.element stride.toNat 4 sequence.toNat loopIndex.toNat 0 := by
  have hroom := h.room
  have hfirst := h.pass_lt hpass
  have hswap : loopIndex * 4 * stride = loopIndex * (4 * stride) := UInt64.mul_assoc _ _ _
  rw [firstIndex, hswap, UInt64.toNat_add, UInt64.toNat_mul, h.toNat_four_mul,
    Nat.mod_eq_of_lt (by omega : loopIndex.toNat * (4 * stride.toNat) < 2 ^ 64),
    Nat.mod_eq_of_lt (by omega), StridedLoop.element, Nat.add_zero, Nat.mul_assoc]

end

variable {lane : ℕ} {index : UInt64} {output : List F} {writes : List (UInt64 × F)}

theorem passElements_four {stride total : ℕ}
    (h : StridedLoop.element stride 4 lane pass 0 < total) :
    StridedLoop.passElements stride 4 total lane pass = StridedLoop.element stride 4 lane pass 0 ::
        ([StridedLoop.element stride 4 lane pass 1].filter (· < total) ++
          [StridedLoop.element stride 4 lane pass 2].filter (· < total) ++
          [StridedLoop.element stride 4 lane pass 3].filter (· < total)) := by
  rw [← List.filter_append, ← List.filter_append]
  exact List.filter_cons_of_pos (by simpa using h)

theorem Fits.toNat_add_stride (h : Fits total stride) {component : ℕ}
    (hfirst : StridedLoop.element stride.toNat 4 lane pass 0 < total.toNat)
    (hcomponent : component < 3)
    (hindex : index.toNat = StridedLoop.element stride.toNat 4 lane pass component) :
    (index + stride).toNat = StridedLoop.element stride.toNat 4 lane pass (component + 1) := by
  have hroom := h.room
  have hlanes := h.lanes
  have hstride : component * stride.toNat ≤ 2 * stride.toNat := Nat.mul_le_mul_right _ (by omega)
  have hspread := StridedLoop.element_eq_add stride.toNat 4 lane pass component
  rw [UInt64.toNat_add, hindex, StridedLoop.element_succ, Nat.mod_eq_of_lt]
  omega

section Elements

variable (arithmetic : Arithmetic F D) (normal : NormalOps F) (seed offsetBlocks : UInt64)
  (precision : TorchRandnPrecision)

theorem map_writeInside (total index : UInt64) (value : F) :
    (writeInside total index value).map (·.1.toNat) = [index.toNat].filter (· < total.toNat) := by
  simp only [writeInside, UInt64.lt_iff_toNat_lt]
  split_ifs with hinside <;> simp [hinside]

variable {sequence loopIndex : UInt64} {write : UInt64 × F}

theorem Fits.map_passWrites (h : Fits total stride) (hlane : sequence.toNat < stride.toNat)
    (hpass : loopIndex.toNat < (loopCount total stride).toNat) :
    (passWrites arithmetic normal seed offsetBlocks total stride precision sequence
      loopIndex).map (·.1.toNat) =
      StridedLoop.passElements stride.toNat 4 total.toNat sequence.toNat loopIndex.toNat := by
  have hfirst := h.toNat_firstIndex hlane hpass
  rw [passWrites]
  simp only [UInt64.le_iff_toNat_le, hfirst]
  split_ifs with hout
  · exact (StridedLoop.passElements_of_le hout).symm
  · have hin := Nat.not_le.mp hout
    have hsecond := h.toNat_add_stride hin (by decide) hfirst
    have hthird := h.toNat_add_stride hin (by decide) hsecond
    have hfourth := h.toNat_add_stride hin (by decide) hthird
    rw [passElements_four hin, List.map_cons, List.map_append, List.map_append, map_writeInside,
      map_writeInside, map_writeInside, hsecond, hthird, hfourth, hfirst]

theorem Fits.toNat_sequence (h : Fits total stride) {lane : ℕ} (hlane : lane < stride.toNat) :
    (UInt64.ofNat lane).toNat = lane := by
  have hroom := h.room
  exact UInt64.toNat_ofNat_of_lt' (by change lane < 2 ^ 64; omega)

theorem toNat_loopIndex {total stride : UInt64} {pass : ℕ}
    (hpass : pass < (loopCount total stride).toNat) : (UInt64.ofNat pass).toNat = pass :=
  UInt64.toNat_ofNat_of_lt' (Nat.lt_trans hpass (UInt64.toNat_lt _))

theorem Fits.map_tensorWrites (h : Fits total stride) :
    (tensorWrites arithmetic normal seed offsetBlocks total stride precision).map (·.1.toNat) =
      StridedLoop.elements stride.toNat 4 total.toNat (loopCount total stride).toNat := by
  rw [tensorWrites, sequences, loopIndices, h.parallelCount_eq, StridedLoop.elements,
    List.map_flatMap, List.flatMap_map]
  refine List.flatMap_congr fun lane hlane => ?_
  rw [List.mem_range] at hlane
  rw [List.map_flatMap, List.flatMap_map]
  refine List.flatMap_congr fun pass hpass => ?_
  rw [List.mem_range] at hpass
  have hsequence := h.toNat_sequence hlane
  have hloop := toNat_loopIndex hpass
  rw [h.map_passWrites arithmetic normal seed offsetBlocks precision (by rwa [hsequence])
    (by rwa [hloop]), hsequence, hloop]

theorem Fits.writes_perm (h : Fits total stride) :
    ((tensorWrites arithmetic normal seed offsetBlocks total stride precision).map
      (·.1.toNat)).Perm (List.range total.toNat) := by
  rw [h.map_tensorWrites]
  exact StridedLoop.elements_perm h.lanes (by decide) h.total_le

variable {index : UInt64}

theorem Fits.placementOf_eq (h : Fits total stride) {component : ℕ}
    (hlane : sequence.toNat < stride.toNat) (hcomponent : component < 4)
    (hindex : index.toNat =
      StridedLoop.element stride.toNat 4 sequence.toNat loopIndex.toNat component) :
    placementOf offsetBlocks stride index =
      ⟨offsetBlocks + loopIndex, sequence, UInt64.ofNat component⟩ := by
  have hcounter : index / (4 * stride) = loopIndex := by
    rw [← UInt64.toNat_inj, UInt64.toNat_div, h.toNat_four_mul, hindex,
      StridedLoop.element_pass hlane hcomponent]
  have hsequence : index % stride = sequence := by
    rw [← UInt64.toNat_inj, UInt64.toNat_mod, hindex, StridedLoop.element_mod hlane]
  have hplace : index / stride % 4 = UInt64.ofNat component := by
    rw [← UInt64.toNat_inj, UInt64.toNat_mod, UInt64.toNat_div, hindex]
    refine (StridedLoop.element_component hlane hcomponent _).trans ?_
    exact (UInt64.toNat_ofNat_of_lt' (by change component < 2 ^ 64; omega)).symm
  rw [placementOf, hcounter, hsequence, hplace]

theorem mem_writeInside {total : UInt64} {value : F} (h : write ∈ writeInside total index value) :
    write = (index, value) := by
  unfold writeInside at h
  split_ifs at h
  · exact List.mem_singleton.mp h
  · exact absurd h List.not_mem_nil

theorem Fits.mem_passWrites (h : Fits total stride) (hlane : sequence.toNat < stride.toNat)
    (hpass : loopIndex.toNat < (loopCount total stride).toNat)
    (hwrite : write ∈ passWrites arithmetic normal seed offsetBlocks total stride precision
      sequence loopIndex) :
    write.2 = (placementOf offsetBlocks stride write.1).normal arithmetic normal seed
      precision := by
  have hfirst := h.toNat_firstIndex hlane hpass
  unfold passWrites at hwrite
  simp only [UInt64.le_iff_toNat_le, hfirst] at hwrite
  split_ifs at hwrite with hout
  · exact absurd hwrite List.not_mem_nil
  · have hin := Nat.not_le.mp hout
    have hsecond := h.toNat_add_stride hin (by decide) hfirst
    have hthird := h.toNat_add_stride hin (by decide) hsecond
    have hfourth := h.toNat_add_stride hin (by decide) hthird
    simp only [List.mem_cons, List.mem_append] at hwrite
    obtain rfl | (hwrite | hwrite) | hwrite := hwrite
    · rw [h.placementOf_eq offsetBlocks hlane (by decide) hfirst]
      rfl
    · rw [mem_writeInside hwrite, h.placementOf_eq offsetBlocks hlane (by decide) hsecond]
      rfl
    · rw [mem_writeInside hwrite, h.placementOf_eq offsetBlocks hlane (by decide) hthird]
      rfl
    · rw [mem_writeInside hwrite, h.placementOf_eq offsetBlocks hlane (by decide) hfourth]
      rfl

theorem Fits.mem_tensorWrites (h : Fits total stride)
    (hwrite : write ∈ tensorWrites arithmetic normal seed offsetBlocks total stride precision) :
    write.2 = (placementOf offsetBlocks stride write.1).normal arithmetic normal seed
      precision := by
  obtain ⟨sequence, hsequence, hwrite⟩ := List.mem_flatMap.mp hwrite
  obtain ⟨loopIndex, hloop, hwrite⟩ := List.mem_flatMap.mp hwrite
  obtain ⟨lane, hlane, rfl⟩ := List.mem_map.mp hsequence
  obtain ⟨pass, hpass, rfl⟩ := List.mem_map.mp hloop
  rw [List.mem_range, h.parallelCount_eq] at hlane
  rw [List.mem_range] at hpass
  exact h.mem_passWrites arithmetic normal seed offsetBlocks precision
    (by rwa [h.toNat_sequence hlane]) (by rwa [toNat_loopIndex hpass]) hwrite

end Elements

/-! ## The tensor after the fill -/

theorem getElem?_applyWrites (h : ∀ write ∈ writes, write.1 ≠ index) :
    (applyWrites output writes)[index.toNat]? = output[index.toNat]? := by
  induction writes generalizing output with
  | nil => rfl
  | cons write writes ih =>
    have hne : write.1.toNat ≠ index.toNat := fun heq =>
      h write List.mem_cons_self (UInt64.toNat_inj.mp heq)
    refine (ih fun other hother => h other (List.mem_cons_of_mem _ hother)).trans ?_
    exact List.getElem?_set_ne hne

theorem length_applyWrites (output : List F) (writes : List (UInt64 × F)) :
    (applyWrites output writes).length = output.length := by
  induction writes generalizing output with
  | nil => rfl
  | cons write writes ih =>
    rw [applyWrites, List.foldl_cons]
    exact (ih _).trans List.length_set

theorem applyWrites_mem (hnodup : (writes.map (·.1.toNat)).Nodup) {write : UInt64 × F}
    (hwrite : write ∈ writes) (hinside : write.1.toNat < output.length) :
    (applyWrites output writes)[write.1.toNat]? = some write.2 := by
  induction writes generalizing output with
  | nil => exact absurd hwrite List.not_mem_nil
  | cons first writes ih =>
    rw [List.map_cons, List.nodup_cons] at hnodup
    obtain rfl | hwrite := List.mem_cons.mp hwrite
    · have hrest : (applyWrites (output.set write.1.toNat write.2) writes)[write.1.toNat]? = _ :=
        getElem?_applyWrites fun other hother heq =>
          hnodup.1 (List.mem_map.mpr ⟨other, hother, congrArg UInt64.toNat heq⟩)
      refine hrest.trans ?_
      rw [List.getElem?_set_self hinside]
    · exact ih hnodup.2 hwrite (by rwa [List.length_set])

section Tensor

variable (arithmetic : Arithmetic F D) (normal : NormalOps F) (seed offsetBlocks : UInt64)
  (precision : TorchRandnPrecision)

theorem Fits.applyWrites_schedule (h : Fits total stride) {writes : List (UInt64 × F)}
    (hwrites : writes.Perm
      (tensorWrites arithmetic normal seed offsetBlocks total stride precision))
    {output : List F} (houtput : output.length = total.toNat) :
    applyWrites output writes = (List.range total.toNat).map fun i =>
      (placementOf offsetBlocks stride (UInt64.ofNat i)).normal arithmetic normal seed
        precision := by
  have hperm := (hwrites.map (·.1.toNat)).trans
    (h.writes_perm arithmetic normal seed offsetBlocks precision)
  have hnodup : (writes.map (·.1.toNat)).Nodup := hperm.nodup_iff.mpr List.nodup_range
  refine List.ext_getElem? fun i => ?_
  by_cases hi : i < total.toNat
  · obtain ⟨write, hwrite, rfl⟩ :=
      List.mem_map.mp (hperm.mem_iff.mpr (List.mem_range.mpr hi))
    rw [applyWrites_mem hnodup hwrite (by rwa [houtput]), List.getElem?_map,
      List.getElem?_range hi, Option.map_some, UInt64.ofNat_toNat,
      h.mem_tensorWrites arithmetic normal seed offsetBlocks precision (hwrites.mem_iff.mp hwrite)]
  · rw [List.getElem?_eq_none (by rw [length_applyWrites, houtput]; omega),
      List.getElem?_eq_none (by rw [List.length_map, List.length_range]; omega)]

end Tensor

/-! ## The stride -/

theorem toNat_min (a b : UInt64) : (min a b).toNat = min a.toNat b.toNat := by
  change (if a ≤ b then a else b).toNat = _
  simp only [UInt64.le_iff_toNat_le]
  split_ifs <;> omega

theorem toNat_max (a b : UInt64) : (max a b).toNat = max a.toNat b.toNat := by
  change (if a ≤ b then b else a).toNat = _
  simp only [UInt64.le_iff_toNat_le]
  split_ifs <;> omega

theorem gridStride_pos (total : UInt64) (multiprocessorCount maxThreadsPerMultiprocessor : ℤ) :
    0 < (gridStride total multiprocessorCount maxThreadsPerMultiprocessor).toNat := by
  have hgrid : ((total + 256 - 1) / 256).toNat * 256 < 2 ^ 64 := by
    rw [UInt64.toNat_div]
    exact Nat.lt_of_le_of_lt (Nat.div_mul_le_self _ _) (UInt64.toNat_lt _)
  have hone : (1 : UInt64).toNat = 1 := rfl
  have hblock : (256 : UInt64).toNat = 256 := rfl
  unfold gridStride
  dsimp only
  rw [UInt64.toNat_mul, toNat_max, toNat_min, hone, hblock]
  omega

/-! ## The blocks that a tensor takes -/

theorem loopIndices_nodup (total stride : UInt64) : (loopIndices total stride).Nodup := by
  refine List.Nodup.map_on (fun first hfirst second hsecond heq => ?_) List.nodup_range
  rw [← toNat_loopIndex (List.mem_range.mp hfirst), heq,
    toNat_loopIndex (List.mem_range.mp hsecond)]

theorem mem_tensorBlocks {offsetBlocks : UInt64} {block : UInt64 × UInt64}
    (h : block ∈ tensorBlocks offsetBlocks total stride) :
    ∃ pass < (loopCount total stride).toNat, block.1 = offsetBlocks + UInt64.ofNat pass := by
  obtain ⟨sequence, -, hblock⟩ := List.mem_flatMap.mp h
  obtain ⟨loopIndex, hloop, rfl⟩ := List.mem_map.mp hblock
  obtain ⟨pass, hpass, rfl⟩ := List.mem_map.mp (List.mem_filter.mp hloop).1
  exact ⟨pass, List.mem_range.mp hpass, rfl⟩

theorem Fits.first_mem_tensorBlocks (h : Fits total stride) (offsetBlocks : UInt64)
    (hpass : pass < (loopCount total stride).toNat) :
    (offsetBlocks + UInt64.ofNat pass, 0) ∈ tensorBlocks offsetBlocks total stride := by
  have hloop := toNat_loopIndex hpass
  refine List.mem_flatMap.mpr ⟨0, ?_, List.mem_map.mpr ⟨UInt64.ofNat pass, ?_, rfl⟩⟩
  · refine List.mem_map.mpr ⟨0, ?_, rfl⟩
    rw [h.parallelCount_eq]
    exact List.mem_range.mpr h.lanes
  · refine List.mem_filter.mpr ⟨List.mem_map_of_mem (List.mem_range.mpr hpass), ?_⟩
    have hfirst : (firstIndex stride 0 (UInt64.ofNat pass)).toNat = _ :=
      h.toNat_firstIndex h.lanes (by rwa [hloop])
    rw [decide_eq_true_iff, UInt64.lt_iff_toNat_lt, hfirst, hloop, StridedLoop.element]
    have hlt := h.pass_lt hpass
    have hassoc : (pass * 4 + 0) * stride.toNat = pass * (4 * stride.toNat) := by ring
    have hzero : (0 : UInt64).toNat = 0 := rfl
    omega

theorem Fits.tensorBlocks_nodup (h : Fits total stride) (offsetBlocks : UInt64) :
    (tensorBlocks offsetBlocks total stride).Nodup := by
  refine List.nodup_flatMap.mpr ⟨fun sequence _ => ?_, ?_⟩
  · refine List.Nodup.map_on (fun first _ second _ heq => ?_)
      ((loopIndices_nodup total stride).filter _)
    exact UInt64.add_right_inj offsetBlocks |>.mp (Prod.mk.inj heq).1
  · have hsequences : (sequences stride).Nodup := by
      rw [sequences, h.parallelCount_eq]
      refine List.Nodup.map_on (fun first hfirst second hsecond heq => ?_) List.nodup_range
      rw [← h.toNat_sequence (List.mem_range.mp hfirst), heq,
        h.toNat_sequence (List.mem_range.mp hsecond)]
    refine List.Pairwise.imp ?_ hsequences
    intro first second hne block hfirst hsecond
    obtain ⟨_, -, rfl⟩ := List.mem_map.mp hfirst
    obtain ⟨_, -, heq⟩ := List.mem_map.mp hsecond
    exact hne (Prod.mk.inj heq).2.symm

end FastTts.TorchRandom
