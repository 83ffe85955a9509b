import FastTts.TorchRandn

/-!
# Calls that fill tensors

The fill, the function of one exponential element and the number of blocks of a call have each
their own arithmetic over one layout of the tensor. Calls that add their blocks to the offset draw
no block twice.
-/

namespace FastTts.TorchRandom

variable {F D : Type}

/-! ## The uniform generator -/

def Philox4.word (random : Philox4) (component : UInt64) : UInt32 :=
  if component = 0 then random.x
  else if component = 1 then random.y
  else if component = 2 then random.z
  else random.w

variable (arithmetic : Arithmetic F D)

/-- The uniform number of a place, as an exponential one. -/
def Placement.exponential (seed : UInt64) (place : Placement) : F :=
  let float := arithmetic.float
  let value := (philoxBlock seed place.counter place.sequence).word place.component
  float.neg (float.log (float.add (float.mul (float.ofNat value.toNat) arithmetic.kInvTwoPow32)
    (float.mul arithmetic.kInvTwoPow32 arithmetic.half)))

theorem uniformElement_eq (seed sequence counter chunk : UInt64) :
    torchCudaUniformTensorIteratorElement arithmetic seed sequence counter (chunk % 4) =
      .ok (arithmetic.float.add (arithmetic.float.mul (arithmetic.float.ofNat
        ((philoxBlock seed counter sequence).word (chunk % 4)).toNat) arithmetic.kInvTwoPow32)
        (arithmetic.float.mul arithmetic.kInvTwoPow32 arithmetic.half)) := by
  have hlt : (chunk % 4).toNat < 4 := Nat.mod_lt _ (by decide)
  have hcases : chunk % 4 = 0 ∨ chunk % 4 = 1 ∨ chunk % 4 = 2 ∨ chunk % 4 = 3 := by
    simp only [← UInt64.toNat_inj]
    have h0 : (0 : UInt64).toNat = 0 := rfl
    have h1 : (1 : UInt64).toNat = 1 := rfl
    have h2 : (2 : UInt64).toNat = 2 := rfl
    have h3 : (3 : UInt64).toNat = 3 := rfl
    omega
  generalize chunk % 4 = component at hcases
  obtain rfl | rfl | rfl | rfl := hcases <;> rfl

/-! ## Calls -/

structure TensorCall where
  count : UInt64
  policy : TorchCudaSamplingPolicy

def TensorCall.stride (call : TensorCall) : UInt64 :=
  gridStride call.count call.policy.multiprocessorCount call.policy.maxThreadsPerMultiprocessor

def TensorCall.offsetBlocks (call : TensorCall) : Except Exception UInt64 :=
  torchCudaTensorIteratorOffsetBlocks call.count call.policy.multiprocessorCount
    call.policy.maxThreadsPerMultiprocessor

/-- A tensor with elements, a device with properties, and no sum that comes round. -/
structure TensorCall.Valid (call : TensorCall) : Prop where
  elements : 0 < call.count.toNat
  multiprocessors : 0 < call.policy.multiprocessorCount
  threads : 0 < call.policy.maxThreadsPerMultiprocessor
  room : call.count.toNat + 4 * call.stride.toNat ≤ 2 ^ 64

variable {call : TensorCall}

theorem TensorCall.Valid.fits (h : call.Valid) : Fits call.count call.stride :=
  ⟨h.elements, gridStride_pos _ _ _, h.room⟩

theorem TensorCall.Valid.count_ne_zero (h : call.Valid) : call.count ≠ 0 := by
  intro hzero
  have helements := h.elements
  rw [hzero] at helements
  exact absurd helements (by decide)

theorem TensorCall.Valid.offsetBlocks_eq (h : call.Valid) :
    call.offsetBlocks = .ok (loopCount call.count call.stride) := by
  have hproperties : ¬(call.policy.multiprocessorCount ≤ 0 ∨
      call.policy.maxThreadsPerMultiprocessor ≤ 0) := by
    have hfirst := h.multiprocessors
    have hsecond := h.threads
    omega
  rw [TensorCall.offsetBlocks, torchCudaTensorIteratorOffsetBlocks, if_neg h.count_ne_zero,
    if_neg hproperties]
  refine congrArg Except.ok (UInt64.toNat_inj.mp ?_)
  have hone : (1 : UInt64).toNat = 1 := rfl
  have helements := h.elements
  have hsub : (call.count - 1).toNat = call.count.toNat - 1 :=
    UInt64.toNat_sub_of_le _ _ (UInt64.le_iff_toNat_le.mpr helements)
  have hlt := UInt64.toNat_lt call.count
  have hdiv := Nat.div_le_self (call.count.toNat - 1) (4 * call.stride.toNat)
  change ((call.count - 1) / (call.stride * 4) + 1).toNat = _
  rw [UInt64.mul_comm, UInt64.toNat_add, UInt64.toNat_div, h.fits.toNat_four_mul, hsub, hone,
    h.fits.toNat_loopCount, Nat.mod_eq_of_lt (by omega)]

/-- The blocks of calls that add their number of blocks to the offset of the next one. -/
def runBlocks : UInt64 → List TensorCall → Except Exception (List (UInt64 × UInt64))
  | _, [] => .ok []
  | offsetBlocks, call :: calls => do
    let blocks ← call.offsetBlocks
    let later ← runBlocks (offsetBlocks + blocks) calls
    .ok (tensorBlocks offsetBlocks call.count call.stride ++ later)

def counterCount (calls : List TensorCall) : ℕ :=
  (calls.map fun call => (loopCount call.count call.stride).toNat).sum

theorem counterCount_cons (call : TensorCall) (calls : List TensorCall) :
    counterCount (call :: calls) =
      (loopCount call.count call.stride).toNat + counterCount calls := by
  rw [counterCount, List.map_cons, List.sum_cons]
  rfl

theorem runBlocks_nodup {offsetBlocks : UInt64} {calls : List TensorCall}
    (hvalid : ∀ call ∈ calls, call.Valid)
    (hroom : offsetBlocks.toNat + counterCount calls ≤ 2 ^ 64) :
    ∃ blocks, runBlocks offsetBlocks calls = .ok blocks ∧ blocks.Nodup ∧
      ∀ block ∈ blocks, offsetBlocks.toNat ≤ block.1.toNat := by
  induction calls generalizing offsetBlocks with
  | nil => exact ⟨[], rfl, List.nodup_nil, by simp⟩
  | cons call calls ih =>
    have hcall := hvalid call List.mem_cons_self
    have hrest : ∀ call ∈ calls, call.Valid :=
      fun other hother => hvalid other (List.mem_cons_of_mem _ hother)
    have hblocks : ∀ block ∈ tensorBlocks offsetBlocks call.count call.stride,
        offsetBlocks.toNat ≤ block.1.toNat ∧
          block.1.toNat < offsetBlocks.toNat + (loopCount call.count call.stride).toNat := by
      intro block hblock
      obtain ⟨pass, hpass, hcounter⟩ := mem_tensorBlocks hblock
      rw [counterCount_cons] at hroom
      rw [hcounter, UInt64.toNat_add, toNat_loopIndex hpass, Nat.mod_eq_of_lt (by omega)]
      omega
    have hnodup := hcall.fits.tensorBlocks_nodup offsetBlocks
    rw [counterCount_cons] at hroom
    cases calls with
    | nil =>
      refine ⟨tensorBlocks offsetBlocks call.count call.stride, ?_, hnodup,
        fun block hblock => (hblocks block hblock).1⟩
      simp [runBlocks, hcall.offsetBlocks_eq, bind, Except.bind]
    | cons next calls =>
      -- The next call has a counter too, so the offset has not come round.
      have hnext : 0 < counterCount (next :: calls) := by
        rw [counterCount_cons, (hrest next List.mem_cons_self).fits.toNat_loopCount]
        exact Nat.add_pos_left (Nat.succ_pos _) _
      have hoffset : (offsetBlocks + loopCount call.count call.stride).toNat =
          offsetBlocks.toNat + (loopCount call.count call.stride).toNat := by
        rw [UInt64.toNat_add, Nat.mod_eq_of_lt (by omega)]
      have hroom' : (offsetBlocks + loopCount call.count call.stride).toNat +
          counterCount (next :: calls) ≤ 2 ^ 64 := by
        rw [hoffset]
        omega
      obtain ⟨later, hlater, hdistinct, hbelow⟩ := ih hrest hroom'
      refine ⟨tensorBlocks offsetBlocks call.count call.stride ++ later, ?_, ?_, ?_⟩
      · simp only [runBlocks, hcall.offsetBlocks_eq, bind, Except.bind] at hlater ⊢
        rw [hlater]
      · refine List.nodup_append.mpr ⟨hnodup, hdistinct, ?_⟩
        rintro block hblock other hother rfl
        have hfirst := (hblocks block hblock).2
        have hsecond := hbelow block hother
        omega
      · intro block hblock
        obtain hblock | hblock := List.mem_append.mp hblock
        · exact (hblocks block hblock).1
        · have hsecond := hbelow block hblock
          omega

/-! ## One layout -/

theorem TensorCall.Valid.stride_eq (h : call.Valid) :
    torchCudaTensorIteratorStride call.count call.policy = .ok call.stride := by
  have hfirst := h.multiprocessors
  have hsecond := h.threads
  exact if_neg (by omega)

theorem TensorCall.Valid.div_div (h : call.Valid) (index : UInt64) :
    index / call.stride / 4 = index / (4 * call.stride) := by
  have hfour : (4 : UInt64).toNat = 4 := rfl
  rw [← UInt64.toNat_inj, UInt64.toNat_div, UInt64.toNat_div, UInt64.toNat_div,
    h.fits.toNat_four_mul, hfour, Nat.div_div_eq_div_mul, Nat.mul_comm]

/-- What a call writes, reads and takes, all by the place of an element. -/
structure Placed (normal : NormalOps F) (call : TensorCall)
    (seed offsetBlocks : UInt64) (precision : TorchRandnPrecision) : Prop where
  once : ((tensorWrites arithmetic normal seed offsetBlocks call.count call.stride precision).map
    (·.1.toNat)).Perm (List.range call.count.toNat)
  placed : ∀ write ∈
    tensorWrites arithmetic normal seed offsetBlocks call.count call.stride precision,
    write.2 =
      (placementOf offsetBlocks call.stride write.1).normal arithmetic normal seed precision
  filled : ∀ fillCuda schedule (output : List F), (∀ writes, (schedule writes).Perm writes) →
    output.length = call.count.toNat → call.policy.cudaFastPath = false →
    fillTorchCudaTensorIteratorRandn arithmetic normal fillCuda schedule (some output) call.count
      seed offsetBlocks call.policy precision =
      .ok (some ((List.range call.count.toNat).map fun i =>
        (placementOf offsetBlocks call.stride (UInt64.ofNat i)).normal arithmetic normal seed
          precision))
  exponential : ∀ index < call.count,
    torchCudaTensorIteratorExponentialElementAtOffset arithmetic seed call.count index
      offsetBlocks call.policy.multiprocessorCount call.policy.maxThreadsPerMultiprocessor =
      .ok ((placementOf offsetBlocks call.stride index).exponential arithmetic seed)
  counted : ∃ blocks, call.offsetBlocks = .ok blocks ∧ ∀ counter,
    (∃ sequence, (counter, sequence) ∈ tensorBlocks offsetBlocks call.count call.stride) ↔
      ∃ k < blocks.toNat, counter = offsetBlocks + UInt64.ofNat k

theorem TensorCall.Valid.exponential_eq (h : call.Valid)
    (seed offsetBlocks : UInt64) {index : UInt64} (hindex : index < call.count) :
    torchCudaTensorIteratorExponentialElementAtOffset arithmetic seed call.count index
      offsetBlocks call.policy.multiprocessorCount call.policy.maxThreadsPerMultiprocessor =
      .ok ((placementOf offsetBlocks call.stride index).exponential arithmetic seed) := by
  have hfirst := h.multiprocessors
  have hsecond := h.threads
  have hin : ¬(call.count = 0 ∨ call.count ≤ index) := by
    rw [not_or, UInt64.le_iff_toNat_le, Nat.not_le, ← UInt64.lt_iff_toNat_lt]
    exact ⟨h.count_ne_zero, hindex⟩
  rw [torchCudaTensorIteratorExponentialElementAtOffset, if_neg hin, if_neg (by omega)]
  change (do
    let uniform ← torchCudaUniformTensorIteratorElement arithmetic seed (index % call.stride)
      (offsetBlocks + index / call.stride / 4) (index / call.stride % 4)
    return arithmetic.float.neg (arithmetic.float.log uniform)) = _
  rw [uniformElement_eq, h.div_div]
  rfl

theorem TensorCall.Valid.placed (normal : NormalOps F)
    {call : TensorCall} (h : call.Valid) (seed offsetBlocks : UInt64)
    (precision : TorchRandnPrecision) :
    Placed arithmetic normal call seed offsetBlocks precision where
  once := h.fits.writes_perm arithmetic normal seed offsetBlocks precision
  placed _ hwrite := h.fits.mem_tensorWrites arithmetic normal seed offsetBlocks precision hwrite
  filled fillCuda schedule output hschedule houtput hhost := by
    unfold fillTorchCudaTensorIteratorRandn
    simp only [h.count_ne_zero, hhost, if_false, Bool.false_eq_true, h.stride_eq, bind,
      Except.bind]
    rw [h.fits.applyWrites_schedule arithmetic normal seed offsetBlocks precision (hschedule _)
      houtput]
  exponential _ hindex := h.exponential_eq arithmetic seed offsetBlocks hindex
  counted := by
    refine ⟨_, h.offsetBlocks_eq, fun counter => ⟨?_, ?_⟩⟩
    · rintro ⟨sequence, hblock⟩
      exact mem_tensorBlocks hblock
    · rintro ⟨k, hk, rfl⟩
      exact ⟨0, h.fits.first_mem_tensorBlocks offsetBlocks hk⟩

/-- Each call writes every element once, at the place where the exponential element is looked up,
and takes as many counters as it says; calls one after the other draw no block twice. -/
theorem tensorCalls_placed (arithmetic : Arithmetic F D) (normal : NormalOps F)
    (calls : List TensorCall) (hvalid : ∀ call ∈ calls, call.Valid) :
    (∀ call ∈ calls, ∀ seed offsetBlocks precision,
      Placed arithmetic normal call seed offsetBlocks precision) ∧
    ∀ offsetBlocks : UInt64, offsetBlocks.toNat + counterCount calls ≤ 2 ^ 64 →
      ∃ blocks, runBlocks offsetBlocks calls = .ok blocks ∧ blocks.Nodup := by
  constructor
  · intro call hcall seed offsetBlocks precision
    exact (hvalid call hcall).placed arithmetic normal seed offsetBlocks precision
  · intro offsetBlocks hroom
    obtain ⟨blocks, hblocks, hnodup, -⟩ := runBlocks_nodup hvalid hroom
    exact ⟨blocks, hblocks, hnodup⟩

def exactArithmetic : Arithmetic ℚ ℚ := ⟨exactOps, exactOps, id, id, 1 / 2 ^ 32, 1 / 2⟩

def exactNormal : NormalOps ℚ := ⟨id, id, id, fun _ => 0, fun _ => 0, 1 / 2 ^ 32, -2⟩

/-- A tensor with a last pass that is not full, on a device with one block of threads. -/
def raggedCall : TensorCall := ⟨1500, ⟨1, 256, false, 0⟩⟩

theorem raggedCall_valid : raggedCall.Valid := ⟨by decide, by decide, by decide, by decide⟩

theorem tensorCalls_placed_ragged :
    Placed exactArithmetic exactNormal raggedCall 7 40 .float32 ∧
      ∃ blocks, runBlocks 40 [raggedCall, raggedCall] = .ok blocks ∧ blocks.Nodup := by
  have h := tensorCalls_placed exactArithmetic exactNormal [raggedCall, raggedCall]
    (by simpa using raggedCall_valid)
  exact ⟨h.1 raggedCall List.mem_cons_self 7 40 .float32, h.2 40 (by decide)⟩

end FastTts.TorchRandom
