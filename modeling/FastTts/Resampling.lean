import FastTts.Json
import Mathlib.Algebra.BigOperators.Intervals

/-!
# Resampling

Every output sample is a sum over the taps of its phase. Taps that are zero at both ends are left
out, and inputs that are all there are read without a check.
-/

namespace FastTts.Resampling

inductive Failure
  | thrown (what : Exception)
  | outOfRange

inductive Accumulation
  | float32
  | float64

structure ResampleKernel (R : Type) where
  origFreq : ℕ
  newFreq : ℕ
  width : ℕ
  values : ℕ → ℕ → R

variable {R : Type} [Semiring R] [DecidableEq R]

namespace ResampleKernel

variable (kernel : ResampleKernel R) (phase : ℕ)

omit [Semiring R] [DecidableEq R] in
def kernelSize : ℕ := kernel.width * 2 + kernel.origFreq

def activeBegin : ℕ :=
  ((List.range kernel.kernelSize).takeWhile fun k => kernel.values phase k = 0).length

def trimmedEnd : ℕ → ℕ
  | 0 => 0
  | stop + 1 =>
    if kernel.activeBegin phase < stop + 1 ∧ kernel.values phase stop = 0 then trimmedEnd stop
    else stop + 1

def activeEnd : ℕ := kernel.trimmedEnd phase kernel.kernelSize

end ResampleKernel

def accumulate (term : ℕ → Except Failure R) : ℕ → Except Failure R
  | 0 => .ok 0
  | n + 1 => do
    let sum ← accumulate term n
    let next ← term n
    .ok (sum + next)

variable (samples : List R)

omit [DecidableEq R] [Semiring R] in
def readSample (index : ℤ) : Except Failure R :=
  if index < 0 then .error .outOfRange
  else match samples[index.toNat]? with
    | none => .error .outOfRange
    | some sample => .ok sample

def paddedSample (index : ℤ) : R := if index < 0 then 0 else samples.getD index.toNat 0

/-- With exact numbers the loops of the two accumulations differ in nothing. -/
def outputSample (accumulation : Accumulation) (kernel : ResampleKernel R) (block phase : ℕ) :
    Except Failure R :=
  let activeBegin := kernel.activeBegin phase
  let activeSize := kernel.activeEnd phase - activeBegin
  let inputStart : ℤ := block * kernel.origFreq - kernel.width + activeBegin
  if 0 ≤ inputStart ∧ inputStart + activeSize ≤ samples.length then
    match accumulation with
    | .float32 | .float64 =>
      accumulate (fun k => (readSample samples (inputStart + k)).map
        (· * kernel.values phase (activeBegin + k))) activeSize
  else
    match accumulation with
    | .float32 | .float64 =>
      accumulate (fun k => .ok (paddedSample samples (inputStart + k) *
        kernel.values phase (activeBegin + k))) activeSize

def ceilDiv (n d : ℕ) : ℕ := (n + d - 1) / d

def targetLength (kernel : ResampleKernel R) : ℕ :=
  ceilDiv (kernel.newFreq * samples.length) kernel.origFreq

/-- The outputs of a block that are written, with their indices. -/
def blockWrites (accumulation : Accumulation) (kernel : ResampleKernel R) (block : ℕ) :
    Except Failure (List (ℕ × R)) :=
  ((List.range kernel.newFreq).takeWhile fun phase =>
      block * kernel.newFreq + phase < targetLength samples kernel).mapM fun phase =>
    (outputSample samples accumulation kernel block phase).map
      (Prod.mk (block * kernel.newFreq + phase))

/-- All writes, in their order. -/
def sincHannWrites (accumulation : Accumulation) (kernel : ResampleKernel R) :
    Except Failure (List (ℕ × R)) :=
  ((List.range (ceilDiv (targetLength samples kernel) kernel.newFreq)).mapM
    (blockWrites samples accumulation kernel)).map List.flatten

/-- The taps are what is computed for the reduced rates. -/
def cachedKernel (width : ℕ → ℕ → ℕ) (values : ℕ → ℕ → ℕ → ℕ → R) (source target : ℕ) :
    ResampleKernel R :=
  let origFreq := source / source.gcd target
  let newFreq := target / source.gcd target
  ⟨origFreq, newFreq, width origFreq newFreq, values origFreq newFreq⟩

def resampleMonoTorchaudioSincHann (accumulation : Accumulation)
    (kernelOf : ℕ → ℕ → ResampleKernel R) (source target : ℤ) : Except Failure (List R) :=
  if source ≤ 0 ∨ target ≤ 0 then
    .error (.thrown (bytes "torchaudio Hann resampling requires positive sample rates"))
  else if source = target ∨ samples = [] then .ok samples
  else do
    let kernel := kernelOf source.toNat target.toNat
    let writes ← sincHannWrites samples accumulation kernel
    .ok (writes.foldl (fun out write => out.set write.1 write.2)
      (List.replicate (targetLength samples kernel) 0))

/-! ## What is written -/

variable {samples} {kernel : ResampleKernel R} {accumulation : Accumulation} {block phase : ℕ}

/-- The sum over all taps of an input with zeros around it. -/
def plainSum (samples : List R) (kernel : ResampleKernel R) (block phase : ℕ) : R :=
  ∑ k ∈ Finset.range kernel.kernelSize,
    paddedSample samples (block * kernel.origFreq - kernel.width + k) * kernel.values phase k

omit [DecidableEq R] in
theorem accumulate_eq {term : ℕ → Except Failure R} {f : ℕ → R} {n : ℕ}
    (h : ∀ k < n, term k = .ok (f k)) : accumulate term n = .ok (∑ k ∈ Finset.range n, f k) := by
  induction n with
  | zero => simp [accumulate]
  | succ n ih =>
    rw [accumulate, ih fun k hk => h k (by omega), h n (by omega), Finset.sum_range_succ]
    rfl

theorem activeBegin_spec (kernel : ResampleKernel R) (phase : ℕ) :
    kernel.activeBegin phase ≤ kernel.kernelSize ∧
      ∀ k < kernel.activeBegin phase, kernel.values phase k = 0 := by
  have hinit := List.takeWhile_prefix (l := List.range kernel.kernelSize)
    fun k => decide (kernel.values phase k = 0)
  have hle := hinit.length_le
  rw [List.length_range] at hle
  refine ⟨hle, fun k hk => ?_⟩
  have hget : _ = k := (hinit.getElem hk).trans (List.getElem_range _)
  have hzero := List.mem_takeWhile_imp (List.getElem_mem hk)
  rw [hget] at hzero
  simpa using hzero

theorem trimmedEnd_spec (stop : ℕ) (h : kernel.activeBegin phase ≤ stop) :
    kernel.activeBegin phase ≤ kernel.trimmedEnd phase stop ∧
      kernel.trimmedEnd phase stop ≤ stop ∧
      ∀ k, kernel.trimmedEnd phase stop ≤ k → k < stop → kernel.values phase k = 0 := by
  induction stop with
  | zero => simp [ResampleKernel.trimmedEnd]; omega
  | succ stop ih =>
    rw [ResampleKernel.trimmedEnd]
    split_ifs with hzero
    · obtain ⟨hbegin, hle, hrest⟩ := ih (by omega)
      refine ⟨hbegin, by omega, fun k hk hstop => ?_⟩
      rcases eq_or_ne k stop with rfl | hne
      · exact hzero.2
      · exact hrest k hk (by omega)
    · exact ⟨h, le_rfl, fun k hk hstop => by omega⟩

theorem sum_active (kernel : ResampleKernel R) (phase : ℕ) {f : ℕ → R}
    (hf : ∀ k, kernel.values phase k = 0 → f k = 0) :
    ∑ k ∈ Finset.range (kernel.activeEnd phase - kernel.activeBegin phase),
      f (kernel.activeBegin phase + k) = ∑ k ∈ Finset.range kernel.kernelSize, f k := by
  obtain ⟨hbegin, hfront⟩ := activeBegin_spec kernel phase
  obtain ⟨hle, hstop, hback⟩ := trimmedEnd_spec _ hbegin
  rw [← Finset.sum_Ico_eq_sum_range, Finset.range_eq_Ico,
    ← Finset.sum_Ico_consecutive f (Nat.zero_le _) hbegin,
    ← Finset.sum_Ico_consecutive f hle hstop,
    Finset.sum_eq_zero (s := Finset.Ico 0 _) fun k hk => hf k (hfront k (Finset.mem_Ico.mp hk).2),
    Finset.sum_eq_zero (s := Finset.Ico _ kernel.kernelSize) fun k hk =>
      hf k (hback k (Finset.mem_Ico.mp hk).1 (Finset.mem_Ico.mp hk).2), zero_add, add_zero]
  rfl

omit [DecidableEq R] in
theorem readSample_of_inside {index : ℤ} (hstart : 0 ≤ index) (hstop : index < samples.length) :
    readSample samples index = .ok (paddedSample samples index) := by
  have hlt : index.toNat < samples.length := by omega
  simp [readSample, paddedSample, not_lt.mpr hstart, hlt]

theorem outputSample_eq : outputSample samples accumulation kernel block phase =
    .ok (plainSum samples kernel block phase) := by
  have hsum := sum_active kernel phase (f := fun k =>
    paddedSample samples (block * kernel.origFreq - kernel.width + k) * kernel.values phase k)
      fun k hk => by simp [hk]
  have hindex : ∀ k : ℕ, (block * kernel.origFreq - kernel.width + kernel.activeBegin phase : ℤ) +
      k = block * kernel.origFreq - kernel.width + (kernel.activeBegin phase + k : ℕ) := by
    intro k
    rw [Nat.cast_add, add_assoc]
  rw [plainSum, ← hsum]
  unfold outputSample
  dsimp only
  split_ifs with hinside
  · cases accumulation <;> dsimp only <;> refine accumulate_eq fun k hk => ?_
    all_goals
      rw [readSample_of_inside (by omega) (by omega), hindex]
      rfl
  · cases accumulation <;> dsimp only <;> refine accumulate_eq fun k hk => ?_
    all_goals rw [hindex]

theorem takeWhile_range (n m : ℕ) :
    (List.range n).takeWhile (fun k => decide (k < m)) = List.range (min n m) := by
  induction n with
  | zero => simp
  | succ n ih =>
    rw [List.range_succ, List.takeWhile_append, ih, List.length_range, List.length_range]
    by_cases h : n < m
    · rw [if_pos (by omega), min_eq_left h, List.range_succ]
      simp [h]
    · split_ifs with hn
      · simp [h, show min (n + 1) m = n by omega]
      · rw [show min (n + 1) m = min n m by omega]

def sampleAt (samples : List R) (kernel : ResampleKernel R) (index : ℕ) : R :=
  plainSum samples kernel (index / kernel.newFreq) (index % kernel.newFreq)

theorem blockWrites_eq : blockWrites samples accumulation kernel block =
    .ok ((List.range (min kernel.newFreq (targetLength samples kernel -
      block * kernel.newFreq))).map fun phase => (block * kernel.newFreq + phase,
        sampleAt samples kernel (block * kernel.newFreq + phase))) := by
  have hphases : ((List.range kernel.newFreq).takeWhile fun phase =>
      block * kernel.newFreq + phase < targetLength samples kernel) =
        List.range (min kernel.newFreq (targetLength samples kernel - block * kernel.newFreq)) := by
    rw [← takeWhile_range]
    congr 1
    funext phase
    simp only [decide_eq_decide]
    omega
  rw [blockWrites, hphases]
  refine mapM_ok fun phase hphase => ?_
  have hlt : phase < kernel.newFreq := by
    have := List.mem_range.mp hphase
    omega
  rw [outputSample_eq, sampleAt, Nat.mul_comm block, Nat.mul_add_div (by omega),
    Nat.div_eq_of_lt hlt, Nat.mul_add_mod, Nat.mod_eq_of_lt hlt, Nat.add_zero]
  rfl

theorem flatten_blocks {α : Type} (f : ℕ → α) (blocks size target : ℕ) :
    ((List.range blocks).map fun block =>
      (List.range (min size (target - block * size))).map fun phase =>
        f (block * size + phase)).flatten = (List.range (min (blocks * size) target)).map f := by
  induction blocks with
  | zero => simp
  | succ blocks ih =>
    rw [List.range_succ, List.map_append, List.flatten_append, ih, Nat.succ_mul]
    rcases le_total target (blocks * size) with h | h
    · simp [h, Nat.sub_eq_zero_of_le h, h.trans (Nat.le_add_right _ size)]
    · rw [show min (blocks * size + size) target =
        blocks * size + min size (target - blocks * size) by omega, List.range_add, min_eq_left h]
      simp [Function.comp_def]

theorem sincHannWrites_eq (samples : List R) (accumulation : Accumulation)
    (hnew : 0 < kernel.newFreq) :
    sincHannWrites samples accumulation kernel = .ok
      ((List.range (targetLength samples kernel)).map fun j => (j, sampleAt samples kernel j)) := by
  rw [sincHannWrites, mapM_ok fun block _ => blockWrites_eq]
  have hblocks : targetLength samples kernel ≤
      ceilDiv (targetLength samples kernel) kernel.newFreq * kernel.newFreq := by
    have hdiv := Nat.lt_div_mul_add (a := targetLength samples kernel + kernel.newFreq - 1) hnew
    rw [ceilDiv]
    omega
  rw [Except.map, flatten_blocks (fun j => (j, sampleAt samples kernel j)), min_eq_right hblocks]

omit [Semiring R] [DecidableEq R] in
theorem foldl_set (f : ℕ → R) (n : ℕ) (out : List R) (h : n ≤ out.length) :
    ((List.range n).map fun j => (j, f j)).foldl (fun out write => out.set write.1 write.2) out =
      (List.range n).map f ++ out.drop n := by
  induction n with
  | zero => simp
  | succ n ih =>
    have hdrop : (out.drop n).set 0 (f n) = f n :: out.drop (n + 1) := by
      rw [List.drop_eq_getElem_cons (by omega : n < out.length)]
      rfl
    rw [List.range_succ, List.map_append, List.foldl_append, ih (by omega), List.map_append]
    simp [hdrop]

/-- Between two different rates, the outputs are written one after the other, each of them once, and
each is the sum over all taps. -/
theorem resample_written {source target : ℤ} (hsource : 0 < source) (htarget : 0 < target)
    (hne : source ≠ target) (hsamples : samples ≠ []) (accumulation : Accumulation)
    (width : ℕ → ℕ → ℕ) (values : ℕ → ℕ → ℕ → ℕ → R) :
    let kernel := cachedKernel width values source.toNat target.toNat
    sincHannWrites samples accumulation kernel = .ok ((List.range (targetLength samples kernel)).map
        fun j => (j, sampleAt samples kernel j)) ∧
      resampleMonoTorchaudioSincHann samples accumulation (cachedKernel width values) source target
        = .ok ((List.range (targetLength samples kernel)).map (sampleAt samples kernel)) := by
  intro kernel
  have hgcd : source.toNat.gcd target.toNat ∣ target.toNat := Nat.gcd_dvd_right _ _
  have hnew : 0 < kernel.newFreq :=
    Nat.div_pos (Nat.le_of_dvd (by omega) hgcd) (Nat.pos_of_dvd_of_pos hgcd (by omega))
  have hwrites := sincHannWrites_eq samples accumulation hnew
  refine ⟨hwrites, ?_⟩
  rw [resampleMonoTorchaudioSincHann, if_neg (by omega), if_neg (by simp [hne, hsamples])]
  simp only [show cachedKernel width values source.toNat target.toNat = kernel from rfl, hwrites,
    bind, Except.bind]
  rw [foldl_set _ _ _ (List.length_replicate).ge, List.drop_eq_nil_of_le (by simp),
    List.append_nil]

/-- Three samples with a third of the rate. -/
theorem resample_written_third :
    resampleMonoTorchaudioSincHann [1, 2, 3] .float64
      (cachedKernel (fun _ _ => 1) fun _ _ _ k => if k = 0 then 0 else (2 : ℤ)) 3 1 = .ok [12] :=
  (resample_written (by decide) (by decide) (by decide) (by decide) .float64 _ _).2

/-- Between equal rates, the samples stay as they are, whatever the taps are. -/
theorem not_resample_equal_rates :
    ¬ ∀ (samples : List ℤ) (source target : ℤ) (width : ℕ → ℕ → ℕ)
      (values : ℕ → ℕ → ℕ → ℕ → ℤ), samples ≠ [] → 0 < source → 0 < target →
      let kernel := cachedKernel width values source.toNat target.toNat
      resampleMonoTorchaudioSincHann samples .float64 (cachedKernel width values) source target =
        .ok ((List.range (targetLength samples kernel)).map (sampleAt samples kernel)) := by
  intro h
  have hsame := h [1] 1 1 (fun _ _ => 1) (fun _ _ _ _ => 0) (by decide) (by decide) (by decide)
  exact absurd (Except.ok.inj hsame) (by decide)

end FastTts.Resampling
