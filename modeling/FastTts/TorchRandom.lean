import FastTts.Json
import Mathlib.Data.UInt

/-!
# Random numbers of the samplers

The counters of the CUDA generator and the state of the Mersenne Twister of the CPU are words that
come round; what is done with `float` and `double` is a parameter.
-/

namespace FastTts.TorchRandom

/-- The operations of a type of floating point numbers. -/
structure FloatOps (R : Type) where
  zero : R
  one : R
  negativeInfinity : R
  less : R → R → Bool
  lessEqual : R → R → Bool
  equal : R → R → Bool
  isFinite : R → Bool
  add : R → R → R
  sub : R → R → R
  mul : R → R → R
  div : R → R → R
  neg : R → R
  exp : R → R
  log : R → R
  log1p : R → R
  ofNat : ℕ → R

/-- Exact numbers, which have themselves for their logarithms. -/
def exactOps : FloatOps ℚ where
  zero := 0
  one := 1
  negativeInfinity := 0
  less lhs rhs := decide (lhs < rhs)
  lessEqual lhs rhs := decide (lhs ≤ rhs)
  equal lhs rhs := decide (lhs = rhs)
  isFinite _ := true
  add lhs rhs := lhs + rhs
  sub lhs rhs := lhs - rhs
  mul lhs rhs := lhs * rhs
  div lhs rhs := lhs / rhs
  neg value := -value
  exp value := value
  log value := value
  log1p value := value
  ofNat n := n

/-- `F` is `float` and `D` is `double`. -/
structure Arithmetic (F D : Type) where
  float : FloatOps F
  double : FloatOps D
  toDouble : F → D
  toFloat : D → F
  kInvTwoPow32 : F
  half : F

variable {F D : Type} (arithmetic : Arithmetic F D)

/-! ## `torch_random.cpp` -/

structure Philox4 where
  x : UInt32
  y : UInt32
  z : UInt32
  w : UInt32
  deriving DecidableEq, Repr

/-- The higher and the lower half of a product. -/
def mulHiLo (lhs rhs : UInt32) : UInt32 × UInt32 :=
  let product := lhs.toUInt64 * rhs.toUInt64
  ((product >>> 32).toUInt32, product.toUInt32)

def philoxRound (counter : Philox4) (key0 key1 : UInt32) : Philox4 :=
  let (hi0, lo0) := mulHiLo 0xD2511F53 counter.x
  let (hi1, lo1) := mulHiLo 0xCD9E8D57 counter.z
  ⟨hi1 ^^^ counter.y ^^^ key0, lo1, hi0 ^^^ counter.w ^^^ key1, lo0⟩

def philox4x32 : ℕ → Philox4 → UInt32 → UInt32 → Philox4
  | 0, counter, _, _ => counter
  | rounds + 1, counter, key0, key1 =>
    philox4x32 rounds (philoxRound counter key0 key1) (key0 + 0x9E3779B9) (key1 + 0xBB67AE85)

def philox4x32_10 (counter : Philox4) (seed : UInt64) : Philox4 :=
  philox4x32 10 counter seed.toUInt32 (seed >>> 32).toUInt32

def torchCudaUniformTensorIteratorElement (seed sequence offsetBlocks component : UInt64) :
    Except Exception F := do
  let random := philox4x32_10
    ⟨offsetBlocks.toUInt32, (offsetBlocks >>> 32).toUInt32, sequence.toUInt32,
      (sequence >>> 32).toUInt32⟩ seed
  let value ←
    if component = 0 then .ok random.x
    else if component = 1 then .ok random.y
    else if component = 2 then .ok random.z
    else if component = 3 then .ok random.w
    else .error (bytes "torch CUDA TensorIterator uniform component is invalid")
  return arithmetic.float.add (arithmetic.float.mul (arithmetic.float.ofNat value.toNat)
    arithmetic.kInvTwoPow32) (arithmetic.float.mul arithmetic.kInvTwoPow32 arithmetic.half)

/-- The number of elements of a pass over the device. -/
def gridStride (totalElements : UInt64) (multiprocessorCount maxThreadsPerMultiprocessor : ℤ) :
    UInt64 :=
  let grid := (totalElements + 256 - 1) / 256
  let blocksPerSm := UInt64.ofNat maxThreadsPerMultiprocessor.toNat / 256
  let gridCap :=
    UInt64.ofNat multiprocessorCount.toNat * (if blocksPerSm = 0 then 1 else blocksPerSm)
  256 * max 1 (min gridCap grid)

def torchCudaTensorIteratorOffsetBlocks (totalElements : UInt64)
    (multiprocessorCount maxThreadsPerMultiprocessor : ℤ) : Except Exception UInt64 :=
  if totalElements = 0 then .error (bytes "torch CUDA TensorIterator offset requires elements")
  else if multiprocessorCount ≤ 0 ∨ maxThreadsPerMultiprocessor ≤ 0 then
    .error (bytes "torch CUDA TensorIterator offset requires CUDA device properties")
  else
    let stride := gridStride totalElements multiprocessorCount maxThreadsPerMultiprocessor
    .ok ((totalElements - 1) / (stride * 4) + 1)

def torchCudaTensorIteratorExponentialElementAtOffset
    (seed totalElements elementIndex offsetBlocks : UInt64)
    (multiprocessorCount maxThreadsPerMultiprocessor : ℤ) : Except Exception F :=
  if totalElements = 0 ∨ totalElements ≤ elementIndex then
    .error (bytes "torch CUDA TensorIterator exponential element index is out of range")
  else if multiprocessorCount ≤ 0 ∨ maxThreadsPerMultiprocessor ≤ 0 then
    .error (bytes "torch CUDA TensorIterator exponential requires CUDA device properties")
  else do
    let stride := gridStride totalElements multiprocessorCount maxThreadsPerMultiprocessor
    let chunk := elementIndex / stride
    let uniform ← torchCudaUniformTensorIteratorElement arithmetic seed (elementIndex % stride)
      (offsetBlocks + chunk / 4) (chunk % 4)
    return arithmetic.float.neg (arithmetic.float.log uniform)

def torchCudaTensorIteratorExponentialElement
    (seed totalElements elementIndex callIndex : UInt64)
    (multiprocessorCount maxThreadsPerMultiprocessor : ℤ) : Except Exception F := do
  let blocks ← torchCudaTensorIteratorOffsetBlocks totalElements multiprocessorCount
    maxThreadsPerMultiprocessor
  torchCudaTensorIteratorExponentialElementAtOffset arithmetic seed totalElements elementIndex
    (callIndex * blocks) multiprocessorCount maxThreadsPerMultiprocessor

/-! ## The Mersenne Twister of `hf_sampler.cpp` -/

/-- The next word is one of the state, or all words are made anew first. -/
structure TorchCpuMt19937 where
  left : ℕ
  next : ℕ
  state : Vector UInt32 624
  inside : left = 1 ∨ (0 < left ∧ left + next ≤ 625)

/-- The words of a seed, each made from the one before. -/
def seedWords (seed : UInt64) : ℕ → UInt32
  | 0 => seed.toUInt32
  | index + 1 =>
    (1812433253 : UInt32) * (seedWords seed index ^^^ (seedWords seed index >>> 30)) +
      UInt32.ofNat (index + 1)

def TorchCpuMt19937.ofSeed (seed : UInt64) : TorchCpuMt19937 :=
  ⟨1, 0, Vector.ofFn fun index => seedWords seed index, Or.inl rfl⟩

def mixBits (lhs rhs : UInt32) : UInt32 := (lhs &&& 0x80000000) ||| (rhs &&& 0x7fffffff)

def twist (lhs rhs : UInt32) : UInt32 :=
  (mixBits lhs rhs >>> 1) ^^^ (if rhs &&& 1 ≠ 0 then 0x9908b0df else 0)

/-- The three loops over the words are one where the indices come round at their number. -/
def nextState (state : Vector UInt32 624) : Vector UInt32 624 :=
  (List.finRange 624).foldl (fun p (index : Fin 624) => p.set index
    (p.get (index + 397) ^^^ twist (p.get index) (p.get (index + 1)))) state

def temper (y : UInt32) : UInt32 :=
  let y := y ^^^ (y >>> 11)
  let y := y ^^^ ((y <<< 7) &&& 0x9d2c5680)
  let y := y ^^^ ((y <<< 15) &&& 0xefc60000)
  y ^^^ (y >>> 18)

def TorchCpuMt19937.random (rng : TorchCpuMt19937) : UInt32 × TorchCpuMt19937 :=
  if h : rng.left - 1 = 0 then
    let state := nextState rng.state
    (temper (state.get 0), ⟨624, 1, state, Or.inr (by omega)⟩)
  else
    have hleft := rng.inside
    (temper (rng.state.get ⟨rng.next, by omega⟩),
      ⟨rng.left - 1, rng.next + 1, rng.state, Or.inr (by omega)⟩)

def TorchCpuMt19937.random64 (rng : TorchCpuMt19937) : UInt64 × TorchCpuMt19937 :=
  let (high, rng) := rng.random
  let (low, rng) := rng.random
  ((high.toUInt64 <<< 32) ||| low.toUInt64, rng)

def TorchCpuMt19937.discard (count : UInt64) (rng : TorchCpuMt19937) : TorchCpuMt19937 :=
  Nat.iterate (fun rng => rng.random.2) count.toNat rng

def TorchCpuMt19937.discardExponentialDraws (count : UInt64) (rng : TorchCpuMt19937) :
    TorchCpuMt19937 :=
  rng.discard (count * 2)

def torchCpuExponentialFloat (rng : TorchCpuMt19937) : F × TorchCpuMt19937 :=
  let double := arithmetic.double
  let (word, rng) := rng.random64
  let uniform := double.mul (double.ofNat (word &&& ((1 : UInt64) <<< 53 - 1)).toNat)
    (double.div double.one (double.ofNat (2 ^ 53)))
  (arithmetic.toFloat (double.neg (double.log1p (double.neg uniform))), rng)

end FastTts.TorchRandom
