import FastTts.HfSampler
import FastTts.Mt19937
import Mathlib.Tactic.Ring

/-!
# The generator of the processor

`TorchCpuMt19937` makes its words anew in three loops over one buffer. Its outputs are those of
MT19937, and a call of the sampler draws a block of them.
-/

namespace FastTts.TorchRandom

open LaggedRecurrence

theorem twist_eq (lhs rhs : UInt32) : twist lhs rhs = Mt19937.twisted lhs rhs := by
  have hbit : (lhs &&& 0x80000000 ||| rhs &&& 0x7fffffff) &&& 1 = rhs &&& 1 := by
    have hdistrib : ∀ a b c : UInt32, (a ||| b) &&& c = a &&& c ||| b &&& c :=
      fun _ _ _ => UInt32.toBitVec_inj.mp BitVec.and_or_distrib_right
    have hupper : (0x80000000 : UInt32) &&& 1 = 0 := rfl
    have hlower : (0x7fffffff : UInt32) &&& 1 = 1 := rfl
    rw [hdistrib, UInt32.and_assoc, UInt32.and_assoc, hupper, hlower, UInt32.and_zero,
      UInt32.zero_or]
  unfold twist Mt19937.twisted mixBits
  simp only [hbit, ne_eq, ite_not]

theorem temper_eq (y : UInt32) : temper y = Mt19937.tempered y := rfl

variable (seed : UInt64)

theorem seedWords_eq (i : ℕ) : seedWords seed i = Mt19937.initial seed.toUInt32 i := by
  induction i with
  | zero => rfl
  | succ i ih =>
    unfold seedWords Mt19937.initial
    rw [ih]

section Blocks

variable {x : ℕ → UInt32} (hx : Follows Mt19937.next 624 397 x) {place : ℕ}

include hx

variable {state : Vector UInt32 624}

theorem turned_set {p : ℕ} (h : Turned x place p state) (hp : p < 624) {lhs rhs lagged : UInt32}
    (hlhs : lhs = x (place + p)) (hrhs : rhs = x (place + p + 1))
    (hlagged : lagged = x (place + p + 397)) :
    Turned x place (p + 1) (state.set p (lagged ^^^ twist lhs rhs)) := by
  refine h.set hp ?_
  rw [Nat.add_right_comm, hx (place + p), Mt19937.next, twist_eq, hlhs, hrhs, hlagged]

theorem turned_nextState (h : Turned x place 0 state) : Turned x place 624 (nextState state) := by
  unfold nextState
  refine foldl_finRange (P := Turned x place) ?_ h
  intro p state h
  have hp := p.isLt
  have hread : ∀ j : Fin 624, state.get (p + j) = x (place + p.val + j.val) := by
    intro j
    have hj := j.isLt
    have hval : (p + j).val = (p.val + j.val) % 624 := Fin.val_add p j
    change state[(p + j).val] = x (place + p.val + j.val)
    rcases Nat.lt_or_ge (p.val + j.val) 624 with hin | hround
    · rw [Nat.mod_eq_of_lt hin] at hval
      exact (h.old (p + j).isLt (by omega)).trans (congrArg x (by omega))
    · rw [Nat.mod_eq_sub_mod hround, Nat.mod_eq_of_lt (by omega)] at hval
      exact (h.new (p + j).isLt (by omega)).trans (congrArg x (by omega))
  apply turned_set hx h p.isLt
  · exact h.old p.isLt le_rfl
  · exact hread 1
  · exact hread 397

end Blocks

/-! ## The outputs -/

def TorchCpuMt19937.after (count : ℕ) : TorchCpuMt19937 :=
  Nat.iterate (fun rng => rng.random.2) count (TorchCpuMt19937.ofSeed seed)

/-- The generator has made these many outputs, and its words are those from a place on. -/
structure Drawn (count place : ℕ) (rng : TorchCpuMt19937) : Prop where
  block : Turned (Mt19937.word seed.toUInt32) place 0 rng.state
  left : place + 1 = count + rng.left
  next : rng.left = 1 ∨ count + 624 = place + rng.next

theorem drawn_ofSeed : Drawn seed 0 0 (TorchCpuMt19937.ofSeed seed) where
  block := by
    intro i hi
    rw [if_neg (Nat.not_lt_zero i), Nat.zero_add, Mt19937.word_initial _ hi, ← seedWords_eq]
    exact Vector.getElem_ofFn hi
  left := rfl
  next := .inl rfl

variable {count : ℕ}

theorem Drawn.output {seed : UInt64} {place : ℕ} {state : Vector UInt32 624}
    (h : Turned (Mt19937.word seed.toUInt32) place 0 state) (i : Fin 624)
    (hplace : count + 624 = place + i.val) :
    temper (state.get i) = Mt19937.output seed.toUInt32 count := by
  have hword : state.get i = Mt19937.word seed.toUInt32 (624 + count) :=
    (h.old i.isLt (Nat.zero_le _)).trans (congrArg _ (by omega))
  rw [temper_eq, hword, Mt19937.output]

variable {rng : TorchCpuMt19937}

theorem TorchCpuMt19937.random_turned (h : rng.left - 1 = 0) :
    ∃ hkept, rng.random = (temper ((nextState rng.state).get 0),
      ⟨624, 1, nextState rng.state, hkept⟩) := by
  unfold TorchCpuMt19937.random
  rw [dif_pos h]
  exact ⟨_, rfl⟩

theorem TorchCpuMt19937.random_kept (h : ¬ rng.left - 1 = 0) :
    ∃ hin hkept, rng.random = (temper (rng.state.get ⟨rng.next, hin⟩),
      ⟨rng.left - 1, rng.next + 1, rng.state, hkept⟩) := by
  have hinside := rng.inside
  unfold TorchCpuMt19937.random
  rw [dif_neg h]
  exact ⟨by omega, Or.inr (by omega), rfl⟩

theorem Drawn.random {seed : UInt64} {place : ℕ} (h : Drawn seed count place rng) :
    rng.random.1 = Mt19937.output seed.toUInt32 count ∧
      ∃ place', Drawn seed (count + 1) place' rng.random.2 := by
  have hleft := h.left
  have hnext := h.next
  have hinside := rng.inside
  by_cases hzero : rng.left - 1 = 0
  · have hnew := (turned_nextState (Mt19937.follows_word _) h.block).next
    obtain ⟨_, hrandom⟩ := TorchCpuMt19937.random_turned hzero
    rw [hrandom]
    refine ⟨Drawn.output hnew 0 ?_, place + 624, ?_⟩
    · rw [Fin.val_zero]
      omega
    · constructor
      · simpa only using hnew
      · simp only
        omega
      · right
        simp only
        omega
  · obtain ⟨hin, hkept, hrandom⟩ := TorchCpuMt19937.random_kept hzero
    rw [hrandom]
    refine ⟨Drawn.output h.block _ ?_, place, h.block, ?_, ?_⟩
    · simp only
      omega
    · simp only
      omega
    · right
      simp only
      omega

theorem exists_drawn (count : ℕ) :
    ∃ place, Drawn seed count place (TorchCpuMt19937.after seed count) := by
  induction count with
  | zero => exact ⟨0, drawn_ofSeed seed⟩
  | succ count ih =>
    obtain ⟨place, hdrawn⟩ := ih
    unfold TorchCpuMt19937.after at hdrawn ⊢
    rw [Function.iterate_succ_apply']
    exact hdrawn.random.2

theorem random_after (count : ℕ) :
    (TorchCpuMt19937.after seed count).random.1 = Mt19937.output seed.toUInt32 count := by
  obtain ⟨place, hdrawn⟩ := exists_drawn seed count
  exact hdrawn.random.1

theorem random64_after (count : ℕ) :
    (TorchCpuMt19937.after seed count).random64 =
      (((Mt19937.output seed.toUInt32 count).toUInt64 <<< 32) |||
        (Mt19937.output seed.toUInt32 (count + 1)).toUInt64,
        TorchCpuMt19937.after seed (count + 2)) := by
  have hnext : ∀ count, (TorchCpuMt19937.after seed count).random.2 =
      TorchCpuMt19937.after seed (count + 1) := by
    intro count
    unfold TorchCpuMt19937.after
    rw [Function.iterate_succ_apply']
  have hfirst : (TorchCpuMt19937.after seed count).random =
      (Mt19937.output seed.toUInt32 count, TorchCpuMt19937.after seed (count + 1)) :=
    Prod.ext (random_after seed count) (hnext count)
  have hsecond : (TorchCpuMt19937.after seed (count + 1)).random =
      (Mt19937.output seed.toUInt32 (count + 1), TorchCpuMt19937.after seed (count + 2)) :=
    Prod.ext (random_after seed (count + 1)) (hnext (count + 1))
  simp only [TorchCpuMt19937.random64, hfirst, hsecond]

end FastTts.TorchRandom

namespace FastTts.HfSampler

open TorchRandom

variable {F D : Type} (arithmetic : Arithmetic F D)

/-! ## The draws of a call -/

/-- The outputs that a call passes over. -/
def firstDraw (vocabulary : ℕ) (callIndex : UInt64) : ℕ :=
  (callIndex * UInt64.ofNat vocabulary * 2).toNat

theorem firstDraw_eq (vocabulary : ℕ) (callIndex : UInt64) :
    firstDraw vocabulary callIndex = 2 * vocabulary * callIndex.toNat % 2 ^ 64 := by
  unfold firstDraw
  rw [UInt64.toNat_mul, UInt64.toNat_mul, UInt64.toNat_ofNat']
  have htwo : (2 : UInt64).toNat = 2 := rfl
  rw [htwo, Nat.mul_mod_mod, Nat.mod_mul_mod]
  congr 1
  ring

theorem foldl_multinomialStep (maxScore : F) (seed : UInt64) (first : ℕ) (best : D × ℤ)
    (entries : List (F × ℕ)) :
    (entries.foldl (multinomialStep arithmetic maxScore)
      (TorchCpuMt19937.after seed first, best)).1 =
      TorchCpuMt19937.after seed (first + 2 * entries.length) := by
  induction entries generalizing first best with
  | nil => rfl
  | cons entry entries ih =>
    obtain ⟨best', hstep⟩ : ∃ best', multinomialStep arithmetic maxScore
        (TorchCpuMt19937.after seed first, best) entry =
        (TorchCpuMt19937.after seed (first + 2), best') := by
      unfold multinomialStep torchCpuExponentialFloat
      rw [random64_after]
      simp only
      split_ifs
      · exact ⟨_, rfl⟩
      · exact ⟨_, rfl⟩
    rw [List.foldl_cons, hstep, ih, List.length_cons]
    congr 1
    omega

/-- The calls up to one draw blocks of outputs that follow each other. -/
structure DrawsBlocks (seed : UInt64) (vocabulary : ℕ) (calls : UInt64) : Prop where
  outputs : ∀ n, (TorchCpuMt19937.after seed n).random.1 = Mt19937.output seed.toUInt32 n
  drawn : ∀ call ≤ calls, ∀ scores : List F, scores.length = vocabulary →
    ∀ maxScore best, ∀ tokens ≤ vocabulary,
      ((scores.zipIdx.take tokens).foldl (multinomialStep arithmetic maxScore)
        ((TorchCpuMt19937.ofSeed seed).discardExponentialDraws
          (call * UInt64.ofNat scores.length), best)).1 =
        TorchCpuMt19937.after seed (firstDraw vocabulary call + 2 * tokens)
  consecutive : ∀ call < calls,
    firstDraw vocabulary (call + 1) = firstDraw vocabulary call + 2 * vocabulary
  apart : ∀ call other, call < other → other ≤ calls →
    firstDraw vocabulary call + 2 * vocabulary ≤ firstDraw vocabulary other

variable {calls : UInt64} {vocabulary : ℕ} {call : UInt64}

theorem firstDraw_of_lt (hcall : call ≤ calls) (h : 2 * vocabulary * calls.toNat < 2 ^ 64) :
    firstDraw vocabulary call = 2 * vocabulary * call.toNat := by
  rw [firstDraw_eq]
  apply Nat.mod_eq_of_lt
  exact (Nat.mul_le_mul_left _ (UInt64.le_iff_toNat_le.mp hcall)).trans_lt h

theorem toNat_succ (h : call < calls) : (call + 1).toNat = call.toNat + 1 := by
  have hlt := UInt64.lt_iff_toNat_lt.mp h
  have hbound := calls.toNat_lt
  have hone : (1 : UInt64).toNat = 1 := rfl
  rw [UInt64.toNat_add, hone]
  omega

theorem firstDraw_of_consecutive
    (h : ∀ call < calls,
      firstDraw vocabulary (call + 1) = firstDraw vocabulary call + 2 * vocabulary) (count : ℕ)
    (hcount : count ≤ calls.toNat) :
    firstDraw vocabulary (UInt64.ofNat count) = 2 * vocabulary * count := by
  induction count with
  | zero => rw [firstDraw_eq]; rfl
  | succ count ih =>
    have hbound := calls.toNat_lt
    have hsize : UInt64.size = 2 ^ 64 := rfl
    have htoNat : (UInt64.ofNat count).toNat = count := UInt64.toNat_ofNat_of_lt' (by omega)
    have hlt : UInt64.ofNat count < calls := by
      rw [UInt64.lt_iff_toNat_lt, htoNat]
      omega
    have hsucc : UInt64.ofNat (count + 1) = UInt64.ofNat count + 1 := by
      apply UInt64.toNat_inj.mp
      rw [toNat_succ hlt, htoNat, UInt64.toNat_ofNat_of_lt' (by omega)]
    rw [hsucc, h _ hlt, ih (by omega)]
    ring

theorem drawsBlocks_iff (seed : UInt64) (vocabulary : ℕ) (calls : UInt64) :
    DrawsBlocks arithmetic seed vocabulary calls ↔
      2 * vocabulary * calls.toNat < 2 ^ 64 := by
  constructor
  · intro h
    have hlast := firstDraw_of_consecutive h.consecutive calls.toNat le_rfl
    rw [← hlast]
    exact UInt64.toNat_lt _
  · intro h
    constructor
    · exact random_after seed
    · rintro call - scores rfl maxScore best tokens htokens
      have hloop := foldl_multinomialStep arithmetic maxScore seed
        (firstDraw scores.length call) best (scores.zipIdx.take tokens)
      rwa [List.length_take, List.length_zipIdx, Nat.min_eq_left htokens] at hloop
    · intro call hcall
      have hnext : call + 1 ≤ calls := by
        rw [UInt64.le_iff_toNat_le, toNat_succ hcall]
        exact UInt64.lt_iff_toNat_lt.mp hcall
      rw [firstDraw_of_lt hnext h, firstDraw_of_lt (UInt64.le_of_lt hcall) h, toNat_succ hcall]
      ring
    · intro call other hlt hother
      have hcall := UInt64.le_of_lt (UInt64.lt_of_lt_of_le hlt hother)
      rw [firstDraw_of_lt hother h, firstDraw_of_lt hcall h, ← Nat.mul_succ]
      exact Nat.mul_le_mul_left _ (UInt64.lt_iff_toNat_lt.mp hlt)

/-- With two tokens the call 2^62 draws what the first call has drawn. -/
theorem firstDraw_repeats :
    firstDraw 2 4611686018427387904 = firstDraw 2 0 ∧
      ¬ ∀ vocabulary : ℕ, ∀ callIndex : UInt64, callIndex < callIndex + 1 →
        firstDraw vocabulary (callIndex + 1) =
          firstDraw vocabulary callIndex + 2 * vocabulary := by
  refine ⟨by decide, fun h => ?_⟩
  have hlast := h 2 4611686018427387903 (by decide)
  revert hlast
  decide

end FastTts.HfSampler
