import FastTts.Json
import Mathlib.Tactic.NormNum

/-!
# Greedy decoding of tokens and durations

Two loops decode the frames of an encoder. Each asks the core for a label and a duration at a frame;
a blank moves to a later frame, a label may leave the frame as it is, but not too often.
`run_tdt_decoder_greedy_customized` counts the labels of a visit of the frame;
`run_tdt_decoder_greedy_duration_loop` compares the frame with that of the last label.
-/

namespace FastTts.TdtDecoder

structure TdtJointStep where
  label : ℤ
  durationIndex : ℤ
  deriving DecidableEq, Repr

structure TdtDecodeResult where
  tokenIds : List ℤ
  tokenTimestamps : List ℤ
  tokenDurations : List ℤ
  deriving DecidableEq, Repr

/-- How a decoder does not come back: `overflow` is a product that `int64_t` has no room for, and
`endless` a loop that goes on after as many rounds as it is given. -/
inductive Failure (E : Type)
  | thrown (exception : Exception)
  /-- `std::out_of_range`, of `std::vector::at` -/
  | outOfRange
  | core (exception : E)
  | overflow
  | endless
  deriving DecidableEq, Repr

/-- What the decoders call of a core with the state `S` and the exceptions `E`; `F` is `float`. -/
structure TdtDecoderCore (F E S : Type) where
  resetState : EStateM E S Unit
  predictStart : ℤ → EStateM E S Unit
  predictToken : ℤ → EStateM E S Unit
  /-- The samples from the frame on. -/
  jointStepArgmax : List F → EStateM E S TdtJointStep

variable {F E S α β : Type}

/-- A call of the core. -/
def ofCore (call : EStateM E S α) : EStateM (Failure E) S α := fun s =>
  match call s with
  | .ok a s' => .ok a s'
  | .error e s' => .error (.core e) s'

/-- `static_cast<int32_t>` -/
def toInt32 (n : ℤ) : ℤ := n.bmod (2 ^ 32)

def durationAt (durations : List ℤ) (index : ℤ) : EStateM (Failure E) S ℤ :=
  if index < 0 then throw .outOfRange
  else match durations[index.toNat]? with
    | none => throw .outOfRange
    | some duration => pure duration

def TdtDecodeResult.push (result : TdtDecodeResult) (label time duration : ℤ) :
    TdtDecodeResult where
  tokenIds := result.tokenIds ++ [label]
  tokenTimestamps := result.tokenTimestamps ++ [toInt32 time]
  tokenDurations := result.tokenDurations ++ [duration]

structure TdtInput (F : Type) where
  encoderProjected : List F
  frames : ℤ
  hiddenSize : ℤ
  blankId : ℤ
  durations : List ℤ
  maxSymbolsPerStep : ℤ

variable (core : TdtDecoderCore F E S) (input : TdtInput F)

def TdtInput.frameAt (time : ℤ) : List F :=
  input.encoderProjected.drop (time * input.hiddenSize).toNat

def checkShape : EStateM (Failure E) S Unit :=
  if input.frames < 0 ∨ input.hiddenSize ≤ 0 then
    throw (.thrown (bytes "Invalid TDT decoder input shape"))
  else if 2 ^ 63 ≤ input.frames * input.hiddenSize then throw .overflow
  else if (input.encoderProjected.length : ℤ) ≠ input.frames * input.hiddenSize then
    throw (.thrown (bytes "TDT decoder encoder_projected shape mismatch"))
  else pure ()

/-! ## The loop that counts the labels of a visit -/

structure Visit where
  frameAdvanced : Bool
  time : ℤ
  result : TdtDecodeResult

/-- The `for` loop, for as many symbols as may still be added. -/
def visitFrame : ℕ → ℤ → TdtDecodeResult → EStateM (Failure E) S Visit
  | 0, time, result => pure ⟨false, time, result⟩
  | symbols + 1, time, result =>
    if time < input.frames then do
      let step ← ofCore (core.jointStepArgmax (input.frameAt time))
      let duration ← durationAt input.durations step.durationIndex
      if step.label = input.blankId then return ⟨true, time + max duration 1, result⟩
      else do
        ofCore (core.predictToken step.label)
        if 0 < duration then
          return ⟨true, time + duration, result.push step.label time duration⟩
        else visitFrame symbols time (result.push step.label time duration)
    else pure ⟨false, time, result⟩

def customizedFrom : ℕ → ℤ → TdtDecodeResult → EStateM (Failure E) S TdtDecodeResult
  | 0, time, result => if time < input.frames then throw .endless else pure result
  | rounds + 1, time, result =>
    if time < input.frames then do
      let visit ← visitFrame core input input.maxSymbolsPerStep.toNat time result
      customizedFrom rounds (if visit.frameAdvanced then visit.time else visit.time + 1)
        visit.result
    else pure result

/-- `run_tdt_decoder_greedy_customized` -/
def greedyCustomized (rounds : ℕ) : EStateM (Failure E) S TdtDecodeResult := do
  checkShape input
  ofCore core.resetState
  ofCore (core.predictStart input.blankId)
  customizedFrom core input rounds 0 ⟨[], [], []⟩

/-! ## The loop that looks at the last label -/

structure LoopState where
  time : ℤ
  lastLabelTime : ℤ
  labelsAtCurrentTime : ℤ
  result : TdtDecodeResult

def LoopState.labelled (state : LoopState) (label duration : ℤ) : LoopState :=
  let labels := if state.time = state.lastLabelTime then state.labelsAtCurrentTime + 1 else 1
  let time := state.time + duration
  { time := if input.maxSymbolsPerStep ≤ labels ∧ time = state.time then time + 1 else time
    lastLabelTime := state.time
    labelsAtCurrentTime := labels
    result := state.result.push label state.time duration }

def blanksFrom : ℕ → LoopState → EStateM (Failure E) S LoopState
  | 0, state => if state.time < input.frames then throw .endless else pure state
  | rounds + 1, state =>
    if state.time < input.frames then do
      let step ← ofCore (core.jointStepArgmax (input.frameAt state.time))
      let duration ← durationAt input.durations step.durationIndex
      if step.label = input.blankId then
        blanksFrom rounds { state with time := state.time + if duration = 0 then 1 else duration }
      else do
        ofCore (core.predictToken step.label)
        return state.labelled input step.label duration
    else pure state

/-- The outer loop, for a number of rounds that the inner one is given, too. -/
def durationLoopFrom (rounds : ℕ) : ℕ → LoopState → EStateM (Failure E) S TdtDecodeResult
  | 0, state => if state.time < input.frames then throw .endless else pure state.result
  | labels + 1, state =>
    if state.time < input.frames then do
      let state ← blanksFrom core input rounds state
      durationLoopFrom rounds labels state
    else pure state.result

/-- `run_tdt_decoder_greedy_duration_loop` -/
def greedyDurationLoop (rounds : ℕ) : EStateM (Failure E) S TdtDecodeResult := do
  checkShape input
  if input.maxSymbolsPerStep ≤ 0 then
    throw (.thrown (bytes "TDT decoder max_symbols_per_step must be positive"))
  else do
    ofCore core.resetState
    ofCore (core.predictStart input.blankId)
    durationLoopFrom core input rounds rounds ⟨0, -1, 0, ⟨[], [], []⟩⟩

/-! ## One machine for both -/

/-- The decoding of the frames from `time` on, with the number of labels that the frame has got. -/
def decodeFrom : ℕ → ℤ → ℕ → TdtDecodeResult → EStateM (Failure E) S TdtDecodeResult
  | 0, time, _, result => if time < input.frames then throw .endless else pure result
  | steps + 1, time, labels, result =>
    if time < input.frames then do
      let step ← ofCore (core.jointStepArgmax (input.frameAt time))
      let duration ← durationAt input.durations step.durationIndex
      if step.label = input.blankId then decodeFrom steps (time + max duration 1) 0 result
      else do
        ofCore (core.predictToken step.label)
        if 0 < duration then
          decodeFrom steps (time + duration) 0 (result.push step.label time duration)
        else if labels + 1 < input.maxSymbolsPerStep.toNat then
          decodeFrom steps time (labels + 1) (result.push step.label time duration)
        else decodeFrom steps (time + 1) 0 (result.push step.label time duration)
    else pure result

variable {core input}

variable {time : ℤ} {steps labels rounds : ℕ} {result : TdtDecodeResult} {state : LoopState}

theorem step_congr {f g : TdtJointStep → ℤ → EStateM (Failure E) S β}
    (h : ∀ step, ∀ duration ∈ input.durations, f step duration = g step duration) :
    (do let step ← ofCore (core.jointStepArgmax (input.frameAt time))
        let duration ← durationAt input.durations step.durationIndex
        f step duration) =
      (do let step ← ofCore (core.jointStepArgmax (input.frameAt time))
          let duration ← durationAt input.durations step.durationIndex
          g step duration) := by
  refine bind_congr fun step => ?_
  rw [durationAt]
  split_ifs with hnegative
  · rfl
  · cases hget : input.durations[step.durationIndex.toNat]? with
    | none => rfl
    | some duration =>
      rw [pure_bind, pure_bind]
      exact h step duration (List.mem_of_getElem? hget)

/-- How many steps are left at most, while the frame has no label. -/
def stepsLeft (input : TdtInput F) (time : ℤ) : ℕ :=
  (input.frames - time).toNat * input.maxSymbolsPerStep.toNat

theorem stepsLeft_add {later : ℤ} (htime : time < input.frames) (hlater : time < later) :
    stepsLeft input later + input.maxSymbolsPerStep.toNat ≤ stepsLeft input time := by
  have hframes : (input.frames - later).toNat + 1 ≤ (input.frames - time).toNat := by omega
  have hmul := Nat.mul_le_mul_right input.maxSymbolsPerStep.toNat hframes
  rwa [Nat.add_mul, Nat.one_mul] at hmul

theorem decodeFrom_done (h : ¬ time < input.frames) :
    decodeFrom core input steps time labels result = pure result := by
  cases steps <;> rw [decodeFrom, if_neg h]

/-! ## The loop that counts -/

theorem customizedFrom_of_visit
    (hvisit : ∀ (rounds : ℕ) (time : ℤ) (result : TdtDecodeResult), time < input.frames →
      (input.frames - time).toNat ≤ rounds + 1 → stepsLeft input time ≤ steps →
      (do let visit ← visitFrame core input input.maxSymbolsPerStep.toNat time result
          customizedFrom core input rounds
            (if visit.frameAdvanced then visit.time else visit.time + 1)
            visit.result) = decodeFrom core input steps time 0 result)
    (hrounds : (input.frames - time).toNat ≤ rounds) (hsteps : stepsLeft input time ≤ steps) :
    customizedFrom core input rounds time result = decodeFrom core input steps time 0 result := by
  by_cases htime : time < input.frames
  · cases rounds with
    | zero => omega
    | succ rounds =>
      rw [customizedFrom, if_pos htime]
      exact hvisit rounds time result htime hrounds hsteps
  · rw [decodeFrom_done htime]
    cases rounds <;> rw [customizedFrom, if_neg htime]

variable (core) in
theorem visitFrame_decode (steps rounds symbols : ℕ) (time : ℤ) (result : TdtDecodeResult)
    (htime : time < input.frames) (hrounds : (input.frames - time).toNat ≤ rounds + 1)
    (hsome : 0 < symbols) (hsymbols : symbols ≤ input.maxSymbolsPerStep.toNat)
    (hsteps : stepsLeft input time ≤ steps + (input.maxSymbolsPerStep.toNat - symbols)) :
    (do let visit ← visitFrame core input symbols time result
        customizedFrom core input rounds
          (if visit.frameAdvanced then visit.time else visit.time + 1)
          visit.result) =
      decodeFrom core input steps time (input.maxSymbolsPerStep.toNat - symbols) result := by
  induction steps generalizing rounds symbols time result with
  | zero =>
    have hleft := stepsLeft_add htime (show time < time + 1 by omega)
    omega
  | succ steps ih =>
    have hnext : ∀ (later : ℤ) (result : TdtDecodeResult), time < later →
        customizedFrom core input rounds later result =
          decodeFrom core input steps later 0 result := by
      intro later result hlater
      have hleft := stepsLeft_add htime hlater
      refine customizedFrom_of_visit (fun rounds time result htime hrounds hsteps => ?_) (by omega)
        (by omega)
      have hvisit := ih rounds input.maxSymbolsPerStep.toNat time result htime hrounds (by omega)
        le_rfl (by omega)
      rwa [Nat.sub_self] at hvisit
    obtain ⟨others, rfl⟩ : ∃ others, symbols = others + 1 := ⟨symbols - 1, by omega⟩
    rw [visitFrame, if_pos htime, decodeFrom, if_pos htime]
    simp only [bind_assoc]
    apply step_congr
    intro step duration _
    split_ifs with hblank hduration hlabels
    · rw [pure_bind]
      exact hnext (time + max duration 1) result (by omega)
    · rw [bind_assoc]
      refine bind_congr fun _ => ?_
      rw [pure_bind]
      exact hnext (time + duration) _ (by omega)
    · rw [bind_assoc]
      refine bind_congr fun _ => ?_
      have hcount : input.maxSymbolsPerStep.toNat - (others + 1) + 1 =
          input.maxSymbolsPerStep.toNat - others := by omega
      rw [hcount]
      exact ih rounds others time _ htime hrounds (by omega) (by omega) (by omega)
    · rw [bind_assoc]
      refine bind_congr fun _ => ?_
      have hlast : others = 0 := by omega
      subst hlast
      rw [visitFrame, pure_bind]
      exact hnext (time + 1) _ (by omega)

theorem customizedFrom_eq (hmax : 0 < input.maxSymbolsPerStep)
    (hrounds : (input.frames - time).toNat ≤ rounds) (hsteps : stepsLeft input time ≤ steps) :
    customizedFrom core input rounds time result = decodeFrom core input steps time 0 result := by
  refine customizedFrom_of_visit (fun rounds time result htime hrounds hsteps => ?_) hrounds hsteps
  have hvisit := visitFrame_decode core steps rounds input.maxSymbolsPerStep.toNat time result
    htime hrounds (by omega) le_rfl (by omega)
  rwa [Nat.sub_self] at hvisit

/-! ## The loop that compares -/

/-- The labels that the state has counted at its frame. -/
structure LoopState.Counts (state : LoopState) (labels : ℕ) : Prop where
  last : state.lastLabelTime ≤ state.time
  same : state.lastLabelTime = state.time → state.labelsAtCurrentTime = labels
  other : state.lastLabelTime ≠ state.time → labels = 0

theorem durationLoopFrom_done (h : ¬ state.time < input.frames) :
    durationLoopFrom core input rounds labels state = pure state.result := by
  cases labels <;> rw [durationLoopFrom, if_neg h]

theorem counts_later (h : state.lastLabelTime < state.time) : state.Counts 0 :=
  ⟨le_of_lt h, fun hsame => absurd hsame (ne_of_lt h), fun _ => rfl⟩

theorem counts_same (h : state.lastLabelTime = state.time)
    (hlabels : state.labelsAtCurrentTime = labels) : state.Counts labels :=
  ⟨le_of_eq h, fun _ => hlabels, fun hother => absurd h hother⟩

theorem LoopState.Counts.labelled (h : state.Counts labels) (label duration : ℤ) :
    state.labelled input label duration =
      { time := if input.maxSymbolsPerStep ≤ labels + 1 ∧ duration = 0 then state.time + 1
          else state.time + duration
        lastLabelTime := state.time
        labelsAtCurrentTime := labels + 1
        result := state.result.push label state.time duration } := by
  have hlabels : (if state.time = state.lastLabelTime then state.labelsAtCurrentTime + 1 else 1) =
      (labels : ℤ) + 1 := by
    split_ifs with hsame
    · rw [h.same hsame.symm]
    · rw [h.other (Ne.symm hsame)]
      rfl
  have hstays : state.time + duration = state.time ↔ duration = 0 := by omega
  simp only [LoopState.labelled, hlabels, hstays]
  congr 1
  split_ifs <;> omega

theorem blanksFrom_done {left outer : ℕ} (h : ¬ state.time < input.frames) :
    (do let state ← blanksFrom core input left state
        durationLoopFrom core input rounds outer state) =
      decodeFrom core input steps state.time labels state.result := by
  rw [decodeFrom_done h]
  cases left <;> rw [blanksFrom, if_neg h, pure_bind, durationLoopFrom_done h]

theorem blanksFrom_decode (hdurations : ∀ duration ∈ input.durations, 0 ≤ duration)
    (hmax : 0 < input.maxSymbolsPerStep) (steps rounds left outer : ℕ) (state : LoopState)
    (labels : ℕ) (hcounts : state.Counts labels) (hlabels : labels < input.maxSymbolsPerStep.toNat)
    (hrounds : (input.frames - state.time).toNat ≤ rounds)
    (hleft : (input.frames - state.time).toNat ≤ left)
    (houter : stepsLeft input state.time ≤ outer + 1 + labels)
    (hsteps : stepsLeft input state.time ≤ steps + labels) :
    (do let state ← blanksFrom core input left state
        durationLoopFrom core input rounds outer state) =
      decodeFrom core input steps state.time labels state.result := by
  induction steps generalizing left outer state labels with
  | zero =>
    refine blanksFrom_done fun htime => ?_
    have hstep := stepsLeft_add htime (show state.time < state.time + 1 by omega)
    omega
  | succ steps ih =>
    by_cases htime : state.time < input.frames
    swap
    · exact blanksFrom_done htime
    have hnext : ∀ (next : LoopState) (count : ℕ), next.Counts count →
        count < input.maxSymbolsPerStep.toNat → (input.frames - next.time).toNat ≤ rounds →
        stepsLeft input next.time ≤ outer + count → stepsLeft input next.time ≤ steps + count →
        durationLoopFrom core input rounds outer next =
          decodeFrom core input steps next.time count next.result := by
      intro next count hcounts hlabels hrounds houter hsteps
      by_cases hlater : next.time < input.frames
      · have hstep := stepsLeft_add hlater (show next.time < next.time + 1 by omega)
        obtain ⟨others, rfl⟩ : ∃ others, outer = others + 1 := ⟨outer - 1, by omega⟩
        rw [durationLoopFrom, if_pos hlater]
        exact ih rounds others next count hcounts hlabels hrounds hrounds houter hsteps
      · rw [decodeFrom_done hlater, durationLoopFrom_done hlater]
    obtain ⟨others, rfl⟩ : ∃ others, left = others + 1 := ⟨left - 1, by omega⟩
    rw [blanksFrom, if_pos htime, decodeFrom, if_pos htime]
    simp only [bind_assoc]
    apply step_congr
    intro step duration hmem
    have hduration := hdurations duration hmem
    have hstep := stepsLeft_add htime (show state.time < state.time + 1 by omega)
    have hlast := hcounts.last
    by_cases hblank : step.label = input.blankId
    · have hmoves : state.time + (if duration = 0 then 1 else duration) =
          state.time + max duration 1 := by
        split_ifs <;> omega
      rw [if_pos hblank, if_pos hblank, hmoves]
      have hlater := stepsLeft_add htime (show state.time < state.time + max duration 1 by omega)
      exact ih others outer { state with time := state.time + max duration 1 } 0
        (counts_later (by dsimp only; omega)) (by omega) (by dsimp only; omega)
        (by dsimp only; omega) (by dsimp only; omega) (by dsimp only; omega)
    · rw [if_neg hblank, if_neg hblank, bind_assoc]
      refine bind_congr fun _ => ?_
      rw [pure_bind, hcounts.labelled]
      split_ifs with hfull hmoves hroom hmoves hroom
      · omega
      · omega
      · exact hnext _ 0 (counts_later (by dsimp only; omega)) (by omega) (by dsimp only; omega)
          (by dsimp only; omega) (by dsimp only; omega)
      · have hlater := stepsLeft_add htime (show state.time < state.time + duration by omega)
        exact hnext _ 0 (counts_later (by dsimp only; omega)) (by omega) (by dsimp only; omega)
          (by dsimp only; omega) (by dsimp only; omega)
      · have hzero : duration = 0 := by omega
        subst hzero
        rw [add_zero]
        exact hnext _ (labels + 1) (counts_same rfl (by push_cast; rfl)) hroom hrounds
          (by dsimp only; omega) (by dsimp only; omega)
      · omega

/-! ## When the tokens are emitted -/

/-- A program comes back with a value that `P` holds of, or with an exception. -/
def Ends (P : α → Prop) (m : EStateM (Failure E) S α) : Prop :=
  ∀ s, (∀ a s', m s = .ok a s' → P a) ∧ ∀ s', m s ≠ .error .endless s'

theorem ends_pure {P : α → Prop} {a : α} (h : P a) : Ends P (pure a : EStateM (Failure E) S α) := by
  intro s
  constructor
  · rintro _ _ ⟨⟩
    exact h
  · rintro _ ⟨⟩

theorem ends_throw (P : α → Prop) {e : Failure E} (h : e ≠ .endless) :
    Ends P (throw e : EStateM (Failure E) S α) := by
  intro s
  constructor
  · rintro _ _ ⟨⟩
  · rintro _ ⟨⟩
    exact h rfl

theorem Ends.bind {P : α → Prop} {Q : β → Prop} {m : EStateM (Failure E) S α}
    {f : α → EStateM (Failure E) S β} (hm : Ends P m) (hf : ∀ a, P a → Ends Q (f a)) :
    Ends Q (m >>= f) := by
  intro s
  obtain ⟨hvalue, hendless⟩ := hm s
  change (∀ a s', EStateM.bind m f s = .ok a s' → Q a) ∧
    ∀ s', EStateM.bind m f s ≠ .error .endless s'
  unfold EStateM.bind
  cases hrun : m s with
  | ok a s' => exact hf a (hvalue a s' hrun) s'
  | error e s' =>
    constructor
    · rintro _ _ ⟨⟩
    · rintro _ ⟨⟩
      exact hendless s' hrun

theorem ends_ofCore (call : EStateM E S α) : Ends (fun _ => True) (ofCore call) := by
  intro s
  refine ⟨fun _ _ _ => trivial, fun s' => ?_⟩
  unfold ofCore
  cases call s <;> simp

theorem ends_durationAt (durations : List ℤ) (index : ℤ) :
    Ends (· ∈ durations) (durationAt durations index : EStateM (Failure E) S ℤ) := by
  rw [durationAt]
  split_ifs with hnegative
  · exact ends_throw _ (by simp)
  · cases hget : durations[index.toNat]? with
    | none => exact ends_throw _ (by simp)
    | some duration => exact ends_pure (List.mem_of_getElem? hget)

/-- The frames at which tokens are emitted, one behind the other. -/
structure Emitted (input : TdtInput F) (emitted : List ℤ) : Prop where
  ordered : emitted.Pairwise (· ≤ ·)
  inside : ∀ time ∈ emitted, 0 ≤ time ∧ time < input.frames
  bounded : ∀ time, (emitted.count time : ℤ) ≤ input.maxSymbolsPerStep

/-- The timestamps are the frames of the tokens, as `int32_t` has them. -/
structure Stamped (input : TdtInput F) (result : TdtDecodeResult) : Prop where
  narrowed : ∃ emitted, result.tokenTimestamps = emitted.map toInt32 ∧ Emitted input emitted
  short : input.frames ≤ 2 ^ 31 → Emitted input result.tokenTimestamps
  lengths : result.tokenIds.length = result.tokenTimestamps.length ∧
    result.tokenDurations.length = result.tokenTimestamps.length

/-- What holds while the frame `time` has got `labels` tokens. -/
structure Decoded (input : TdtInput F) (time : ℤ) (labels : ℕ) (emitted : List ℤ)
    (result : TdtDecodeResult) : Prop where
  stamps : result.tokenTimestamps = emitted.map toInt32
  right : Emitted input emitted
  before : ∀ earlier ∈ emitted, earlier ≤ time
  here : emitted.count time = labels
  lengths : result.tokenIds.length = result.tokenTimestamps.length ∧
    result.tokenDurations.length = result.tokenTimestamps.length

theorem toInt32_eq {n : ℤ} (hfirst : 0 ≤ n) (hlast : n < 2 ^ 31) : toInt32 n = n :=
  Int.bmod_eq_of_le (by omega) (by omega)

theorem Decoded.stamped {time : ℤ} {labels : ℕ} {emitted : List ℤ} {result : TdtDecodeResult}
    (h : Decoded input time labels emitted result) : Stamped input result where
  narrowed := ⟨emitted, h.stamps, h.right⟩
  short hframes := by
    have hsame : emitted.map toInt32 = emitted := by
      refine (List.map_congr_left fun time htime => ?_).trans (List.map_id emitted)
      obtain ⟨hfirst, hlast⟩ := h.right.inside time htime
      exact toInt32_eq hfirst (by omega)
    rw [h.stamps, hsame]
    exact h.right
  lengths := h.lengths

theorem Decoded.later {time later : ℤ} {labels : ℕ} {emitted : List ℤ} {result : TdtDecodeResult}
    (h : Decoded input time labels emitted result) (hlater : time < later) :
    Decoded input later 0 emitted result where
  stamps := h.stamps
  right := h.right
  before earlier hearlier := le_trans (h.before earlier hearlier) hlater.le
  here := by
    rw [List.count_eq_zero]
    intro hmem
    have := h.before later hmem
    omega
  lengths := h.lengths

theorem Decoded.push {time : ℤ} {labels : ℕ} {emitted : List ℤ} {result : TdtDecodeResult}
    (h : Decoded input time labels emitted result) (hfirst : 0 ≤ time) (hlast : time < input.frames)
    (hroom : labels < input.maxSymbolsPerStep.toNat) (label duration : ℤ) :
    Decoded input time (labels + 1) (emitted ++ [time]) (result.push label time duration) where
  stamps := by
    rw [TdtDecodeResult.push, h.stamps, List.map_append, List.map_singleton]
  right := by
    refine ⟨List.pairwise_append.mpr ⟨h.right.ordered, List.pairwise_singleton _ _, ?_⟩, ?_, ?_⟩
    · intro earlier hearlier other hother
      rw [List.mem_singleton.mp hother]
      exact h.before earlier hearlier
    · intro other hother
      rcases List.mem_append.mp hother with hold | hnew
      · exact h.right.inside other hold
      · rw [List.mem_singleton.mp hnew]
        exact ⟨hfirst, hlast⟩
    · intro other
      have hold := h.right.bounded other
      have hhere := h.here
      rw [List.count_append, List.count_singleton]
      split_ifs with hsame
      · have hother : time = other := eq_of_beq hsame
        subst hother
        omega
      · simpa using hold
  before earlier hearlier := by
    rcases List.mem_append.mp hearlier with hold | hnew
    · exact h.before earlier hold
    · exact le_of_eq (List.mem_singleton.mp hnew)
  here := by rw [List.count_append, h.here, List.count_singleton_self]
  lengths := by
    simp only [TdtDecodeResult.push, List.length_append, List.length_singleton]
    exact ⟨congrArg (· + 1) h.lengths.1, congrArg (· + 1) h.lengths.2⟩

theorem decodeFrom_ends (steps : ℕ) {emitted : List ℤ}
    (h : Decoded input time labels emitted result) (hfirst : 0 ≤ time)
    (hlabels : labels < input.maxSymbolsPerStep.toNat)
    (hsteps : stepsLeft input time ≤ steps + labels) :
    Ends (Stamped input) (decodeFrom core input steps time labels result) := by
  induction steps generalizing time labels emitted result with
  | zero =>
    by_cases htime : time < input.frames
    · have hleft := stepsLeft_add htime (show time < time + 1 by omega)
      omega
    · rw [decodeFrom_done htime]
      exact ends_pure h.stamped
  | succ steps ih =>
    by_cases htime : time < input.frames
    swap
    · rw [decodeFrom_done htime]
      exact ends_pure h.stamped
    have hnext : ∀ (later : ℤ) {labels : ℕ} {emitted : List ℤ} {result : TdtDecodeResult},
        Decoded input time labels emitted result → time < later →
        Ends (Stamped input) (decodeFrom core input steps later 0 result) := by
      intro later labels emitted result h hlater
      have hleft := stepsLeft_add htime hlater
      exact ih (h.later hlater) (by omega) (by omega) (by omega)
    rw [decodeFrom, if_pos htime]
    refine (ends_ofCore _).bind fun step _ => (ends_durationAt _ _).bind fun duration _ => ?_
    have hpush := h.push hfirst htime hlabels step.label duration
    split_ifs with hblank hmoves hroom
    · exact hnext _ h (by omega)
    · exact (ends_ofCore _).bind fun _ _ => hnext _ hpush (by omega)
    · exact (ends_ofCore _).bind fun _ _ => ih hpush hfirst hroom (by omega)
    · exact (ends_ofCore _).bind fun _ _ => hnext _ hpush (by omega)

/-! ## Both decoders -/

theorem frames_le_stepsLeft (hmax : 0 < input.maxSymbolsPerStep) (time : ℤ) :
    (input.frames - time).toNat ≤ stepsLeft input time :=
  Nat.le_mul_of_pos_right _ (by omega)

variable (core) in
theorem greedyCustomized_eq (hmax : 0 < input.maxSymbolsPerStep)
    (hrounds : stepsLeft input 0 ≤ rounds) :
    greedyCustomized core input rounds = (do
      checkShape input
      ofCore core.resetState
      ofCore (core.predictStart input.blankId)
      decodeFrom core input rounds 0 0 ⟨[], [], []⟩) := by
  rw [greedyCustomized, customizedFrom_eq hmax (le_trans (frames_le_stepsLeft hmax 0) hrounds)
    hrounds]

variable (core) in
theorem greedyDurationLoop_eq (hdurations : ∀ duration ∈ input.durations, 0 ≤ duration)
    (hmax : 0 < input.maxSymbolsPerStep) (hrounds : stepsLeft input 0 ≤ rounds) :
    greedyDurationLoop core input rounds = (do
      checkShape input
      ofCore core.resetState
      ofCore (core.predictStart input.blankId)
      decodeFrom core input rounds 0 0 ⟨[], [], []⟩) := by
  rw [greedyDurationLoop, if_neg (not_le.mpr hmax)]
  by_cases hsome : 0 < input.frames
  · have hframes := le_trans (frames_le_stepsLeft hmax 0) hrounds
    obtain ⟨others, rfl⟩ : ∃ others, rounds = others + 1 := ⟨rounds - 1, by omega⟩
    rw [durationLoopFrom, if_pos hsome, blanksFrom_decode hdurations hmax (others + 1) (others + 1)
      (others + 1) others _ 0 (counts_later (by decide)) (by omega) hframes hframes hrounds hrounds]
  · rw [durationLoopFrom_done hsome, decodeFrom_done hsome]

theorem ends_checkShape : Ends (fun _ => True) (checkShape input : EStateM (Failure E) S Unit) := by
  rw [checkShape]
  split_ifs
  · exact ends_throw _ (by simp)
  · exact ends_throw _ (by simp)
  · exact ends_throw _ (by simp)
  · exact ends_pure trivial

variable (core) in
theorem greedyCustomized_ends (hmax : 0 < input.maxSymbolsPerStep)
    (hrounds : stepsLeft input 0 ≤ rounds) :
    Ends (Stamped input) (greedyCustomized core input rounds) := by
  rw [greedyCustomized_eq core hmax hrounds]
  have hemitted : Emitted input [] := ⟨.nil, by simp, fun time => by rw [List.count_nil]; omega⟩
  have hstart : Decoded input 0 0 [] ⟨[], [], []⟩ := ⟨rfl, hemitted, by simp, rfl, rfl, rfl⟩
  refine ends_checkShape.bind fun _ _ => (ends_ofCore _).bind fun _ _ =>
    (ends_ofCore _).bind fun _ _ => ?_
  exact decodeFrom_ends rounds hstart le_rfl (by omega) hrounds

/-! ## The calls of the core -/

inductive Call (F : Type)
  | resetState
  | predictStart (blankId : ℤ)
  | predictToken (tokenId : ℤ)
  | jointStepArgmax (encoderFrame : List F)
  deriving DecidableEq, Repr

/-- A call that is written down, whether it comes back or not. -/
def logging (call : Call F) (m : EStateM E S α) : EStateM E (S × List (Call F)) α := fun s =>
  match m s.1 with
  | .ok a s' => .ok a (s', s.2 ++ [call])
  | .error e s' => .error e (s', s.2 ++ [call])

def TdtDecoderCore.logged (core : TdtDecoderCore F E S) :
    TdtDecoderCore F E (S × List (Call F)) where
  resetState := logging .resetState core.resetState
  predictStart blankId := logging (.predictStart blankId) (core.predictStart blankId)
  predictToken tokenId := logging (.predictToken tokenId) (core.predictToken tokenId)
  jointStepArgmax frame := logging (.jointStepArgmax frame) (core.jointStepArgmax frame)

/-- Both decoders end in the same way after the same calls. The frames at which they emit tokens are
in order; a timestamp is such a frame as `int32_t` has it, and the frame itself up to `2 ^ 31`
frames. -/
theorem greedy_agree (core : TdtDecoderCore F E S) (input : TdtInput F)
    (hdurations : ∀ duration ∈ input.durations, 0 ≤ duration) (hmax : 0 < input.maxSymbolsPerStep)
    (rounds : ℕ) (hrounds : stepsLeft input 0 ≤ rounds) (s : S) :
    greedyCustomized core.logged input rounds (s, []) =
        greedyDurationLoop core.logged input rounds (s, []) ∧
      (∀ s', greedyCustomized core.logged input rounds (s, []) ≠ .error .endless s') ∧
      ∀ result s', greedyCustomized core.logged input rounds (s, []) = .ok result s' →
        Stamped input result := by
  have hends := greedyCustomized_ends core.logged hmax hrounds (s, [])
  refine ⟨?_, hends.2, hends.1⟩
  rw [greedyCustomized_eq core.logged hmax hrounds,
    greedyDurationLoop_eq core.logged hdurations hmax hrounds]

def scripted : TdtDecoderCore Unit Unit (List TdtJointStep) where
  resetState := pure ()
  predictStart _ := pure ()
  predictToken _ := pure ()
  jointStepArgmax _ := fun
    | [] => .error () []
    | step :: steps => .ok step steps

def sevenFrames : TdtInput Unit where
  encoderProjected := List.replicate 7 ()
  frames := 7
  hiddenSize := 1
  blankId := 99
  durations := [0, 1, 2]
  maxSymbolsPerStep := 2

theorem greedy_agree_seven : Stamped sevenFrames ⟨[10, 10, 12], [3, 3, 4], [0, 0, 1]⟩ :=
  (greedy_agree scripted sevenFrames (by decide) (by decide) 14 (by decide)
    [⟨99, 0⟩, ⟨99, 2⟩, ⟨10, 0⟩, ⟨10, 0⟩, ⟨12, 1⟩, ⟨99, 2⟩]).2.2 _ _ rfl

def longInput : TdtInput Unit where
  encoderProjected := List.replicate (2 ^ 31 + 1) ()
  frames := 2 ^ 31 + 1
  hiddenSize := 1
  blankId := 0
  durations := [2 ^ 31 - 1, 1]
  maxSymbolsPerStep := 1

theorem greedy_timestamps_wrap : (∀ duration ∈ longInput.durations, 0 ≤ duration) ∧
    0 < longInput.maxSymbolsPerStep ∧
    (∀ rounds, greedyCustomized scripted longInput (rounds + 4) [⟨0, 0⟩, ⟨1, 1⟩, ⟨1, 1⟩] =
      .ok ⟨[1, 1], [2147483647, -2147483648], [1, 1]⟩ []) ∧
    ¬ [(2147483647 : ℤ), -2147483648].Pairwise (· ≤ ·) := by
  have hshape : checkShape longInput =
      (pure () : EStateM (Failure Unit) (List TdtJointStep) Unit) := by
    have hlength : (longInput.encoderProjected.length : ℤ) =
        longInput.frames * longInput.hiddenSize := by
      rw [longInput, List.length_replicate]
      norm_num
    rw [checkShape, hlength, if_neg (by decide), if_neg (by decide), if_neg (by simp)]
  refine ⟨by decide, by decide, fun rounds => ?_, by decide⟩
  rw [greedyCustomized, hshape, pure_bind]
  rfl

end FastTts.TdtDecoder
