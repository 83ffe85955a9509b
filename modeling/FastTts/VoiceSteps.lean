import FastTts.VoiceRunner

/-!
# What the steps of the voice runner can do

`AudioStep` and `WorkerStep` list the transitions of the two threads, one constructor for each
place a thread can stand. `Shape` relates the place of the audio loop to its flags. Everything
proved about runs starts from these.
-/

namespace FastTts.Voice

variable {F : Type}

/-- Where `commit_utterance` returns to. -/
def CommitReturn.pc : CommitReturn → AudioPc F
  | .toRead => .read
  | .toReset => .resetVad
  | .toQuit => .quitting

section Projections

variable (s : State F) (pc : AudioPc F) (w : WorkerPc F) (e : Event F) (ret : CommitReturn)

@[simp] theorem goto_loop : (s.goto pc).loop = { s.loop with pc := pc } := rfl
@[simp] theorem goto_decode : (s.goto pc).decode = s.decode := rfl
@[simp] theorem goto_worker : (s.goto pc).worker = s.worker := rfl
@[simp] theorem goto_events : (s.goto pc).events = s.events := rfl
@[simp] theorem goto_history : (s.goto pc).history = s.history := rfl
@[simp] theorem emit_loop : (s.emit e).loop = s.loop := rfl
@[simp] theorem emit_decode : (s.emit e).decode = s.decode := rfl
@[simp] theorem emit_worker : (s.emit e).worker = s.worker := rfl
@[simp] theorem emit_events : (s.emit e).events = s.events ++ [e] := rfl
@[simp] theorem emit_history : (s.emit e).history = s.history := rfl
@[simp] theorem work_loop : (s.work w).loop = s.loop := rfl
@[simp] theorem work_decode : (s.work w).decode = s.decode := rfl
@[simp] theorem work_worker : (s.work w).worker = w := rfl
@[simp] theorem work_events : (s.work w).events = s.events := rfl
@[simp] theorem work_history : (s.work w).history = s.history := rfl

end Projections

variable [FloatArith F]

/-- The steps of the audio loop that change nothing but its place. -/
inductive Moves (s : State F) : AudioPc F → Prop
  | leaveIdle (hpc : s.loop.pc = .read) (hsp : s.loop.speaking = false) : Moves s .quitting
  | noActivity (hpc : s.loop.pc = .activities []) : Moves s .hold
  | ignored {kind : ActivityKind} {rest : List ActivityKind}
      (hpc : s.loop.pc = .activities (kind :: rest)) : Moves s (.activities rest)
  | candidateFresh {rest : List ActivityKind} (hpc : s.loop.pc = .pendingCheck rest) :
      Moves s (.activities rest)
  | candidateStale {rest : List ActivityKind} (hpc : s.loop.pc = .pendingCheck rest) :
      Moves s (.enqueueCandidate rest)
  | holdOver (hpc : s.loop.pc = .hold) (hsp : s.loop.speaking = true) : Moves s (.gate .toRead)
  | partialDue (hpc : s.loop.pc = .hold) (hsp : s.loop.speaking = true)
      (hpe : s.loop.pendingEnd = false) : Moves s .partialCheck
  | blockDone (hpc : s.loop.pc = .hold ∨ s.loop.pc = .partialCheck ∨ s.loop.pc = .enqueuePartial ∨
      s.loop.pc = .resetVad) : Moves s .read
  | served {ret : CommitReturn} (hpc : s.loop.pc = .awaitIdle ret) (hidle : s.decodeIdle)
      (hfresh : candidateFresh s = true) : Moves s (.takeCandidate ret)
  | unserved {ret : CommitReturn} (hpc : s.loop.pc = .awaitIdle ret) (hidle : s.decodeIdle) :
      Moves s (.enqueueFinal ret)
  | finalDone {ret : CommitReturn} (hpc : s.loop.pc = .awaitFinal ret) (hidle : s.decodeIdle) :
      Moves s (.clearUtterance ret)
  | joined (hpc : s.loop.pc = .joining) : Moves s .finished

inductive AudioStep (p : TurnParams F) (s : State F) : AudioInput F → State F → Prop
  | move {input : AudioInput F} {pc : AudioPc F} (hm : Moves s pc) : AudioStep p s input (s.goto pc)
  | skip {input : AudioInput F} (hpc : s.loop.pc = .read) : AudioStep p s input s
  | leaveSpeaking {input : AudioInput F} (hpc : s.loop.pc = .read) (hsp : s.loop.speaking = true) :
      AudioStep p s input (endUtterance s .toQuit)
  | captureIdle {block windowed : List F} {vad : List (List ActivityKind)}
      {kinds : List ActivityKind} (hpc : s.loop.pc = .read) (hsp : s.loop.speaking = false) :
      AudioStep p s (.block true block vad) (captureIdle p (s.heard windowed kinds) block)
  | captureSpeech {block windowed : List F} {vad : List (List ActivityKind)}
      {kinds : List ActivityKind} (hpc : s.loop.pc = .read) (hsp : s.loop.speaking = true)
      (hpe : s.loop.pendingEnd = false) :
      AudioStep p s (.block true block vad) (captureSpeech (s.heard windowed kinds) block)
  | captureGap {block windowed : List F} {vad : List (List ActivityKind)}
      {kinds : List ActivityKind} (hpc : s.loop.pc = .read) (hsp : s.loop.speaking = true)
      (hpe : s.loop.pendingEnd = true) :
      AudioStep p s (.block true block vad) (captureGap (s.heard windowed kinds) block)
  | throws {message : Bytes} (hpc : s.loop.pc = .read ∨ s.loop.pc = .resetVad) :
      AudioStep p s (.throws message) ((s.emit (.error message none)).goto .quitting)
  | beginUtterance {rest : List ActivityKind} (hpc : s.loop.pc = .activities (.speechStart :: rest))
      (hsp : s.loop.speaking = false) : AudioStep p s .go (beginUtterance s rest)
  | startResume {rest : List ActivityKind} (hpc : s.loop.pc = .activities (.speechStart :: rest))
      (hsp : s.loop.speaking = true) (hpe : s.loop.pendingEnd = true) :
      AudioStep p s .go (startResume s rest)
  | beginPendingEnd {rest : List ActivityKind} (hpc : s.loop.pc = .activities (.speechEnd :: rest))
      (hsp : s.loop.speaking = true) (hpe : s.loop.pendingEnd = false) :
      AudioStep p s .go (beginPendingEnd s rest)
  | beginLocked {rest : List ActivityKind} (hpc : s.loop.pc = .beginLocked rest) :
      AudioStep p s .go (beginLocked s rest)
  | beginEmit {rest : List ActivityKind} (hpc : s.loop.pc = .beginEmit rest) :
      AudioStep p s .go
        ((s.emit (.speechStarted s.loop.utteranceId (toMs s.clock))).goto (.activities rest))
  | enqueueCandidate {rest : List ActivityKind} (hpc : s.loop.pc = .enqueueCandidate rest) :
      AudioStep p s .go ((enqueue s false true).goto (.activities rest))
  | resumeLocked {rest : List ActivityKind} (hpc : s.loop.pc = .resumeLocked rest) :
      AudioStep p s .go (resumeFromPending s rest)
  | runaway (hpc : s.loop.pc = .hold) (hsp : s.loop.speaking = true) :
      AudioStep p s .go (endUtterance s .toReset)
  | schedulePartial (hpc : s.loop.pc = .partialCheck) : AudioStep p s .go (schedulePartial s)
  | enqueuePartial (hpc : s.loop.pc = .enqueuePartial) (hidle : s.decodeIdle) :
      AudioStep p s .go ((enqueue s false false).goto .read)
  | discard {ret : CommitReturn} (hpc : s.loop.pc = .gate ret) (hb : belowGate p s = true) :
      AudioStep p s .go ((stopSpeaking s (.clearDiscarded ret)).emit
        (.speechDiscarded s.loop.utteranceId (toMs s.clock) s.loop.utterancePeakRms (gateRms p s)))
  | commit {ret : CommitReturn} (hpc : s.loop.pc = .gate ret) :
      AudioStep p s .go ((stopSpeaking s (.awaitIdle ret)).emit
        (.speechEnded s.loop.utteranceId (toMs s.clock)))
  | clearDiscarded {ret : CommitReturn} (hpc : s.loop.pc = .clearDiscarded ret) :
      AudioStep p s .go (clearDiscarded s ret)
  | takeCandidate {ret : CommitReturn} (hpc : s.loop.pc = .takeCandidate ret) :
      AudioStep p s .go (takeCandidate s ret)
  | emitCandidate {ret : CommitReturn} {result : TranscribeResult} {decodeMs : ℤ} {samples : ℕ}
      (hpc : s.loop.pc = .emitCandidate ret result decodeMs samples) :
      AudioStep p s .go ((s.emit (finalEvent s s.loop.utteranceId result decodeMs samples)).goto
        (.clearUtterance ret))
  | enqueueFinal {ret : CommitReturn} (hpc : s.loop.pc = .enqueueFinal ret)
      (hbusy : s.decode.workerBusy = false) :
      AudioStep p s .go ((enqueue s true false).goto (.awaitFinal ret))
  | clearUtterance {ret : CommitReturn} (hpc : s.loop.pc = .clearUtterance ret) :
      AudioStep p s .go (clearUtterance s ret)
  | quitting (hpc : s.loop.pc = .quitting) : AudioStep p s .go (quit s)

/-- The state after the anticipation of an endpoint, with its counters as they come out. -/
def settled (s : State F) (job : Job F) (growth : Bytes) (stalls : ℕ) (likely : ℤ) : State F :=
  { s with
    worker := .finishing job
    decode := { s.decode with
      lastGrowthHypothesis := growth
      hypothesisStalls := stalls
      endpointLikelyUtt := likely } }

inductive WorkerStep (s : State F) : State F → Prop
  | takeJob {job : Job F} (hpc : s.worker = .idle) (hjob : s.decode.pending = some job) :
      WorkerStep s (takeJob s job)
  | exit (hpc : s.worker = .idle) : WorkerStep s (s.work .exited)
  | decoded {job : Job F} {start : ℤ} {result : TranscribeResult}
      (hpc : s.worker = .decoding job start) : WorkerStep s (decoded s job start result)
  | throws {job : Job F} {start : ℤ} {message : Bytes} (hpc : s.worker = .decoding job start) :
      WorkerStep s (s.work (.failing job message))
  | failing {job : Job F} {message : Bytes} (hpc : s.worker = .failing job message) :
      WorkerStep s ((s.work (.finishing job)).emit
        (.error message (if job.final then some job.utteranceId else none)))
  | emitFinal {job : Job F} {result : TranscribeResult} {decodeMs : ℤ}
      (hpc : s.worker = .emitFinal job result decodeMs) :
      WorkerStep s ((s.work (.finishing job)).emit
        (finalEvent s job.utteranceId result decodeMs job.audio.length))
  | keepCandidate {job : Job F} {result : TranscribeResult} {decodeMs : ℤ} {quiet : Bool}
      (hpc : s.worker = .storeCandidate job result decodeMs quiet) :
      WorkerStep s (keepCandidate s job result decodeMs)
  | noCandidate {job : Job F} {result : TranscribeResult} {decodeMs : ℤ} {quiet : Bool}
      (hpc : s.worker = .storeCandidate job result decodeMs quiet) :
      WorkerStep s (s.work (afterStore job result))
  | storeHypothesis {job : Job F} {result : TranscribeResult}
      (hpc : s.worker = .storeHypothesis job result) : WorkerStep s (storeHypothesis s job result)
  | track {job : Job F} {result : TranscribeResult} (hpc : s.worker = .track job result) :
      WorkerStep s (trackResult s job result)
  | emitStable {job : Job F} {result : TranscribeResult}
      (hpc : s.worker = .emitStable job result) : WorkerStep s (emitStable s job result)
  | showPartial {job : Job F} {result : TranscribeResult}
      (hpc : s.worker = .emitPartial job result) : WorkerStep s (showPartial s job result)
  | samePartial {job : Job F} {result : TranscribeResult}
      (hpc : s.worker = .emitPartial job result) :
      WorkerStep s (s.work (.anticipate job result))
  | settled {job : Job F} {result : TranscribeResult} {growth : Bytes} {stalls : ℕ} {likely : ℤ}
      (hpc : s.worker = .anticipate job result) :
      WorkerStep s (settled s job growth stalls likely)
  | likely {job : Job F} {result : TranscribeResult} {growth : Bytes} {stalls : ℕ} {likely : ℤ}
      (hpc : s.worker = .anticipate job result) :
      WorkerStep s ((settled s job growth stalls likely).emit
        (.endpointLikely job.utteranceId (toMs s.clock) result.text))
  | finishing {job : Job F} (hpc : s.worker = .finishing job) : WorkerStep s (finishJob s)

variable {p : TurnParams F} {s s' : State F}

theorem readBlock_cases {block : List F} {vad : List (List ActivityKind)} (hpc : s.loop.pc = .read)
    (h : readBlock p s block vad = some s') : AudioStep p s (.block true block vad) s' := by
  unfold readBlock at h
  dsimp only at h
  split_ifs at h
  obtain rfl := Option.some.inj h
  unfold captureBlock
  split_ifs with hboth hsp
  · have hflags := (Bool.and_eq_true _ _).mp hboth
    exact .captureGap hpc hflags.1 hflags.2
  · have hpe : s.loop.pendingEnd = false := by
      have hsp' : s.loop.speaking = true := hsp
      simpa [State.heard, hsp'] using hboth
    exact .captureSpeech hpc hsp hpe
  · exact .captureIdle hpc (Bool.eq_false_iff.mpr hsp)

variable {input : AudioInput F}

theorem leaveLoop_cases (hpc : s.loop.pc = .read) : AudioStep p s input (leaveLoop s) := by
  unfold leaveLoop
  split_ifs with hsp
  · exact .leaveSpeaking hpc hsp
  · exact .move (.leaveIdle hpc (Bool.eq_false_iff.mpr hsp))

variable {rest : List ActivityKind}

theorem handleActivity_cases {kind : ActivityKind} (hpc : s.loop.pc = .activities (kind :: rest)) :
    AudioStep p s .go (handleActivity s kind rest) := by
  cases kind with
  | speechStart =>
    by_cases hsp : s.loop.speaking = true
    · by_cases hpe : s.loop.pendingEnd = true
      · simpa [handleActivity, hsp, hpe] using AudioStep.startResume (p := p) hpc hsp hpe
      · simpa [handleActivity, hsp, hpe] using AudioStep.move (p := p) (.ignored hpc)
    · simp only [Bool.not_eq_true] at hsp
      simpa [handleActivity, hsp] using AudioStep.beginUtterance (p := p) hpc hsp
  | speechEnd =>
    unfold handleActivity
    dsimp only
    split_ifs with h
    · simp only [Bool.and_eq_true, Bool.not_eq_true'] at h
      exact .beginPendingEnd hpc h.1 h.2
    · exact .move (.ignored hpc)
  | speechSegment => exact .move (.ignored hpc)

theorem afterActivities_cases (hpc : s.loop.pc = .hold) :
    AudioStep p s .go (afterActivities p s) := by
  have hread : AudioStep p s .go (s.goto .read) := .move (.blockDone (.inl hpc))
  unfold afterActivities
  dsimp only
  by_cases hpe : s.loop.pendingEnd = true
  · by_cases hsp : s.loop.speaking = true
    · simp only [hsp, hpe, Bool.and_self, if_true]
      split_ifs
      · exact .move (.holdOver hpc hsp)
      · exact hread
      · exact .move (.holdOver hpc hsp)
      · exact hread
    · simpa [hsp] using hread
  · by_cases hsp : s.loop.speaking = true
    · simp only [hsp, hpe, Bool.and_false, if_true, Bool.false_eq_true, if_false]
      split_ifs
      · exact .runaway hpc hsp
      · exact .move (.partialDue hpc hsp (Bool.eq_false_iff.mpr hpe))
      · exact hread
    · simpa [hsp] using hread

theorem partialCheck_cases (hpc : s.loop.pc = .partialCheck) :
    AudioStep p s .go (partialCheck p s) := by
  unfold partialCheck
  split_ifs
  · exact .schedulePartial hpc
  · exact .move (.blockDone (.inr (.inl hpc)))

theorem enqueuePartial_cases (hpc : s.loop.pc = .enqueuePartial) :
    AudioStep p s .go (enqueuePartial s) := by
  unfold enqueuePartial
  split_ifs with h
  · exact .move (.blockDone (.inr (.inr (.inl hpc))))
  · simp only [Bool.or_eq_true, not_or, Bool.not_eq_true, Option.isSome_eq_false_iff,
      Option.isNone_iff_eq_none] at h
    exact .enqueuePartial hpc h

theorem commitGate_cases {ret : CommitReturn} (hpc : s.loop.pc = .gate ret) :
    AudioStep p s .go (commitGate p s ret) := by
  unfold commitGate
  split_ifs with hb
  · exact .discard hpc hb
  · exact .commit hpc

theorem checkCandidate_cases (hpc : s.loop.pc = .pendingCheck rest) :
    AudioStep p s .go (checkCandidate s rest) := by
  unfold checkCandidate
  split_ifs
  · exact .move (.candidateFresh hpc)
  · exact .move (.candidateStale hpc)

theorem chooseFinal_cases {ret : CommitReturn} (hpc : s.loop.pc = .awaitIdle ret)
    (hidle : s.decodeIdle) : AudioStep p s .go (chooseFinal s ret) := by
  unfold chooseFinal
  split_ifs with hfresh
  · exact .move (.served hpc hidle hfresh)
  · exact .move (.unserved hpc hidle)

theorem audioStep_cases (h : audioStep p s input = some s') : AudioStep p s input s' := by
  unfold audioStep at h
  split at h
  case h_1 hpc => exact Option.some.inj h ▸ leaveLoop_cases hpc
  case h_2 hpc => exact Option.some.inj h ▸ leaveLoop_cases hpc
  case h_3 hpc => exact Option.some.inj h ▸ .skip hpc
  case h_4 hpc => exact readBlock_cases hpc h
  case h_5 hpc => exact Option.some.inj h ▸ .throws (.inl hpc)
  case h_6 hpc => exact Option.some.inj h ▸ .move (.noActivity hpc)
  case h_7 hpc => exact Option.some.inj h ▸ handleActivity_cases hpc
  case h_8 hpc => exact Option.some.inj h ▸ .beginLocked hpc
  case h_9 hpc => exact Option.some.inj h ▸ .beginEmit hpc
  case h_10 hpc => exact Option.some.inj h ▸ checkCandidate_cases hpc
  case h_11 hpc => exact Option.some.inj h ▸ .enqueueCandidate hpc
  case h_12 hpc => exact Option.some.inj h ▸ .resumeLocked hpc
  case h_13 hpc => exact Option.some.inj h ▸ afterActivities_cases hpc
  case h_14 hpc => exact Option.some.inj h ▸ partialCheck_cases hpc
  case h_15 hpc => exact Option.some.inj h ▸ enqueuePartial_cases hpc
  case h_16 hpc => exact Option.some.inj h ▸ commitGate_cases hpc
  case h_17 hpc => exact Option.some.inj h ▸ .clearDiscarded hpc
  case h_18 hpc =>
    split_ifs at h with hidle
    exact Option.some.inj h ▸ chooseFinal_cases hpc hidle
  case h_19 hpc => exact Option.some.inj h ▸ .takeCandidate hpc
  case h_20 hpc => exact Option.some.inj h ▸ .emitCandidate hpc
  case h_21 hpc =>
    split_ifs at h with hbusy
    exact Option.some.inj h ▸ .enqueueFinal hpc (Bool.eq_false_iff.mpr hbusy)
  case h_22 hpc =>
    split_ifs at h with hidle
    exact Option.some.inj h ▸ .move (.finalDone hpc hidle)
  case h_23 hpc => exact Option.some.inj h ▸ .clearUtterance hpc
  case h_24 hpc => exact Option.some.inj h ▸ .move (.blockDone (.inr (.inr (.inr hpc))))
  case h_25 hpc => exact Option.some.inj h ▸ .throws (.inr hpc)
  case h_26 hpc => exact Option.some.inj h ▸ .quitting hpc
  case h_27 hpc =>
    split at h
    · exact Option.some.inj h ▸ .move (.joined hpc)
    · cases h
  case h_28 => cases h

theorem storeCandidate_cases {job : Job F} {result : TranscribeResult} {decodeMs : ℤ} {quiet : Bool}
    (hpc : s.worker = .storeCandidate job result decodeMs quiet) :
    WorkerStep s (storeCandidate s job result decodeMs quiet) := by
  unfold storeCandidate
  split_ifs
  · exact .keepCandidate hpc
  · exact .noCandidate hpc

theorem emitPartial_cases {job : Job F} {result : TranscribeResult}
    (hpc : s.worker = .emitPartial job result) : WorkerStep s (emitPartial s job result) := by
  unfold emitPartial
  dsimp only
  split_ifs
  · exact .showPartial hpc
  · exact .samePartial hpc

omit [FloatArith F] in
theorem trackGrowth_cases (d : Decode F) (job : Job F) (result : TranscribeResult) :
    ∃ growth stalls likely, trackGrowth d job result = { d with
      lastGrowthHypothesis := growth, hypothesisStalls := stalls, endpointLikelyUtt := likely } := by
  unfold trackGrowth
  split_ifs <;> exact ⟨_, _, _, rfl⟩

theorem anticipate_cases {job : Job F} {result : TranscribeResult}
    (hpc : s.worker = .anticipate job result) : WorkerStep s (anticipate s job result) := by
  obtain ⟨growth, stalls, likely, hd⟩ := trackGrowth_cases s.decode job result
  unfold anticipate
  rw [hd]
  dsimp only
  split_ifs
  · exact WorkerStep.likely hpc
  · exact .settled hpc

theorem workerStep_cases {outcome : Option Outcome} (h : workerStep s outcome = some s') :
    WorkerStep s s' := by
  unfold workerStep at h
  split at h
  case h_1 hpc =>
    split at h
    next hjob => exact Option.some.inj h ▸ .takeJob hpc hjob
    next hjob =>
      split_ifs at h
      exact Option.some.inj h ▸ .exit hpc
  case h_2 hpc => exact Option.some.inj h ▸ .decoded hpc
  case h_3 hpc => exact Option.some.inj h ▸ .throws hpc
  case h_4 hpc => exact Option.some.inj h ▸ .failing hpc
  case h_5 hpc => exact Option.some.inj h ▸ .emitFinal hpc
  case h_6 hpc => exact Option.some.inj h ▸ storeCandidate_cases hpc
  case h_7 hpc => exact Option.some.inj h ▸ .storeHypothesis hpc
  case h_8 hpc => exact Option.some.inj h ▸ .track hpc
  case h_9 hpc => exact Option.some.inj h ▸ .emitStable hpc
  case h_10 hpc => exact Option.some.inj h ▸ emitPartial_cases hpc
  case h_11 hpc => exact Option.some.inj h ▸ anticipate_cases hpc
  case h_12 hpc => exact Option.some.inj h ▸ .finishing hpc
  case h_13 => cases h

/-! ## The flags at each place of the audio loop -/

/-- The utterance has been committed and its buffer is still to be cleared. -/
def AudioPc.committing : AudioPc F → Bool
  | .clearDiscarded _ | .awaitIdle _ | .takeCandidate _ | .emitCandidate _ _ _ _
  | .enqueueFinal _ | .awaitFinal _ | .clearUtterance _ => true
  | _ => false

/-- The flags that each place of the audio loop goes with. -/
def AudioPc.Flags (speaking pendingEnd : Bool) : AudioPc F → Prop
  | .beginLocked _ | .beginEmit _ | .resumeLocked _ | .partialCheck | .enqueuePartial =>
    speaking = true ∧ pendingEnd = false
  | .pendingCheck _ | .enqueueCandidate _ => speaking = true ∧ pendingEnd = true
  | .gate _ => speaking = true
  | .clearDiscarded _ | .awaitIdle _ | .takeCandidate _ | .emitCandidate _ _ _ _
  | .enqueueFinal _ | .awaitFinal _ | .clearUtterance _ | .resetVad =>
    speaking = false ∧ pendingEnd = false
  | _ => pendingEnd = true → speaking = true

def Loop.Shape (l : Loop F) : Prop := l.pc.Flags l.speaking l.pendingEnd

omit [FloatArith F] in
theorem Loop.Shape.pending {l : Loop F} (h : l.Shape) :
    l.pendingEnd = true → l.speaking = true := by
  unfold Loop.Shape at h
  cases hpc : l.pc <;> simp_all [AudioPc.Flags]

omit [FloatArith F] in
theorem shape_move {pc : AudioPc F} (hs : s.loop.Shape) (hm : Moves s pc) :
    (s.goto pc).loop.Shape := by
  have hp := hs.pending
  unfold Loop.Shape at hs
  cases hm with
  | candidateStale hpc | served hpc | unserved hpc | finalDone hpc =>
    rw [hpc] at hs
    exact hs
  | holdOver hpc hsp => exact hsp
  | partialDue hpc hsp hpe => exact ⟨hsp, hpe⟩
  | _ => exact hp

omit [FloatArith F] in
theorem shape_ret {ret : CommitReturn} (hsp : s.loop.speaking = false)
    (hpe : s.loop.pendingEnd = false) : (s.ret ret).loop.Shape := by
  cases ret with
  | toReset => exact ⟨hsp, hpe⟩
  | _ => exact fun h => absurd (hpe.symm.trans h) Bool.false_ne_true

theorem shape_step (hs : s.loop.Shape) (h : AudioStep p s input s') : s'.loop.Shape := by
  have hp := hs.pending
  cases h with
  | move hm => exact shape_move hs hm
  | skip hpc => exact hs
  | leaveSpeaking hpc hsp | runaway hpc hsp => exact hsp
  | beginUtterance hpc hsp => exact ⟨rfl, rfl⟩
  | startResume hpc hsp hpe => exact ⟨hsp, rfl⟩
  | beginPendingEnd hpc hsp hpe => exact ⟨hsp, rfl⟩
  | discard hpc hb | commit hpc => exact ⟨rfl, rfl⟩
  | beginLocked hpc | schedulePartial hpc | takeCandidate hpc | emitCandidate hpc | enqueueFinal hpc =>
    unfold Loop.Shape at hs
    rw [hpc] at hs
    exact hs
  | clearDiscarded hpc | clearUtterance hpc =>
    unfold Loop.Shape at hs
    rw [hpc] at hs
    exact shape_ret hs.1 hs.2
  | _ => exact hp

/-! ## The jobs of the decode worker -/

def WorkerPc.job : WorkerPc F → Option (Job F)
  | .idle | .exited => none
  | .decoding job _ | .failing job _ | .emitFinal job _ _ | .storeCandidate job _ _ _
  | .storeHypothesis job _ | .track job _ | .emitStable job _ | .emitPartial job _
  | .anticipate job _ | .finishing job => some job

def WorkerPc.result : WorkerPc F → Option (Job F × TranscribeResult)
  | .emitFinal job result _ | .storeCandidate job result _ _ | .storeHypothesis job result
  | .track job result | .emitStable job result | .emitPartial job result
  | .anticipate job result => some (job, result)
  | _ => none

def State.HasJob (s : State F) (job : Job F) : Prop :=
  s.decode.pending = some job ∨ s.worker.job = some job

theorem audioStep_worker (h : AudioStep p s input s') :
    s'.worker = s.worker ∧ s'.decode.workerBusy = s.decode.workerBusy := by
  cases h with
  | @clearDiscarded ret hpc | @clearUtterance ret hpc => cases ret <;> exact ⟨rfl, rfl⟩
  | _ => exact ⟨rfl, rfl⟩

theorem workerStep_loop (h : WorkerStep s s') : s'.loop = s.loop := by
  cases h <;> rfl

omit [FloatArith F] in
theorem afterStore_job (job : Job F) (result : TranscribeResult) :
    (afterStore job result).job = some job := by
  unfold afterStore
  split_ifs <;> rfl

theorem decoded_job (s : State F) (job : Job F) (start : ℤ) (result : TranscribeResult) :
    (decoded s job start result).worker.job = some job := by
  unfold decoded
  dsimp only
  split_ifs <;> rfl

omit [FloatArith F] in
theorem trackResult_job (s : State F) (job : Job F) (result : TranscribeResult) :
    (trackResult s job result).worker.job = some job := by
  unfold trackResult
  dsimp only
  split_ifs <;> rfl

theorem workerStep_job (h : WorkerStep s s') :
    (s.worker.job = none ∧ s'.worker.job = s.decode.pending ∧ s'.decode.pending = none ∧
      s.decode.pending.isSome ∧ s'.decode.workerBusy = true) ∨
    (s'.worker.job = s.worker.job ∧ s'.decode.pending = s.decode.pending ∧
      s'.decode.workerBusy = s.decode.workerBusy) ∨
    (s'.worker.job = none ∧ s'.decode.pending = s.decode.pending ∧
      s'.decode.workerBusy = false) := by
  cases h with
  | takeJob hpc hjob =>
    exact .inl ⟨by rw [hpc]; rfl, hjob.symm, rfl, by rw [hjob]; rfl, rfl⟩
  | decoded hpc => exact .inr (.inl ⟨by rw [decoded_job, hpc]; rfl, rfl, rfl⟩)
  | keepCandidate hpc | noCandidate hpc =>
    exact .inr (.inl ⟨(afterStore_job _ _).trans (by rw [hpc]; rfl), rfl, rfl⟩)
  | track hpc => exact .inr (.inl ⟨by rw [trackResult_job, hpc]; rfl, rfl, rfl⟩)
  | finishing hpc => exact .inr (.inr ⟨rfl, rfl, rfl⟩)
  | exit hpc | throws hpc | failing hpc | emitFinal hpc | storeHypothesis hpc | emitStable hpc
  | showPartial hpc | samePartial hpc | settled hpc | likely hpc =>
    exact .inr (.inl ⟨by rw [hpc]; rfl, rfl, rfl⟩)

theorem hasJob_of_workerStep {job : Job F} (h : WorkerStep s s') (hjob : s'.HasJob job) :
    s.HasJob job := by
  unfold State.HasJob at hjob ⊢
  rcases workerStep_job h with ⟨_, hw, hp, _, _⟩ | ⟨hw, hp, _⟩ | ⟨hw, hp, _⟩
  · rw [hw, hp] at hjob
    exact .inl (hjob.resolve_left (by simp))
  · rwa [hw, hp] at hjob
  · rw [hw, hp] at hjob
    exact .inl (hjob.resolve_right (by simp))

/-- The worker was idle when the audio loop came here, and nothing was queued since. -/
def AudioPc.needsIdle : AudioPc F → Bool
  | .takeCandidate _ | .emitCandidate _ _ _ _ | .enqueueFinal _ => true
  | _ => false

/-- What every run keeps. -/
structure Core (s : State F) : Prop where
  shape : s.loop.Shape
  busy : s.decode.workerBusy = s.worker.job.isSome
  idle : s.loop.pc.needsIdle = true → s.decodeIdle
  fresh : ∀ ret, s.loop.pc = .takeCandidate ret → candidateFresh s = true

theorem core_initial (p : TurnParams F) : Core (initial p) where
  shape := fun h => h
  busy := rfl
  idle := by intro h; cases h
  fresh := by intro _ h; cases h

theorem idle_of_audioStep (hs : s.loop.pc.needsIdle = true → s.decodeIdle)
    (h : AudioStep p s input s') (hpc' : s'.loop.pc.needsIdle = true) : s'.decodeIdle := by
  cases h with
  | move hm =>
    cases hm with
    | served hpc hidle hfresh => exact hidle
    | unserved hpc hidle => exact hidle
    | _ => cases hpc'
  | skip hpc => exact hs hpc'
  | takeCandidate hpc => exact hs (by rw [hpc]; rfl)
  | @clearDiscarded ret hpc | @clearUtterance ret hpc => cases ret <;> cases hpc'
  | _ => cases hpc'

theorem fresh_of_audioStep {ret : CommitReturn} (h : AudioStep p s input s')
    (hpc' : s'.loop.pc = .takeCandidate ret) : candidateFresh s' = true := by
  cases h with
  | move hm =>
    cases hm with
    | served hpc hidle hfresh => exact hfresh
    | _ => cases hpc'
  | skip hpc =>
    rw [hpc] at hpc'
    cases hpc'
  | @clearDiscarded ret hpc | @clearUtterance ret hpc => cases ret <;> cases hpc'
  | _ => cases hpc'

theorem core_audioStep (hs : Core s) (h : AudioStep p s input s') : Core s' := by
  obtain ⟨hw, hb⟩ := audioStep_worker h
  refine ⟨shape_step hs.shape h, ?_, idle_of_audioStep hs.idle h,
    fun ret hpc' => fresh_of_audioStep h hpc'⟩
  rw [hw, hb]
  exact hs.busy

omit [FloatArith F] in
theorem Core.no_job (hs : Core s) (hidle : s.decodeIdle) (job : Job F) : ¬ s.HasJob job := by
  have hnone : s.worker.job = none := by
    have hb := hs.busy
    rw [hidle.1] at hb
    exact Option.isNone_iff_eq_none.mp (Option.isSome_eq_false_iff.mp hb.symm)
  rintro (hp | hw)
  · simp [hidle.2] at hp
  · simp [hnone] at hw

theorem Core.idle_workerStep (hs : Core s) (hidle : s.decodeIdle) (h : WorkerStep s s') :
    s' = s.work .exited := by
  have hno := hs.no_job hidle
  cases h with
  | exit hpc => rfl
  | takeJob hpc hjob => exact absurd (.inl hjob) (hno _)
  | decoded hpc | throws hpc | failing hpc | emitFinal hpc | keepCandidate hpc | noCandidate hpc
  | storeHypothesis hpc | track hpc | emitStable hpc | showPartial hpc | samePartial hpc
  | settled hpc | likely hpc | finishing hpc =>
    exact absurd (.inr (by rw [hpc]; rfl)) (hno _)

theorem core_workerStep (hs : Core s) (h : WorkerStep s s') : Core s' := by
  have hloop := workerStep_loop h
  refine ⟨hloop ▸ hs.shape, ?_, ?_, ?_⟩
  · rcases workerStep_job h with ⟨_, hw, _, hsome, hb⟩ | ⟨hw, _, hb⟩ | ⟨hw, _, hb⟩
    · rw [hw, hb, hsome]
    · rw [hw, hb, hs.busy]
    · rw [hw, hb]
      rfl
  · intro hpc
    rw [hloop] at hpc
    rw [hs.idle_workerStep (hs.idle hpc) h]
    exact hs.idle hpc
  · intro ret hpc
    rw [hloop] at hpc
    rw [hs.idle_workerStep (hs.idle (by rw [hpc]; rfl)) h]
    exact hs.fresh ret hpc

/-! ## Runs -/

/-- Guards the steps of the audio loop. -/
def AudioGuard (G : State F → AudioInput F → Prop) (s : State F) : Action F → Prop
  | .audio _ input => G s input
  | .worker _ _ => True

def State.tick (s : State F) (now : ℤ) : State F := { s with clock := now }

theorem step_cases {a : Action F} (h : step p s a = some s') :
    (∃ now input, a = .audio now input ∧ AudioStep p (s.tick now) input s') ∨
    (∃ now outcome, a = .worker now outcome ∧ WorkerStep (s.tick now) s') := by
  unfold step at h
  split_ifs at h
  cases a with
  | audio now input => exact .inl ⟨now, input, rfl, audioStep_cases h⟩
  | worker now outcome => exact .inr ⟨now, outcome, rfl, workerStep_cases h⟩

theorem run_invariant {G : State F → AudioInput F → Prop} {Inv : State F → Prop}
    (h : Reaches (step p) (AudioGuard G) (initial p) s) (hinit : Inv (initial p))
    (htick : ∀ s now, Inv s → Inv (s.tick now))
    (hguard : ∀ s now input, G s input → G (s.tick now) input)
    (haudio : ∀ s input s', Inv s → G s input → AudioStep p s input s' → Inv s')
    (hworker : ∀ s s', Inv s → WorkerStep s s' → Inv s') : Inv s := by
  apply h.invariant hinit
  intro s a s' hs hG hstep
  rcases step_cases hstep with ⟨now, input, rfl, ha⟩ | ⟨now, outcome, rfl, hw⟩
  · exact haudio _ _ _ (htick s now hs) (hguard s now input hG) ha
  · exact hworker _ _ (htick s now hs) hw

/-! ## Actions of concrete runs -/

section Traces

def heardAt (now : ℤ) (block : List ℚ) (kinds : List ActivityKind) : Action ℚ :=
  .audio now (.block true block [kinds])

def audioSteps (now : ℤ) (k : ℕ) : List (Action ℚ) := List.replicate k (.audio now .go)

def workerSteps (now : ℤ) (k : ℕ) : List (Action ℚ) := List.replicate k (.worker now none)

def replies (now : ℤ) (text : String) : Action ℚ := .worker now (some (.returns ⟨bytes text, []⟩))

def silence : List ℚ := List.replicate 512 0

def tone : List ℚ := List.replicate 512 (1 / 2)

/-- The states that the runner reaches with its default parameters. -/
def Runs (s : State ℚ) : Prop :=
  Reaches (step (.default ℚ)) Always (initial (.default ℚ)) s

theorem exists_runs (as : List (Action ℚ)) (test : State ℚ → Bool)
    (h : (replay (step (.default ℚ)) (fun _ _ => true) (initial (.default ℚ)) as).any test = true) :
    ∃ s, Runs s ∧ test s = true :=
  exists_run as test h

def guardTest (ok : State ℚ → AudioInput ℚ → Bool) (s : State ℚ) : Action ℚ → Bool
  | .audio _ input => ok s input
  | .worker _ _ => true

theorem exists_guarded {G : State ℚ → AudioInput ℚ → Prop} {ok : State ℚ → AudioInput ℚ → Bool}
    (hok : ∀ s input, ok s input = true → G s input) (as : List (Action ℚ)) (test : State ℚ → Bool)
    (h : (replay (step (.default ℚ)) (guardTest ok) (initial (.default ℚ)) as).any test = true) :
    ∃ s, Reaches (step (.default ℚ)) (AudioGuard G) (initial (.default ℚ)) s ∧ test s = true := by
  apply exists_reached ?_ h
  intro s a ha
  cases a with
  | audio now input => exact hok s input ha
  | worker now outcome => trivial

end Traces

end FastTts.Voice
