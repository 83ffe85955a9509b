import FastTts.VoiceSteps

/-!
# What the steps leave alone

For each component of the state: which steps change it, and to what. The live utterance buffer is
the one between the locked region of `begin_utterance` and the end of `commit_utterance`.
-/

namespace FastTts.Voice

variable {F : Type}

/-- The locked region of `begin_utterance` is behind the audio loop. -/
def AudioPc.begun : AudioPc F → Bool
  | .beginLocked _ => false
  | _ => true

/-- The utterance buffer belongs to an utterance that is open or being committed. -/
def AudioPc.live (speaking : Bool) (pc : AudioPc F) : Bool :=
  pc.begun && (pc.committing || speaking)

def Loop.live (l : Loop F) : Bool := l.pc.live l.speaking

def AudioPc.enqueues : AudioPc F → Bool
  | .enqueueCandidate _ | .enqueuePartial | .enqueueFinal _ => true
  | _ => false

/-- The next step of the audio loop is a `begin_utterance`. -/
def State.BeginsUtterance (s : State F) : Prop :=
  ∃ rest, s.loop.pc = .activities (.speechStart :: rest) ∧ s.loop.speaking = false

theorem Loop.Shape.live_of_enqueues {l : Loop F} (hs : l.Shape) (h : l.pc.enqueues = true) :
    l.live = true := by
  unfold Loop.Shape at hs
  unfold Loop.live
  cases hpc : l.pc <;> simp_all [AudioPc.enqueues, AudioPc.Flags, AudioPc.live, AudioPc.begun,
    AudioPc.committing]

variable [FloatArith F] {p : TurnParams F} {s s' : State F} {input : AudioInput F}

section AudioSteps

theorem hasJob_of_audioStep {job : Job F} (h : AudioStep p s input s') (hjob : s'.HasJob job) :
    s.HasJob job ∨ s.loop.pc.enqueues = true ∧ ∃ final candidate, job = newJob s final candidate := by
  cases h with
  | enqueueCandidate hpc | enqueuePartial hpc hidle | enqueueFinal hpc hbusy =>
    rcases hjob with hp | hw
    · exact .inr ⟨by rw [hpc]; rfl, _, _, (Option.some.inj hp).symm⟩
    · exact .inl (.inr hw)
  | @clearDiscarded ret hpc | @clearUtterance ret hpc => cases ret <;> exact .inl hjob
  | _ => exact .inl hjob

theorem utteranceId_of_audioStep (h : AudioStep p s input s') :
    s'.loop.utteranceId = s.loop.utteranceId ∨ s.BeginsUtterance := by
  cases h with
  | beginUtterance hpc hsp => exact .inr ⟨_, hpc, hsp⟩
  | @clearDiscarded ret hpc | @clearUtterance ret hpc => cases ret <;> exact .inl rfl
  | _ => exact .inl rfl

theorem history_of_audioStep (h : AudioStep p s input s') :
    s'.history.calls = s.history.calls ∧ s.history.snapshots ⊆ s'.history.snapshots := by
  cases h with
  | captureSpeech hpc hsp hpe | beginLocked hpc | resumeLocked hpc =>
    exact ⟨rfl, List.subset_append_left _ _⟩
  | @clearDiscarded ret hpc | @clearUtterance ret hpc => cases ret <;> exact ⟨rfl, List.Subset.refl _⟩
  | _ => exact ⟨rfl, List.Subset.refl _⟩

omit [FloatArith F] in
theorem begun_of_moves {pc : AudioPc F} (h : Moves s pc) : s.loop.pc.begun = true := by
  cases h with
  | blockDone hpc => rcases hpc with hpc | hpc | hpc | hpc <;> rw [hpc] <;> rfl
  | leaveIdle hpc | noActivity hpc | ignored hpc | candidateFresh hpc | candidateStale hpc
  | holdOver hpc | partialDue hpc | served hpc | unserved hpc | finalDone hpc | joined hpc =>
    rw [hpc]
    rfl

section

variable (h : AudioStep p s input s')
include h

/-- Once begun, an utterance keeps its id; `begin_utterance` itself forgets what is stored. -/
theorem begun_of_audioStep (hb : s'.loop.pc.begun = true) :
    (s.loop.pc.begun = true ∧ s'.loop.utteranceId = s.loop.utteranceId) ∨
      ∃ rest, s.loop.pc = .beginLocked rest ∧ s' = beginLocked s rest := by
  cases h with
  | move hm => exact .inl ⟨begun_of_moves hm, rfl⟩
  | beginLocked hpc => exact .inr ⟨_, hpc, rfl⟩
  | beginUtterance hpc => cases hb
  | throws hpc => rcases hpc with hpc | hpc <;> exact .inl ⟨by rw [hpc]; rfl, rfl⟩
  | @clearDiscarded ret hpc | @clearUtterance ret hpc =>
    cases ret <;> exact .inl ⟨by rw [hpc]; rfl, rfl⟩
  | skip hpc | leaveSpeaking hpc | captureIdle hpc | captureSpeech hpc | captureGap hpc
  | startResume hpc | beginPendingEnd hpc | beginEmit hpc | enqueueCandidate hpc
  | resumeLocked hpc | runaway hpc | schedulePartial hpc | enqueuePartial hpc | discard hpc
  | commit hpc | takeCandidate hpc | emitCandidate hpc | enqueueFinal hpc | quitting hpc =>
    exact .inl ⟨by rw [hpc]; rfl, rfl⟩

theorem beginsUtterance_of_audioStep (hb : s'.loop.pc.begun = false) : s.BeginsUtterance := by
  cases h with
  | beginUtterance hpc hsp => exact ⟨_, hpc, hsp⟩
  | move hm => cases hm <;> cases hb
  | skip hpc =>
    rw [hpc] at hb
    cases hb
  | @clearDiscarded ret hpc | @clearUtterance ret hpc => cases ret <;> cases hb
  | _ => cases hb

theorem candidate_of_audioStep :
    s'.decode.candidateValid = false ∨ (s'.decode.candidateValid = s.decode.candidateValid ∧
      s'.decode.candidate = s.decode.candidate ∧
      s'.decode.candidateSamples = s.decode.candidateSamples ∧
      s'.history.candidateJob = s.history.candidateJob) := by
  cases h with
  | beginLocked hpc | resumeLocked hpc | takeCandidate hpc => exact .inl rfl
  | @clearDiscarded ret hpc => cases ret <;> exact .inl rfl
  | @clearUtterance ret hpc => cases ret <;> exact .inr ⟨rfl, rfl, rfl, rfl⟩
  | _ => exact .inr ⟨rfl, rfl, rfl, rfl⟩

theorem hypothesis_of_audioStep :
    s'.decode.latestHypothesis = [] ∨ (s'.decode.latestHypothesis = s.decode.latestHypothesis ∧
      s'.history.hypothesisJob = s.history.hypothesisJob) := by
  cases h with
  | beginLocked hpc => exact .inl rfl
  | @clearDiscarded ret hpc => cases ret <;> exact .inl rfl
  | @clearUtterance ret hpc => cases ret <;> exact .inr ⟨rfl, rfl⟩
  | _ => exact .inr ⟨rfl, rfl⟩

theorem tracker_of_audioStep :
    (s'.decode.tracker = s.decode.tracker.reset ∧ s'.history.tracked = []) ∨
    (s'.decode.tracker = s.decode.tracker ∧ s'.history.tracked = s.history.tracked ∧
      s'.loop.utteranceId = s.loop.utteranceId) := by
  cases h with
  | beginUtterance hpc hsp => exact .inl ⟨rfl, rfl⟩
  | @clearDiscarded ret hpc | @clearUtterance ret hpc => cases ret <;> exact .inr ⟨rfl, rfl, rfl⟩
  | _ => exact .inr ⟨rfl, rfl, rfl⟩

end

omit [FloatArith F] in
theorem live_of_moves {pc : AudioPc F} (h : Moves s pc) (hl : pc.live s.loop.speaking = true) :
    s.loop.live = true := by
  unfold Loop.live
  cases h with
  | blockDone hpc => rcases hpc with hpc | hpc | hpc | hpc <;> rw [hpc] <;> exact hl
  | leaveIdle hpc | noActivity hpc | ignored hpc | candidateFresh hpc | candidateStale hpc
  | holdOver hpc | partialDue hpc | served hpc | unserved hpc | finalDone hpc | joined hpc =>
    rw [hpc]
    exact hl

theorem snapshot_of_audioStep (hs : s.loop.Shape) (h : AudioStep p s input s')
    (hsnap : s.loop.live = true → (s.loop.utteranceId, s.loop.utterance) ∈ s.history.snapshots)
    (hl : s'.loop.live = true) :
    (s'.loop.utteranceId, s'.loop.utterance) ∈ s'.history.snapshots := by
  unfold Loop.Shape at hs
  cases h with
  | move hm => exact hsnap (live_of_moves hm hl)
  | captureSpeech hpc hsp hpe | beginLocked hpc | resumeLocked hpc =>
    exact List.mem_append_right _ (List.mem_singleton_self _)
  | captureIdle hpc hsp => exact absurd (hsp.symm.trans hl) Bool.false_ne_true
  | beginUtterance hpc hsp => cases hl
  | @clearDiscarded ret hpc | @clearUtterance ret hpc =>
    rw [hpc] at hs
    cases ret <;> exact absurd (hs.1.symm.trans hl) Bool.false_ne_true
  | throws hpc => rcases hpc with hpc | hpc <;> exact hsnap (by unfold Loop.live; rw [hpc]; exact hl)
  | discard hpc hb | commit hpc =>
    rw [hpc] at hs
    exact hsnap (by unfold Loop.live; rw [hpc]; exact hs)
  | skip hpc => exact hsnap hl
  | leaveSpeaking hpc | captureGap hpc | startResume hpc | beginPendingEnd hpc
  | beginEmit hpc | enqueueCandidate hpc | runaway hpc | schedulePartial hpc
  | enqueuePartial hpc | takeCandidate hpc | emitCandidate hpc | enqueueFinal hpc
  | quitting hpc =>
    exact hsnap (by unfold Loop.live; rw [hpc]; exact hl)

theorem live_of_audioStep (hs : s.loop.Shape) (h : AudioStep p s input s')
    (hl : s'.loop.live = true) :
    (s.loop.live = true ∧ s.loop.utterance <+: s'.loop.utterance) ∨
      ∃ rest, s.loop.pc = .beginLocked rest ∧ s' = beginLocked s rest := by
  unfold Loop.Shape at hs
  cases h with
  | move hm => exact .inl ⟨live_of_moves hm hl, List.prefix_rfl⟩
  | captureSpeech hpc hsp hpe | resumeLocked hpc =>
    exact .inl ⟨by unfold Loop.live; rw [hpc]; exact hl, List.prefix_append _ _⟩
  | beginLocked hpc => exact .inr ⟨_, hpc, rfl⟩
  | captureIdle hpc hsp => exact absurd (hsp.symm.trans hl) Bool.false_ne_true
  | beginUtterance hpc hsp => cases hl
  | @clearDiscarded ret hpc | @clearUtterance ret hpc =>
    rw [hpc] at hs
    cases ret <;> exact absurd (hs.1.symm.trans hl) Bool.false_ne_true
  | throws hpc =>
    rcases hpc with hpc | hpc <;>
      exact .inl ⟨by unfold Loop.live; rw [hpc]; exact hl, List.prefix_rfl⟩
  | discard hpc hb | commit hpc =>
    rw [hpc] at hs
    exact .inl ⟨by unfold Loop.live; rw [hpc]; exact hs, List.prefix_rfl⟩
  | skip hpc => exact .inl ⟨hl, List.prefix_rfl⟩
  | leaveSpeaking hpc | captureGap hpc | startResume hpc | beginPendingEnd hpc
  | beginEmit hpc | enqueueCandidate hpc | runaway hpc | schedulePartial hpc
  | enqueuePartial hpc | takeCandidate hpc | emitCandidate hpc | enqueueFinal hpc
  | quitting hpc =>
    exact .inl ⟨by unfold Loop.live; rw [hpc]; exact hl, List.prefix_rfl⟩

theorem resumes_of_audioStep (h : AudioStep p s input s') :
    s'.history.resumes = 0 ∨
    (∃ rest, s.loop.pc = .resumeLocked rest ∧ s' = resumeFromPending s rest) ∨
    (s'.history.resumes = s.history.resumes ∧ s'.loop.pc.begun = true) := by
  cases h with
  | beginUtterance hpc hsp => exact .inl rfl
  | resumeLocked hpc => exact .inr (.inl ⟨_, hpc, rfl⟩)
  | move hm => cases hm <;> exact .inr (.inr ⟨rfl, rfl⟩)
  | skip hpc => exact .inr (.inr ⟨rfl, by rw [hpc]; rfl⟩)
  | @clearDiscarded ret hpc | @clearUtterance ret hpc => cases ret <;> exact .inr (.inr ⟨rfl, rfl⟩)
  | _ => exact .inr (.inr ⟨rfl, rfl⟩)

theorem final_of_audioStep {u t : ℤ} {result : TranscribeResult} {timings : Timings}
    (h : AudioStep p s input s') (he : .finalTranscript u t result timings ∈ s'.events) :
    .finalTranscript u t result timings ∈ s.events ∨ u = s.loop.utteranceId ∧
      ∃ ret decodeMs samples, s.loop.pc = .emitCandidate ret result decodeMs samples := by
  cases h with
  | emitCandidate hpc =>
    rcases List.mem_append.mp he with he | he
    · exact .inl he
    · obtain ⟨rfl, rfl, rfl, rfl⟩ := Event.finalTranscript.inj (List.mem_singleton.mp he)
      exact .inr ⟨rfl, _, _, _, hpc⟩
  | throws hpc | beginEmit hpc | discard hpc | commit hpc =>
    rcases List.mem_append.mp he with he | he
    · exact .inl he
    · cases List.mem_singleton.mp he
  | @clearDiscarded ret hpc | @clearUtterance ret hpc => cases ret <;> exact .inl he
  | _ => exact .inl he

theorem serving_of_audioStep {ret : CommitReturn} {result : TranscribeResult} {decodeMs : ℤ}
    {samples : ℕ} (h : AudioStep p s input s')
    (hpc' : s'.loop.pc = .emitCandidate ret result decodeMs samples) :
    (∃ ret, s.loop.pc = .takeCandidate ret) ∧ result = s.decode.candidate ∧
      s'.loop.utteranceId = s.loop.utteranceId := by
  cases h with
  | takeCandidate hpc =>
    injection hpc' with _ hr
    exact ⟨⟨_, hpc⟩, hr.symm, rfl⟩
  | move hm => cases hm <;> cases hpc'
  | skip hpc => rw [hpc] at hpc'; cases hpc'
  | @clearDiscarded ret hpc | @clearUtterance ret hpc => cases ret <;> cases hpc'
  | _ => cases hpc'

end AudioSteps

section WorkerSteps

theorem history_of_workerStep (h : WorkerStep s s') :
    s.history.calls ⊆ s'.history.calls ∧ s'.history.snapshots = s.history.snapshots := by
  cases h with
  | decoded hpc => exact ⟨List.subset_append_left _ _, rfl⟩
  | _ => exact ⟨List.Subset.refl _, rfl⟩

variable {job : Job F} {result : TranscribeResult} {x : Job F × TranscribeResult}

omit [FloatArith F] in
theorem eq_of_afterStore_result (h : (afterStore job result).result = some x) :
    x = (job, result) := by
  unfold afterStore at h
  split_ifs at h
  · cases h
  · exact (Option.some.inj h).symm

theorem mem_calls_of_decoded {start : ℤ} (h : (decoded s job start result).worker.result = some x) :
    x ∈ (decoded s job start result).history.calls := by
  have hx : x = (job, result) := by
    unfold decoded at h
    dsimp only at h
    split_ifs at h <;> exact (Option.some.inj h).symm
  rw [hx]
  exact List.mem_append_right _ (List.mem_singleton_self _)

omit [FloatArith F] in
theorem eq_of_trackResult_result (h : (trackResult s job result).worker.result = some x) :
    x = (job, result) := by
  unfold trackResult at h
  dsimp only at h
  split_ifs at h <;> exact (Option.some.inj h).symm

theorem result_of_workerStep (h : WorkerStep s s') (hw : s'.worker.result = some x) :
    s.worker.result = some x ∨ x ∈ s'.history.calls := by
  cases h with
  | decoded hpc => exact .inr (mem_calls_of_decoded hw)
  | keepCandidate hpc | noCandidate hpc =>
    rw [eq_of_afterStore_result hw, hpc]
    exact .inl rfl
  | track hpc =>
    rw [eq_of_trackResult_result hw, hpc]
    exact .inl rfl
  | storeHypothesis hpc | emitStable hpc | showPartial hpc | samePartial hpc =>
    rw [hpc]
    exact .inl hw
  | takeJob hpc | exit hpc | throws hpc | failing hpc | emitFinal hpc | settled hpc | likely hpc
  | finishing hpc => cases hw

theorem candidate_of_workerStep (h : WorkerStep s s') :
    (s'.decode.candidateValid = s.decode.candidateValid ∧ s'.decode.candidate = s.decode.candidate ∧
      s'.decode.candidateSamples = s.decode.candidateSamples ∧
      s'.history.candidateJob = s.history.candidateJob) ∨
    ∃ job, s.worker.result = some (job, s'.decode.candidate) ∧ s.worker.job = some job ∧
      s'.decode.candidateSamples = job.audio.length ∧ s'.history.candidateJob = some job := by
  cases h with
  | keepCandidate hpc =>
    rw [hpc]
    exact .inr ⟨_, rfl, rfl, rfl, rfl⟩
  | _ => exact .inl ⟨rfl, rfl, rfl, rfl⟩

theorem hypothesis_of_workerStep (h : WorkerStep s s') :
    (s'.decode.latestHypothesis = s.decode.latestHypothesis ∧
      s'.history.hypothesisJob = s.history.hypothesisJob) ∨
    ∃ job result, s.worker.result = some (job, result) ∧ s.worker.job = some job ∧
      s'.decode.latestHypothesis = result.text ∧ s'.history.hypothesisJob = some job := by
  cases h with
  | storeHypothesis hpc =>
    rw [hpc]
    exact .inr ⟨_, _, rfl, rfl, rfl, rfl⟩
  | _ => exact .inl ⟨rfl, rfl⟩

theorem tracker_of_workerStep (h : WorkerStep s s') :
    (s'.decode.tracker = s.decode.tracker ∧ s'.history.tracked = s.history.tracked) ∨
    ∃ job result, s.worker.result = some (job, result) ∧ s.worker.job = some job ∧
      s'.decode.tracker = (s.decode.tracker.update result.text).1 ∧
      s'.history.tracked = s.history.tracked ++ [(job, result)] := by
  cases h with
  | track hpc =>
    rw [hpc]
    exact .inr ⟨_, _, rfl, rfl, rfl, rfl⟩
  | _ => exact .inl ⟨rfl, rfl⟩

theorem final_of_workerStep {u t : ℤ} {timings : Timings} (h : WorkerStep s s')
    (he : .finalTranscript u t result timings ∈ s'.events) :
    .finalTranscript u t result timings ∈ s.events ∨
      ∃ job, s.worker.result = some (job, result) ∧ s.worker.job = some job ∧
        job.utteranceId = u := by
  cases h with
  | emitFinal hpc =>
    rcases List.mem_append.mp he with he | he
    · exact .inl he
    · obtain ⟨rfl, rfl, rfl, rfl⟩ := Event.finalTranscript.inj (List.mem_singleton.mp he)
      rw [hpc]
      exact .inr ⟨_, rfl, rfl, rfl⟩
  | failing hpc | emitStable hpc | showPartial hpc | likely hpc =>
    rcases List.mem_append.mp he with he | he
    · exact .inl he
    · cases List.mem_singleton.mp he
  | _ => exact .inl he

end WorkerSteps

end FastTts.Voice
