import FastTts.Sessions
import FastTts.VoiceFrames
import Mathlib.Data.Int.Order.Basic

/-!
# The order of events

An utterance is a session of the event stream: `speech_started` opens it, its final transcript, its
discard or the error of its final decode closes it, and the interim events speak for it. The discard
path does not wait for the worker, so a decode that is still running speaks for a closed utterance;
runs in which every discard finds the worker idle are orderly.
-/

namespace FastTts.Voice

variable {F : Type}

def Event.starts : Event F → Option ℤ
  | .speechStarted u _ => some u
  | _ => none

def Event.closes : Event F → Option ℤ
  | .finalTranscript u _ _ _ => some u
  | .speechDiscarded u _ _ _ => some u
  | .error _ closes => closes
  | _ => none

def Event.interim : Event F → Option ℤ
  | .partialTranscript u _ _ => some u
  | .stableTranscript u _ _ => some u
  | .endpointLikely u _ _ => some u
  | _ => none

def utterances (F : Type) : SessionKind (Event F) ℤ where
  opens := Event.starts
  closes := Event.closes
  speaks := Event.interim

def WorkerPc.due : WorkerPc F → Option (Job F)
  | .finishing _ => none
  | w => w.job

/-- The job is queued or its events are still to come. -/
def State.Due (s : State F) (job : Job F) : Prop :=
  s.decode.pending = some job ∨ s.worker.due = some job

def State.anyDue (s : State F) : Bool := s.decode.pending.isSome || s.worker.due.isSome

def AudioPc.awaitsFinal : AudioPc F → Bool
  | .awaitFinal _ => true
  | _ => false

def openWhile (b : Bool) (utt : ℤ) : List ℤ := if b then [utt] else []

variable {b : Bool} {rest : List ActivityKind}

theorem openWhile_of_false (h : b = false) (utt : ℤ) : openWhile b utt = [] := by
  rw [h]
  rfl

theorem openWhile_of_true (h : b = true) (utt : ℤ) : openWhile b utt = [utt] := by
  rw [h]
  rfl

/-- The utterance that is open in the event stream, given whether events are still due. -/
def AudioPc.opened (speaking due : Bool) (utt : ℤ) : AudioPc F → List ℤ
  | .beginLocked _ | .beginEmit _ => []
  | .awaitIdle _ | .takeCandidate _ | .emitCandidate _ _ _ _ | .enqueueFinal _ => [utt]
  | .awaitFinal _ => openWhile due utt
  | _ => openWhile speaking utt

def State.opened (s : State F) : List ℤ :=
  s.loop.pc.opened s.loop.speaking s.anyDue s.loop.utteranceId

/-- Whether the result at hand is to be a final transcript. -/
def WorkerPc.finishes : WorkerPc F → Option Bool
  | .emitFinal _ _ _ => some true
  | .storeCandidate _ _ _ _ | .storeHypothesis _ _ | .track _ _ | .emitStable _ _
  | .emitPartial _ _ | .anticipate _ _ => some false
  | _ => none

def AudioPc.beginning : AudioPc F → Bool
  | .beginLocked _ | .beginEmit _ => true
  | _ => false

def AudioPc.leaving : AudioPc F → Bool
  | .quitting | .joining | .finished => true
  | _ => false

/-- The place is none of those that the order of events treats by themselves. -/
def AudioPc.plain (pc : AudioPc F) : Bool := !pc.beginning && !pc.awaitsFinal && !pc.leaving

/-- The stream is orderly, and whatever the worker still has to say is about the open utterance. -/
structure EventOrder (s : State F) : Prop where
  core : Core s
  stream : Orderly (utterances F) s.events s.opened
  ids : ∀ u ∈ s.events.filterMap Event.starts, u ≤ s.loop.utteranceId
  newId : s.loop.pc.beginning = true →
    ∀ u ∈ s.events.filterMap Event.starts, u < s.loop.utteranceId
  due : ∀ job, s.Due job → job.utteranceId = s.loop.utteranceId ∧
    s.opened = [s.loop.utteranceId] ∧ job.final = s.loop.pc.awaitsFinal
  single : s.loop.pc.awaitsFinal = true → s.decode.pending.isSome = true → s.worker.job = none
  kind : ∀ job final, s.worker.job = some job → s.worker.finishes = some final →
    job.final = final
  leaving : s.loop.pc.leaving = true → s.loop.speaking = false

variable {s s' : State F} {job : Job F} {pc : AudioPc F} {ret : CommitReturn} {e : Event F}

theorem job_of_due {w : WorkerPc F} (h : w.due = some job) : w.job = some job := by
  cases w with
  | finishing job => cases h
  | _ => exact h

theorem State.Due.hasJob (h : s.Due job) : s.HasJob job :=
  h.imp_right job_of_due

theorem anyDue_iff : s.anyDue = true ↔ ∃ job, s.Due job := by
  simp only [State.anyDue, State.Due, Bool.or_eq_true, Option.isSome_iff_exists, exists_or]

theorem opened_of_pc (hpc : s.loop.pc = pc) :
    s.opened = pc.opened s.loop.speaking s.anyDue s.loop.utteranceId := by
  rw [State.opened, hpc]

namespace EventOrder

section

variable (hs : EventOrder s)
include hs

theorem not_due (h : s.opened = []) (job : Job F) : ¬ s.Due job := by
  intro hd
  have hone := (hs.due job hd).2.1
  rw [h] at hone
  cases hone

theorem frame (hcore : Core s') (hevents : s'.events = s.events) (hopened : s'.opened = s.opened)
    (hworker : s'.worker = s.worker) (hpending : s'.decode.pending = s.decode.pending)
    (hid : s'.loop.utteranceId = s.loop.utteranceId)
    (hbegin : s'.loop.pc.beginning = true → s.loop.pc.beginning = true)
    (hawait : s'.loop.pc.awaitsFinal = false)
    (hleft : s.loop.pc.awaitsFinal = false ∨ ∀ job, ¬ s.Due job)
    (hover : s'.loop.pc.leaving = true → s'.loop.speaking = false) : EventOrder s' := by
  refine ⟨hcore, ?_, ?_, ?_, ?_, ?_, ?_, hover⟩
  · rw [hevents, hopened]
    exact hs.stream
  · rw [hevents, hid]
    exact hs.ids
  · intro h
    rw [hevents, hid]
    exact hs.newId (hbegin h)
  · intro job hd
    have hold : s.Due job := by
      rwa [State.Due, hworker, hpending] at hd
    obtain ⟨hjob, hone, hfinal⟩ := hs.due job hold
    rw [hid, hopened, hawait]
    refine ⟨hjob, hone, ?_⟩
    rcases hleft with hleft | hnone
    · exact hfinal.trans hleft
    · exact absurd hold (hnone job)
  · intro h
    exact absurd (hawait.symm.trans h) Bool.false_ne_true
  · rw [hworker]
    exact hs.kind

theorem frame_plain (hcore : Core s') (hpc : s.loop.pc.awaitsFinal = false)
    (hpc' : s'.loop.pc.plain = true) (hopened : s'.opened = s.opened)
    (hevents : s'.events = s.events) (hworker : s'.worker = s.worker)
    (hpending : s'.decode.pending = s.decode.pending)
    (hid : s'.loop.utteranceId = s.loop.utteranceId) : EventOrder s' := by
  simp only [AudioPc.plain, Bool.and_eq_true, Bool.not_eq_true'] at hpc'
  obtain ⟨⟨hbegin, hawait⟩, hover⟩ := hpc'
  refine hs.frame hcore hevents hopened hworker hpending hid ?_ hawait (.inl hpc) ?_
  · intro h
    exact absurd (hbegin.symm.trans h) Bool.false_ne_true
  · intro h
    exact absurd (hover.symm.trans h) Bool.false_ne_true

theorem queued {pc : AudioPc F} {final candidate : Bool}
    (hcore : Core ((enqueue s final candidate).goto pc)) (hnone : final = true → s.worker.job = none)
    (hopened : s.opened = [s.loop.utteranceId])
    (hopened' : pc.opened s.loop.speaking true s.loop.utteranceId = [s.loop.utteranceId])
    (hleft : s.loop.pc.awaitsFinal = false) (hawait : pc.awaitsFinal = final)
    (hbegin : pc.beginning = false) (hover : pc.leaving = false) :
    EventOrder ((enqueue s final candidate).goto pc) := by
  have hsame : ((enqueue s final candidate).goto pc).opened = [s.loop.utteranceId] := hopened'
  refine ⟨hcore, ?_, hs.ids, ?_, ?_, ?_, hs.kind, ?_⟩
  · rw [hsame, ← hopened]
    exact hs.stream
  · intro h
    exact absurd (hbegin.symm.trans h) Bool.false_ne_true
  · intro job hd
    rw [hsame]
    rcases hd with hp | hw
    · obtain rfl := (Option.some.inj hp).symm
      exact ⟨rfl, rfl, hawait.symm⟩
    · obtain ⟨hid, _, hfinal⟩ := hs.due job (.inr hw)
      refine ⟨hid, rfl, ?_⟩
      cases hf : final with
      | false => exact hfinal.trans (hleft.trans (hf ▸ hawait).symm)
      | true =>
        have hjob : s.worker.job = some job := job_of_due hw
        rw [hnone hf] at hjob
        cases hjob
  · intro h _
    exact hnone (hawait.symm.trans h)
  · intro h
    exact absurd (hover.symm.trans h) Bool.false_ne_true

theorem emitted {s' : State F} {e : Event F} (hcore : Core s')
    (hevents : s'.events = s.events ++ [e]) (hstarts : e.starts = none)
    (hstream : Orderly (utterances F) (s.events ++ [e]) s'.opened)
    (hdue : ∀ job, s'.Due job → s.Due job ∧ s'.opened = s.opened) (hleft : s.loop.pc.plain = true)
    (hworker : s'.worker = s.worker) (hid : s'.loop.utteranceId = s.loop.utteranceId)
    (hpc : s'.loop.pc.plain = true) : EventOrder s' := by
  simp only [AudioPc.plain, Bool.and_eq_true, Bool.not_eq_true'] at hpc
  obtain ⟨⟨hbegin, hawait⟩, hover⟩ := hpc
  simp only [AudioPc.plain, Bool.and_eq_true, Bool.not_eq_true'] at hleft
  refine ⟨hcore, ?_, ?_, ?_, ?_, ?_, ?_, ?_⟩
  · rw [hevents]
    exact hstream
  · rw [hevents, hid]
    simpa [hstarts] using hs.ids
  · intro h
    exact absurd (hbegin.symm.trans h) Bool.false_ne_true
  · intro job hd
    obtain ⟨hold, hopened⟩ := hdue job hd
    rw [hid, hopened, hawait, ← hleft.1.2]
    exact hs.due job hold
  · intro h
    exact absurd (hawait.symm.trans h) Bool.false_ne_true
  · rw [hworker]
    exact hs.kind
  · intro h
    exact absurd (hover.symm.trans h) Bool.false_ne_true

end

end EventOrder

section

variable (hs : EventOrder s)
include hs

theorem frame_of_moves (hcore : Core (s.goto pc)) (hm : Moves s pc) : EventOrder (s.goto pc) := by
  have hshape := hs.core.shape
  unfold Loop.Shape at hshape
  cases hm with
  | leaveIdle hpc hsp =>
    refine hs.frame hcore rfl (by rw [opened_of_pc hpc]; rfl) rfl rfl rfl ?_ rfl
      (.inl (by rw [hpc]; rfl)) (fun _ => hsp)
    intro h
    cases h
  | joined hpc =>
    refine hs.frame hcore rfl (by rw [opened_of_pc hpc]; rfl) rfl rfl rfl ?_ rfl
      (.inl (by rw [hpc]; rfl)) (fun _ => hs.leaving (by rw [hpc]; rfl))
    intro h
    cases h
  | finalDone hpc hidle =>
    have hnone : ∀ job, ¬ s.Due job := fun job hd => hs.core.no_job hidle _ hd.hasJob
    have hdue : s.anyDue = false :=
      Bool.eq_false_iff.mpr fun h => let ⟨job, hd⟩ := anyDue_iff.mp h; hnone job hd
    rw [hpc] at hshape
    refine hs.frame hcore rfl ?_ rfl rfl rfl ?_ rfl (.inr hnone) ?_
    · rw [opened_of_pc hpc, hdue]
      exact openWhile_of_false hshape.1 _
    · intro h
      cases h
    · intro h
      cases h
  | holdOver hpc hsp | partialDue hpc hsp =>
    refine hs.frame_plain hcore (by rw [hpc]; rfl) rfl ?_ rfl rfl rfl rfl
    rw [opened_of_pc hpc]
    rfl
  | blockDone hpc =>
    rcases hpc with hpc | hpc | hpc | hpc <;>
      exact hs.frame_plain hcore (by rw [hpc]; rfl) rfl (by rw [opened_of_pc hpc]; rfl) rfl rfl rfl rfl
  | noActivity hpc | ignored hpc | candidateFresh hpc | candidateStale hpc | served hpc
  | unserved hpc =>
    exact hs.frame_plain hcore (by rw [hpc]; rfl) rfl (by rw [opened_of_pc hpc]; rfl) rfl rfl rfl rfl

theorem eventOrder_beginEmit (hpc : s.loop.pc = .beginEmit rest)
    (hcore : Core ((s.emit (.speechStarted s.loop.utteranceId (toMs s.clock))).goto
      (.activities rest))) :
    EventOrder ((s.emit (.speechStarted s.loop.utteranceId (toMs s.clock))).goto
      (.activities rest)) := by
  have hshape := hs.core.shape
  unfold Loop.Shape at hshape
  rw [hpc] at hshape
  have hopened : s.opened = [] := by
    rw [opened_of_pc hpc]
    rfl
  have hnone := hs.not_due hopened
  have hstream := hs.stream
  rw [hopened] at hstream
  have hlt := hs.newId (by rw [hpc]; rfl)
  refine ⟨hcore, ?_, ?_, ?_, fun job hd => absurd hd (hnone job), ?_, hs.kind, ?_⟩
  · have hopen := hstream.opening
      (e := Event.speechStarted s.loop.utteranceId (toMs s.clock)) rfl rfl rfl hlt
    change Orderly _ _ (openWhile s.loop.speaking _)
    rw [openWhile_of_true hshape.1]
    exact hopen
  · intro u hu
    simp only [goto_events, emit_events, List.filterMap_append, List.mem_append] at hu
    rcases hu with hu | hu
    · exact hs.ids u hu
    · have he : u = s.loop.utteranceId := by simpa [Event.starts] using hu
      exact he.le
  · intro h
    cases h
  · intro h
    cases h
  · intro h
    cases h

theorem opened_of_gate (hpc : s.loop.pc = .gate ret) : s.opened = [s.loop.utteranceId] := by
  have hshape := hs.core.shape
  unfold Loop.Shape at hshape
  rw [hpc] at hshape
  rw [opened_of_pc hpc]
  exact openWhile_of_true hshape _

theorem eventOrder_commit (hpc : s.loop.pc = .gate ret)
    (hstarts : e.starts = none) (hcloses : e.closes = none) (hinterim : e.interim = none)
    (hcore : Core ((stopSpeaking s (.awaitIdle ret)).emit e)) :
    EventOrder ((stopSpeaking s (.awaitIdle ret)).emit e) := by
  have hopened := opened_of_gate hs hpc
  have hstream := hs.stream
  rw [hopened] at hstream
  exact hs.emitted hcore rfl hstarts (hstream.silent hstarts hcloses hinterim)
    (fun job hd => ⟨hd, hopened.symm⟩) (by rw [hpc]; rfl) rfl rfl rfl

theorem eventOrder_emitCandidate {pc' : AudioPc F} (hpc : s.loop.pc = pc)
    (hidle : pc.needsIdle = true) (hplain : pc.plain = true)
    (hopened : s.opened = [s.loop.utteranceId]) (hplain' : pc'.plain = true)
    (hopened' : ((s.emit e).goto pc').opened = []) (hstarts : e.starts = none)
    (hcloses : e.closes = some s.loop.utteranceId) (hinterim : e.interim = none)
    (hcore : Core ((s.emit e).goto pc')) : EventOrder ((s.emit e).goto pc') := by
  have hstream := hs.stream
  rw [hopened] at hstream
  have hnone : ∀ job, ¬ s.Due job :=
    fun job hd => hs.core.no_job (hs.core.idle (by rw [hpc]; exact hidle)) _ hd.hasJob
  exact hs.emitted hcore rfl hstarts (hopened' ▸ hstream.closing hstarts hcloses hinterim)
    (fun job hd => absurd hd (hnone job)) (by rw [hpc]; exact hplain) rfl rfl hplain'

end

variable [FloatArith F] {p : TurnParams F} {input : AudioInput F}

/-- The reader and the VAD do not throw, and an utterance is discarded only while the worker is
idle. -/
def QuietDiscards (p : TurnParams F) (s : State F) (input : AudioInput F) : Prop :=
  input.returns = true ∧
  ∀ ret, s.loop.pc = .gate ret → belowGate p s = true → s.decodeIdle

theorem eventOrder_initial (p : TurnParams F) : EventOrder (initial p) where
  core := core_initial p
  stream := Orderly.nil _
  ids := by intro u h; cases h
  newId := by intro h; cases h
  due := by rintro job (h | h) <;> cases h
  single := by intro h; cases h
  kind := by intro job final h; cases h
  leaving := by intro h; cases h

theorem eventOrder_beginUtterance (hs : EventOrder s)
    (hpc : s.loop.pc = .activities (.speechStart :: rest)) (hsp : s.loop.speaking = false)
    (hcore : Core (beginUtterance s rest)) : EventOrder (beginUtterance s rest) := by
  have hopened : s.opened = [] := by
    rw [opened_of_pc hpc]
    exact openWhile_of_false hsp _
  have hnone := hs.not_due hopened
  refine ⟨hcore, ?_, ?_, ?_, fun job hd => absurd hd (hnone job), ?_, hs.kind, ?_⟩
  · have hstream := hs.stream
    rw [hopened] at hstream
    exact hstream
  · intro u hu
    have hle := hs.ids u hu
    change u ≤ s.loop.utteranceId + 1
    omega
  · intro _ u hu
    have hle := hs.ids u hu
    change u < s.loop.utteranceId + 1
    omega
  · intro h
    cases h
  · intro h
    cases h

theorem eventOrder_discard (hs : EventOrder s) (hg : QuietDiscards p s input)
    (hpc : s.loop.pc = .gate ret) (hb : belowGate p s = true) (hstarts : e.starts = none)
    (hcloses : e.closes = some s.loop.utteranceId) (hinterim : e.interim = none)
    (hcore : Core ((stopSpeaking s (.clearDiscarded ret)).emit e)) :
    EventOrder ((stopSpeaking s (.clearDiscarded ret)).emit e) := by
  have hstream := hs.stream
  rw [opened_of_gate hs hpc] at hstream
  have hnone : ∀ job, ¬ s.Due job := fun job hd => hs.core.no_job (hg.2 ret hpc hb) _ hd.hasJob
  exact hs.emitted hcore rfl hstarts (hstream.closing hstarts hcloses hinterim)
    (fun job hd => absurd hd (hnone job)) (by rw [hpc]; rfl) rfl rfl rfl

theorem eventOrder_audioStep (hs : EventOrder s) (hg : QuietDiscards p s input)
    (h : AudioStep p s input s') : EventOrder s' := by
  have hcore := core_audioStep hs.core h
  have hshape := hs.core.shape
  unfold Loop.Shape at hshape
  cases h with
  | move hm => exact frame_of_moves hs hcore hm
  | skip hpc => exact hs
  | throws hpc => cases hg.1
  | beginUtterance hpc hsp => exact eventOrder_beginUtterance hs hpc hsp hcore
  | beginEmit hpc => exact eventOrder_beginEmit hs hpc hcore
  | leaveSpeaking hpc | captureIdle hpc | captureSpeech hpc | captureGap hpc | startResume hpc
  | beginPendingEnd hpc | resumeLocked hpc | runaway hpc | schedulePartial hpc =>
    exact hs.frame_plain hcore (by rw [hpc]; rfl) rfl (by rw [opened_of_pc hpc]; rfl) rfl rfl rfl rfl
  | takeCandidate hpc =>
    exact hs.frame_plain hcore (by rw [hpc]; rfl) rfl (by rw [opened_of_pc hpc]; rfl) rfl rfl rfl rfl
  | discard hpc hb => exact eventOrder_discard hs hg hpc hb rfl rfl rfl hcore
  | commit hpc => exact eventOrder_commit hs hpc rfl rfl rfl hcore
  | beginLocked hpc =>
    refine hs.frame hcore rfl (by rw [opened_of_pc hpc]; rfl) rfl rfl rfl ?_ rfl
      (.inl (by rw [hpc]; rfl)) ?_
    · intro _
      rw [hpc]
      rfl
    · intro h
      cases h
  | quitting hpc =>
    refine hs.frame hcore rfl (by rw [opened_of_pc hpc]; rfl) rfl rfl rfl ?_ rfl
      (.inl (by rw [hpc]; rfl)) (fun _ => hs.leaving (by rw [hpc]; rfl))
    intro h
    cases h
  | enqueueCandidate hpc | enqueuePartial hpc hidle =>
    rw [hpc] at hshape
    have hone := openWhile_of_true hshape.1 s.loop.utteranceId
    exact hs.queued hcore (fun h => nomatch h) (by rw [opened_of_pc hpc]; exact hone) hone
      (by rw [hpc]; rfl) rfl rfl rfl
  | enqueueFinal hpc hbusy =>
    refine hs.queued hcore (fun _ => ?_) (by rw [opened_of_pc hpc]; rfl) rfl
      (by rw [hpc]; rfl) rfl rfl rfl
    have hb := hs.core.busy
    rw [hbusy] at hb
    exact Option.isNone_iff_eq_none.mp (Option.isSome_eq_false_iff.mp hb.symm)
  | emitCandidate hpc =>
    rw [hpc] at hshape
    exact eventOrder_emitCandidate hs hpc rfl rfl (by rw [opened_of_pc hpc]; rfl) rfl
      (openWhile_of_false hshape.1 _) rfl rfl rfl hcore
  | @clearDiscarded ret hpc | @clearUtterance ret hpc =>
    rw [hpc] at hshape
    have hclosed := openWhile_of_false hshape.1 s.loop.utteranceId
    have hopened : s.opened = [] := by
      rw [opened_of_pc hpc]
      exact hclosed
    cases ret with
    | toRead | toReset =>
      exact hs.frame_plain hcore (by rw [hpc]; rfl) rfl (hclosed.trans hopened.symm) rfl rfl rfl rfl
    | toQuit =>
      refine hs.frame hcore rfl (hclosed.trans hopened.symm) rfl rfl rfl ?_ rfl
        (.inl (by rw [hpc]; rfl)) (fun _ => hshape.1)
      intro h
      cases h

/-! ## Steps of the worker -/

theorem due_of_workerStep (h : WorkerStep s s') (hd : s'.Due job) : s.Due job := by
  unfold State.Due at hd ⊢
  cases h with
  | takeJob hpc hjob =>
    rcases hd with hd | hd
    · cases hd
    · exact .inl (hjob.trans hd)
  | exit hpc => exact hd.imp_right fun hd => nomatch hd
  | decoded hpc =>
    refine hd.imp_right fun hd => ?_
    rw [hpc]
    exact (decoded_job _ _ _ _).symm.trans (job_of_due hd)
  | keepCandidate hpc | noCandidate hpc =>
    refine hd.imp_right fun hd => ?_
    rw [hpc]
    exact (afterStore_job _ _).symm.trans (job_of_due hd)
  | track hpc =>
    refine hd.imp_right fun hd => ?_
    rw [hpc]
    exact (trackResult_job _ _ _).symm.trans (job_of_due hd)
  | throws hpc | storeHypothesis hpc | emitStable hpc | showPartial hpc | samePartial hpc =>
    rw [hpc]
    exact hd
  | failing hpc | emitFinal hpc | settled hpc | likely hpc | finishing hpc =>
    exact hd.imp_right fun hd => nomatch hd

omit [FloatArith F] in
theorem eq_false_of_afterStore {result : TranscribeResult} {final : Bool}
    (h : (afterStore job result).finishes = some final) : final = false := by
  unfold afterStore at h
  split_ifs at h
  · cases h
  · exact (Option.some.inj h).symm

omit [FloatArith F] in
theorem trackResult_finishes (s : State F) (job : Job F) (result : TranscribeResult) :
    (trackResult s job result).worker.finishes = some false := by
  unfold trackResult
  dsimp only
  split_ifs <;> rfl

theorem kind_of_workerStep (hs : EventOrder s) (h : WorkerStep s s') (job : Job F) (final : Bool)
    (hjob : s'.worker.job = some job) (hfin : s'.worker.finishes = some final) :
    job.final = final := by
  have hk := hs.kind job
  cases h with
  | @decoded job' start result hpc =>
    obtain rfl : job' = job := Option.some.inj ((decoded_job s job' start result).symm.trans hjob)
    unfold decoded at hfin
    dsimp only at hfin
    split_ifs at hfin with hf
    · exact hf.trans (Option.some.inj hfin)
    · exact (Bool.eq_false_iff.mpr hf).trans (Option.some.inj hfin)
  | keepCandidate hpc | noCandidate hpc =>
    rw [hpc] at hk
    rw [eq_false_of_afterStore hfin]
    exact hk false ((afterStore_job _ _).symm.trans hjob) rfl
  | track hpc =>
    rw [hpc] at hk
    rw [trackResult_job] at hjob
    rw [trackResult_finishes] at hfin
    exact hk final hjob hfin
  | storeHypothesis hpc | emitStable hpc | showPartial hpc | samePartial hpc =>
    rw [hpc] at hk
    exact hk final hjob hfin
  | takeJob hpc hjob => cases hfin
  | exit hpc | throws hpc | failing hpc | emitFinal hpc | settled hpc | likely hpc
  | finishing hpc => cases hfin

theorem single_of_workerStep (hs : EventOrder s) (h : WorkerStep s s')
    (hawait : s.loop.pc.awaitsFinal = true) (hpending : s'.decode.pending.isSome = true) :
    s'.worker.job = none := by
  rcases workerStep_job h with ⟨_, _, hp, _⟩ | ⟨hw, hp, _⟩ | ⟨hw, _⟩
  · rw [hp] at hpending
    cases hpending
  · rw [hw]
    exact hs.single hawait (hp ▸ hpending)
  · exact hw

theorem EventOrder.worker (hs : EventOrder s) (h : WorkerStep s s')
    (hstream : Orderly (utterances F) s'.events s'.opened)
    (hstarts : s'.events.filterMap Event.starts = s.events.filterMap Event.starts)
    (hopened : ∀ job, s'.Due job → s'.opened = s.opened) : EventOrder s' := by
  have hloop := workerStep_loop h
  refine ⟨core_workerStep hs.core h, hstream, ?_, ?_, ?_, ?_, kind_of_workerStep hs h, ?_⟩
  · rw [hstarts, hloop]
    exact hs.ids
  · rw [hstarts, hloop]
    exact hs.newId
  · intro job hd
    rw [hopened job hd, hloop]
    exact hs.due job (due_of_workerStep h hd)
  · intro hawait hpending
    exact single_of_workerStep hs h (hloop ▸ hawait) hpending
  · rw [hloop]
    exact hs.leaving

omit [FloatArith F] in
theorem opened_of_not_awaiting (hloop : s'.loop = s.loop) (h : s.loop.pc.awaitsFinal = false) :
    s'.opened = s.opened := by
  unfold State.opened
  rw [hloop]
  cases hpc : s.loop.pc with
  | awaitFinal ret =>
    rw [hpc] at h
    cases h
  | _ => rfl

omit [FloatArith F] in
theorem opened_of_anyDue (hloop : s'.loop = s.loop) (h : s'.anyDue = s.anyDue) :
    s'.opened = s.opened := by
  unfold State.opened
  rw [hloop, h]

theorem EventOrder.worker_silent (hs : EventOrder s) (h : WorkerStep s s')
    (hevents : s'.events = s.events) (hopened : s'.opened = s.opened) : EventOrder s' := by
  refine hs.worker h ?_ (by rw [hevents]) (fun _ _ => hopened)
  rw [hevents, hopened]
  exact hs.stream

omit [FloatArith F] in
theorem EventOrder.not_awaiting (hs : EventOrder s) (hdue : s.worker.due = some job)
    (hfinal : job.final = false) : s.loop.pc.awaitsFinal = false :=
  (hs.due job (.inr hdue)).2.2.symm.trans hfinal

section

variable (hs : EventOrder s) (h : WorkerStep s s') (hdue : s.worker.due = some job)
include hs h hdue

theorem EventOrder.worker_speaking (hfinal : job.final = false)
    (hevents : s'.events = s.events ++ [e]) (hstarts : e.starts = none) (hcloses : e.closes = none)
    (hinterim : e.interim = some job.utteranceId) : EventOrder s' := by
  obtain ⟨hid, hone, _⟩ := hs.due job (.inr hdue)
  have hopened := opened_of_not_awaiting (workerStep_loop h) (hs.not_awaiting hdue hfinal)
  have hstream := hs.stream
  rw [hone] at hstream
  refine hs.worker h ?_ (by simp [hevents, hstarts]) (fun _ _ => hopened)
  rw [hevents, hopened, hone]
  exact hstream.speaking hstarts hcloses (hid ▸ hinterim)

theorem EventOrder.worker_closing (hfinal : job.final = true) (hdue' : s'.worker.due = none)
    (hpending : s'.decode.pending = s.decode.pending) (hevents : s'.events = s.events ++ [e])
    (hstarts : e.starts = none) (hcloses : e.closes = some job.utteranceId)
    (hinterim : e.interim = none) : EventOrder s' := by
  obtain ⟨hid, hone, hawait⟩ := hs.due job (.inr hdue)
  rw [hfinal] at hawait
  have hnopending : s.decode.pending = none := by
    by_contra hne
    have hnone := hs.single hawait.symm (Option.isSome_iff_ne_none.mpr hne)
    rw [job_of_due hdue] at hnone
    cases hnone
  have hany : s'.anyDue = false := by
    rw [State.anyDue, hdue', hpending, hnopending]
    rfl
  have hopened : s'.opened = [] := by
    unfold State.opened
    rw [workerStep_loop h, hany]
    cases hpc : s.loop.pc with
    | awaitFinal ret => rfl
    | _ =>
      rw [hpc] at hawait
      cases hawait
  have hstream := hs.stream
  rw [hone] at hstream
  refine hs.worker h ?_ (by simp [hevents, hstarts]) (fun job hd => ?_)
  · rw [hevents, hopened]
    exact hstream.closing hstarts (hid ▸ hcloses) hinterim
  · have hno := anyDue_iff.mpr ⟨job, hd⟩
    exact absurd (hany.symm.trans hno) Bool.false_ne_true

end

theorem decoded_due (s : State F) (job : Job F) (start : ℤ) (result : TranscribeResult) :
    (decoded s job start result).worker.due = some job := by
  unfold decoded
  dsimp only
  split_ifs <;> rfl

omit [FloatArith F] in
theorem anyDue_of_due (h : s.worker.due = some job) : s.anyDue = true :=
  anyDue_iff.mpr ⟨job, .inr h⟩

theorem eventOrder_workerStep (hs : EventOrder s) (h : WorkerStep s s') : EventOrder s' := by
  have hloop := workerStep_loop h
  have hkind := hs.kind
  cases hstep : h with
  | takeJob hpc hjob =>
    refine hs.worker_silent h rfl (opened_of_anyDue hloop ?_)
    rw [anyDue_iff.mpr ⟨_, .inl hjob⟩]
    rfl
  | exit hpc =>
    refine hs.worker_silent h rfl (opened_of_anyDue hloop ?_)
    rw [State.anyDue, State.anyDue, hpc]
    rfl
  | finishing hpc =>
    refine hs.worker_silent h rfl (opened_of_anyDue hloop ?_)
    rw [State.anyDue, State.anyDue, hpc]
    rfl
  | throws hpc =>
    refine hs.worker_silent h rfl (opened_of_anyDue hloop ?_)
    rw [State.anyDue, State.anyDue, hpc]
    rfl
  | decoded hpc =>
    refine hs.worker_silent h rfl (opened_of_anyDue hloop ?_)
    rw [anyDue_of_due (decoded_due _ _ _ _), anyDue_of_due (by rw [hpc]; rfl)]
  | @failing job message hpc =>
    have hdue : s.worker.due = some job := by
      rw [hpc]
      rfl
    by_cases hf : job.final = true
    · exact hs.worker_closing h hdue hf rfl rfl rfl rfl (by simp [Event.closes, hf]) rfl
    · have hawait := hs.not_awaiting hdue (Bool.eq_false_iff.mpr hf)
      have hopened := opened_of_not_awaiting hloop hawait
      refine hs.worker h ?_ (by simp [Event.starts]) (fun _ _ => hopened)
      rw [hopened]
      exact hs.stream.silent rfl (by simp [utterances, Event.closes, hf]) rfl
  | emitFinal hpc =>
    rw [hpc] at hkind
    exact hs.worker_closing h (by rw [hpc]; rfl) (hkind _ _ rfl rfl) rfl rfl rfl rfl rfl rfl
  | keepCandidate hpc | noCandidate hpc | storeHypothesis hpc | track hpc | samePartial hpc
  | settled hpc =>
    rw [hpc] at hkind
    have hawait := hs.not_awaiting (by rw [hpc]; rfl) (hkind _ _ rfl rfl)
    exact hs.worker_silent h rfl (opened_of_not_awaiting hloop hawait)
  | emitStable hpc | showPartial hpc | likely hpc =>
    rw [hpc] at hkind
    exact hs.worker_speaking h (by rw [hpc]; rfl) (hkind _ _ rfl rfl) rfl rfl rfl rfl

theorem eventOrder_of_reaches
    (h : Reaches (step p) (AudioGuard (QuietDiscards p)) (initial p) s) : EventOrder s := by
  apply run_invariant h (eventOrder_initial p)
  · exact fun s now hs => { hs with core := { hs.core with } }
  · exact fun s now input hG => hG
  · exact fun s input s' hs hG ha => eventOrder_audioStep hs hG ha
  · exact fun s s' hs hw => eventOrder_workerStep hs hw

omit [FloatArith F] in
theorem length_opened_le (s : State F) : s.opened.length ≤ 1 := by
  have hwhile : ∀ b, (openWhile b s.loop.utteranceId).length ≤ 1 := by
    intro b
    cases b <;> simp [openWhile]
  unfold State.opened
  cases s.loop.pc with
  | beginLocked | beginEmit => exact Nat.zero_le 1
  | awaitIdle | takeCandidate | emitCandidate | enqueueFinal => exact Nat.le_refl 1
  | _ => exact hwhile _

/-- Runs in which neither the reader nor the VAD throws and utterances are discarded only while the
worker is idle: utterance ids increase, the closing events are those of the utterances started, once
each and in order, except for the one still open, which is none at the end; and no interim event of
an utterance follows its closing event. -/
theorem utterances_close_once
    (h : Reaches (step p) (AudioGuard (QuietDiscards p)) (initial p) s) :
    (s.events.filterMap Event.starts).Pairwise (· < ·) ∧
    (∃ opened, s.events.filterMap Event.starts = s.events.filterMap Event.closes ++ opened ∧
      opened.length ≤ 1 ∧ (s.loop.pc = .finished → opened = [])) ∧
    s.events.Pairwise fun e e' => ∀ u, e.closes = some u → e'.interim ≠ some u := by
  have hs := eventOrder_of_reaches h
  refine ⟨hs.stream.increasing, ⟨s.opened, hs.stream.closed, length_opened_le s, ?_⟩,
    hs.stream.quiet⟩
  intro hpc
  rw [opened_of_pc hpc]
  exact openWhile_of_false (hs.leaving (by rw [hpc]; rfl)) _

/-- A whole call: one utterance, served from its candidate, and the end of the stream. -/
def wholeCall : List (Action ℚ) :=
  [heardAt 0 silence [.speechStart]] ++ audioSteps 0 5 ++
  [heardAt 0 tone [.speechEnd]] ++ audioSteps 0 5 ++ workerSteps 0 1 ++
  [replies 0 "hello"] ++ workerSteps 0 6 ++
  [heardAt 200000000 silence []] ++ audioSteps 200000000 7 ++
  [.audio 200000000 .aborted] ++ audioSteps 200000000 1 ++ workerSteps 200000000 1 ++
  audioSteps 200000000 1

def quietDiscardsTest (s : State ℚ) (input : AudioInput ℚ) : Bool :=
  input.returns && (!belowGate (.default ℚ) s || decide s.decodeIdle)

theorem quietDiscards_of_test (s : State ℚ) (input : AudioInput ℚ)
    (h : quietDiscardsTest s input = true) : QuietDiscards (.default ℚ) s input := by
  simp only [quietDiscardsTest, Bool.and_eq_true, Bool.or_eq_true, Bool.not_eq_true',
    decide_eq_true_eq] at h
  refine ⟨h.1, fun ret _ hb => h.2.resolve_left ?_⟩
  simp [hb]

theorem utterances_close_once_wholeCall :
    ∃ s : State ℚ, s.events.filterMap Event.starts = [1] ∧
      s.events.filterMap Event.closes = [1] := by
  obtain ⟨s, hs, htest⟩ := exists_guarded quietDiscards_of_test wholeCall
    (fun s => decide (s.loop.pc = .finished) &&
      decide (s.events.filterMap Event.starts = [1])) (by decide +kernel)
  simp only [Bool.and_eq_true, decide_eq_true_eq] at htest
  obtain ⟨opened, hclosed, _, hdone⟩ := (utterances_close_once hs).2.1
  rw [hdone htest.1, List.append_nil] at hclosed
  exact ⟨s, htest.2, hclosed ▸ htest.2⟩

/-- A discarded utterance whose decode ends after the discard. -/
def lateDiscard : List (Action ℚ) :=
  [heardAt 0 silence [.speechStart]] ++ audioSteps 0 5 ++
  [heardAt 0 silence [.speechEnd]] ++ audioSteps 0 5 ++ workerSteps 0 1 ++
  [heardAt 200000000 silence []] ++ audioSteps 200000000 4 ++
  [replies 200000000 "hello"] ++ workerSteps 200000000 6

/-- Neither the reader nor the VAD throws. -/
def Returns (_ : State ℚ) (input : AudioInput ℚ) : Prop := input.returns = true

def returnsTest (_ : State ℚ) (input : AudioInput ℚ) : Bool := input.returns

theorem returns_of_test (s : State ℚ) (input : AudioInput ℚ) (h : returnsTest s input = true) :
    Returns s input := h

theorem partial_follows_discard :
    ∃ s, Reaches (step (.default ℚ)) (AudioGuard Returns) (initial (.default ℚ)) s ∧
      ¬ s.events.Pairwise fun e e' => ∀ u, e.closes = some u → e'.interim ≠ some u := by
  obtain ⟨s, hs, htest⟩ := exists_guarded returns_of_test lateDiscard
    (fun s => decide (s.events = [.speechStarted 1 0, .speechDiscarded 1 200 0 (3 / 250),
      .partialTranscript 1 200 (bytes "hello")])) (by decide +kernel)
  refine ⟨s, hs, ?_⟩
  rw [of_decide_eq_true htest]
  simp [Event.closes, Event.interim]

end FastTts.Voice
