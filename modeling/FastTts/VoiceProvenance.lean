import FastTts.VoiceFrames

/-!
# Where results come from

The candidate, the hypothesis and the tracker outlive a decode. A decode that is still running when
its utterance is discarded stores its result after the next utterance has begun, and a decode that
was started before a resumption stores a candidate without the resumed speech. Runs in which an
utterance begins, or resumes, only while the worker is idle are free of either.
-/

namespace FastTts.Voice

variable {F : Type}

/-- `transcribe` returned the result for a snapshot of the utterance. -/
def History.DecodedFrom (h : History F) (utt : ℤ) (job : Job F) (result : TranscribeResult) : Prop :=
  (job, result) ∈ h.calls ∧ job.utteranceId = utt ∧ (utt, job.audio) ∈ h.snapshots

variable {job : Job F}

theorem History.DecodedFrom.mono {h h' : History F} {utt : ℤ} {result : TranscribeResult}
    (hd : h.DecodedFrom utt job result) (hc : h.calls ⊆ h'.calls)
    (hs : h.snapshots ⊆ h'.snapshots) : h'.DecodedFrom utt job result :=
  ⟨hc hd.1, hd.2.1, hs hd.2.2⟩

variable [FloatArith F] {p : TurnParams F} {s s' : State F} {input : AudioInput F}

/-! ## Utterances that begin while the worker is idle -/

def BeginsIdle (s : State F) (_ : AudioInput F) : Prop := s.BeginsUtterance → s.decodeIdle

/-- Whatever the runner holds of a decode, it holds of the current utterance. -/
structure Provenance (p : TurnParams F) (s : State F) : Prop where
  core : Core s
  jobs : ∀ job, s.HasJob job → job.utteranceId = s.loop.utteranceId ∧
    (job.utteranceId, job.audio) ∈ s.history.snapshots
  returned : ∀ x, s.worker.result = some x → x ∈ s.history.calls
  snapshot : s.loop.live = true → (s.loop.utteranceId, s.loop.utterance) ∈ s.history.snapshots
  candidate : s.loop.pc.begun = true → s.decode.candidateValid = true →
    ∃ job, s.history.candidateJob = some job ∧
      s.history.DecodedFrom s.loop.utteranceId job s.decode.candidate
  hypothesis : s.loop.pc.begun = true → s.decode.latestHypothesis ≠ [] →
    ∃ job result, s.history.hypothesisJob = some job ∧ result.text = s.decode.latestHypothesis ∧
      s.history.DecodedFrom s.loop.utteranceId job result
  tracker : s.decode.tracker =
    (StableTracker.new p.stability).feed (s.history.tracked.map fun x => x.2.text)
  tracked : ∀ x ∈ s.history.tracked, s.history.DecodedFrom s.loop.utteranceId x.1 x.2
  serving : ∀ ret result decodeMs samples,
    s.loop.pc = .emitCandidate ret result decodeMs samples →
      ∃ job, s.history.DecodedFrom s.loop.utteranceId job result
  finals : ∀ u t result timings, .finalTranscript u t result timings ∈ s.events →
    ∃ job, s.history.DecodedFrom u job result

theorem provenance_initial (p : TurnParams F) : Provenance p (initial p) where
  core := core_initial p
  jobs := by rintro job (h | h) <;> cases h
  returned := by intro x h; cases h
  snapshot := by intro h; cases h
  candidate := by intro _ h; cases h
  hypothesis := by intro _ h; exact absurd rfl h
  tracker := rfl
  tracked := by intro x h; cases h
  serving := by intro _ _ _ _ h; cases h
  finals := by intro _ _ _ _ h; cases h

section

variable (hs : Provenance p s) (hidle : BeginsIdle s input) (h : AudioStep p s input s')
include hs hidle h

theorem jobs_of_audioStep (hjob : s'.HasJob job) :
    job.utteranceId = s'.loop.utteranceId ∧
      (job.utteranceId, job.audio) ∈ s'.history.snapshots := by
  obtain ⟨_, hsnaps⟩ := history_of_audioStep h
  rcases hasJob_of_audioStep h hjob with hold | ⟨henq, final, candidate, rfl⟩
  · obtain ⟨hid, hsnap⟩ := hs.jobs job hold
    rcases utteranceId_of_audioStep h with hsame | hbegin
    · exact ⟨hid.trans hsame.symm, hsnaps hsnap⟩
    · exact absurd hold (hs.core.no_job (hidle hbegin) _)
  · have hsnap := hs.snapshot (hs.core.shape.live_of_enqueues henq)
    rcases utteranceId_of_audioStep h with hsame | ⟨rest, hpc, _⟩
    · exact ⟨hsame.symm, hsnaps hsnap⟩
    · rw [hpc] at henq
      cases henq

theorem provenance_audioStep : Provenance p s' := by
  obtain ⟨hcalls, hsnaps⟩ := history_of_audioStep h
  have hmono : ∀ {u job result}, s.history.DecodedFrom u job result →
      s'.history.DecodedFrom u job result :=
    fun hd => hd.mono (hcalls ▸ List.Subset.refl _) hsnaps
  refine ⟨core_audioStep hs.core h, fun job => jobs_of_audioStep hs hidle h, ?_,
    snapshot_of_audioStep hs.core.shape h hs.snapshot, ?_, ?_, ?_, ?_, ?_, ?_⟩
  · rw [(audioStep_worker h).1, hcalls]
    exact hs.returned
  · intro hb hv
    rcases candidate_of_audioStep h with hv' | ⟨hvalid, hcand, _, hjob⟩
    · exact absurd (hv'.symm.trans hv) Bool.false_ne_true
    · rcases begun_of_audioStep h hb with ⟨hb', hid⟩ | ⟨rest, _, rfl⟩
      · obtain ⟨job, hj, hd⟩ := hs.candidate hb' (hvalid ▸ hv)
        rw [hcand, hid, hjob]
        exact ⟨job, hj, hmono hd⟩
      · cases hv
  · intro hb hne
    rcases hypothesis_of_audioStep h with hempty | ⟨htext, hjob⟩
    · exact absurd hempty hne
    · rcases begun_of_audioStep h hb with ⟨hb', hid⟩ | ⟨rest, _, rfl⟩
      · obtain ⟨job, result, hj, ht, hd⟩ := hs.hypothesis hb' (htext ▸ hne)
        rw [htext, hid, hjob]
        exact ⟨job, result, hj, ht, hmono hd⟩
      · exact absurd rfl hne
  · rcases tracker_of_audioStep h with ⟨ht, hempty⟩ | ⟨ht, hsame, _⟩
    · rw [ht, hempty, hs.tracker]
      exact StableTracker.reset_feed_new _ _
    · rw [ht, hsame]
      exact hs.tracker
  · intro x hx
    rcases tracker_of_audioStep h with ⟨_, hempty⟩ | ⟨_, hsame, hid⟩
    · rw [hempty] at hx
      cases hx
    · rw [hid]
      exact hmono (hs.tracked x (hsame ▸ hx))
  · intro ret result decodeMs samples hpc
    obtain ⟨⟨ret', hpc'⟩, rfl, hid⟩ := serving_of_audioStep h hpc
    have hfresh := hs.core.fresh ret' hpc'
    have hvalid : s.decode.candidateValid = true := ((Bool.and_eq_true _ _).mp hfresh).1
    obtain ⟨job, _, hd⟩ := hs.candidate (by rw [hpc']; rfl) hvalid
    rw [hid]
    exact ⟨job, hmono hd⟩
  · intro u t result timings he
    rcases final_of_audioStep h he with he | ⟨rfl, ret, decodeMs, samples, hpc⟩
    · obtain ⟨job, hd⟩ := hs.finals u t result timings he
      exact ⟨job, hmono hd⟩
    · obtain ⟨job, hd⟩ := hs.serving ret result decodeMs samples hpc
      exact ⟨job, hmono hd⟩

end

theorem provenance_workerStep (hs : Provenance p s) (h : WorkerStep s s') : Provenance p s' := by
  obtain ⟨hcalls, hsnaps⟩ := history_of_workerStep h
  have hloop := workerStep_loop h
  have hmono : ∀ {u job result}, s.history.DecodedFrom u job result →
      s'.history.DecodedFrom u job result :=
    fun hd => hd.mono hcalls (hsnaps ▸ List.Subset.refl _)
  have hown : ∀ {job result}, s.worker.result = some (job, result) → s.worker.job = some job →
      s'.history.DecodedFrom s.loop.utteranceId job result := by
    intro job result hr hj
    obtain ⟨hid, hsnap⟩ := hs.jobs job (.inr hj)
    exact hmono ⟨hs.returned _ hr, hid, hid ▸ hsnap⟩
  refine ⟨core_workerStep hs.core h, ?_, ?_, ?_, ?_, ?_, ?_, ?_, ?_, ?_⟩
  · intro job hjob
    rw [hloop, hsnaps]
    exact hs.jobs job (hasJob_of_workerStep h hjob)
  · intro x hx
    rcases result_of_workerStep h hx with hx | hx
    · exact hcalls (hs.returned x hx)
    · exact hx
  · rw [hloop, hsnaps]
    exact hs.snapshot
  · intro hb hv
    rw [hloop] at hb ⊢
    rcases candidate_of_workerStep h with ⟨hvalid, hcand, _, hjob⟩ | ⟨job, hr, hj, _, hc⟩
    · obtain ⟨job, hj, hd⟩ := hs.candidate hb (hvalid ▸ hv)
      rw [hcand, hjob]
      exact ⟨job, hj, hmono hd⟩
    · exact ⟨job, hc, hown hr hj⟩
  · intro hb hne
    rw [hloop] at hb ⊢
    rcases hypothesis_of_workerStep h with ⟨htext, hjob⟩ | ⟨job, result, hr, hj, ht, hh⟩
    · obtain ⟨job, result, hj, ht, hd⟩ := hs.hypothesis hb (htext ▸ hne)
      rw [htext, hjob]
      exact ⟨job, result, hj, ht, hmono hd⟩
    · exact ⟨job, result, hh, ht.symm, hown hr hj⟩
  · rcases tracker_of_workerStep h with ⟨ht, hsame⟩ | ⟨job, result, _, _, ht, htr⟩
    · rw [ht, hsame]
      exact hs.tracker
    · rw [ht, htr, hs.tracker]
      simp [StableTracker.feed]
  · intro x hx
    rw [hloop]
    rcases tracker_of_workerStep h with ⟨_, hsame⟩ | ⟨job, result, hr, hj, _, htr⟩
    · exact hmono (hs.tracked x (hsame ▸ hx))
    · rw [htr] at hx
      rcases List.mem_append.mp hx with hx | hx
      · exact hmono (hs.tracked x hx)
      · rw [List.mem_singleton.mp hx]
        exact hown hr hj
  · intro ret result decodeMs samples hpc
    rw [hloop] at hpc ⊢
    obtain ⟨job, hd⟩ := hs.serving ret result decodeMs samples hpc
    exact ⟨job, hmono hd⟩
  · intro u t result timings he
    rcases final_of_workerStep h he with he | ⟨job, hr, hj, rfl⟩
    · obtain ⟨job, hd⟩ := hs.finals u t result timings he
      exact ⟨job, hmono hd⟩
    · have hd := hown hr hj
      rw [← (hs.jobs job (.inr hj)).1] at hd
      exact ⟨job, hd⟩

theorem provenance_of_reaches (h : Reaches (step p) (AudioGuard BeginsIdle) (initial p) s) :
    Provenance p s := by
  apply run_invariant h (provenance_initial p)
  · exact fun s now hs => { hs with core := { hs.core with } }
  · exact fun s now input hG => hG
  · exact fun s input s' hs hG ha => provenance_audioStep hs hG ha
  · exact fun s s' hs hw => provenance_workerStep hs hw

/-- Runs in which every utterance begins while the worker is idle: a final transcript is what
`transcribe` returned for a snapshot of its own utterance, and the same holds of the candidate, of
the latest hypothesis and of everything the tracker has seen. -/
theorem finals_decode_own_audio
    (h : Reaches (step p) (AudioGuard BeginsIdle) (initial p) s) :
    (∀ u t result timings, .finalTranscript u t result timings ∈ s.events →
      ∃ job, s.history.DecodedFrom u job result) ∧
    (s.loop.pc.begun = true →
      (s.decode.candidateValid = true → ∃ job, s.history.candidateJob = some job ∧
        s.history.DecodedFrom s.loop.utteranceId job s.decode.candidate) ∧
      (s.decode.latestHypothesis ≠ [] → ∃ job result, s.history.hypothesisJob = some job ∧
        result.text = s.decode.latestHypothesis ∧
        s.history.DecodedFrom s.loop.utteranceId job result)) ∧
    s.decode.tracker =
      (StableTracker.new p.stability).feed (s.history.tracked.map fun x => x.2.text) ∧
    ∀ x ∈ s.history.tracked, s.history.DecodedFrom s.loop.utteranceId x.1 x.2 := by
  have hs := provenance_of_reaches h
  exact ⟨hs.finals, fun hb => ⟨hs.candidate hb, hs.hypothesis hb⟩, hs.tracker, hs.tracked⟩

/-- An utterance that is spoken, decoded and served from its candidate. -/
def plainTurn : List (Action ℚ) :=
  [heardAt 0 silence [.speechStart]] ++ audioSteps 0 5 ++
  [heardAt 0 tone [.speechEnd]] ++ audioSteps 0 5 ++ workerSteps 0 1 ++
  [replies 0 "hello"] ++ workerSteps 0 6 ++
  [heardAt 200000000 silence []] ++ audioSteps 200000000 7

def beginsIdleTest (s : State ℚ) (_ : AudioInput ℚ) : Bool :=
  match s.loop.pc with
  | .activities (.speechStart :: _) => decide s.decodeIdle
  | _ => true

theorem beginsIdle_of_test (s : State ℚ) (input : AudioInput ℚ) (h : beginsIdleTest s input = true) :
    BeginsIdle s input := by
  rintro ⟨rest, hpc, _⟩
  rw [beginsIdleTest, hpc] at h
  exact of_decide_eq_true h

theorem finals_decode_own_audio_plainTurn :
    ∃ (s : State ℚ) (t : ℤ) (result : TranscribeResult) (timings : Timings),
      .finalTranscript 1 t result timings ∈ s.events ∧
      ∃ job, s.history.DecodedFrom 1 job result := by
  obtain ⟨s, hs, htest⟩ := exists_guarded beginsIdle_of_test plainTurn
    (fun s => s.events.any (fun e => e.finalOf == some 1)) (by decide +kernel)
  obtain ⟨e, he, hfinal⟩ := List.any_eq_true.mp htest
  cases e with
  | finalTranscript u t result timings =>
    obtain rfl : u = 1 := by simpa [Event.finalOf] using hfinal
    exact ⟨s, t, result, timings, he, (finals_decode_own_audio hs).1 1 t result timings he⟩
  | _ => simp [Event.finalOf] at hfinal

/-- A silent utterance is discarded while its decode runs, and the next one takes the result. -/
def lateDecode : List (Action ℚ) :=
  [heardAt 0 silence [.speechStart]] ++ audioSteps 0 5 ++
  [heardAt 0 silence [.speechEnd]] ++ audioSteps 0 5 ++ workerSteps 0 1 ++
  [heardAt 200000000 silence []] ++ audioSteps 200000000 4 ++
  [heardAt 200000000 tone [.speechStart]] ++ audioSteps 200000000 5 ++
  [replies 200000000 "hello"] ++ workerSteps 200000000 6 ++
  [heardAt 200000000 tone [.speechEnd]] ++ audioSteps 200000000 4 ++
  [heardAt 400000000 tone []] ++ audioSteps 400000000 7

theorem discarded_decode_becomes_final :
    ∃ s, Runs s ∧ ∃ u t result timings, .finalTranscript u t result timings ∈ s.events ∧
      ¬ ∃ job, s.history.DecodedFrom u job result := by
  obtain ⟨s, hs, htest⟩ := exists_runs lateDecode
    (fun s => s.events.any (fun e => e.finalOf == some 2) &&
      s.history.calls.all (fun c => c.1.utteranceId != 2)) (by decide +kernel)
  simp only [Bool.and_eq_true, List.any_eq_true, List.all_eq_true] at htest
  obtain ⟨⟨e, he, hfinal⟩, hcalls⟩ := htest
  cases e with
  | finalTranscript u t result timings =>
    obtain rfl : u = 2 := by simpa [Event.finalOf] using hfinal
    refine ⟨s, hs, 2, t, result, timings, he, ?_⟩
    rintro ⟨job, hcall, hid, _⟩
    simpa [hid] using hcalls _ hcall
  | _ => simp [Event.finalOf] at hfinal

/-! ## Utterances that resume while the worker is idle -/

def ResumesIdle (s : State F) (_ : AudioInput F) : Prop :=
  ∀ rest, s.loop.pc = .resumeLocked rest → s.decodeIdle

/-- The job was started for the current utterance and after its last resumption. -/
structure State.Follows (s : State F) (job : Job F) : Prop where
  utteranceId : job.utteranceId = s.loop.utteranceId
  resumes : job.resumes = s.history.resumes
  audio : s.loop.live = true → job.audio <+: s.loop.utterance

/-- In an utterance that has resumed, every decode follows the last resumption. -/
structure Freshness (s : State F) : Prop where
  core : Core s
  returned : ∀ x, s.worker.result = some x → x ∈ s.history.calls
  begun : s.loop.pc.begun = false → s.history.resumes = 0
  jobs : 0 < s.history.resumes → ∀ job, s.HasJob job → s.Follows job
  candidate : 0 < s.history.resumes → s.decode.candidateValid = true →
    ∃ job, s.history.candidateJob = some job ∧ (job, s.decode.candidate) ∈ s.history.calls ∧
      s.decode.candidateSamples = job.audio.length ∧ s.Follows job

theorem freshness_initial (p : TurnParams F) : Freshness (initial p) where
  core := core_initial p
  returned := by intro x h; cases h
  begun := fun _ => rfl
  jobs := fun h => absurd h (Nat.lt_irrefl 0)
  candidate := fun h => absurd h (Nat.lt_irrefl 0)

theorem follows_of_audioStep (hs : Freshness s) (h : AudioStep p s input s')
    (hres : s'.history.resumes = s.history.resumes) (hb : s'.loop.pc.begun = true)
    (hpos : 0 < s.history.resumes) (hf : s.Follows job) : s'.Follows job := by
  have hnot : ∀ rest, s.loop.pc ≠ .beginLocked rest := by
    intro rest hpc
    have h0 := hs.begun (by rw [hpc]; rfl)
    omega
  refine ⟨?_, hf.resumes.trans hres.symm, fun hl => ?_⟩
  · rcases begun_of_audioStep h hb with ⟨_, hid⟩ | ⟨rest, hpc, _⟩
    · exact hf.utteranceId.trans hid.symm
    · exact absurd hpc (hnot rest)
  · rcases live_of_audioStep hs.core.shape h hl with ⟨hl', hpre⟩ | ⟨rest, hpc, _⟩
    · exact (hf.audio hl').trans hpre
    · exact absurd hpc (hnot rest)

omit [FloatArith F] in
theorem follows_newJob (s : State F) (final candidate : Bool) :
    s.Follows (newJob s final candidate) :=
  ⟨rfl, rfl, fun _ => List.prefix_rfl⟩

theorem freshness_audioStep (hs : Freshness s) (hidle : ResumesIdle s input)
    (h : AudioStep p s input s') : Freshness s' := by
  obtain ⟨hcalls, _⟩ := history_of_audioStep h
  have hcore := core_audioStep hs.core h
  have hreturned : ∀ x, s'.worker.result = some x → x ∈ s'.history.calls := by
    rw [(audioStep_worker h).1, hcalls]
    exact hs.returned
  rcases resumes_of_audioStep h with h0 | ⟨rest, hpc, rfl⟩ | ⟨hres, hb⟩
  · have hnot : ¬ 0 < s'.history.resumes := by omega
    exact ⟨hcore, hreturned, fun _ => h0, fun h => absurd h hnot, fun h => absurd h hnot⟩
  · have hno := hs.core.no_job (hidle rest hpc)
    refine ⟨hcore, hreturned, ?_, fun _ job hjob => absurd hjob (hno job), ?_⟩
    · intro hb
      cases hb
    · intro _ hv
      cases hv
  · refine ⟨hcore, hreturned, fun hb' => absurd (hb'.symm.trans hb) Bool.false_ne_true, ?_, ?_⟩
    · intro hpos job hjob
      rw [hres] at hpos
      have hf : s.Follows job := by
        rcases hasJob_of_audioStep h hjob with hold | ⟨_, final, candidate, rfl⟩
        · exact hs.jobs hpos job hold
        · exact follows_newJob s final candidate
      exact follows_of_audioStep hs h hres hb hpos hf
    · intro hpos hv
      rw [hres] at hpos
      rcases candidate_of_audioStep h with hv' | ⟨hvalid, hcand, hsamples, hjob⟩
      · exact absurd (hv'.symm.trans hv) Bool.false_ne_true
      · obtain ⟨job, hj, hcall, hlen, hf⟩ := hs.candidate hpos (hvalid ▸ hv)
        refine ⟨job, hjob.trans hj, ?_, hsamples.trans hlen,
          follows_of_audioStep hs h hres hb hpos hf⟩
        rw [hcand, hcalls]
        exact hcall

theorem follows_of_workerStep (h : WorkerStep s s') (hf : s.Follows job) : s'.Follows job := by
  have hres : s'.history.resumes = s.history.resumes := by cases h <;> rfl
  refine ⟨?_, hf.resumes.trans hres.symm, ?_⟩
  · rw [workerStep_loop h]
    exact hf.utteranceId
  · rw [workerStep_loop h]
    exact hf.audio

theorem freshness_workerStep (hs : Freshness s) (h : WorkerStep s s') : Freshness s' := by
  obtain ⟨hcalls, _⟩ := history_of_workerStep h
  have hres : s'.history.resumes = s.history.resumes := by cases h <;> rfl
  refine ⟨core_workerStep hs.core h, ?_, ?_, ?_, ?_⟩
  · intro x hx
    rcases result_of_workerStep h hx with hx | hx
    · exact hcalls (hs.returned x hx)
    · exact hx
  · rw [hres, workerStep_loop h]
    exact hs.begun
  · intro hpos job hjob
    exact follows_of_workerStep h (hs.jobs (hres ▸ hpos) job (hasJob_of_workerStep h hjob))
  · intro hpos hv
    rw [hres] at hpos
    rcases candidate_of_workerStep h with ⟨hvalid, hcand, hsamples, hjob⟩ | ⟨job, hr, hj, hlen, hc⟩
    · obtain ⟨job, hj, hcall, hlen, hf⟩ := hs.candidate hpos (hvalid ▸ hv)
      refine ⟨job, hjob.trans hj, ?_, hsamples.trans hlen, follows_of_workerStep h hf⟩
      rw [hcand]
      exact hcalls hcall
    · exact ⟨job, hc, hcalls (hs.returned _ hr), hlen,
        follows_of_workerStep h (hs.jobs hpos job (.inr hj))⟩

theorem freshness_of_reaches (h : Reaches (step p) (AudioGuard ResumesIdle) (initial p) s) :
    Freshness s := by
  apply run_invariant h (freshness_initial p)
  · intro s now hs
    exact { hs with
      core := { hs.core with }
      jobs := fun hpos job hjob => { hs.jobs hpos job hjob with }
      candidate := fun hpos hv =>
        let ⟨job, hj, hcall, hlen, hf⟩ := hs.candidate hpos hv
        ⟨job, hj, hcall, hlen, { hf with }⟩ }
  · exact fun s now input hG => hG
  · exact fun s input s' hs hG ha => freshness_audioStep hs hG ha
  · exact fun s s' hs hw => freshness_workerStep hs hw

/-- Runs in which every utterance resumes while the worker is idle: a final transcript that
`commit_utterance` takes from the stored candidate was decoded from a snapshot made after the last
resumption of that utterance, which lacks at most the last 480 ms of it. -/
theorem served_candidate_follows_resume
    (h : Reaches (step p) (AudioGuard ResumesIdle) (initial p) s) {ret : CommitReturn}
    (hpc : s.loop.pc = .takeCandidate ret) (hresumed : 0 < s.history.resumes) :
    ∃ job tail, s.history.candidateJob = some job ∧
      (job, s.decode.candidate) ∈ s.history.calls ∧
      job.utteranceId = s.loop.utteranceId ∧ job.resumes = s.history.resumes ∧
      s.loop.utterance = job.audio ++ tail ∧ tail.length ≤ candidateSlack := by
  have hs := freshness_of_reaches h
  obtain ⟨hvalid, hfresh⟩ := (Bool.and_eq_true _ _).mp (hs.core.fresh ret hpc)
  obtain ⟨job, hj, hcall, hlen, hf⟩ := hs.candidate hresumed hvalid
  have hlive : s.loop.live = true := by
    unfold Loop.live
    rw [hpc]
    rfl
  obtain ⟨tail, htail⟩ := hf.audio hlive
  refine ⟨job, tail, hj, hcall, hf.utteranceId, hf.resumes, htail.symm, ?_⟩
  have hslack := of_decide_eq_true hfresh
  rw [hlen, ← htail, List.length_append] at hslack
  omega

/-- An utterance that resumes after its decode has ended and is decoded again. -/
def resumedTurn : List (Action ℚ) :=
  [heardAt 0 silence [.speechStart]] ++ audioSteps 0 5 ++
  [heardAt 0 tone [.speechEnd]] ++ audioSteps 0 5 ++ workerSteps 0 1 ++
  [replies 0 "hello"] ++ workerSteps 0 6 ++
  [heardAt 0 tone [.speechStart]] ++ audioSteps 0 4 ++
  [heardAt 0 tone [.speechEnd]] ++ audioSteps 0 5 ++ workerSteps 0 1 ++
  [replies 0 "hello there"] ++ workerSteps 0 7 ++
  [heardAt 200000000 silence []] ++ audioSteps 200000000 4

def resumesIdleTest (s : State ℚ) (_ : AudioInput ℚ) : Bool :=
  match s.loop.pc with
  | .resumeLocked _ => decide s.decodeIdle
  | _ => true

theorem resumesIdle_of_test (s : State ℚ) (input : AudioInput ℚ) (h : resumesIdleTest s input = true) :
    ResumesIdle s input := by
  intro rest hpc
  rw [resumesIdleTest, hpc] at h
  exact of_decide_eq_true h

def AudioPc.takes : AudioPc F → Bool
  | .takeCandidate _ => true
  | _ => false

omit [FloatArith F] in
theorem exists_of_takes {pc : AudioPc F} (h : pc.takes = true) : ∃ ret, pc = .takeCandidate ret := by
  cases pc with
  | takeCandidate ret => exact ⟨ret, rfl⟩
  | _ => cases h

theorem served_candidate_follows_resume_resumedTurn :
    ∃ (s : State ℚ) (ret : CommitReturn) (job : Job ℚ), s.loop.pc = .takeCandidate ret ∧
      s.history.candidateJob = some job ∧ job.resumes = 1 := by
  obtain ⟨s, hs, htest⟩ := exists_guarded resumesIdle_of_test resumedTurn
    (fun s => s.loop.pc.takes && s.history.resumes == 1) (by decide +kernel)
  simp only [Bool.and_eq_true, beq_iff_eq] at htest
  obtain ⟨ret, hpc⟩ := exists_of_takes htest.1
  obtain ⟨job, _, hj, _, _, hres, _⟩ :=
    served_candidate_follows_resume hs hpc (by rw [htest.2]; exact Nat.one_pos)
  exact ⟨s, ret, job, hpc, hj, hres.trans htest.2⟩

/-- The decode of the first pause ends after the resumption and passes for the final. -/
def staleCandidate : List (Action ℚ) :=
  [heardAt 0 silence [.speechStart]] ++ audioSteps 0 5 ++
  [heardAt 0 tone [.speechEnd]] ++ audioSteps 0 5 ++ workerSteps 0 1 ++
  [heardAt 0 tone [.speechStart]] ++ audioSteps 0 4 ++
  [replies 0 "hello"] ++ workerSteps 0 6 ++
  [heardAt 0 tone [.speechEnd]] ++ audioSteps 0 4 ++
  [heardAt 200000000 silence []] ++ audioSteps 200000000 4

theorem stale_candidate_is_served :
    ∃ s, Runs s ∧ ∃ ret job, s.loop.pc = .takeCandidate ret ∧ s.history.candidateJob = some job ∧
      job.utteranceId = s.loop.utteranceId ∧ job.resumes < s.history.resumes := by
  obtain ⟨s, hs, htest⟩ := exists_runs staleCandidate
    (fun s => s.loop.pc.takes && s.history.candidateJob.any fun job =>
      job.utteranceId == s.loop.utteranceId && decide (job.resumes < s.history.resumes))
    (by decide +kernel)
  simp only [Bool.and_eq_true, Option.any_eq_true, beq_iff_eq, decide_eq_true_eq] at htest
  obtain ⟨htakes, job, hj, hid, hres⟩ := htest
  obtain ⟨ret, hpc⟩ := exists_of_takes htakes
  exact ⟨s, hs, ret, job, hpc, hj, hid, hres⟩

end FastTts.Voice
