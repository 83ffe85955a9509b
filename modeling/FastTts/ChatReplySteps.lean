import FastTts.ChatReply

/-!
# What the steps of a reply can do

One inversion for each thread: the place the thread was at, what it found there, and the state it
leaves. The proofs about runs split on these and never unfold a step function.
-/

namespace FastTts.Reply

open Hygiene

variable {F : Type} {p : Params F} {s t : State F}

/-! ## The worker -/

inductive WorkerStep (p : Params F) (s : State F) : State F → Prop
  | aborted (hpc : s.worker.pc = .queued) (hab : s.spec.abort = true) :
      WorkerStep p s (s.setWorker .exited)
  | starts (hpc : s.worker.pc = .queued) : WorkerStep p s (s.setWorker .streaming)
  | delta (text : Bytes) (hpc : s.worker.pc = .streaming) :
      WorkerStep p s (emit (s.receive text) (s.worker.scrubber.feed text) none .answering)
  | streamEnds (result : ChatResult)
      (hpc : s.worker.pc = .streaming ∨ s.worker.pc = .answering ∧ s.spec.abort = true) :
      WorkerStep p s (s.setWorker (.flushing result))
  | trigger (result : Option ChatResult) (hpc : s.worker.pc = .trigger result) :
      WorkerStep p s (earlyTrigger p s result)
  | answers (hpc : s.worker.pc = .answering) : WorkerStep p s (s.setWorker .streaming)
  | flushes (result : ChatResult) (hpc : s.worker.pc = .flushing result) :
      WorkerStep p s (emit s s.worker.scrubber.flush (some result) (.settling result))
  | settles (result : ChatResult) (hpc : s.worker.pc = .settling result) :
      WorkerStep p s (settle s result)
  | exits (ok : Bool) (first : Bytes) (hpc : s.worker.pc = .settled ok first) :
      WorkerStep p s (s.setWorker .exited)
  | fallback (first : Bytes) (hpc : s.worker.pc = .settled true first) :
      WorkerStep p s { s.setWorker .exited with synths := s.synths ++ [.settling first] }

theorem workerStep_cases {input : WorkerInput} (h : workerStep p s input = some t) :
    WorkerStep p s t := by
  unfold workerStep at h
  split at h
  case h_1 hpc =>
    cases h
    split
    · next hab => exact .aborted hpc hab
    · exact .starts hpc
  case h_2 text hpc =>
    cases h
    exact .delta text hpc
  case h_3 result hpc =>
    cases h
    exact .streamEnds result (.inl hpc)
  case h_4 result hpc =>
    cases h
    exact .trigger result hpc
  case h_5 hpc =>
    split at h
    · cases h
    · cases h
      exact .answers hpc
  case h_6 result hpc =>
    split at h
    · next hab =>
      cases h
      exact .streamEnds result (.inr ⟨hpc, hab⟩)
    · cases h
  case h_7 result hpc =>
    cases h
    exact .flushes result hpc
  case h_8 result hpc =>
    cases h
    exact .settles result hpc
  case h_9 ok first hpc =>
    split at h
    · cases h
      exact .exits ok first hpc
    · next hcond =>
      cases h
      cases ok with
      | false => exact absurd rfl hcond
      | true => exact .fallback first hpc
  case h_10 => cases h

/-! ## The speculative synthesis -/

inductive SynthStep (s : State F) (k : ℕ) : State F → Prop
  | skips (sentence : Bytes) (hk : s.synths[k]? = some (.settling sentence)) :
      SynthStep s k (s.setSynth k .ended)
  | wakes (sentence name : Bytes) (hk : s.synths[k]? = some (.settling sentence))
      (hspoken : spokenOf sentence name ≠ []) : SynthStep s k (s.setSynth k (.claiming sentence))
  | claims (sentence : Bytes) (hk : s.synths[k]? = some (.claiming sentence))
      (hnone : s.spec.audio.state = .none) :
      SynthStep s k { s.setSynth k .running with
        spec.audio.state := .running, history.specSentence := some sentence }
  | late (sentence : Bytes) (hk : s.synths[k]? = some (.claiming sentence)) :
      SynthStep s k (s.setSynth k .ended)
  | empty (hk : s.synths[k]? = some .running) : SynthStep s k s
  | chunk (pcm : Bytes) (hk : s.synths[k]? = some .running) :
      SynthStep s k { s with
        spec.audio.chunks := s.spec.audio.chunks ++ [pcm]
        history.specTake := s.history.specTake ++ [pcm] }
  | finishes (hk : s.synths[k]? = some .running) :
      SynthStep s k { s.setSynth k .ended with spec.audio.state := .done }
  | fails (hk : s.synths[k]? = some .running) :
      SynthStep s k { s.setSynth k .ended with spec.audio := ⟨.failed, []⟩ }

theorem synthStep_cases {k : ℕ} {input : SynthInput} (h : synthStep s k input = some t) :
    SynthStep s k t := by
  unfold synthStep at h
  split at h
  case h_1 sentence name hk =>
    split at h
    · cases h
      exact .skips sentence hk
    · next hcond =>
      cases h
      refine .wakes sentence name hk ?_
      intro he
      exact hcond (by rw [he, List.isEmpty_nil, Bool.or_true])
  case h_2 sentence name hk =>
    split at h
    · next hnone =>
      cases h
      exact .claims sentence hk hnone
    · cases h
      exact .late sentence hk
  case h_3 pcm hk =>
    split at h
    · cases h
      exact .empty hk
    · cases h
      exact .chunk pcm hk
  case h_4 hk =>
    cases h
    exact .finishes hk
  case h_5 hk =>
    cases h
    exact .fails hk
  case h_6 => cases h

/-! ## The writer thread -/

inductive WriterStep [FloatOrder F] (p : Params F) (s : State F) : State F → Prop
  | token (text : Bytes) (queue : List ChatEvent) (hq : s.queue = .token text :: queue)
      (hpc : s.writer.pc = .waiting ∨ s.writer.pc.drains = true) :
      WriterStep p s { s with
        queue := queue
        writer := { s.writer with replyText := s.writer.replyText ++ text } }
  | unspoken (text name : Bytes) (queue : List ChatEvent) (hq : s.queue = .sentence text :: queue)
      (hpc : s.writer.pc = .waiting) (hempty : spokenOf text name = []) :
      WriterStep p s { s with queue := queue }
  | sentence (text name : Bytes) (queue : List ChatEvent) (hq : s.queue = .sentence text :: queue)
      (hpc : s.writer.pc = .waiting) (hspoken : spokenOf text name ≠ []) :
      WriterStep p s (speak p { s with queue := queue } text (spokenOf text name))
  | llmDone (result : ChatResult) (queue : List ChatEvent) (hq : s.queue = .llmDone result :: queue)
      (hpc : s.writer.pc = .waiting) :
      WriterStep p s { s with queue := queue, writer := { s.writer with llmFinished := true } }
  | ends (hpc : s.writer.pc = .waiting) (hq : s.queue = []) (hfin : s.writer.llmFinished = true) :
      WriterStep p s { s.setWriter .ended with abort := true }
  | claims (spoken : Bytes) (hpc : s.writer.pc = .deciding spoken)
      (hnone : s.spec.audio.state = .none) :
      WriterStep p s (startSynthesis p { s with spec.audio.state := .failed } spoken)
  | misses (spoken : Bytes) (hpc : s.writer.pc = .deciding spoken)
      (hfailed : s.spec.audio.state = .failed) : WriterStep p s (startSynthesis p s spoken)
  | follows (spoken : Bytes) (hpc : s.writer.pc = .deciding spoken)
      (hstate : s.spec.audio.state = .running ∨ s.spec.audio.state = .done) :
      WriterStep p s (s.setWriter (.following spoken 0))
  | copies (spoken : Bytes) (chunkPos : ℕ) (hpc : s.writer.pc = .following spoken chunkPos) :
      WriterStep p s (s.setWriter (.relaying spoken s.spec.audio.chunks.length
        (if s.spec.audio.state = .failed then [] else s.spec.audio.chunks.drop chunkPos)
        (decide (s.spec.audio.state ≠ .running))))
  | relays (spoken : Bytes) (chunkPos : ℕ) (pcm : Bytes) (chunks : List Bytes) (finished : Bool)
      (hpc : s.writer.pc = .relaying spoken chunkPos (pcm :: chunks) finished) :
      WriterStep p s ((s.write .speculative pcm).setWriter
        (.relaying spoken chunkPos chunks finished))
  | relayed (spoken : Bytes) (chunkPos : ℕ) (finished : Bool)
      (hpc : s.writer.pc = .relaying spoken chunkPos [] finished) :
      WriterStep p s
        (s.setWriter (if finished then .checking spoken else .following spoken chunkPos))
  | served (spoken : Bytes) (hpc : s.writer.pc = .checking spoken)
      (hdone : s.spec.audio.state = .done) : WriterStep p s s.endSentence
  | fallsBack (spoken : Bytes) (hpc : s.writer.pc = .checking spoken)
      (hmissed : s.spec.audio.chunks = [] ∨ s.spec.audio.state ≠ .done) :
      WriterStep p s (startSynthesis p s spoken)
  | writes (verify : Bool) (wrong : Option (WrongTake F)) (a : Attempt F) (pcm : Bytes)
      (out : List Bytes) (hpc : s.writer.pc = .synthesizing verify wrong a)
      (hout : a.out = pcm :: out) :
      WriterStep p s ((s.write (currentTake wrong) pcm).setWriter
        (.synthesizing verify wrong { a with out := out }))
  | emits (take : Take) (pcm : Bytes) (held : List Bytes)
      (hpc : s.writer.pc = .emitting take (pcm :: held)) :
      WriterStep p s ((s.write take pcm).setWriter (.emitting take held))
  | emitted (take : Take) (hpc : s.writer.pc = .emitting take []) : WriterStep p s s.endSentence
  | silent (verify : Bool) (wrong : Option (WrongTake F)) (a : Attempt F)
      (hpc : s.writer.pc = .synthesizing verify wrong a) : WriterStep p s s
  | hears (verify : Bool) (wrong : Option (WrongTake F)) (a : Attempt F) (samples : List F)
      (rate : ℤ) (pcm : Bytes) (hpc : s.writer.pc = .synthesizing verify wrong a)
      (hout : a.out = []) :
      WriterStep p s ((s.hear (Heard.record (currentTake wrong) pcm)).setWriter
        (.synthesizing verify wrong (a.hear p verify samples rate pcm)))
  | returns (verify : Bool) (wrong : Option (WrongTake F)) (a : Attempt F)
      (hpc : s.writer.pc = .synthesizing verify wrong a) (hout : a.out = []) :
      WriterStep p s (endAttempt p s verify wrong a)

theorem writerGo_cases [FloatOrder F] {name : Bytes} (h : writerGo p s name = some t) :
    WriterStep p s t := by
  rw [writerGo] at h
  split at h
  case h_1 hpc =>
    cases hq : s.queue with
    | nil =>
      simp only [hq] at h
      split at h
      · next hfin =>
        cases h
        exact .ends hpc hq hfin
      · cases h
    | cons event queue =>
      simp only [hq] at h
      cases h
      cases event with
      | token text => exact .token text queue hq (.inl hpc)
      | llmDone result => exact .llmDone result queue hq hpc
      | sentence text =>
        rw [handleEvent]
        split
        · next hempty => exact .unspoken text name queue hq hpc (List.isEmpty_iff.mp hempty)
        · next hspoken =>
          exact .sentence text name queue hq hpc fun he => hspoken (List.isEmpty_iff.mpr he)
  case h_2 spoken hpc =>
    cases hstate : s.spec.audio.state <;> simp only [hstate] at h <;> cases h
    · exact .claims spoken hpc hstate
    · exact .follows spoken hpc (.inl hstate)
    · exact .follows spoken hpc (.inr hstate)
    · exact .misses spoken hpc hstate
  case h_3 spoken chunkPos hpc =>
    cases h
    exact .copies spoken chunkPos hpc
  case h_4 spoken chunkPos pcm chunks finished hpc =>
    cases h
    exact .relays spoken chunkPos pcm chunks finished hpc
  case h_5 spoken chunkPos finished hpc =>
    cases h
    exact .relayed spoken chunkPos finished hpc
  case h_6 spoken hpc =>
    split at h
    · next hdone =>
      cases h
      exact .served spoken hpc hdone.2
    · next hnot =>
      cases h
      refine .fallsBack spoken hpc ?_
      by_cases hchunks : s.spec.audio.chunks = []
      · exact .inl hchunks
      · exact .inr fun hdone => hnot ⟨hchunks, hdone⟩
  case h_7 verify wrong a hpc =>
    cases hout : a.out with
    | nil =>
      simp only [hout] at h
      cases h
    | cons pcm out =>
      simp only [hout] at h
      cases h
      exact .writes verify wrong a pcm out hpc hout
  case h_8 take pcm held hpc =>
    cases h
    exact .emits take pcm held hpc
  case h_9 take hpc =>
    cases h
    exact .emitted take hpc
  case h_10 => cases h
  case h_11 => cases h

def WriterInput.breaks : WriterInput F → Bool
  | .disconnects | .synthesisFails => true
  | _ => false

theorem writerStep_cases [FloatOrder F] {input : WriterInput F}
    (h : writerStep p s input = some t) :
    WriterStep p s t ∨ input.breaks = true ∧ t = breakOff s := by
  cases input with
  | go name => exact .inl (writerGo_cases h)
  | audio samples rate pcm =>
    rw [writerStep] at h
    split at h
    · next verify wrong a hpc =>
      split_ifs at h with hout hpcm
      · cases h
        exact .inl (.silent verify wrong a hpc)
      · cases h
        exact .inl (.hears verify wrong a samples rate pcm hpc (not_not.mp hout))
    · cases h
  | audioEnds =>
    rw [writerStep] at h
    split at h
    · next verify wrong a hpc =>
      split_ifs at h with hout
      cases h
      exact .inl (.returns verify wrong a hpc (not_not.mp hout))
    · cases h
  | drainToken =>
    rw [writerStep] at h
    split_ifs at h with hdrains
    rw [drainToken] at h
    split at h
    · next text queue hq =>
      cases h
      exact .inl (.token text queue hq (.inr hdrains))
    · cases h
  | disconnects =>
    rw [writerStep] at h
    split at h
    · cases h
    · cases h
    · cases h
      exact .inr ⟨rfl, rfl⟩
  | synthesisFails =>
    rw [writerStep] at h
    split at h
    · cases h
      exact .inr ⟨rfl, rfl⟩
    · cases h

end FastTts.Reply
