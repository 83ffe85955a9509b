import FastTts.ChatReplay

/-!
# The first spoken sentence

The speculative synthesis speaks the first sentence of the buffer, or the piece left over if there
is none; the writer asks for its audio at the first sentence event with something to say. These are
the same sentence, whatever the threads do in between.
-/

namespace FastTts.Reply

variable {F : Type}

/-! ## What is silent under one name is silent under every name -/

theorem length_respell (token : Bytes) (fuel : ℕ) (previous : Option UInt8) (text : Bytes) :
    (respell token fuel previous text).length = text.length := by
  induction fuel generalizing previous text with
  | zero => rw [respell]
  | succ fuel ih =>
    cases text with
    | nil => rfl
    | cons ch rest =>
      rw [respell]
      split
      · next h =>
        have hlen := h.1
        rw [List.length_append, ih, List.length_drop]
        omega
      · rw [List.length_cons, ih, List.length_cons]

theorem length_speakNameAsWritten (text name : Bytes) :
    (speakNameAsWritten text name).length = text.length := by
  have hfold : ∀ (tokens : List Bytes) (text : Bytes),
      (tokens.foldl (fun text token => respell token text.length none text) text).length =
        text.length := by
    intro tokens
    induction tokens with
    | nil => exact fun _ => rfl
    | cons token tokens ih =>
      intro text
      rw [List.foldl_cons, ih, length_respell]
  exact hfold _ text

/-- Nothing of the sentence is left to be said. -/
def Silent (sentence : Bytes) : Prop := stripSpeechMarkup sentence = []

theorem spokenOf_eq_nil (sentence name : Bytes) : spokenOf sentence name = [] ↔ Silent sentence := by
  rw [spokenOf, Silent, ← List.length_eq_zero_iff, length_speakNameAsWritten,
    List.length_eq_zero_iff]

/-! ## The front of the buffer -/

/-- What the speculative synthesis speaks: settled as soon as there is a sentence. -/
structure Front (reply : ReplyBuffer) (sentence : Bytes) : Prop where
  settled : reply.sentences ≠ [] ∨ reply.llmDone = true
  eq : sentence = reply.sentences.head?.getD reply.rest

variable {sentence : Bytes}

theorem Front.grows {before after : ReplyBuffer} (h : Front before sentence)
    (hg : Grows before after) : Front after sentence := by
  rcases h.settled with hne | hdone
  · obtain ⟨more, hmore⟩ := hg.sentences
    obtain ⟨first, rest, hcons⟩ := List.exists_cons_of_ne_nil hne
    have heq := h.eq
    rw [hcons] at heq hmore
    have hafter : after.sentences = first :: (rest ++ more) := hmore.symm
    exact ⟨.inl (by rw [hafter]; exact List.cons_ne_nil _ _), by rw [heq, hafter]; rfl⟩
  · rw [hg.complete hdone]
    exact h

/-- The first sentence with something to say among the sentences of `events`. -/
def FirstSpoken (events : List ChatEvent) (sentence : Bytes) : Prop :=
  ∃ before after, (contents events).sentences = before ++ sentence :: after ∧
    (∀ x ∈ before, Silent x) ∧ ¬ Silent sentence

/-- What has been taken from the queue, and the first sentence that was heard of it. -/
structure Popped (popped : List ChatEvent) (heard : List Heard) : Prop where
  silent : heard = [] → ∀ x ∈ (contents popped).sentences, Silent x
  first : ∀ h, heard.head? = some h → FirstSpoken popped h.sentence

variable {events popped : List ChatEvent} {heard : List Heard} {x : Bytes}

theorem FirstSpoken.append (h : FirstSpoken events sentence) (more : List ChatEvent) :
    FirstSpoken (events ++ more) sentence := by
  obtain ⟨before, after, heq, hsilent, hspoken⟩ := h
  refine ⟨before, after ++ (contents more).sentences, ?_, hsilent, hspoken⟩
  rw [contents_append, Contents.add, heq, List.append_assoc, List.cons_append]

theorem Popped.skip {event : ChatEvent} (h : Popped popped heard)
    (hsilent : ∀ x ∈ (contents [event]).sentences, Silent x) :
    Popped (popped ++ [event]) heard := by
  refine ⟨?_, fun g hg => (h.first g hg).append [event]⟩
  intro hnil x hx
  rw [contents_append, Contents.add] at hx
  exact (List.mem_append.mp hx).elim (h.silent hnil x) (hsilent x)

theorem Popped.hear (h : Popped popped heard) (hspoken : ¬ Silent sentence) (record : Heard)
    (hrecord : record.sentence = sentence) :
    Popped (popped ++ [.sentence sentence]) (heard ++ [record]) := by
  refine ⟨fun hnil => absurd hnil (List.append_ne_nil_of_right_ne_nil _ (List.cons_ne_nil _ _)), ?_⟩
  intro g hg
  cases heard with
  | nil =>
    cases hg
    refine ⟨(contents popped).sentences, [], ?_, h.silent rfl, hrecord ▸ hspoken⟩
    rw [contents_append, Contents.add, hrecord]
    rfl
  | cons first rest => exact (h.first g hg).append _

theorem Front.eq_of_firstSpoken {reply : ReplyBuffer} {y : Bytes} (hx : Front reply x)
    (hspeaks : ¬ Silent x) (hpart : (contents events).sentences <+: reply.spoken)
    (hy : FirstSpoken events y) : x = y := by
  obtain ⟨before, after, heq, hsilent, hspoken⟩ := hy
  obtain ⟨more, hmore⟩ := hpart
  rw [heq, List.append_assoc, ReplyBuffer.spoken] at hmore
  cases hsentences : reply.sentences with
  | cons first rest =>
    have hfirst : x = first := by rw [hx.eq, hsentences]; rfl
    rw [hsentences, List.cons_append] at hmore
    cases before with
    | nil =>
      rw [List.nil_append, List.cons_append] at hmore
      exact hfirst.trans (List.cons.inj hmore).1.symm
    | cons b before =>
      have hb : b = first := (List.cons.inj hmore).1
      exact absurd (hsilent b List.mem_cons_self) (by rw [hb, ← hfirst]; exact hspeaks)
  | nil =>
    have hrest : x = reply.rest := by rw [hx.eq, hsentences]; rfl
    rw [hsentences, List.nil_append, lastPiece] at hmore
    split at hmore
    · cases before with
      | nil =>
        rw [List.nil_append, List.cons_append] at hmore
        exact hrest.trans (List.cons.inj hmore).1.symm
      | cons b before =>
        have htail := (List.cons.inj hmore).2
        rw [List.cons_append] at htail
        exact absurd (List.append_eq_nil_iff.mp htail).2 (List.cons_ne_nil _ _)
    · exact absurd (List.append_eq_nil_iff.mp hmore).2 (List.cons_ne_nil _ _)

/-! ## Every run keeps to the front -/

structure FrontInv (s : State F) : Prop where
  settling : ∀ x, .settling x ∈ s.synths → Front s.spec.reply x
  claiming : ∀ x, .claiming x ∈ s.synths → Front s.spec.reply x ∧ ¬ Silent x
  spec : ∀ x, s.history.specSentence = some x → Front s.spec.reply x ∧ ¬ Silent x
  worker : ∀ ok first, s.worker.pc = .settled ok first → Front s.spec.reply first
  popped : ∃ popped, s.history.pushed = popped ++ s.queue ∧ Popped popped s.writer.heard

theorem FrontInv.specSentence_eq {s : State F} (h : FrontInv s) (hr : ReplayInv s) {first : Heard}
    (hspec : s.history.specSentence = some x) (hfirst : s.writer.heard.head? = some first) :
    x = first.sentence := by
  obtain ⟨hfront, hspeaks⟩ := h.spec x hspec
  obtain ⟨popped, hpushed, hpopped⟩ := h.popped
  have hspoken := (hpopped.first first hfirst).append s.queue
  rw [← hpushed] at hspoken
  exact hfront.eq_of_firstSpoken hspeaks hr.replay.part.2.1 hspoken

section Steps

variable {p : Params F} {s t : State F}

theorem frontInv_initial : FrontInv (initial : State F) where
  settling := by
    intro x h
    cases h
  claiming := by
    intro x h
    cases h
  spec := by
    intro x h
    cases h
  worker := by
    intro ok first h
    cases h
  popped := by
    refine ⟨[], rfl, fun _ x h => ?_, fun g h => ?_⟩
    · cases h
    · cases h

theorem FrontInv.grows (h : FrontInv s) (hg : Grows s.spec.reply t.spec.reply)
    (hsynths : t.synths = s.synths) (hspec : t.history.specSentence = s.history.specSentence)
    (hworker : ∀ ok first, t.worker.pc = .settled ok first → Front t.spec.reply first)
    (hpopped : ∃ popped, t.history.pushed = popped ++ t.queue ∧ Popped popped t.writer.heard) :
    FrontInv t := by
  refine ⟨?_, ?_, ?_, hworker, hpopped⟩
  · rw [hsynths]
    exact fun x hx => (h.settling x hx).grows hg
  · rw [hsynths]
    exact fun x hx => ⟨(h.claiming x hx).1.grows hg, (h.claiming x hx).2⟩
  · rw [hspec]
    exact fun x hx => ⟨(h.spec x hx).1.grows hg, (h.spec x hx).2⟩

theorem FrontInv.spawn (h : FrontInv s) {x : Bytes} (hx : Front s.spec.reply x) :
    FrontInv { s with synths := s.synths ++ [.settling x] } := by
  refine ⟨?_, ?_, h.spec, h.worker, h.popped⟩
  · intro y hy
    rcases List.mem_append.mp hy with hy | hy
    · exact h.settling y hy
    · cases List.mem_singleton.mp hy
      exact hx
  · intro y hy
    rcases List.mem_append.mp hy with hy | hy
    · exact h.claiming y hy
    · cases List.mem_singleton.mp hy

theorem emit_rest (scrubbed : Bytes × Hygiene.StreamScrubber) (result : Option ChatResult)
    (after : WorkerPc) : (emit s scrubbed result after).synths = s.synths ∧
      (emit s scrubbed result after).history = s.history ∧
      ((emit s scrubbed result after).worker.pc = after ∨
        (emit s scrubbed result after).worker.pc = .trigger result) := by
  rw [emit]
  split
  · exact ⟨rfl, rfl, .inl rfl⟩
  · exact ⟨rfl, rfl, .inr rfl⟩

theorem frontInv_emit (h : FrontInv s) (hdone : s.spec.reply.llmDone = false)
    (scrubbed : Bytes × Hygiene.StreamScrubber) (result : Option ChatResult) {after : WorkerPc}
    (hafter : ∀ ok first, after ≠ .settled ok first) : FrontInv (emit s scrubbed result after) := by
  obtain ⟨hsynths, hhistory, hpc⟩ := emit_rest (s := s) scrubbed result after
  obtain ⟨_, _, _, hqueue, hwriter, _⟩ := emit_frame (s := s) scrubbed result after
  refine h.grows (grows_emit hdone scrubbed result after) hsynths (by rw [hhistory]) ?_ ?_
  · intro ok first he
    rcases hpc with hpc | hpc <;> rw [hpc] at he
    · exact absurd he (hafter ok first)
    · cases he
  · rw [hhistory, hqueue, hwriter]
    exact h.popped

theorem frontInv_setWorker (h : FrontInv s) {pc : WorkerPc}
    (hpc : ∀ ok first, pc ≠ .settled ok first) : FrontInv (s.setWorker pc) :=
  h.grows (.refl _) rfl rfl (fun ok first he => absurd he (hpc ok first)) h.popped

theorem frontInv_workerStep (h : FrontInv s) (hr : ReplayInv s) (hstep : WorkerStep p s t) :
    FrontInv t := by
  have hw := hr.worker
  cases hstep with
  | aborted hpc hab => exact frontInv_setWorker h (by simp)
  | starts hpc => exact frontInv_setWorker h (by simp)
  | delta text hpc =>
    rw [hpc] at hw
    have hreceive : FrontInv (s.receive text) :=
      h.grows (.refl _) rfl rfl h.worker h.popped
    exact frontInv_emit hreceive hw.open_ _ _ (by simp)
  | streamEnds result hpc => exact frontInv_setWorker h (by simp)
  | trigger result hpc =>
    have hafter : ∀ ok first, afterTrigger result ≠ .settled ok first := by
      cases result <;> simp [afterTrigger]
    rw [earlyTrigger]
    split
    · next first rest hsentences =>
      have hfront : Front s.spec.reply first :=
        ⟨.inl (by rw [hsentences]; exact List.cons_ne_nil _ _), by rw [hsentences]; rfl⟩
      split
      · have hspawn := h.spawn hfront
        exact hspawn.grows (.refl _) rfl rfl (fun ok first he => absurd he (hafter ok first))
          h.popped
      · exact frontInv_setWorker h hafter
    · exact frontInv_setWorker h hafter
  | answers hpc => exact frontInv_setWorker h (by simp)
  | flushes result hpc =>
    rw [hpc] at hw
    exact frontInv_emit h hw.open_ _ _ (by simp)
  | settles result hpc =>
    rw [hpc] at hw
    have hgrows : Grows s.spec.reply (settle s result).spec.reply :=
      ⟨List.prefix_rfl, List.prefix_rfl, fun hdone => absurd (hdone.symm.trans hw.open_) (by simp)⟩
    refine h.grows hgrows rfl rfl ?_ h.popped
    rintro ok first ⟨⟩
    exact ⟨.inr rfl, rfl⟩
  | exits ok first hpc => exact frontInv_setWorker h (by simp)
  | fallback first hpc =>
    have hexit : FrontInv (s.setWorker .exited) := frontInv_setWorker h (by simp)
    exact hexit.spawn (h.worker true first hpc)

theorem FrontInv.setSynth (h : FrontInv s) (k : ℕ) {synth : Synth}
    (hsettling : ∀ x, synth ≠ .settling x)
    (hclaiming : ∀ x, synth = .claiming x → Front s.spec.reply x ∧ ¬ Silent x) :
    FrontInv (s.setSynth k synth) := by
  refine ⟨?_, ?_, h.spec, h.worker, h.popped⟩
  · intro x hx
    rcases List.mem_or_eq_of_mem_set hx with hx | hx
    · exact h.settling x hx
    · exact absurd hx.symm (hsettling x)
  · intro x hx
    rcases List.mem_or_eq_of_mem_set hx with hx | hx
    · exact h.claiming x hx
    · exact hclaiming x hx.symm

theorem frontInv_synthStep {k : ℕ} (h : FrontInv s) (hstep : SynthStep s k t) : FrontInv t := by
  have hended : FrontInv (s.setSynth k .ended) := h.setSynth k nofun nofun
  cases hstep with
  | skips sentence hk => exact hended
  | wakes sentence name hk hspoken =>
    refine h.setSynth k nofun ?_
    rintro x ⟨⟩
    refine ⟨h.settling sentence (List.mem_of_getElem? hk), ?_⟩
    exact fun hsilent => hspoken ((spokenOf_eq_nil sentence name).mpr hsilent)
  | claims sentence hk hnone =>
    have hrun : FrontInv (s.setSynth k .running) := h.setSynth k nofun nofun
    refine ⟨hrun.settling, hrun.claiming, ?_, hrun.worker, hrun.popped⟩
    rintro x ⟨⟩
    exact h.claiming sentence (List.mem_of_getElem? hk)
  | late sentence hk => exact hended
  | empty hk => exact h
  | chunk pcm hk => exact ⟨h.settling, h.claiming, h.spec, h.worker, h.popped⟩
  | finishes hk => exact ⟨hended.settling, hended.claiming, hended.spec, hended.worker, hended.popped⟩
  | fails hk => exact ⟨hended.settling, hended.claiming, hended.spec, hended.worker, hended.popped⟩

theorem frontInv_replayStep (h : FrontInv s) (hstep : replayStep s = some t) : FrontInv t := by
  have hf := replayStep_frame hstep
  obtain ⟨popped, hpushed, hpopped⟩ := h.popped
  obtain ⟨events, hqueue, hpushed'⟩ := hf.queue
  refine h.grows (hf.reply ▸ .refl _) hf.synths hf.specSentence ?_ ⟨popped, ?_, ?_⟩
  · rw [hf.worker, hf.reply]
    exact h.worker
  · rw [hpushed', hqueue, hpushed, List.append_assoc]
  · rw [hf.writer]
    exact hpopped

/-! ## The writer's record -/

/-- A change of the record that leaves the sentence alone. -/
def KeepsSentence (f : Heard → Heard) : Prop := ∀ h, (f h).sentence = h.sentence

theorem onLast_concat (f : Heard → Heard) (past : List Heard) (h : Heard) :
    onLast f (past ++ [h]) = past ++ [f h] := by
  induction past with
  | nil => rfl
  | cons g past ih =>
    cases past with
    | nil => rfl
    | cons g' past =>
      rw [List.cons_append, List.cons_append, onLast, ← List.cons_append, ih]
      · rfl
      · exact nofun

theorem sentences_onLast {f : Heard → Heard} (hf : KeepsSentence f) (heard : List Heard) :
    (onLast f heard).map Heard.sentence = heard.map Heard.sentence := by
  rcases List.eq_nil_or_concat heard with rfl | ⟨past, h, rfl⟩
  · rfl
  · rw [List.concat_eq_append, onLast_concat, List.map_append, List.map_append, List.map_singleton,
      List.map_singleton, hf h]

theorem Popped.congr {popped : List ChatEvent} {heard heard' : List Heard} (h : Popped popped heard)
    (he : heard'.map Heard.sentence = heard.map Heard.sentence) : Popped popped heard' := by
  refine ⟨?_, ?_⟩
  · rintro rfl
    exact h.silent (List.map_eq_nil_iff.mp he.symm)
  · intro g hg
    have hhead : (heard.map Heard.sentence).head? = some g.sentence := by
      rw [← he, List.head?_map, hg]
      rfl
    rw [List.head?_map] at hhead
    obtain ⟨first, hfirst, hsentence⟩ := Option.map_eq_some_iff.mp hhead
    exact hsentence ▸ h.first first hfirst

theorem keepsSentence_record (take : Take) (pcm : Bytes) :
    KeepsSentence (Heard.record take pcm) := by
  intro h
  rw [Heard.record]
  split <;> rfl

theorem sentences_write (take : Take) (pcm : Bytes) :
    (s.write take pcm).writer.heard.map Heard.sentence = s.writer.heard.map Heard.sentence :=
  sentences_onLast (f := fun h => { h with written := h.written ++ [(take, pcm)] }) (fun _ => rfl) _

theorem sentences_endSentence :
    s.endSentence.writer.heard.map Heard.sentence = s.writer.heard.map Heard.sentence :=
  sentences_onLast (f := fun h => { h with complete := true }) (fun _ => rfl) _

theorem frontInv_writerFrame (h : FrontInv s) (hf : WriterFrame s t)
    (hpopped : ∃ popped, t.history.pushed = popped ++ t.queue ∧ Popped popped t.writer.heard) :
    FrontInv t := by
  refine h.grows (hf.reply ▸ .refl _) hf.synths (by rw [hf.history]) ?_ hpopped
  rw [hf.worker, hf.reply]
  exact h.worker

section Writer

variable [FloatOrder F]

theorem sentences_of_step (h : WriterStep p s t) (hqueue : t.queue = s.queue) :
    t.writer.heard.map Heard.sentence = s.writer.heard.map Heard.sentence := by
  have hne : ∀ (event : ChatEvent) (queue : List ChatEvent), queue ≠ event :: queue := by
    intro event queue he
    exact absurd (congrArg List.length he) (by rw [List.length_cons]; omega)
  cases h with
  | token text queue hq hpc => rfl
  | unspoken text name queue hq hpc hempty => rfl
  | sentence text name queue hq hpc hspoken =>
    have hq' : queue = s.queue := by
      rw [← hqueue, speak]
      split <;> rfl
    exact absurd (hq'.trans hq) (hne _ queue)
  | relays spoken chunkPos pcm chunks finished hpc => exact sentences_write _ _
  | served spoken hpc hdone => exact sentences_endSentence
  | writes verify wrong a pcm out hpc hout => exact sentences_write _ _
  | emits take pcm held hpc => exact sentences_write _ _
  | emitted take hpc => exact sentences_endSentence
  | hears verify wrong a samples rate pcm hpc hout =>
    exact sentences_onLast (keepsSentence_record _ _) _
  | returns verify wrong a hpc hout =>
    rcases endAttempt_cases (p := p) (s := s) verify wrong a with he | ⟨pc, he, _⟩ <;> rw [he]
    · exact sentences_endSentence
    · rfl
  | _ => rfl

theorem frontInv_writerStep (h : FrontInv s) (hstep : WriterStep p s t) : FrontInv t := by
  have hf := writerFrame_of_step hstep
  obtain ⟨popped, hpushed, hpopped⟩ := h.popped
  refine frontInv_writerFrame h hf ?_
  rw [hf.history, hpushed]
  have hsame : t.queue = s.queue →
      ∃ popped', popped ++ s.queue = popped' ++ t.queue ∧ Popped popped' t.writer.heard := by
    intro hqueue
    exact ⟨popped, by rw [hqueue], hpopped.congr (sentences_of_step hstep hqueue)⟩
  cases hstep with
  | token text queue hq hpc =>
    refine ⟨popped ++ [.token text], by rw [hq, List.append_assoc]; rfl, hpopped.skip ?_⟩
    intro x hx
    cases hx
  | unspoken text name queue hq hpc hempty =>
    refine ⟨popped ++ [.sentence text], by rw [hq, List.append_assoc]; rfl, hpopped.skip ?_⟩
    intro x hx
    cases List.mem_singleton.mp hx
    exact (spokenOf_eq_nil text name).mp hempty
  | sentence text name queue hq hpc hspoken =>
    have hspeaks : ¬ Silent text := fun hs => hspoken ((spokenOf_eq_nil text name).mpr hs)
    refine ⟨popped ++ [.sentence text], ?_, ?_⟩
    · rw [hq, List.append_assoc, speak]
      split <;> rfl
    · have hhear := hpopped.hear hspeaks ⟨text, [], [], [], false⟩ rfl
      rw [speak]
      split <;> exact hhear
  | llmDone result queue hq hpc =>
    refine ⟨popped ++ [.llmDone result], by rw [hq, List.append_assoc]; rfl, hpopped.skip ?_⟩
    intro x hx
    cases hx
  | returns verify wrong a hpc hout =>
    rcases endAttempt_cases (p := p) (s := s) verify wrong a with he | ⟨pc, he, _⟩ <;>
      exact hsame (by rw [he]; rfl)
  | _ => exact hsame rfl

theorem frontInv_step {a : Action F} (h : FrontInv s) (hr : ReplayInv s)
    (hstep : step p s a = some t) : FrontInv t := by
  cases a with
  | worker input => exact frontInv_workerStep h hr (workerStep_cases hstep)
  | synth k input => exact frontInv_synthStep h (synthStep_cases hstep)
  | replay => exact frontInv_replayStep h hstep
  | writer input =>
    rcases writerStep_cases hstep with hw | ⟨_, rfl⟩
    · exact frontInv_writerStep h hw
    · exact ⟨h.settling, h.claiming, h.spec, h.worker, h.popped⟩

end Writer

end Steps

end FastTts.Reply
