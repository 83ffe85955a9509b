import FastTts.ChatReplySteps

/-!
# The replay of a speculation

The replay thread reads the worker's buffer through two cursors. Whatever it has pushed is, at every
moment, the buffer up to its cursors; once it is through, it has pushed what the live path would
have pushed for the same deltas. The writer thread may end it early only by breaking off.
-/

namespace FastTts.Reply

open Hygiene SentenceSegmenter

variable {F : Type}

/-! ## The contents of a list of events -/

def ChatEvent.token? : ChatEvent → Option Bytes
  | .token text => some text
  | _ => none

def ChatEvent.sentence? : ChatEvent → Option Bytes
  | .sentence text => some text
  | _ => none

def ChatEvent.llmDone? : ChatEvent → Option ChatResult
  | .llmDone result => some result
  | _ => none

/-- The text of the tokens, the sentences and the ends in a list of events. -/
structure Contents where
  text : Bytes
  sentences : List Bytes
  dones : List ChatResult
  deriving DecidableEq, Repr

def contents (events : List ChatEvent) : Contents :=
  ⟨(events.filterMap ChatEvent.token?).flatten, events.filterMap ChatEvent.sentence?,
    events.filterMap ChatEvent.llmDone?⟩

def Contents.add (a b : Contents) : Contents :=
  ⟨a.text ++ b.text, a.sentences ++ b.sentences, a.dones ++ b.dones⟩

theorem contents_append (a b : List ChatEvent) :
    contents (a ++ b) = (contents a).add (contents b) := by
  simp only [contents, Contents.add, List.filterMap_append, List.flatten_append]

variable (text : Bytes) (deltas : List Bytes)

theorem contents_token : contents [.token text] = ⟨text, [], []⟩ := by
  simp [contents, ChatEvent.token?, ChatEvent.sentence?, ChatEvent.llmDone?]

theorem contents_tokenEvents : contents (tokenEvents text) = ⟨text, [], []⟩ := by
  rw [tokenEvents]
  split
  · next h =>
    rw [List.isEmpty_iff.mp h]
    rfl
  · exact contents_token text

theorem contents_sentences (sentences : List Bytes) :
    contents (sentences.map .sentence) = ⟨[], sentences, []⟩ := by
  induction sentences with
  | nil => rfl
  | cons sentence sentences ih =>
    have hcons : contents ((sentence :: sentences).map .sentence) =
        (contents [.sentence sentence]).add (contents (sentences.map .sentence)) :=
      contents_append [.sentence sentence] (sentences.map .sentence)
    rw [hcons, ih]
    rfl

/-! ## What the worker produces -/

/-- The clean text of a stream, its segments, and where the scrubber and the segmenter stand. -/
structure Produced where
  text : Bytes
  sentences : List Bytes
  scrubber : StreamScrubber
  segmenter : SentenceSegmenter

namespace Produced

def start (options : SegmenterOptions) : Produced := ⟨[], [], .new, .new options⟩

variable (made : Produced)

def emit (scrubbed : Bytes × StreamScrubber) : Produced :=
  if scrubbed.1.isEmpty then { made with scrubber := scrubbed.2 }
  else
    ⟨made.text ++ scrubbed.1, made.sentences ++ (made.segmenter.feed scrubbed.1).1, scrubbed.2,
      (made.segmenter.feed scrubbed.1).2⟩

def delta (text : Bytes) : Produced := made.emit (made.scrubber.feed text)

def flushed : Produced := made.emit made.scrubber.flush

theorem contents_liveEmit (scrubbed : Bytes × StreamScrubber) :
    (made.emit scrubbed).text = made.text ++ (contents (liveEmit scrubbed.1 made.segmenter).1).text ∧
    (made.emit scrubbed).sentences =
      made.sentences ++ (contents (liveEmit scrubbed.1 made.segmenter).1).sentences ∧
    (contents (liveEmit scrubbed.1 made.segmenter).1).dones = [] ∧
    (made.emit scrubbed).scrubber = scrubbed.2 ∧
    (made.emit scrubbed).segmenter = (liveEmit scrubbed.1 made.segmenter).2 := by
  rw [emit, liveEmit]
  split
  · exact ⟨(List.append_nil _).symm, (List.append_nil _).symm, rfl, rfl, rfl⟩
  · have hcons : contents (.token scrubbed.1 :: (made.segmenter.feed scrubbed.1).1.map .sentence) =
        ⟨scrubbed.1, (made.segmenter.feed scrubbed.1).1, []⟩ := by
      have happ := contents_append [.token scrubbed.1]
        ((made.segmenter.feed scrubbed.1).1.map .sentence)
      rw [contents_token, contents_sentences] at happ
      simpa [Contents.add] using happ
    simp only [hcons]
    exact ⟨trivial, trivial, trivial, trivial, trivial⟩

theorem contents_liveDeltas (deltas : List Bytes) (made : Produced) :
    (deltas.foldl delta made).text =
      made.text ++ (contents (liveDeltas made.scrubber made.segmenter deltas).1).text ∧
    (deltas.foldl delta made).sentences =
      made.sentences ++ (contents (liveDeltas made.scrubber made.segmenter deltas).1).sentences ∧
    (contents (liveDeltas made.scrubber made.segmenter deltas).1).dones = [] ∧
    (deltas.foldl delta made).scrubber = (liveDeltas made.scrubber made.segmenter deltas).2.1 ∧
    (deltas.foldl delta made).segmenter = (liveDeltas made.scrubber made.segmenter deltas).2.2 := by
  induction deltas generalizing made with
  | nil => exact ⟨(List.append_nil _).symm, (List.append_nil _).symm, rfl, rfl, rfl⟩
  | cons text deltas ih =>
    obtain ⟨htext, hsentences, hdones, hscrubber, hsegmenter⟩ :=
      contents_liveEmit made (made.scrubber.feed text)
    obtain ⟨htext', hsentences', hdones', hscrubber', hsegmenter'⟩ := ih (made.delta text)
    simp only [delta, hscrubber, hsegmenter] at htext' hsentences' hdones' hscrubber' hsegmenter'
    simp only [List.foldl_cons, liveDeltas, contents_append, Contents.add]
    refine ⟨?_, ?_, ?_, hscrubber', hsegmenter'⟩
    · exact htext'.trans (by rw [htext, List.append_assoc])
    · exact hsentences'.trans (by rw [hsentences, List.append_assoc])
    · rw [hdones, hdones', List.append_nil]

end Produced

def produced (deltas : List Bytes) : Produced :=
  deltas.foldl Produced.delta (.start speculationOptions)

theorem produced_concat (text : Bytes) :
    produced (deltas ++ [text]) = (produced deltas).delta text := by
  rw [produced, List.foldl_append]
  rfl

theorem contents_livePath (result : ChatResult) :
    contents (livePath speculationOptions deltas result) =
      ⟨(produced deltas).flushed.text, (produced deltas).flushed.sentences ++
        lastPiece result.finishReason (produced deltas).flushed.segmenter.flush.1, [result]⟩ := by
  obtain ⟨htext, hsentences, hdones, hscrubber, hsegmenter⟩ :=
    Produced.contents_liveDeltas deltas (.start speculationOptions)
  obtain ⟨htext', hsentences', hdones', -, hsegmenter'⟩ :=
    Produced.contents_liveEmit (produced deltas) (produced deltas).scrubber.flush
  have hdone : contents [.llmDone result] = ⟨[], [], [result]⟩ := rfl
  rw [← produced] at htext hsentences hscrubber hsegmenter
  rw [Produced.flushed, htext', hsentences', hsegmenter', htext, hsentences, hscrubber, hsegmenter]
  rw [hscrubber, hsegmenter] at hdones'
  simp only [livePath, contents_append, contents_sentences, hdone, Contents.add, Produced.start,
    List.nil_append, List.append_nil] at hdones hdones' ⊢
  rw [hdones, hdones']
  rfl

/-! ## What is spoken -/

theorem liveEmit_inked (s : SentenceSegmenter) :
    let live := liveEmit text s
    (contents live.1).text = text ∧
      inked (contents live.1).sentences.flatten ++ inked live.2.pending =
        inked s.pending ++ inked text := by
  rw [liveEmit, ← inked_append]
  split
  · next h =>
    rw [List.isEmpty_iff.mp h, List.append_nil]
    exact ⟨rfl, rfl⟩
  · have hcons := contents_append [.token text] ((s.feed text).1.map .sentence)
    rw [contents_token, contents_sentences, List.singleton_append] at hcons
    dsimp only
    rw [hcons]
    exact ⟨List.append_nil _, (takes_feed s text).inked_eq⟩

theorem liveDeltas_inked (scrubber : StreamScrubber) (s : SentenceSegmenter) :
    let live := liveDeltas scrubber s deltas
    let last := scrubber.feed deltas.flatten
    (contents live.1).text = last.1 ∧ live.2.1 = last.2 ∧
      inked (contents live.1).sentences.flatten ++ inked live.2.2.pending =
        inked s.pending ++ inked last.1 := by
  induction deltas generalizing scrubber s with
  | nil => exact ⟨rfl, rfl, (List.append_nil _).symm⟩
  | cons delta deltas ih =>
    obtain ⟨hclean, hinked⟩ := liveEmit_inked (scrubber.feed delta).1 s
    obtain ⟨htext, hlast, hrest⟩ := ih (scrubber.feed delta).2 (liveEmit (scrubber.feed delta).1 s).2
    simp only [liveDeltas, contents_append, Contents.add, List.flatten_cons, List.flatten_append,
      StreamScrubber.feed_append, inked_append, List.append_assoc, hclean, htext, hlast, hrest,
      true_and]
    rw [← List.append_assoc, hinked, List.append_assoc]

/-- A live reply shows what the scrubber leaves of the deltas together, and speaks what it shows,
unless the token ceiling cuts off the end. -/
theorem livePath_speaks (options : SegmenterOptions) (result : ChatResult) :
    let live := contents (livePath options deltas result)
    let last := StreamScrubber.new.feed deltas.flatten
    live.text = last.1 ++ last.2.flush.1 ∧ inked live.sentences.flatten <+: inked live.text ∧
      (result.finishReason ≠ bytes "length" →
        inked live.sentences.flatten = inked live.text) := by
  have hstreamed := liveDeltas_inked deltas .new (.new options)
  have hdone : contents [.llmDone result] = ⟨[], [], [result]⟩ := rfl
  rw [livePath]
  generalize liveDeltas .new (.new options) deltas = live at hstreamed ⊢
  generalize StreamScrubber.new.feed deltas.flatten = last at hstreamed ⊢
  obtain ⟨htext, hlast, hinked⟩ := hstreamed
  obtain ⟨hflushed, hrest⟩ := liveEmit_inked last.2.flush.1 live.2.2
  rw [← inked_trimmed (liveEmit _ _).2.pending] at hrest
  have hall := congrArg (· ++ inked last.2.flush.1) hinked
  rw [List.append_assoc, ← hrest, ← List.append_assoc] at hall
  change _ = inked last.1 ++ _ at hall
  simp only [contents_append, contents_sentences, hdone, Contents.add, List.append_nil, htext,
    hflushed, hlast, List.flatten_append, inked_append, true_and, flush, ← hall]
  rw [lastPiece]
  split
  · simp
  · next h =>
    refine ⟨by simp [inked], fun hfinish => ?_⟩
    have hempty : trimmed (liveEmit last.2.flush.1 live.2.2).2.pending = [] := by
      simpa [speaksRest, hfinish] using h
    simp [hempty]

/-! ## The worker's side -/

/-- The buffer and the worker stand where `made` does, and the reply is not complete. -/
structure State.Made (s : State F) (made : Produced) : Prop where
  text : s.spec.reply.text = made.text
  sentences : s.spec.reply.sentences = made.sentences
  scrubber : s.worker.scrubber = made.scrubber
  segmenter : s.worker.segmenter = made.segmenter
  open_ : s.spec.reply.llmDone = false

structure State.Complete (s : State F) : Prop where
  text : s.spec.reply.text = (produced s.history.deltas).flushed.text
  sentences : s.spec.reply.sentences = (produced s.history.deltas).flushed.sentences
  rest : s.spec.reply.rest = (produced s.history.deltas).flushed.segmenter.flush.1
  llmDone : s.spec.reply.llmDone = true

/-- The stream, the flush of the scrubber, `llm_done`, and the end behind the worker. -/
inductive Phase
  | streaming
  | flushed
  | complete
  | gone

def WorkerPc.phase : WorkerPc → Phase
  | .queued | .streaming | .trigger none | .answering | .flushing _ => .streaming
  | .trigger (some _) | .settling _ => .flushed
  | .settled _ _ => .complete
  | .exited => .gone

def State.HoldsAt (s : State F) : Phase → Prop
  | .streaming => s.Made (produced s.history.deltas)
  | .flushed => s.Made (produced s.history.deltas).flushed
  | .complete => s.Complete
  | .gone => s.Complete ∨ s.spec.abort = true

/-- How the buffer may change: it only grows, and not any more once the reply is complete. -/
structure Grows (before after : ReplyBuffer) : Prop where
  text : before.text <+: after.text
  sentences : before.sentences <+: after.sentences
  complete : before.llmDone = true → after = before

variable (reply : ReplyBuffer)

theorem Grows.refl : Grows reply reply :=
  ⟨List.prefix_rfl, List.prefix_rfl, fun _ => rfl⟩

section Worker

variable {p : Params F} {s t : State F}

theorem made_emit {made : Produced} (h : s.Made made) (scrubbed : Bytes × StreamScrubber)
    (result : Option ChatResult) (after : WorkerPc) :
    (emit s scrubbed result after).Made (made.emit scrubbed) := by
  rw [emit, Produced.emit]
  split
  · exact ⟨h.text, h.sentences, rfl, h.segmenter, h.open_⟩
  · refine ⟨?_, ?_, rfl, ?_, h.open_⟩
    · exact congrArg (· ++ scrubbed.1) h.text
    · change s.spec.reply.sentences ++ (s.worker.segmenter.feed scrubbed.1).1 = _
      rw [h.sentences, h.segmenter]
    · change (s.worker.segmenter.feed scrubbed.1).2 = _
      rw [h.segmenter]

variable (scrubbed : Bytes × StreamScrubber)

theorem phase_emit (result : Option ChatResult) {after : WorkerPc}
    (h : after.phase = (WorkerPc.trigger result).phase) :
    (emit s scrubbed result after).worker.pc.phase = after.phase := by
  rw [emit]
  split
  · rfl
  · exact h.symm

theorem emit_deltas (result : Option ChatResult) (after : WorkerPc) :
    (emit s scrubbed result after).history.deltas = s.history.deltas := by
  rw [emit]
  split <;> rfl

theorem grows_emit (h : s.spec.reply.llmDone = false) (scrubbed : Bytes × StreamScrubber)
    (result : Option ChatResult) (after : WorkerPc) :
    Grows s.spec.reply (emit s scrubbed result after).spec.reply := by
  rw [emit]
  split
  · exact .refl _
  · exact ⟨List.prefix_append _ _, List.prefix_append _ _,
      fun hdone => absurd (hdone.symm.trans h) nofun⟩

theorem earlyTrigger_frame (result : Option ChatResult) :
    (earlyTrigger p s result).spec = s.spec ∧ (earlyTrigger p s result).history = s.history ∧
      (earlyTrigger p s result).worker.scrubber = s.worker.scrubber ∧
      (earlyTrigger p s result).worker.segmenter = s.worker.segmenter ∧
      (earlyTrigger p s result).worker.pc = afterTrigger result := by
  rw [earlyTrigger]
  split
  · split <;> exact ⟨rfl, rfl, rfl, rfl, rfl⟩
  · exact ⟨rfl, rfl, rfl, rfl, rfl⟩

theorem holdsAt_workerStep (h : s.HoldsAt s.worker.pc.phase) (hstep : WorkerStep p s t) :
    t.HoldsAt t.worker.pc.phase ∧ Grows s.spec.reply t.spec.reply := by
  cases hstep with
  | aborted _ hab => exact ⟨.inr hab, .refl _⟩
  | starts hpc =>
    rw [hpc] at h
    exact ⟨⟨h.text, h.sentences, h.scrubber, h.segmenter, h.open_⟩, .refl _⟩
  | delta text hpc =>
    rw [hpc] at h
    have hmade : (s.receive text).Made (produced s.history.deltas) :=
      ⟨h.text, h.sentences, h.scrubber, h.segmenter, h.open_⟩
    have hemit := made_emit hmade (s.worker.scrubber.feed text) none .answering
    have hphase := phase_emit (s := s.receive text) (s.worker.scrubber.feed text) none
      (rfl : WorkerPc.answering.phase = (WorkerPc.trigger none).phase)
    refine ⟨?_, grows_emit (s := s.receive text) h.open_ _ _ _⟩
    rw [hphase]
    change State.Made _ _
    rw [emit_deltas, State.receive, produced_concat, Produced.delta, ← h.scrubber]
    exact hemit
  | streamEnds result hpc =>
    have hphase : s.worker.pc.phase = .streaming := by
      rcases hpc with hpc | ⟨hpc, _⟩ <;> rw [hpc] <;> rfl
    rw [hphase] at h
    exact ⟨⟨h.text, h.sentences, h.scrubber, h.segmenter, h.open_⟩, .refl _⟩
  | trigger result hpc =>
    obtain ⟨hspec, hhistory, hscrubber, hsegmenter, hpc'⟩ := earlyTrigger_frame (p := p) (s := s) result
    rw [hpc] at h
    rw [hpc', hspec]
    refine ⟨?_, .refl _⟩
    cases result with
    | none =>
      change State.Made _ _
      rw [hhistory]
      exact ⟨hspec ▸ h.text, hspec ▸ h.sentences, hscrubber.trans h.scrubber,
        hsegmenter.trans h.segmenter, hspec ▸ h.open_⟩
    | some result =>
      change State.Made _ _
      rw [hhistory]
      exact ⟨hspec ▸ h.text, hspec ▸ h.sentences, hscrubber.trans h.scrubber,
        hsegmenter.trans h.segmenter, hspec ▸ h.open_⟩
  | answers hpc =>
    rw [hpc] at h
    exact ⟨⟨h.text, h.sentences, h.scrubber, h.segmenter, h.open_⟩, .refl _⟩
  | flushes result hpc =>
    rw [hpc] at h
    have hphase := phase_emit (s := s) s.worker.scrubber.flush (some result)
      (rfl : (WorkerPc.settling result).phase = (WorkerPc.trigger (some result)).phase)
    refine ⟨?_, grows_emit h.open_ _ _ _⟩
    rw [hphase]
    change State.Made _ _
    rw [emit_deltas, Produced.flushed, ← h.scrubber]
    exact made_emit h _ _ _
  | settles result hpc =>
    rw [hpc] at h
    refine ⟨⟨h.text, h.sentences, ?_, rfl⟩, List.prefix_rfl, List.prefix_rfl, ?_⟩
    · change s.worker.segmenter.flush.1 = _
      rw [h.segmenter]
      rfl
    · intro hdone
      exact absurd (hdone.symm.trans h.open_) nofun
  | exits ok first hpc =>
    rw [hpc] at h
    exact ⟨.inl ⟨h.text, h.sentences, h.rest, h.llmDone⟩, .refl _⟩
  | fallback first hpc =>
    rw [hpc] at h
    exact ⟨.inl ⟨h.text, h.sentences, h.rest, h.llmDone⟩, .refl _⟩

end Worker

/-! ## The replay thread's side -/

/-- The events say what the buffer holds up to the two cursors. -/
structure Seen (textPos sentencePos : ℕ) (events : List ChatEvent) : Prop where
  text_le : textPos ≤ reply.text.length
  sentences_le : sentencePos ≤ reply.sentences.length
  contents : contents events = ⟨reply.text.take textPos, reply.sentences.take sentencePos, []⟩

def ReplyBuffer.spoken : List Bytes :=
  reply.sentences ++ lastPiece reply.result.finishReason reply.rest

def ReplayHolds (pushed : List ChatEvent) : ReplayPc → Prop
  | .looping textPos sentencePos | .polling textPos sentencePos =>
    Seen reply textPos sentencePos pushed
  | .pushing textPos sentencePos events none => Seen reply textPos sentencePos (pushed ++ events)
  | .pushing textPos sentencePos events (some (finish, rest)) =>
    Seen reply textPos sentencePos (pushed ++ events) ∧ reply.llmDone = true ∧
      textPos = reply.text.length ∧ sentencePos = reply.sentences.length ∧
      finish = reply.result.finishReason ∧ rest = reply.rest
  | .finishing finish => reply.llmDone = true ∧ finish = reply.result.finishReason ∧
    contents pushed = ⟨reply.text, reply.spoken, []⟩
  | .lastPush event => reply.llmDone = true ∧ event = .llmDone reply.result ∧
    contents pushed = ⟨reply.text, reply.spoken, []⟩
  | .ended => reply.llmDone = true ∧ pushed.getLast? = some (.llmDone reply.result) ∧
    contents pushed = ⟨reply.text, reply.spoken, [reply.result]⟩
  | .leaving | .gaveUp => ∃ textPos sentencePos, Seen reply textPos sentencePos pushed

variable {before after : ReplyBuffer} {pc : ReplayPc}

theorem Seen.grows {textPos sentencePos : ℕ} {events : List ChatEvent}
    (h : Seen before textPos sentencePos events) (hg : Grows before after) :
    Seen after textPos sentencePos events := by
  obtain ⟨moreText, htext⟩ := hg.text
  obtain ⟨moreSentences, hsentences⟩ := hg.sentences
  refine ⟨?_, ?_, ?_⟩
  · rw [← htext, List.length_append]
    exact h.text_le.trans (Nat.le_add_right _ _)
  · rw [← hsentences, List.length_append]
    exact h.sentences_le.trans (Nat.le_add_right _ _)
  · rw [h.contents, ← htext, ← hsentences, List.take_append_of_le_length h.text_le,
      List.take_append_of_le_length h.sentences_le]

variable {pushed : List ChatEvent}

theorem ReplayHolds.grows (h : ReplayHolds before pushed pc) (hg : Grows before after) :
    ReplayHolds after pushed pc := by
  cases pc with
  | looping textPos sentencePos => exact Seen.grows h hg
  | polling textPos sentencePos => exact Seen.grows h hg
  | pushing textPos sentencePos events finished =>
    cases finished with
    | none => exact Seen.grows h hg
    | some finished =>
      rw [hg.complete h.2.1]
      exact h
  | finishing finish =>
    rw [hg.complete h.1]
    exact h
  | lastPush event =>
    rw [hg.complete h.1]
    exact h
  | ended =>
    rw [hg.complete h.1]
    exact h
  | leaving =>
    obtain ⟨textPos, sentencePos, hseen⟩ := h
    exact ⟨textPos, sentencePos, hseen.grows hg⟩
  | gaveUp =>
    obtain ⟨textPos, sentencePos, hseen⟩ := h
    exact ⟨textPos, sentencePos, hseen.grows hg⟩

theorem replayHolds_poll {reply : ReplyBuffer} {textPos sentencePos : ℕ}
    (h : Seen reply textPos sentencePos pushed) :
    ReplayHolds reply pushed (poll reply textPos sentencePos) := by
  have hpos : (if textPos < reply.text.length then reply.text.length else textPos) =
      reply.text.length := by
    have hle := h.text_le
    split <;> omega
  have htext : (if textPos < reply.text.length then reply.text.drop textPos else []) =
      reply.text.drop textPos := by
    split
    · rfl
    · next hge => exact (List.drop_of_length_le (Nat.not_lt.mp hge)).symm
  have hseen : Seen reply reply.text.length reply.sentences.length
      (pushed ++ (tokenEvents (reply.text.drop textPos) ++
        (reply.sentences.drop sentencePos).map .sentence)) := by
    refine ⟨le_rfl, le_rfl, ?_⟩
    simp only [contents_append, contents_tokenEvents, contents_sentences, h.contents, Contents.add,
      List.take_append_drop, List.append_nil, List.nil_append, List.take_length]
  rw [poll]
  simp only [hpos, htext, and_true]
  split
  · next hdone => exact ⟨hseen, hdone, rfl, rfl, rfl, rfl⟩
  · exact hseen

theorem ended_of_llmDone {reply : ReplyBuffer} {result : ChatResult}
    (h : ReplayHolds reply pushed pc) (hr : .llmDone result ∈ pushed) : pc = .ended := by
  have hmem : ∀ events, .llmDone result ∈ events → (contents events).dones ≠ [] := by
    intro events he hnil
    have hin : result ∈ events.filterMap ChatEvent.llmDone? :=
      List.mem_filterMap.mpr ⟨_, he, rfl⟩
    exact List.ne_nil_of_mem hin hnil
  cases pc with
  | looping textPos sentencePos => exact absurd (congrArg Contents.dones h.contents) (hmem _ hr)
  | polling textPos sentencePos => exact absurd (congrArg Contents.dones h.contents) (hmem _ hr)
  | pushing textPos sentencePos events finished =>
    have hr' := hmem _ (List.mem_append_left events hr)
    cases finished with
    | none => exact absurd (congrArg Contents.dones h.contents) hr'
    | some finished => exact absurd (congrArg Contents.dones h.1.contents) hr'
  | finishing finish => exact absurd (congrArg Contents.dones h.2.2) (hmem _ hr)
  | lastPush event => exact absurd (congrArg Contents.dones h.2.2) (hmem _ hr)
  | ended => rfl
  | leaving =>
    obtain ⟨_, _, hseen⟩ := h
    exact absurd (congrArg Contents.dones hseen.contents) (hmem _ hr)
  | gaveUp =>
    obtain ⟨_, _, hseen⟩ := h
    exact absurd (congrArg Contents.dones hseen.contents) (hmem _ hr)

theorem replayHolds_step {s t : State F} (h : ReplayHolds s.spec.reply s.history.pushed s.replay)
    (hstep : replayStep s = some t) : ReplayHolds s.spec.reply t.history.pushed t.replay := by
  unfold replayStep at hstep
  split at hstep
  case h_1 textPos sentencePos hpc =>
    cases hstep
    rw [hpc] at h
    cases s.abort with
    | false => exact h
    | true => exact ⟨textPos, sentencePos, h⟩
  case h_2 textPos sentencePos hpc =>
    cases hstep
    rw [hpc] at h
    exact replayHolds_poll h
  case h_3 textPos sentencePos event events finished hpc =>
    cases hstep
    rw [hpc] at h
    have happ : s.history.pushed ++ event :: events = (s.history.pushed ++ [event]) ++ events := by
      rw [List.append_assoc, List.singleton_append]
    cases finished with
    | none =>
      change Seen _ _ _ _
      rw [push, ← happ]
      exact h
    | some finished =>
      change Seen _ _ _ _ ∧ _
      rw [push, ← happ]
      exact h
  case h_4 textPos sentencePos hpc =>
    cases hstep
    rw [hpc, ReplayHolds, List.append_nil] at h
    exact h
  case h_5 textPos sentencePos finish rest hpc =>
    rw [hpc] at h
    obtain ⟨hseen, hdone, rfl, rfl, rfl, rfl⟩ := h
    have hcontents := hseen.contents
    rw [List.append_nil, List.take_length, List.take_length] at hcontents
    split at hstep
    · next hspeaks =>
      cases hstep
      refine ⟨hdone, rfl, ?_⟩
      have hpiece : contents [.sentence s.spec.reply.rest] = ⟨[], [s.spec.reply.rest], []⟩ := rfl
      rw [push, contents_append, hcontents, hpiece, ReplyBuffer.spoken, lastPiece, if_pos hspeaks]
      simp only [Contents.add, List.append_nil]
    · next hspeaks =>
      cases hstep
      refine ⟨hdone, rfl, ?_⟩
      rw [hcontents, ReplyBuffer.spoken, lastPiece, if_neg hspeaks, List.append_nil]
  case h_6 finish hpc =>
    cases hstep
    rw [hpc] at h
    obtain ⟨hdone, rfl, hcontents⟩ := h
    exact ⟨hdone, rfl, hcontents⟩
  case h_7 event hpc =>
    cases hstep
    rw [hpc] at h
    obtain ⟨hdone, rfl, hcontents⟩ := h
    have hend : contents [.llmDone s.spec.reply.result] = ⟨[], [], [s.spec.reply.result]⟩ := rfl
    refine ⟨hdone, List.getLast?_concat, ?_⟩
    rw [push, contents_append, hcontents, hend]
    simp only [Contents.add, List.append_nil, List.nil_append]
  case h_8 hpc =>
    cases hstep
    rw [hpc] at h
    exact h
  case h_9 => cases hstep
  case h_10 => cases hstep

structure ReplayFrame (s t : State F) : Prop where
  reply : t.spec.reply = s.spec.reply
  audio : t.spec.audio = s.spec.audio
  worker : t.worker = s.worker
  abort : t.abort = s.abort
  writer : t.writer = s.writer
  synths : t.synths = s.synths
  deltas : t.history.deltas = s.history.deltas
  specTake : t.history.specTake = s.history.specTake
  specSentence : t.history.specSentence = s.history.specSentence
  queue : ∃ events, t.queue = s.queue ++ events ∧ t.history.pushed = s.history.pushed ++ events

theorem replayStep_frame {s t : State F} (hstep : replayStep s = some t) : ReplayFrame s t := by
  have hnone : s.queue = s.queue ++ [] ∧ s.history.pushed = s.history.pushed ++ [] :=
    ⟨(List.append_nil _).symm, (List.append_nil _).symm⟩
  unfold replayStep at hstep
  split at hstep
  case h_3 event events finished hpc =>
    cases hstep
    exact ⟨rfl, rfl, rfl, rfl, rfl, rfl, rfl, rfl, rfl, [event], rfl, rfl⟩
  case h_5 finish rest hpc =>
    split at hstep <;> cases hstep
    · exact ⟨rfl, rfl, rfl, rfl, rfl, rfl, rfl, rfl, rfl, [.sentence rest], rfl, rfl⟩
    · exact ⟨rfl, rfl, rfl, rfl, rfl, rfl, rfl, rfl, rfl, [], hnone⟩
  case h_7 event hpc =>
    cases hstep
    exact ⟨rfl, rfl, rfl, rfl, rfl, rfl, rfl, rfl, rfl, [event], rfl, rfl⟩
  case h_9 => cases hstep
  case h_10 => cases hstep
  all_goals
    cases hstep
    exact ⟨rfl, rfl, rfl, rfl, rfl, rfl, rfl, rfl, rfl, [], hnone⟩

def ReplayPc.left : ReplayPc → Bool
  | .leaving | .gaveUp => true
  | _ => false

section

variable {s t : State F} (hstep : replayStep s = some t)
include hstep

theorem left_of_replayStep (hleft : t.replay.left = true) : s.abort = true ∨ s.replay.left = true := by
  unfold replayStep at hstep
  split at hstep
  case h_1 textPos sentencePos hpc =>
    cases hstep
    cases hab : s.abort with
    | false =>
      simp only [hab] at hleft
      cases hleft
    | true => exact .inl rfl
  case h_5 => split at hstep <;> cases hstep <;> cases hleft
  case h_8 hpc => exact .inr (by rw [hpc]; rfl)
  all_goals
    cases hstep
    try cases hleft

theorem specAbort_of_replayStep :
    (s.spec.abort = true → t.spec.abort = true) ∧
      (t.spec.abort = true → s.spec.abort = true ∨ t.replay = .gaveUp) := by
  unfold replayStep at hstep
  split at hstep
  case h_5 => split at hstep <;> cases hstep <;> exact ⟨id, .inl⟩
  case h_8 =>
    cases hstep
    exact ⟨fun _ => rfl, fun _ => .inr rfl⟩
  case h_9 => cases hstep
  case h_10 => cases hstep
  all_goals
    cases hstep
    exact ⟨id, .inl⟩

theorem not_over_of_replayStep : s.replay ≠ .ended ∧ s.replay ≠ .gaveUp := by
  constructor <;> intro he <;> rw [replayStep.eq_def, he] at hstep <;> cases hstep

end

/-! ## Runs -/

section Runs

variable {p : Params F} {s t : State F}

/-- What a step of the writer leaves alone, and where its flags come from. -/
structure WriterFrame (s t : State F) : Prop where
  reply : t.spec.reply = s.spec.reply
  specAbort : t.spec.abort = s.spec.abort
  worker : t.worker = s.worker
  replay : t.replay = s.replay
  synths : t.synths = s.synths
  history : t.history = s.history
  queue : ∃ events, s.queue = events ++ t.queue
  llmFinished : t.writer.llmFinished = true →
    s.writer.llmFinished = true ∨ ∃ result, .llmDone result ∈ s.queue
  abort : t.abort = true → s.abort = true ∨ s.writer.llmFinished = true
  stays : s.writer.llmFinished = true → t.writer.llmFinished = true
  runs : s.writer.pc ≠ .failed ∧ t.writer.pc ≠ .failed

theorem WriterFrame.own (hreply : t.spec.reply = s.spec.reply) (hab : t.spec.abort = s.spec.abort)
    (hworker : t.worker = s.worker) (hreplay : t.replay = s.replay) (hsynths : t.synths = s.synths)
    (hhistory : t.history = s.history) (hqueue : t.queue = s.queue)
    (hfin : t.writer.llmFinished = s.writer.llmFinished) (habort : t.abort = s.abort)
    (hbefore : s.writer.pc ≠ .failed) (hafter : t.writer.pc ≠ .failed) : WriterFrame s t :=
  ⟨hreply, hab, hworker, hreplay, hsynths, hhistory, ⟨[], hqueue.symm⟩, fun h => .inl (hfin ▸ h),
    fun h => .inl (habort ▸ h), fun h => hfin.trans h, hbefore, hafter⟩

structure ReplayInv (s : State F) : Prop where
  worker : s.HoldsAt s.worker.pc.phase
  replay : ReplayHolds s.spec.reply s.history.pushed s.replay
  queue : ∃ popped, s.history.pushed = popped ++ s.queue
  finished : s.writer.llmFinished = true → s.replay = .ended
  abort : s.abort = true → s.writer.llmFinished = true ∨ s.writer.pc = .failed
  left : s.replay.left = true → s.abort = true
  specAbort : s.spec.abort = true → s.replay = .gaveUp

theorem replayInv_initial : ReplayInv (initial : State F) where
  worker := ⟨rfl, rfl, rfl, rfl, rfl⟩
  replay := ⟨le_rfl, le_rfl, rfl⟩
  queue := ⟨[], rfl⟩
  finished := by
    intro h
    cases h
  abort := by
    intro h
    cases h
  left := by
    intro h
    cases h
  specAbort := by
    intro h
    cases h

theorem ReplayInv.abort_of_runs (h : ReplayInv s) (hrun : s.writer.pc ≠ .failed)
    (hab : s.abort = true) : s.replay = .ended :=
  h.finished ((h.abort hab).resolve_right hrun)

theorem holdsAt_congr {phase : Phase} (h : s.HoldsAt phase) (hreply : t.spec.reply = s.spec.reply)
    (hab : s.spec.abort = true → t.spec.abort = true) (hworker : t.worker = s.worker)
    (hdeltas : t.history.deltas = s.history.deltas) : t.HoldsAt phase := by
  have hmade : ∀ {made : Produced}, s.Made made → t.Made made := by
    intro made h
    exact ⟨hreply ▸ h.text, hreply ▸ h.sentences, hworker ▸ h.scrubber, hworker ▸ h.segmenter,
      hreply ▸ h.open_⟩
  have hcomplete : s.Complete → t.Complete := by
    intro h
    refine ⟨?_, ?_, ?_, hreply ▸ h.llmDone⟩ <;> rw [hdeltas, hreply]
    · exact h.text
    · exact h.sentences
    · exact h.rest
  cases phase with
  | streaming =>
    change State.Made _ _
    rw [hdeltas]
    exact hmade h
  | flushed =>
    change State.Made _ _
    rw [hdeltas]
    exact hmade h
  | complete => exact hcomplete h
  | gone => exact Or.imp hcomplete hab h

theorem emit_frame (scrubbed : Bytes × StreamScrubber) (result : Option ChatResult)
    (after : WorkerPc) :
    (emit s scrubbed result after).spec.abort = s.spec.abort ∧
      (emit s scrubbed result after).replay = s.replay ∧
      (emit s scrubbed result after).history.pushed = s.history.pushed ∧
      (emit s scrubbed result after).queue = s.queue ∧
      (emit s scrubbed result after).writer = s.writer ∧
      (emit s scrubbed result after).abort = s.abort := by
  rw [emit]
  split <;> exact ⟨rfl, rfl, rfl, rfl, rfl, rfl⟩

theorem workerStep_frame (h : WorkerStep p s t) : t.spec.abort = s.spec.abort ∧
    t.replay = s.replay ∧ t.history.pushed = s.history.pushed ∧ t.queue = s.queue ∧
    t.writer = s.writer ∧ t.abort = s.abort := by
  cases h with
  | delta text hpc => exact emit_frame (s := s.receive text) _ _ _
  | flushes result hpc => exact emit_frame _ _ _
  | trigger result hpc =>
    rw [earlyTrigger]
    split
    · split <;> exact ⟨rfl, rfl, rfl, rfl, rfl, rfl⟩
    · exact ⟨rfl, rfl, rfl, rfl, rfl, rfl⟩
  | _ => exact ⟨rfl, rfl, rfl, rfl, rfl, rfl⟩

theorem synthStep_frame {k : ℕ} (h : SynthStep s k t) : t.spec.reply = s.spec.reply ∧
    t.spec.abort = s.spec.abort ∧ t.worker = s.worker ∧ t.replay = s.replay ∧
    t.history.deltas = s.history.deltas ∧ t.history.pushed = s.history.pushed ∧
    t.queue = s.queue ∧ t.writer = s.writer ∧ t.abort = s.abort := by
  cases h <;> exact ⟨rfl, rfl, rfl, rfl, rfl, rfl, rfl, rfl, rfl⟩

variable [FloatOrder F]

theorem endAttempt_cases (verify : Bool) (wrong : Option (WrongTake F)) (a : Attempt F) :
    endAttempt p s verify wrong a = s.endSentence ∨
      ∃ pc, endAttempt p s verify wrong a = s.setWriter pc ∧ pc ≠ .failed := by
  cases wrong with
  | some wrong =>
    rw [endAttempt]
    split <;> exact .inr ⟨_, rfl, nofun⟩
  | none =>
    rw [endAttempt]
    split
    · split <;> exact .inr ⟨_, rfl, nofun⟩
    · exact .inl rfl

theorem writerFrame_of_step (h : WriterStep p s t) : WriterFrame s t := by
  cases h with
  | token text queue hq hpc =>
    have hrun : s.writer.pc ≠ .failed := by
      intro he
      rcases hpc with hpc | hpc <;> rw [he] at hpc <;> cases hpc
    exact ⟨rfl, rfl, rfl, rfl, rfl, rfl, ⟨[.token text], hq⟩, .inl, .inl, id,
      hrun, hrun⟩
  | unspoken text name queue hq hpc hempty =>
    have hrun : s.writer.pc ≠ .failed := by
      rw [hpc]
      exact nofun
    exact ⟨rfl, rfl, rfl, rfl, rfl, rfl, ⟨[.sentence text], hq⟩, .inl, .inl, id, hrun, hrun⟩
  | sentence text name queue hq hpc hspoken =>
    have hrun : s.writer.pc ≠ .failed := by
      rw [hpc]
      exact nofun
    rw [speak]
    split <;> exact ⟨rfl, rfl, rfl, rfl, rfl, rfl, ⟨[.sentence text], hq⟩, .inl, .inl, id, hrun,
      nofun⟩
  | llmDone result queue hq hpc =>
    have hrun : s.writer.pc ≠ .failed := by
      rw [hpc]
      exact nofun
    exact ⟨rfl, rfl, rfl, rfl, rfl, rfl, ⟨[.llmDone result], hq⟩,
      fun _ => .inr ⟨result, hq ▸ List.mem_cons_self⟩, .inl, fun _ => rfl, hrun, hrun⟩
  | ends hpc hq hfin =>
    exact ⟨rfl, rfl, rfl, rfl, rfl, rfl, ⟨[], rfl⟩, .inl, fun _ => .inr hfin, id,
      by rw [hpc]; exact nofun, nofun⟩
  | relayed spoken chunkPos finished hpc =>
    cases finished <;> exact .own rfl rfl rfl rfl rfl rfl rfl rfl rfl (by rw [hpc]; exact nofun)
      nofun
  | silent verify wrong a hpc =>
    have hrun : s.writer.pc ≠ .failed := by
      rw [hpc]
      exact nofun
    exact .own rfl rfl rfl rfl rfl rfl rfl rfl rfl hrun hrun
  | returns verify wrong a hpc hout =>
    have hrun : s.writer.pc ≠ .failed := by
      rw [hpc]
      exact nofun
    rcases endAttempt_cases (p := p) (s := s) verify wrong a with he | ⟨pc, he, hne⟩ <;> rw [he]
    · exact .own rfl rfl rfl rfl rfl rfl rfl rfl rfl hrun nofun
    · exact .own rfl rfl rfl rfl rfl rfl rfl rfl rfl hrun hne
  | _ =>
    have hrun : s.writer.pc ≠ .failed := by
      simp only [*]
      exact nofun
    exact .own rfl rfl rfl rfl rfl rfl rfl rfl rfl hrun nofun

theorem replayInv_step {a : Action F} (h : ReplayInv s) (hstep : step p s a = some t) :
    ReplayInv t := by
  cases a with
  | worker input =>
    have hw := workerStep_cases hstep
    obtain ⟨hworker, hgrows⟩ := holdsAt_workerStep h.worker hw
    obtain ⟨hab, hreplay, hpushed, hqueue, hwriter, habort⟩ := workerStep_frame hw
    refine ⟨hworker, ?_, ?_, ?_, ?_, ?_, ?_⟩
    · rw [hpushed, hreplay]
      exact h.replay.grows hgrows
    · rw [hqueue, hpushed]
      exact h.queue
    · rw [hwriter, hreplay]
      exact h.finished
    · rw [habort, hwriter]
      exact h.abort
    · rw [hreplay, habort]
      exact h.left
    · rw [hab, hreplay]
      exact h.specAbort
  | synth k input =>
    obtain ⟨hreply, hab, hworker, hreplay, hdeltas, hpushed, hqueue, hwriter, habort⟩ :=
      synthStep_frame (synthStep_cases hstep)
    refine ⟨?_, ?_, ?_, ?_, ?_, ?_, ?_⟩
    · rw [hworker]
      exact holdsAt_congr h.worker hreply (fun he => hab.trans he) hworker hdeltas
    · rw [hreply, hpushed, hreplay]
      exact h.replay
    · rw [hqueue, hpushed]
      exact h.queue
    · rw [hwriter, hreplay]
      exact h.finished
    · rw [habort, hwriter]
      exact h.abort
    · rw [hreplay, habort]
      exact h.left
    · rw [hab, hreplay]
      exact h.specAbort
  | replay =>
    have hf := replayStep_frame hstep
    obtain ⟨hmono, hgave⟩ := specAbort_of_replayStep hstep
    obtain ⟨hended, hgaveUp⟩ := not_over_of_replayStep hstep
    obtain ⟨popped, hpopped⟩ := h.queue
    obtain ⟨events, hqueue, hpushed⟩ := hf.queue
    refine ⟨?_, ?_, ⟨popped, ?_⟩, ?_, ?_, ?_, ?_⟩
    · rw [hf.worker]
      exact holdsAt_congr h.worker hf.reply hmono hf.worker hf.deltas
    · rw [hf.reply]
      exact replayHolds_step h.replay hstep
    · rw [hqueue, hpushed, hpopped, List.append_assoc]
    · intro hfin
      rw [hf.writer] at hfin
      exact absurd (h.finished hfin) hended
    · rw [hf.abort, hf.writer]
      exact h.abort
    · intro hleft
      rw [hf.abort]
      exact (left_of_replayStep hstep hleft).elim id h.left
    · intro hab
      exact (hgave hab).elim (fun he => absurd (h.specAbort he) hgaveUp) id
  | writer input =>
    rcases writerStep_cases hstep with hw | ⟨_, rfl⟩
    · have hf := writerFrame_of_step hw
      obtain ⟨popped, hpopped⟩ := h.queue
      obtain ⟨events, hqueue⟩ := hf.queue
      refine ⟨?_, ?_, ⟨popped ++ events, ?_⟩, ?_, ?_, ?_, ?_⟩
      · rw [hf.worker]
        exact holdsAt_congr h.worker hf.reply (fun he => hf.specAbort.trans he) hf.worker
          (congrArg History.deltas hf.history)
      · rw [hf.reply, hf.history, hf.replay]
        exact h.replay
      · rw [hf.history, hpopped, hqueue, List.append_assoc]
      · intro hfin
        rw [hf.replay]
        rcases hf.llmFinished hfin with hfin | ⟨result, hr⟩
        · exact h.finished hfin
        · exact ended_of_llmDone h.replay (hpopped ▸ List.mem_append_right _ hr)
      · intro hab
        have hfin : s.writer.llmFinished = true := by
          rcases hf.abort hab with hab | hfin
          · exact (h.abort hab).resolve_right hf.runs.1
          · exact hfin
        exact .inl (hf.stays hfin)
      · intro hleft
        rw [hf.replay] at hleft
        have hfin := (h.abort (h.left hleft)).resolve_right hf.runs.1
        rw [h.finished hfin] at hleft
        cases hleft
      · rw [hf.specAbort, hf.replay]
        exact h.specAbort
    · exact ⟨holdsAt_congr h.worker rfl id rfl rfl, h.replay, h.queue, h.finished,
        fun _ => .inr rfl, fun _ => rfl, h.specAbort⟩

theorem replayInv_of_reaches {P : State F → Action F → Prop}
    (h : Reaches (step p) P initial s) : ReplayInv s :=
  h.invariant replayInv_initial fun _ _ _ hs _ hstep => replayInv_step hs hstep

/-- No step breaks the stream off: the client stays, and the writer's own syntheses succeed. -/
def Unbroken (_ : State F) : Action F → Prop
  | .writer input => input.breaks = false
  | _ => True

theorem not_failed_of_reaches (h : Reaches (step p) Unbroken initial s) :
    s.writer.pc ≠ .failed := by
  induction h with
  | start => exact nofun
  | @next s t a _ ha hstep hs =>
    cases a with
    | worker input =>
      obtain ⟨_, _, _, _, hwriter, _⟩ := workerStep_frame (workerStep_cases hstep)
      rw [hwriter]
      exact hs
    | synth k input =>
      obtain ⟨_, _, _, _, _, _, _, hwriter, _⟩ := synthStep_frame (synthStep_cases hstep)
      rw [hwriter]
      exact hs
    | replay =>
      rw [(replayStep_frame hstep).writer]
      exact hs
    | writer input =>
      rcases writerStep_cases hstep with hw | ⟨hbreaks, _⟩
      · exact (writerFrame_of_step hw).runs.2
      · exact absurd (hbreaks.symm.trans ha) nofun

/-! ## The replay comes to its end -/

def OnlyReplay (_ : State F) (a : Action F) : Prop := a = .replay

/-- The replay thread alone gets to its end, over an unchanged buffer. -/
def Finishes (p : Params F) (s : State F) : Prop :=
  ∃ t, Reaches (step p) OnlyReplay s t ∧ t.replay = .ended ∧ t.spec.reply = s.spec.reply

theorem Finishes.step (h : Finishes p t) (hstep : step p s .replay = some t)
    (hreply : t.spec.reply = s.spec.reply) : Finishes p s := by
  obtain ⟨u, hu, hended, he⟩ := h
  exact ⟨u, Reaches.trans (.next .start rfl hstep) hu, hended, he.trans hreply⟩

theorem finishes_lastPush {event : ChatEvent} (hpc : s.replay = .lastPush event) :
    Finishes p s := by
  have hstep : step p s .replay = some (push s event .ended) := by
    rw [step, replayStep.eq_def, hpc]
  exact ⟨_, .next .start rfl hstep, rfl, rfl⟩

theorem finishes_finishing {finish : Bytes} (hpc : s.replay = .finishing finish) :
    Finishes p s := by
  let event := ChatEvent.llmDone ⟨s.spec.reply.result.ok, s.spec.reply.result.error, finish⟩
  have hstep : step p s .replay = some { s with replay := .lastPush event } := by
    rw [step, replayStep.eq_def, hpc]
  exact Finishes.step (finishes_lastPush rfl) hstep rfl

variable {textPos sentencePos : ℕ}

theorem finishes_pushing {finished : Bytes × Bytes} (events : List ChatEvent)
    (hpc : s.replay = .pushing textPos sentencePos events (some finished)) : Finishes p s := by
  induction events generalizing s with
  | nil =>
    have hstep : step p s .replay = if speaksRest finished.1 finished.2 then
        some (push s (.sentence finished.2) (.finishing finished.1))
        else some { s with replay := .finishing finished.1 } := by
      rw [step, replayStep.eq_def, hpc]
    split at hstep
    · exact Finishes.step (finishes_finishing rfl) hstep rfl
    · exact Finishes.step (finishes_finishing rfl) hstep rfl
  | cons event events ih =>
    refine Finishes.step (ih (s := push s event (.pushing textPos sentencePos events
      (some finished))) rfl) ?_ rfl
    rw [step, replayStep.eq_def, hpc]

theorem finishes_polling (hdone : s.spec.reply.llmDone = true)
    (hle : textPos ≤ s.spec.reply.text.length) (hpc : s.replay = .polling textPos sentencePos) :
    Finishes p s := by
  have hpos : (if textPos < s.spec.reply.text.length then s.spec.reply.text.length else textPos) =
      s.spec.reply.text.length := by
    split <;> omega
  have hpoll : ∃ events, poll s.spec.reply textPos sentencePos =
      .pushing s.spec.reply.text.length s.spec.reply.sentences.length events
        (some (s.spec.reply.result.finishReason, s.spec.reply.rest)) := by
    simp only [poll, hdone, hpos, and_self, if_true]
    exact ⟨_, rfl⟩
  obtain ⟨events, hpoll⟩ := hpoll
  have hstep : step p s .replay =
      some { s with replay := poll s.spec.reply textPos sentencePos } := by
    rw [step, replayStep.eq_def, hpc]
  exact Finishes.step (finishes_pushing events hpoll) hstep rfl

theorem finishes_looping (h : ReplayInv s) (hrun : s.writer.pc ≠ .failed)
    (hdone : s.spec.reply.llmDone = true) (hpc : s.replay = .looping textPos sentencePos) :
    Finishes p s := by
  have hseen : Seen s.spec.reply textPos sentencePos s.history.pushed := by
    have hr := h.replay
    rw [hpc] at hr
    exact hr
  have hoff : s.abort = false := by
    cases hb : s.abort with
    | false => rfl
    | true =>
      have he := h.abort_of_runs hrun hb
      rw [hpc] at he
      cases he
  have hstep : step p s .replay = some { s with replay := .polling textPos sentencePos } := by
    rw [step, replayStep.eq_def, hpc]
    simp only [hoff, Bool.false_eq_true, if_false]
  exact Finishes.step (finishes_polling (s := { s with replay := .polling textPos sentencePos })
    hdone hseen.text_le rfl) hstep rfl

theorem finishes_round (h : ReplayInv s) (hrun : s.writer.pc ≠ .failed) (events : List ChatEvent)
    (hdone : s.spec.reply.llmDone = true)
    (hpc : s.replay = .pushing textPos sentencePos events none) : Finishes p s := by
  induction events generalizing s with
  | nil =>
    have hstep : step p s .replay = some { s with replay := .looping textPos sentencePos } := by
      rw [step, replayStep.eq_def, hpc]
    exact Finishes.step (finishes_looping (replayInv_step h hstep) hrun hdone rfl) hstep rfl
  | cons event events ih =>
    have hstep : step p s .replay =
        some (push s event (.pushing textPos sentencePos events none)) := by
      rw [step, replayStep.eq_def, hpc]
    exact Finishes.step (ih (replayInv_step h hstep) hrun hdone rfl) hstep rfl

theorem finishes_of_llmDone (h : ReplayInv s) (hrun : s.writer.pc ≠ .failed)
    (hdone : s.spec.reply.llmDone = true) : Finishes p s := by
  have hr := h.replay
  have hstay : s.replay.left ≠ true := by
    intro hleft
    rw [h.abort_of_runs hrun (h.left hleft)] at hleft
    cases hleft
  cases hpc : s.replay with
  | looping textPos sentencePos => exact finishes_looping h hrun hdone hpc
  | polling textPos sentencePos =>
    rw [hpc] at hr
    exact finishes_polling hdone hr.text_le hpc
  | pushing textPos sentencePos events finished =>
    cases finished with
    | none => exact finishes_round h hrun events hdone hpc
    | some finished => exact finishes_pushing events hpc
  | finishing finish => exact finishes_finishing hpc
  | lastPush event => exact finishes_lastPush hpc
  | ended => exact ⟨s, .start, hpc, rfl⟩
  | leaving => exact absurd (by rw [hpc]; rfl) hstay
  | gaveUp => exact absurd (by rw [hpc]; rfl) hstay

/-! ## What is delivered -/

theorem ReplayHolds.part {reply : ReplyBuffer} {pushed : List ChatEvent} {pc : ReplayPc}
    (h : ReplayHolds reply pushed pc) : (contents pushed).text <+: reply.text ∧
      (contents pushed).sentences <+: reply.spoken ∧ (contents pushed).dones.length ≤ 1 := by
  have hseen : ∀ {textPos sentencePos : ℕ} (events : List ChatEvent),
      Seen reply textPos sentencePos (pushed ++ events) → (contents pushed).text <+: reply.text ∧
        (contents pushed).sentences <+: reply.spoken ∧ (contents pushed).dones.length ≤ 1 := by
    intro textPos sentencePos events hs
    have hc := hs.contents
    rw [contents_append, Contents.add, Contents.mk.injEq] at hc
    obtain ⟨htext, hsentences, hdones⟩ := hc
    refine ⟨?_, ?_, ?_⟩
    · exact (htext ▸ List.prefix_append _ _).trans (List.take_prefix _ _)
    · have hpart : (contents pushed).sentences <+: reply.sentences :=
        (hsentences ▸ List.prefix_append _ _).trans (List.take_prefix _ _)
      exact hpart.trans (List.prefix_append _ _)
    · rw [(List.append_eq_nil_iff.mp hdones).1]
      exact Nat.zero_le _
  have hall : ∀ dones : List ChatResult, dones.length ≤ 1 →
      contents pushed = ⟨reply.text, reply.spoken, dones⟩ →
        (contents pushed).text <+: reply.text ∧ (contents pushed).sentences <+: reply.spoken ∧
          (contents pushed).dones.length ≤ 1 := by
    intro dones hle hc
    rw [hc]
    exact ⟨List.prefix_rfl, List.prefix_rfl, hle⟩
  cases pc with
  | looping textPos sentencePos => exact hseen [] ((List.append_nil pushed).symm ▸ h)
  | polling textPos sentencePos => exact hseen [] ((List.append_nil pushed).symm ▸ h)
  | pushing textPos sentencePos events finished =>
    cases finished with
    | none => exact hseen events h
    | some finished => exact hseen events h.1
  | finishing finish => exact hall [] (Nat.zero_le 1) h.2.2
  | lastPush event => exact hall [] (Nat.zero_le 1) h.2.2
  | ended => exact hall [reply.result] le_rfl h.2.2
  | leaving =>
    obtain ⟨_, _, hs⟩ := h
    exact hseen [] ((List.append_nil pushed).symm ▸ hs)
  | gaveUp =>
    obtain ⟨_, _, hs⟩ := h
    exact hseen [] ((List.append_nil pushed).symm ▸ hs)

/-- In every run that is not broken off, the events pushed so far are a part of the reply; the
replay does not give up; once it is through it has pushed the whole reply with one end at the end,
which is what the live path pushes for these deltas; and after `llm_done` it gets through. -/
theorem replay_delivers_reply (h : Reaches (step p) Unbroken initial s) :
    ((contents s.history.pushed).text <+: s.spec.reply.text ∧
      (contents s.history.pushed).sentences <+: s.spec.reply.spoken ∧
      (contents s.history.pushed).dones.length ≤ 1) ∧
    (s.replay ≠ .leaving ∧ s.replay ≠ .gaveUp) ∧
    (s.replay = .ended → s.spec.reply.llmDone = true ∧
      s.history.pushed.getLast? = some (.llmDone s.spec.reply.result) ∧
      contents s.history.pushed = ⟨s.spec.reply.text, s.spec.reply.spoken, [s.spec.reply.result]⟩ ∧
      contents s.history.pushed =
        contents (livePath speculationOptions s.history.deltas s.spec.reply.result)) ∧
    (s.spec.reply.llmDone = true → Finishes p s) := by
  have hinv := replayInv_of_reaches h
  have hrun := not_failed_of_reaches h
  have hr := hinv.replay
  refine ⟨hr.part, ?_, ?_, finishes_of_llmDone hinv hrun⟩
  · cases hleft : s.replay.left with
    | false => constructor <;> intro he <;> rw [he] at hleft <;> cases hleft
    | true =>
      have he := hinv.abort_of_runs hrun (hinv.left hleft)
      rw [he]
      exact ⟨nofun, nofun⟩
  · intro hended
    rw [hended] at hr
    obtain ⟨hdone, hlast, hcontents⟩ := hr
    have hcomplete : s.Complete := by
      have hw := hinv.worker
      generalize s.worker.pc.phase = phase at hw
      cases phase with
      | streaming => exact absurd (hdone.symm.trans hw.open_) nofun
      | flushed => exact absurd (hdone.symm.trans hw.open_) nofun
      | complete => exact hw
      | gone =>
        refine hw.resolve_right ?_
        intro hab
        have hgave := hinv.specAbort hab
        rw [hended] at hgave
        cases hgave
    refine ⟨hdone, hlast, hcontents, ?_⟩
    rw [hcontents, contents_livePath, ReplyBuffer.spoken, hcomplete.text, hcomplete.sentences,
      hcomplete.rest]

end Runs

/-! ## Two runs -/

def plainParams : Params ℚ := ⟨false, false, fun _ _ => 0⟩

/-- The worker streams a reply in two deltas, up to `llm_done`. -/
def streamsReply : List (Action ℚ) :=
  [.worker .go, .worker (.delta (bytes "Hi there. And")), .worker .go, .worker .go,
    .worker (.delta (bytes " so on")), .worker .go, .worker .go,
    .worker (.streamEnds ⟨true, [], bytes "stop"⟩), .worker .go, .worker .go, .worker .go]

def replays (k : ℕ) : List (Action ℚ) := List.replicate k .replay

def wholeReply : List (Action ℚ) := streamsReply ++ replays 7

def unbroken : Action ℚ → Bool
  | .writer input => !input.breaks
  | _ => true

theorem unbroken_of_test (s : State ℚ) (a : Action ℚ) (h : unbroken a = true) : Unbroken s a := by
  cases a with
  | writer input => exact Bool.not_eq_true' _ |>.mp h
  | _ => trivial

theorem replay_delivers_reply_wholeReply : ∃ s, Reaches (step plainParams) Unbroken initial s ∧
    s.history.deltas = [bytes "Hi there. And", bytes " so on"] ∧
    contents s.history.pushed =
      contents (livePath speculationOptions s.history.deltas s.spec.reply.result) := by
  let test := fun s : State ℚ => decide (s.replay = .ended ∧
    s.history.deltas = [bytes "Hi there. And", bytes " so on"])
  have hrun : (replay (step plainParams) (fun _ => unbroken) initial wholeReply).any test = true := by
    decide
  obtain ⟨s, hs, ht⟩ := exists_reached unbroken_of_test hrun
  obtain ⟨hended, hdeltas⟩ := of_decide_eq_true ht
  exact ⟨s, hs, hdeltas, ((replay_delivers_reply hs).2.2.1 hended).2.2.2⟩

def Connected (_ : State F) : Action F → Prop
  | .writer .disconnects => False
  | _ => True

def connected : Action ℚ → Bool
  | .writer .disconnects => false
  | _ => true

/-- The first sentence is replayed; its synthesis on the writer thread fails; the replay thread sees
the abort and leaves, and only then the reply is generated to its end. -/
def failedSynthesis : List (Action ℚ) :=
  streamsReply.take 3 ++ replays 5 ++
    [.writer (.go []), .writer (.go []), .writer (.go []), .writer .synthesisFails] ++ replays 2 ++
    [.worker (.streamEnds ⟨true, [], bytes "stop"⟩), .worker .go, .worker .go]

/-- "As long as the client stays, a replay that is over has pushed the whole reply" is false. -/
theorem replay_ends_early : ¬ ∀ s, Reaches (step plainParams) Connected initial s →
    s.replay = .ended ∨ s.replay = .gaveUp →
    contents s.history.pushed =
      contents (livePath speculationOptions s.history.deltas s.spec.reply.result) := by
  intro hall
  have hok : ∀ (s : State ℚ) (a : Action ℚ), connected a = true → Connected s a := by
    intro s a ha
    cases a with
    | writer input =>
      cases input with
      | disconnects => cases ha
      | _ => trivial
    | _ => trivial
  let test := fun s : State ℚ => decide (s.replay = .gaveUp ∧ contents s.history.pushed ≠
    contents (livePath speculationOptions s.history.deltas s.spec.reply.result))
  have hrun : (replay (step plainParams) (fun _ => connected) initial failedSynthesis).any test =
      true := by
    decide
  obtain ⟨s, hs, ht⟩ := exists_reached hok hrun
  obtain ⟨hgave, hne⟩ := of_decide_eq_true ht
  exact hne (hall s hs (.inr hgave))

end FastTts.Reply
