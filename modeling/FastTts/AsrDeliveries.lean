import FastTts.AsrStream

/-!
# What a stream of recognition delivers

A call of `process_audio_chunk` hands its texts to the sink one by one. Without a sink it returns
the event of its last window, so what the windows before that one said is delivered by nobody.
-/

namespace FastTts.AsrStream

open Tasks
open SpeechStream (AudioBuffer)

variable {Sample F : Type} {rt : Runtime Sample F}

/-! ## Calls and deliveries -/

def StreamEvent.delta (event : StreamEvent) : Bytes :=
  (event.partialText.map Transcript.text).getD []

def deltas (events : List StreamEvent) : Bytes := events.flatMap StreamEvent.delta

/-- A chunk that is fed while a sink is set, or while there is none. -/
structure Call (Sample : Type) where
  hasSink : Bool
  chunk : AudioChunk Sample

def Session.withSink (s : Session Sample) (hasSink : Bool) : Session Sample :=
  { s with hasSink := hasSink }

/-- The events that a call delivers are those for the sink and the one that it returns. -/
def Session.call (rt : Runtime Sample F) (s : Session Sample) (call : Call Sample) :
    Except Exception (Session Sample × List StreamEvent) := do
  let (s', event) ← (s.withSink call.hasSink).processAudioChunk rt call.chunk
  return (s', s'.published.drop s.published.length ++ [event])

def Session.calls (rt : Runtime Sample F) : Session Sample → List (Call Sample) →
    Except Exception (Session Sample × List StreamEvent)
  | s, [] => .ok (s, [])
  | s, call :: rest => do
    let (s, events) ← s.call rt call
    let (s, later) ← Session.calls rt s rest
    return (s, events ++ later)

/-! ## Windows of a call -/

/-- The windows that are complete in a buffer behind an offset. -/
def fullWindows (frames : ℕ) (audio : AudioBuffer Sample) (offset : ℕ) :
    List (AudioBuffer Sample) :=
  (Blocks.rowsOf (frames * audio.channels.toNat)
    ((audio.samples.length - offset) / audio.channels.toNat / frames)
      (audio.samples.drop offset)).map fun samples => { audio with samples := samples }

def Session.completed (rt : Runtime Sample F) (s : Session Sample) (chunk : AudioChunk Sample) :
    Except Exception (List (AudioBuffer Sample)) := do
  let audio ← appendAudioBuffer s.dropDrained.streamingAudio
    ⟨chunk.sampleRate, chunk.channels, chunk.samples⟩
  let frames ← windowFrames rt s.streamingRequest.options audio.sampleRate
  return fullWindows frames.toNat audio s.dropDrained.streamingAudioOffsetValues

/-- Nothing is recognised in a window. -/
def Silent (rt : Runtime Sample F) (request : TaskRequest Sample) (window : AudioBuffer Sample) :
    Prop :=
  ∀ asrRequest, makeRequest rt (itemRequest request window) = .ok asrRequest →
    ((rt.runSingle asrRequest).textOutput.map Transcript.text).getD [] = []

/-- With a sink, or nothing is recognised before the last window that the chunk completes. -/
def Keeps (rt : Runtime Sample F) (s : Session Sample) (call : Call Sample) : Prop :=
  call.hasSink = true ∨ ∀ windows, s.completed rt call.chunk = .ok windows →
    ∀ window ∈ windows.dropLast, Silent rt s.streamingRequest window

def AllKeep (rt : Runtime Sample F) : Session Sample → List (Call Sample) → Prop
  | _, [] => True
  | s, call :: rest =>
    Keeps rt s call ∧ ∀ s' events, s.call rt call = .ok (s', events) → AllKeep rt s' rest

/-! ## One window -/

/-- Everything that has been said is published. -/
def Caught (s : Session Sample) : Prop := s.streamingPublishedBytes = s.streamingText.length

structure SameStream (s s' : Session Sample) : Prop where
  request : s'.streamingRequest = s.streamingRequest
  audio : s'.streamingAudio = s.streamingAudio
  offset : s'.streamingAudioOffsetValues = s.streamingAudioOffsetValues
  sink : s'.hasSink = s.hasSink
  published : s'.published = s.published

variable {s s' : Session Sample} {event event' : StreamEvent} {final : Bool} {fuel n n' frames : ℕ}

theorem hear_caught (h : Caught s) (item : TaskResult) :
    Caught (s.hear item).1 ∧ SameStream s (s.hear item).1 ∧
      (s.hear item).1.streamingText = s.streamingText ++ (s.hear item).2.delta ∧
        ((s.hear item).2.delta = [] ↔ (item.textOutput.map Transcript.text).getD [] = []) := by
  cases hitem : item.textOutput with
  | none =>
      rw [Session.hear, hitem]
      exact ⟨h, ⟨rfl, rfl, rfl, rfl, rfl⟩, (List.append_nil _).symm, by simp [StreamEvent.delta]⟩
  | some heard =>
      by_cases hempty : heard.text = []
      · rw [Session.hear, hitem]
        simp only [if_pos hempty]
        exact ⟨h, ⟨rfl, rfl, rfl, rfl, rfl⟩, (List.append_nil _).symm,
          by simp [StreamEvent.delta, hempty]⟩
      · set added := if s.streamingText = [] then heard.text else 0x20 :: heard.text with hadded
        have hne : added ≠ [] := by
          rw [hadded]
          split_ifs <;> simp [hempty]
        have hlt : s.streamingPublishedBytes < (s.streamingText ++ added).length := by
          have hpos := List.length_pos_iff.mpr hne
          rw [h, List.length_append]
          omega
        rw [Session.hear, hitem]
        simp only [if_neg hempty]
        rw [← hadded, if_pos hlt, h, List.drop_left]
        exact ⟨rfl, ⟨rfl, rfl, rfl, rfl, rfl⟩, rfl, by simp [StreamEvent.delta, hne, hempty]⟩

variable {audio : AudioBuffer Sample} {events : List StreamEvent}

theorem processOne_caught (h : Caught s)
    (hrun : s.processOneStreamChunk rt audio = .ok (s', event)) :
    Caught s' ∧ SameStream s s' ∧ s'.streamingText = s.streamingText ++ event.delta ∧
      (event.delta = [] ↔ Silent rt s.streamingRequest audio) := by
  obtain ⟨asrRequest, hmake, hrun⟩ := except_bind_ok hrun
  have heard := hear_caught (s := { s with transcribed := s.transcribed ++ [audio] }) h
    (rt.runSingle asrRequest)
  obtain ⟨hcaught, hsame, htext, hsilent⟩ := heard
  obtain ⟨rfl, rfl⟩ := Prod.mk.inj (Except.ok.inj hrun)
  refine ⟨hcaught, ⟨hsame.request, hsame.audio, hsame.offset, hsame.sink, hsame.published⟩, htext,
    hsilent.trans ⟨fun hnone other hother => ?_, fun hnone => hnone asrRequest hmake⟩⟩
  rw [hmake] at hother
  rwa [← Except.ok.inj hother]

/-! ## The windows of a call -/

/-- The window that is read next, and the session behind it. -/
def Session.nextWindow (s : Session Sample) (take : ℕ) : AudioBuffer Sample :=
  { s.streamingAudio with
    samples := (s.streamingAudio.samples.drop s.streamingAudioOffsetValues).take take }

def Session.reads (s : Session Sample) (take : ℕ) : Session Sample :=
  { s with streamingAudioOffsetValues := s.streamingAudioOffsetValues + take }

def Session.counts (s : Session Sample) : Session Sample :=
  { s with streamingWindowsProcessed := s.streamingWindowsProcessed + 1 }

def Session.pendingFrames (s : Session Sample) : ℕ :=
  (s.streamingAudio.samples.length - s.streamingAudioOffsetValues) /
    s.streamingAudio.channels.toNat

def Session.takes (s : Session Sample) (final : Bool) (frames : ℤ) : ℕ :=
  ((if final then min (s.pendingFrames : ℤ) frames else frames) * s.streamingAudio.channels).toNat

theorem streamWindows_succ {frames : ℤ}
    (hrun : streamWindows rt final frames (fuel + 1) s event n = .ok (s', event', n')) :
    (((s.pendingFrames : ℤ) ≤ 0 ∨ final = false ∧ (s.pendingFrames : ℤ) < frames) ∧
        s' = s ∧ event' = event) ∨
      ¬((s.pendingFrames : ℤ) ≤ 0 ∨ final = false ∧ (s.pendingFrames : ℤ) < frames) ∧
        ∃ next heard, (s.reads (s.takes final frames)).processOneStreamChunk rt
            (s.nextWindow (s.takes final frames)) = .ok (next, heard) ∧
          streamWindows rt final frames fuel
            (if next.hasSink = true ∧ heard.partialText ≠ none then
              { next.counts with published := next.published ++ [heard] } else next.counts)
            (if next.hasSink = true ∧ heard.partialText ≠ none then
              { heard with partialText := none } else heard) (n + 1) = .ok (s', event', n') := by
  by_cases hstop : (s.pendingFrames : ℤ) ≤ 0 ∨ final = false ∧ (s.pendingFrames : ℤ) < frames
  · replace hrun := (if_pos hstop).symm.trans hrun
    obtain ⟨rfl, hrest⟩ := Prod.mk.inj (Except.ok.inj hrun)
    exact .inl ⟨hstop, rfl, (Prod.mk.inj hrest).1.symm⟩
  · replace hrun := (if_neg hstop).symm.trans hrun
    obtain ⟨⟨next, heard⟩, hone, hrun⟩ := except_bind_ok hrun
    refine .inr ⟨hstop, next, heard, hone, ?_⟩
    by_cases hsink : next.hasSink = true ∧ heard.partialText ≠ none
    · rw [if_pos hsink, if_pos hsink]
      exact (if_pos hsink).symm.trans hrun
    · rw [if_neg hsink, if_neg hsink]
      exact (if_neg hsink).symm.trans hrun

theorem streamWindows_sink {frames : ℤ} (h : Caught s) (hsink : s.hasSink = true)
    (hevent : event.delta = [])
    (hrun : streamWindows rt final frames fuel s event n = .ok (s', event', n')) :
    Caught s' ∧ s'.hasSink = true ∧ event'.delta = [] ∧ ∃ new, s'.published = s.published ++ new ∧
      s'.streamingText = s.streamingText ++ deltas new := by
  induction fuel generalizing n s event with
  | zero =>
      obtain ⟨rfl, hrest⟩ := Prod.mk.inj (Except.ok.inj hrun)
      obtain ⟨rfl, -⟩ := Prod.mk.inj hrest
      exact ⟨h, hsink, hevent, [], by simp [deltas]⟩
  | succ fuel ih =>
      obtain ⟨-, rfl, rfl⟩ | ⟨-, next, heard, hone, hmore⟩ := streamWindows_succ hrun
      · exact ⟨h, hsink, hevent, [], by simp [deltas]⟩
      · obtain ⟨hcaught, hsame, htext, -⟩ := processOne_caught (s := s.reads _) h hone
        have hnext : next.hasSink = true := hsame.sink.trans hsink
        by_cases hrest : heard.partialText = none
        · have hsilent : heard.delta = [] := by rw [StreamEvent.delta, hrest]; rfl
          rw [if_neg (by simp [hrest]), if_neg (by simp [hrest])] at hmore
          obtain ⟨hcaught', hsink', hevent', new, hpublished, hadded⟩ :=
            ih (s := next.counts) hcaught hnext hsilent hmore
          refine ⟨hcaught', hsink', hevent', new, ?_, ?_⟩
          · rw [hpublished]
            exact congrArg (· ++ new) hsame.published
          · rw [hadded, Session.counts, htext, hsilent, List.append_nil]
            rfl
        · rw [if_pos ⟨hnext, hrest⟩, if_pos ⟨hnext, hrest⟩] at hmore
          obtain ⟨hcaught', hsink', hevent', new, hpublished, hadded⟩ :=
            ih (s := { next.counts with published := next.published ++ [heard] }) hcaught hnext rfl
              hmore
          refine ⟨hcaught', hsink', hevent', heard :: new, ?_, ?_⟩
          · rw [hpublished, hsame.published, List.append_assoc]
            rfl
          · rw [hadded, Session.counts, htext, List.append_assoc]
            rfl

theorem fullWindows_eq_nil (h : s.pendingFrames < frames) :
    fullWindows frames s.streamingAudio s.streamingAudioOffsetValues = [] := by
  have hnone : (s.streamingAudio.samples.length - s.streamingAudioOffsetValues) /
      s.streamingAudio.channels.toNat / frames = 0 := Nat.div_eq_of_lt h
  rw [fullWindows, hnone]
  rfl

theorem fullWindows_eq_cons (hframes : 0 < frames) (hchannels : 0 < s.streamingAudio.channels)
    (h : frames ≤ s.pendingFrames) :
    fullWindows frames s.streamingAudio s.streamingAudioOffsetValues =
      s.nextWindow (frames * s.streamingAudio.channels.toNat) :: fullWindows frames s.streamingAudio
          (s.streamingAudioOffsetValues + frames * s.streamingAudio.channels.toNat) := by
  set channels := s.streamingAudio.channels.toNat with hc
  have hpos : 0 < channels := by omega
  set unread := s.streamingAudio.samples.length - s.streamingAudioOffsetValues with hunread
  have hcount : unread / channels / frames =
      (unread - frames * channels) / channels / frames + 1 := by
    rw [Nat.div_div_eq_div_mul, Nat.div_div_eq_div_mul, Nat.mul_comm frames]
    have hle : channels * frames ≤ unread :=
      (Nat.mul_le_mul_left channels h).trans (Nat.mul_div_le unread channels)
    exact Nat.div_eq_sub_div (Nat.mul_pos hpos hframes) hle
  have hless : s.streamingAudio.samples.length -
      (s.streamingAudioOffsetValues + frames * channels) = unread - frames * channels := by
    omega
  rw [fullWindows, fullWindows, ← hc, ← hunread, hcount, hless, Blocks.rowsOf, List.range_succ_eq_map,
    List.map_cons, List.map_cons, List.map_map, List.map_map, Blocks.rowsOf, List.map_map]
  congr 1
  · rw [Blocks.slice, Nat.zero_mul, List.drop_zero]
    rfl
  · refine List.map_congr_left fun b _ => ?_
    simp only [Function.comp_apply, Blocks.slice, List.drop_drop]
    congr 3
    rw [Nat.succ_mul]
    omega

theorem takes_plain (s : Session Sample) :
    s.takes false frames = frames * s.streamingAudio.channels.toNat := by
  unfold Session.takes
  rw [if_neg Bool.false_ne_true]
  rcases Int.le_total 0 s.streamingAudio.channels with hle | hle
  · rw [Int.toNat_mul (Int.natCast_nonneg _) hle, Int.toNat_natCast]
  · rw [Int.toNat_of_nonpos hle, Nat.mul_zero]
    exact Int.toNat_of_nonpos (Int.mul_nonpos_of_nonneg_of_nonpos (Int.natCast_nonneg _) hle)

theorem streamWindows_plain (hframes : 0 < frames) (hchannels : 0 < s.streamingAudio.channels)
    (h : Caught s) (hsink : s.hasSink = false)
    (hfuel : s.streamingAudio.samples.length - s.streamingAudioOffsetValues ≤ fuel)
    (hrun : streamWindows rt false frames fuel s event n = .ok (s', event', n')) :
    Caught s' ∧ s'.published = s.published ∧
      ((fullWindows frames s.streamingAudio s.streamingAudioOffsetValues = [] ∧
          s'.streamingText = s.streamingText ∧ event' = event) ∨
        (fullWindows frames s.streamingAudio s.streamingAudioOffsetValues ≠ [] ∧
          ∃ lost, s'.streamingText = s.streamingText ++ lost ++ event'.delta ∧
            (lost = [] ↔ ∀ window ∈ (fullWindows frames s.streamingAudio
              s.streamingAudioOffsetValues).dropLast, Silent rt s.streamingRequest window))) := by
  induction fuel generalizing n s event with
  | zero =>
      obtain ⟨rfl, hrest⟩ := Prod.mk.inj (Except.ok.inj hrun)
      obtain ⟨rfl, -⟩ := Prod.mk.inj hrest
      have hnone : s.pendingFrames < frames := by
        rw [Session.pendingFrames, Nat.le_zero.mp hfuel, Nat.zero_div]
        exact hframes
      exact ⟨h, rfl, .inl ⟨fullWindows_eq_nil hnone, rfl, rfl⟩⟩
  | succ fuel ih =>
      obtain ⟨hstop, rfl, rfl⟩ | ⟨hgo, next, heard, hone, hmore⟩ := streamWindows_succ hrun
      · have hnone : s'.pendingFrames < frames := by
          rcases hstop with hzero | ⟨-, hfew⟩ <;> omega
        exact ⟨h, rfl, .inl ⟨fullWindows_eq_nil hnone, rfl, rfl⟩⟩
      · have hmany : frames ≤ s.pendingFrames := by
          by_contra hfew
          exact hgo (.inr ⟨rfl, by omega⟩)
        rw [takes_plain] at hone
        obtain ⟨hcaught, hsame, htext, hsilent⟩ := processOne_caught (s := s.reads _) h hone
        have hnext : next.hasSink = false := hsame.sink.trans hsink
        rw [if_neg (by simp [hnext]), if_neg (by simp [hnext])] at hmore
        have hpositive : 0 < next.counts.streamingAudio.channels := by
          change 0 < next.streamingAudio.channels
          rwa [hsame.audio]
        have hread : next.counts.streamingAudio.samples.length -
            next.counts.streamingAudioOffsetValues ≤ fuel := by
          change next.streamingAudio.samples.length - next.streamingAudioOffsetValues ≤ fuel
          have hsome : 0 < frames * s.streamingAudio.channels.toNat :=
            Nat.mul_pos hframes (by omega)
          rw [hsame.audio, hsame.offset]
          change s.streamingAudio.samples.length - (s.streamingAudioOffsetValues + _) ≤ fuel
          omega
        have hwindows : fullWindows frames next.counts.streamingAudio
            next.counts.streamingAudioOffsetValues = fullWindows frames s.streamingAudio
              (s.streamingAudioOffsetValues + frames * s.streamingAudio.channels.toNat) := by
          change fullWindows frames next.streamingAudio next.streamingAudioOffsetValues = _
          rw [hsame.audio, hsame.offset]
          rfl
        have hrequest : next.counts.streamingRequest = s.streamingRequest := hsame.request
        have htextCounts : next.counts.streamingText = s.streamingText ++ heard.delta := htext
        obtain ⟨hcaught', hpublished, hcases⟩ := ih hpositive hcaught hnext hread hmore
        rw [hwindows, hrequest, htextCounts] at hcases
        rw [fullWindows_eq_cons hframes hchannels hmany]
        refine ⟨hcaught', hpublished.trans hsame.published, .inr ⟨List.cons_ne_nil _ _, ?_⟩⟩
        rcases hcases with ⟨hnone, hsaid, rfl⟩ | ⟨hsome, lost, hsaid, hlost⟩
        · exact ⟨[], by rw [hsaid, List.append_nil], by simp [hnone]⟩
        · refine ⟨heard.delta ++ lost, by simp only [hsaid, List.append_assoc], ?_⟩
          rw [List.dropLast_cons_of_ne_nil hsome, List.forall_mem_cons, ← hlost,
            List.append_eq_nil_iff, hsilent]
          rfl

/-! ## Calls -/

theorem windowFrames_pos {options : Options} {sampleRate frames : ℤ}
    (h : windowFrames rt options sampleRate = .ok frames) : 0 < frames := by
  obtain ⟨seconds, -, h⟩ := except_bind_ok h
  dsimp only at h
  split_ifs at h with hpositive hrounded
  rw [← Except.ok.inj h]
  omega

theorem compact_text (s : Session Sample) :
    s.compact.streamingText = s.streamingText ∧ s.compact.published = s.published ∧
      s.compact.streamingPublishedBytes = s.streamingPublishedBytes ∧
        s.compact.hasSink = s.hasSink := by
  rw [Session.compact]
  split_ifs <;> exact ⟨rfl, rfl, rfl, rfl⟩

theorem dropDrained_withSink (s : Session Sample) (hasSink : Bool) :
    (s.withSink hasSink).dropDrained = s.dropDrained.withSink hasSink := by
  unfold Session.dropDrained Session.withSink
  split_ifs <;> rfl

theorem dropDrained_eq (s : Session Sample) : ∃ audio offset, s.dropDrained =
    { s with streamingAudio := audio, streamingAudioOffsetValues := offset } := by
  unfold Session.dropDrained
  split_ifs
  · exact ⟨_, _, rfl⟩
  · exact ⟨s.streamingAudio, s.streamingAudioOffsetValues, rfl⟩

theorem appendAudioBuffer_format {dst src : AudioBuffer Sample}
    (h : appendAudioBuffer dst src = .ok audio) : 0 < audio.sampleRate ∧ 0 < audio.channels := by
  unfold appendAudioBuffer at h
  split_ifs at h with hsource hfresh hformat
  · rw [← Except.ok.inj h]
    exact ⟨by dsimp only; omega, by dsimp only; omega⟩
  · rw [← Except.ok.inj h]
    exact ⟨by dsimp only; omega, by dsimp only; omega⟩

theorem processAvailable_ok (hrun : s.processAvailableStreamChunks rt final = .ok (s', event)) :
    (s.streamingAudio.sampleRate ≤ 0 ∨ s.streamingAudio.channels ≤ 0) ∧ s' = s ∧
        event = ⟨none, false⟩ ∨ 0 < s.streamingAudio.channels ∧ ∃ frames last n,
        windowFrames rt s.streamingRequest.options s.streamingAudio.sampleRate = .ok frames ∧
          streamWindows rt final frames
            (s.streamingAudio.samples.length - s.streamingAudioOffsetValues) s ⟨none, false⟩ 0 =
              .ok (last, event, n) ∧
            s'.streamingText = last.streamingText ∧ s'.published = last.published ∧
              s'.streamingPublishedBytes = last.streamingPublishedBytes ∧
                s'.hasSink = last.hasSink := by
  rw [Session.processAvailableStreamChunks] at hrun
  split_ifs at hrun with hformat hoffset hlayout
  · obtain ⟨rfl, rfl⟩ := Prod.mk.inj (Except.ok.inj hrun)
    exact .inl ⟨hformat, rfl, rfl⟩
  · obtain ⟨frames, hframes, hrun⟩ := except_bind_ok hrun
    obtain ⟨⟨last, lastEvent, n⟩, hwindows, hrun⟩ := except_bind_ok hrun
    obtain ⟨hlast, rfl⟩ := Prod.mk.inj (Except.ok.inj hrun)
    refine .inr ⟨by omega, frames, last, n, hframes, hwindows, ?_⟩
    rw [← hlast]
    split_ifs
    · exact compact_text last
    · exact ⟨rfl, rfl, rfl, rfl⟩

theorem processAudioChunk_ok {chunk : AudioChunk Sample}
    (hrun : s.processAudioChunk rt chunk = .ok (s', event)) :
    ∃ audio, appendAudioBuffer s.dropDrained.streamingAudio
        ⟨chunk.sampleRate, chunk.channels, chunk.samples⟩ = .ok audio ∧
      Session.processAvailableStreamChunks rt { s.dropDrained with streamingAudio := audio } false =
        .ok (s', event) := by
  obtain ⟨_, -, hrun⟩ := except_bind_ok hrun
  split_ifs at hrun
  exact except_bind_ok hrun

theorem call_delivers {call : Call Sample} (h : Caught s)
    (hrun : s.call rt call = .ok (s', events)) :
    Caught s' ∧ ∃ lost, s'.streamingText = s.streamingText ++ lost ++ deltas events ∧
      (lost = [] ↔ Keeps rt s call) := by
  obtain ⟨⟨after, event⟩, hchunk, hrun⟩ := except_bind_ok hrun
  obtain ⟨rfl, rfl⟩ := Prod.mk.inj (Except.ok.inj hrun)
  obtain ⟨audio, happend, havailable⟩ := processAudioChunk_ok hchunk
  rw [dropDrained_withSink] at happend havailable
  obtain ⟨hrate, hchannels⟩ := appendAudioBuffer_format happend
  obtain ⟨kept, offset, hkept⟩ := dropDrained_eq s
  obtain ⟨hformat, -⟩ | ⟨-, frames, last, n, hframes, hwindows, htext, hpublished, hbytes, -⟩ :=
    processAvailable_ok havailable
  · exact absurd hformat (by dsimp only; omega)
  have hcaught : Caught { s.dropDrained.withSink call.hasSink with streamingAudio := audio } := by
    rw [hkept]
    exact h
  have hsaid : ({ s.dropDrained.withSink call.hasSink with streamingAudio := audio } :
      Session Sample).streamingText = s.streamingText := by
    rw [hkept]
    rfl
  have hsent : ({ s.dropDrained.withSink call.hasSink with streamingAudio := audio } :
      Session Sample).published = s.published := by
    rw [hkept]
    rfl
  have hrequest : s.dropDrained.streamingRequest = s.streamingRequest := by
    rw [hkept]
  cases hsink : call.hasSink with
  | true =>
      obtain ⟨hcaught', -, hlast, new, hnew, hadded⟩ :=
        streamWindows_sink hcaught hsink rfl hwindows
      refine ⟨?_, [], ?_, iff_of_true rfl (.inl hsink)⟩
      · rw [Caught, hbytes, htext]
        exact hcaught'
      · rw [htext, hadded, hsaid, List.append_nil, hpublished, hnew, hsent, List.drop_left]
        simp [deltas, hlast]
  | false =>
      have hpositive := windowFrames_pos hframes
      obtain ⟨count, rfl⟩ := Int.eq_ofNat_of_zero_le hpositive.le
      obtain ⟨hcaught', hsilent, hcases⟩ := streamWindows_plain (by omega) hchannels hcaught hsink
        le_rfl hwindows
      have hcompleted : s.completed rt call.chunk =
          .ok (fullWindows count audio s.dropDrained.streamingAudioOffsetValues) := by
        have happend' : appendAudioBuffer s.dropDrained.streamingAudio
            ⟨call.chunk.sampleRate, call.chunk.channels, call.chunk.samples⟩ = .ok audio := happend
        have hframes' : windowFrames rt s.streamingRequest.options audio.sampleRate =
            .ok (count : ℤ) := hrequest ▸ hframes
        rw [Session.completed, happend']
        dsimp only [bind, Except.bind]
        rw [hframes']
        rfl
      have hkeeps : Keeps rt s call ↔ ∀ window ∈
          (fullWindows count audio s.dropDrained.streamingAudioOffsetValues).dropLast,
            Silent rt s.streamingRequest window := by
        rw [Keeps, hsink, hcompleted]
        simp
      have hnone : deltas (after.published.drop s.published.length ++ [event]) = event.delta := by
        rw [hpublished, hsilent, hsent, List.drop_length]
        exact List.append_nil _
      refine ⟨?_, ?_⟩
      · rw [Caught, hbytes, htext]
        exact hcaught'
      · rw [hnone, hkeeps, htext, ← hrequest]
        rcases hcases with ⟨hempty, hsame, rfl⟩ | ⟨-, lost, hadded, hlost⟩
        · refine ⟨[], ?_, iff_of_true rfl ?_⟩
          · rw [hsame, hsaid]
            simp [StreamEvent.delta]
          · change fullWindows count audio s.dropDrained.streamingAudioOffsetValues = [] at hempty
            rw [hempty]
            simp
        · exact ⟨lost, by rw [hadded, hsaid], hlost⟩

/-! ## Runs -/

theorem calls_deliver {calls : List (Call Sample)} (h : Caught s)
    (hrun : s.calls rt calls = .ok (s', events)) :
    Caught s' ∧ (AllKeep rt s calls → s'.streamingText = s.streamingText ++ deltas events) ∧
      ∃ lost, s'.streamingText.length = s.streamingText.length + (deltas events).length + lost ∧
        (lost = 0 → AllKeep rt s calls) := by
  induction calls generalizing s events with
  | nil =>
      obtain ⟨rfl, rfl⟩ := Prod.mk.inj (Except.ok.inj hrun)
      exact ⟨h, fun _ => (List.append_nil _).symm, 0, rfl, fun _ => trivial⟩
  | cons call rest ih =>
      obtain ⟨⟨next, first⟩, hcall, hrun⟩ := except_bind_ok hrun
      obtain ⟨⟨last, later⟩, hmore, hrun⟩ := except_bind_ok hrun
      obtain ⟨rfl, rfl⟩ := Prod.mk.inj (Except.ok.inj hrun)
      obtain ⟨hcaught, lost, htext, hlost⟩ := call_delivers h hcall
      obtain ⟨hcaught', htexts, missing, hlength, hmissing⟩ := ih hcaught hmore
      have hjoin : deltas (first ++ later) = deltas first ++ deltas later := List.flatMap_append
      refine ⟨hcaught', fun hkeep => ?_, lost.length + missing, ?_, fun hzero => ?_⟩
      · rw [htexts (hkeep.2 next first hcall), htext, hlost.mpr hkeep.1, hjoin, List.append_nil,
          List.append_assoc]
      · rw [hlength, htext, hjoin, List.length_append, List.length_append, List.length_append]
        omega
      · refine ⟨hlost.mp (List.length_eq_zero_iff.mp (by omega)), fun s₁ events₁ hcall₁ => ?_⟩
        rw [hcall] at hcall₁
        obtain ⟨rfl, -⟩ := Prod.mk.inj (Except.ok.inj hcall₁)
        exact hmissing (by omega)

theorem startStream_caught {session : Session Sample} {request : TaskRequest Sample}
    (hstart : session.startStream request = .ok s) : Caught s ∧ s.streamingText = [] := by
  obtain ⟨_, -, hstart⟩ := except_bind_ok hstart
  split_ifs at hstart with hmode
  obtain ⟨returnTimestamps, -, hstart⟩ := except_bind_ok hstart
  split_ifs at hstart
  obtain ⟨fresh, hreset, hstart⟩ := except_bind_ok hstart
  obtain ⟨_, -, hreset⟩ := except_bind_ok hreset
  rw [← Except.ok.inj hstart, ← Except.ok.inj hreset]
  exact ⟨rfl, rfl⟩

theorem finalize_delivers {last : Session Sample} {result : TaskResult} (h : Caught s)
    (hsink : s.hasSink = true) (hrun : s.finalize rt = .ok (last, result)) :
    ∃ new, last.published = s.published ++ new ∧
      last.streamingText = s.streamingText ++ deltas new := by
  obtain ⟨_, -, hrun⟩ := except_bind_ok hrun
  split_ifs at hrun
  obtain ⟨⟨read, event⟩, havailable, hrun⟩ := except_bind_ok hrun
  have hlast : last = read.finish.1 := by
    rw [show read.finish = (last, result) from Except.ok.inj hrun]
  have hfinish : read.hasSink = true → read.finish.1.published = read.published ++ [⟨none, true⟩] ∧
      read.finish.1.streamingText = read.streamingText := by
    intro hset
    simp [Session.finish, hset]
  have hfinal : deltas [⟨none, true⟩] = [] := rfl
  rw [hlast]
  obtain ⟨-, rfl, -⟩ | ⟨-, frames, after, n, -, hwindows, htext, hpublished, -, hset⟩ :=
    processAvailable_ok havailable
  · obtain ⟨hsent, hsaid⟩ := hfinish hsink
    exact ⟨_, hsent, by rw [hsaid, hfinal, List.append_nil]⟩
  · obtain ⟨-, hsink', -, new, hnew, hadded⟩ := streamWindows_sink h hsink rfl hwindows
    obtain ⟨hsent, hsaid⟩ := hfinish (hset.trans hsink')
    refine ⟨new ++ [⟨none, true⟩], ?_, ?_⟩
    · rw [hsent, hpublished, hnew, List.append_assoc]
    · rw [hsaid, htext, hadded, deltas, deltas, List.flatMap_append, ← deltas, ← deltas, hfinal,
        List.append_nil]

/-- The texts that a stream delivers are what has been said if and only if no call without a sink
transcribes something in a window that another one follows. With a sink `finalize` delivers the
rest. -/
theorem deliveries_eq_text {session s s' : Session Sample} {request : TaskRequest Sample}
    (hstart : session.startStream request = .ok s) {calls : List (Call Sample)}
    {events : List StreamEvent} (hrun : s.calls rt calls = .ok (s', events)) :
    (deltas events = s'.streamingText ↔ AllKeep rt s calls) ∧
      ∀ last result, (s'.withSink true).finalize rt = .ok (last, result) →
        ∃ new, last.published = s'.published ++ new ∧
          last.streamingText = s'.streamingText ++ deltas new := by
  obtain ⟨hcaught, hempty⟩ := startStream_caught hstart
  obtain ⟨hcaught', htext, lost, hlength, hlost⟩ := calls_deliver hcaught hrun
  refine ⟨⟨fun heq => hlost ?_, fun hkeep => ?_⟩, fun last result hlast => ?_⟩
  · rw [heq, hempty, List.length_nil] at hlength
    omega
  · rw [htext hkeep, hempty, List.nil_append]
  · exact finalize_delivers (s := s'.withSink true) hcaught' rfl hlast

/-- A recogniser that hears one word in every window of two frames. -/
def repeating : Runtime ℕ ℕ :=
  { counting with runSingle := fun _ => ⟨some ⟨bytes "yes", bytes "en"⟩⟩ }

def plainRequest : TaskRequest ℕ := ⟨none, none, fun _ => none⟩

/-- A chunk of two windows that is fed without a sink. -/
def twoWindows : Call ℕ := ⟨false, ⟨1, 1, [1, 2, 3, 4]⟩⟩

theorem deliveries_lost : ∃ s s' events, readySession.startStream plainRequest = .ok s ∧
    s.calls repeating [twoWindows] = .ok (s', events) ∧
      deltas events = bytes " yes" ∧ s'.streamingText = bytes "yes yes" := by
  refine ⟨_, _, _, rfl, rfl, ?_, ?_⟩ <;> decide

theorem deliveries_eq_text_twoWindows : ∃ s s' events,
    readySession.startStream plainRequest = .ok s ∧
      s.calls repeating [{ twoWindows with hasSink := true }] = .ok (s', events) ∧
        (deltas events = s'.streamingText ↔
          AllKeep repeating s [{ twoWindows with hasSink := true }]) := by
  obtain ⟨s, s', events, hstart, hrun⟩ : ∃ s s' events,
      readySession.startStream plainRequest = .ok s ∧
        s.calls repeating [{ twoWindows with hasSink := true }] = .ok (s', events) :=
    ⟨_, _, _, rfl, rfl⟩
  exact ⟨s, s', events, hstart, hrun, (deliveries_eq_text hstart hrun).1⟩

end FastTts.AsrStream
