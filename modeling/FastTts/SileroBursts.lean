import FastTts.SileroVad

/-!
# The bursts that both report

Without padding and without a longest speech, streaming and offline both follow the bursts of the
marked windows. The stream reports every burst that a pause has ended, the offline way only those
that are longer than the shortest speech.
-/

namespace FastTts.Silero

variable {F : Type} {floats : Floats F} {config : SileroVADConfig F}

def markOf (floats : Floats F) (config : SileroVADConfig F) (prob : F) : Mark :=
  ⟨floats.atLeast prob config.threshold, floats.below prob (negThresholdOf floats config)⟩

/-- A pause of this many windows ends a burst. -/
def pauseEnds (config : SileroVADConfig F) (windows : ℕ) : Bool :=
  decide (msSamples sampleRate16k config.minSilenceDurationMs ≤ chunkSamples * windows)

def readWindows (floats : Floats F) (config : SileroVADConfig F) (probs : List F) : Reading :=
  .ofMarks (pauseEnds config) (probs.map (markOf floats config))

def spanOf (burst : ℕ × ℕ) : Timestamp := ⟨chunkSamples * burst.1, chunkSamples * burst.2⟩

/-- Where a pause is kept: zero, or the sample `offset` behind the beginning of its first window. -/
def pauseSample (offset : ℤ) : Option ℕ → ℤ
  | none => 0
  | some window => chunkSamples * window + offset

theorem msSamples_zero (sampleRate : ℤ) : msSamples sampleRate 0 = 0 := by
  rw [msSamples, intProduct, Int.mul_zero, Int.zero_bmod]
  rfl

/-! ## Streaming -/

/-- The stream has the bursts of `reading`. -/
structure Streams (reading : Reading) (s : Stream) : Prop where
  count : s.currentSample = chunkSamples * reading.count
  done : s.streamedSegments = reading.done.map spanOf
  idle : reading.phase = .idle → s.triggered = false ∧ s.tempEnd = 0
  running : ∀ start pause, reading.phase = .running start pause → s.triggered = true ∧
    s.currentSpeechStart = chunkSamples * start ∧ s.tempEnd = pauseSample chunkSamples pause

theorem streams_reset : Streams .none .reset where
  count := rfl
  done := rfl
  idle _ := ⟨rfl, rfl⟩
  running _ _ h := nomatch h

theorem pauseSample_ne_zero (window : ℕ) : pauseSample chunkSamples (some window) ≠ 0 := by
  rw [pauseSample, chunkSamples]
  omega

def Stream.paused (s : Stream) (pause : Option ℕ) : Stream :=
  { s with tempEnd := pauseSample chunkSamples pause }

variable {s : Stream} {reading : Reading}

theorem Stream.resume_eq {pause : Option ℕ} (h : s.tempEnd = pauseSample chunkSamples pause)
    (mark : Mark) : s.resume mark.loud = s.paused (Reading.pauseBefore mark pause) := by
  rw [Stream.resume, Reading.pauseBefore, Stream.paused]
  cases mark.loud with
  | false => simp [← h]
  | true =>
    by_cases hzero : s.tempEnd = 0
    · have hsame : { s with tempEnd := 0 } = s := by rw [← hzero]
      simp [hzero, hsame, pauseSample]
    · simp [hzero, pauseSample]

variable {count : ℕ} {samples minSpeech : ℤ} {segment : Timestamp}

theorem Stream.startPause_eq (s : Stream) {chunkStart : ℤ}
    (hcount : chunkStart = chunkSamples * count) (pause : Option ℕ) :
    (s.paused pause).startPause chunkStart = s.paused (some (pause.getD count)) := by
  cases pause with
  | none => simp [Stream.startPause, Stream.paused, pauseSample, hcount]
  | some window => simp [Stream.startPause, Stream.paused, pauseSample_ne_zero]

theorem Stream.pause_eq (hpad : config.speechPadMs = 0) {start window : ℕ}
    (hstart : s.currentSpeechStart = chunkSamples * start) (hwindow : start < window)
    (hcount : window ≤ count) (prob : F) :
    ((s.paused (some window)).pause prob config (chunkSamples * count)).2 =
      if pauseEnds config (count - window) then
        ⟨false, 0, s.currentSample, 0, s.streamedSegments ++ [spanOf (start, window)]⟩
      else s.paused (some window) := by
  have hsilence : chunkSamples * (count : ℤ) + chunkSamples -
      pauseSample chunkSamples (some window) = chunkSamples * ((count - window : ℕ) : ℤ) := by
    rw [pauseSample, chunkSamples]
    omega
  have hspeech : max s.currentSpeechStart (pauseSample chunkSamples (some window) + 0 -
      chunkSamples) = chunkSamples * window := by
    rw [pauseSample, hstart, chunkSamples]
    omega
  rw [Stream.pause, Stream.paused, hsilence, hpad, msSamples_zero, pauseEnds]
  dsimp only
  rw [hspeech, hstart]
  by_cases hends : msSamples sampleRate16k config.minSilenceDurationMs ≤
      chunkSamples * ((count - window : ℕ) : ℤ)
  · rw [if_neg (Int.not_lt.mpr hends), if_pos (decide_eq_true hends)]
    rfl
  · rw [if_pos (Int.not_le.mp hends), if_neg (by simpa using hends)]

/-- What a window of a burst leaves, apart from the count of samples. -/
def Stream.afterRunning (config : SileroVADConfig F) (s : Stream) (prob : F) (mark : Mark)
    (chunkStart : ℤ) : Stream :=
  if mark.quiet then ((s.startPause chunkStart).pause prob config chunkStart).2 else s

theorem buildStreamEvent_running (htriggered : s.triggered = true) (prob : F) (chunkStart : ℤ)
    {pause : Option ℕ} (h : s.tempEnd = pauseSample chunkSamples pause) :
    (buildStreamEvent floats prob config chunkStart s).2 =
      (s.paused (Reading.pauseBefore (markOf floats config prob) pause)).afterRunning config prob
        (markOf floats config prob) chunkStart := by
  have hresume : s.resume (floats.atLeast prob config.threshold) = _ :=
    Stream.resume_eq h (markOf floats config prob)
  generalize Reading.pauseBefore (markOf floats config prob) pause = next at hresume ⊢
  have hstill : (s.paused next).triggered = true := htriggered
  have hnot : ¬ (floats.atLeast prob config.threshold && !(s.paused next).triggered) = true := by
    simp [hstill]
  rw [buildStreamEvent]
  dsimp only
  rw [hresume, if_neg hnot, hstill, Bool.and_true, Stream.afterRunning, markOf]
  dsimp only
  split_ifs <;> rfl

theorem Streams.feedRunning (h : Streams reading s) (hpad : config.speechPadMs = 0) {start : ℕ}
    {pause : Option ℕ} (hordered : reading.Ordered) (hphase : reading.phase = .running start pause)
    (prob : F) :
    Streams (reading.readRunning (pauseEnds config) start pause (markOf floats config prob))
      (feedWindow floats config s prob) := by
  obtain ⟨htriggered, hstart, hpause⟩ := h.running start pause hphase
  obtain ⟨hfirst, hlast⟩ := hordered.first hphase (markOf floats config prob)
  have hcount : s.currentSample + chunkSamples = chunkSamples * ((reading.count + 1 : ℕ) : ℤ) := by
    rw [h.count, chunkSamples]
    omega
  rw [feedWindow, buildStreamEvent_running htriggered prob s.currentSample hpause, hcount,
    Reading.readRunning, Stream.afterRunning, h.count]
  generalize markOf floats config prob = mark at hfirst hlast ⊢
  generalize Reading.pauseBefore mark pause = next at hfirst hlast ⊢
  by_cases hquiet : mark.quiet
  · rw [if_pos hquiet, if_pos hquiet, Stream.startPause_eq s rfl next,
      Stream.pause_eq hpad hstart hfirst hlast]
    by_cases hends : pauseEnds config (reading.count - next.getD reading.count)
    · simp only [if_pos hends]
      refine ⟨rfl, ?_, fun _ => ⟨rfl, rfl⟩, by simp⟩
      rw [List.map_append, ← h.done]
      rfl
    · simp only [if_neg hends]
      refine ⟨rfl, h.done, by simp, ?_⟩
      intro start' pause' hrunning
      cases hrunning
      exact ⟨htriggered, hstart, rfl⟩
  · rw [if_neg hquiet, if_neg hquiet]
    refine ⟨rfl, h.done, by simp, ?_⟩
    intro start' pause' hrunning
    cases hrunning
    exact ⟨htriggered, hstart, rfl⟩

theorem Streams.feed (h : Streams reading s) (hpad : config.speechPadMs = 0)
    (hordered : reading.Ordered) (prob : F) :
    Streams (reading.read (pauseEnds config) (markOf floats config prob))
      (feedWindow floats config s prob) := by
  rw [Reading.read]
  cases hphase : reading.phase with
  | running start pause => exact h.feedRunning hpad hordered hphase prob
  | idle =>
    obtain ⟨htriggered, hpause⟩ := h.idle hphase
    have hcount : s.currentSample + chunkSamples =
        chunkSamples * ((reading.count + 1 : ℕ) : ℤ) := by
      rw [h.count, chunkSamples]
      omega
    have hresume : s.resume (floats.atLeast prob config.threshold) = s := by
      simp [Stream.resume, hpause]
    rw [feedWindow, hcount, buildStreamEvent]
    dsimp only
    rw [hresume, htriggered, Bool.not_false, Bool.and_true, Bool.and_false, hpad, msSamples_zero,
      markOf]
    dsimp only
    by_cases hloud : floats.atLeast prob config.threshold
    · rw [if_pos hloud, if_pos hloud]
      refine ⟨rfl, h.done, by simp, ?_⟩
      intro start pause hrunning
      cases hrunning
      refine ⟨rfl, ?_, hpause⟩
      dsimp only
      rw [h.count, chunkSamples]
      omega
    · rw [if_neg hloud, if_neg hloud, if_neg Bool.false_ne_true]
      exact ⟨rfl, h.done, fun _ => ⟨htriggered, hpause⟩, by simp⟩

theorem streams_windows (hpad : config.speechPadMs = 0) (probs : List F) :
    Streams (readWindows floats config probs) (streamWindows floats config probs) := by
  induction probs using List.reverseRecOn with
  | nil => exact streams_reset
  | append_singleton probs prob ih =>
    rw [readWindows, List.map_append, List.map_singleton, Reading.ofMarks_append, streamWindows,
      List.foldl_append]
    exact ih.feed hpad (Reading.ordered_ofMarks _ _) prob

/-! ## Offline -/

/-- A burst that is longer than the shortest speech. -/
def longBurst (config : SileroVADConfig F) (burst : ℕ × ℕ) : Bool :=
  decide (msSamples sampleRate16k config.minSpeechDurationMs <
    chunkSamples * burst.2 - chunkSamples * burst.1)

def longSpans (config : SileroVADConfig F) (done : List (ℕ × ℕ)) : List Timestamp :=
  (done.filter (longBurst config)).map spanOf

structure Decoding.Runs (d : Decoding) (speeches : List Timestamp) (start : ℕ)
    (pause : Option ℕ) : Prop where
  triggered : d.triggered = true
  speeches : d.speeches = speeches
  start : d.current.start = chunkSamples * start
  tempEnd : d.tempEnd = pauseSample 0 pause

structure Decoding.Idles (d : Decoding) (speeches : List Timestamp) : Prop where
  triggered : d.triggered = false
  speeches : d.speeches = speeches
  tempEnd : d.tempEnd = 0

/-- The long ones among the bursts of `reading` are decoded. -/
structure Decodes (config : SileroVADConfig F) (reading : Reading) (d : Decoding) : Prop where
  idle : reading.phase = .idle → d.Idles (longSpans config reading.done)
  running : ∀ start pause, reading.phase = .running start pause →
    d.Runs (longSpans config reading.done) start pause

theorem decodes_initial : Decodes config .none .initial where
  idle _ := ⟨rfl, rfl, rfl⟩
  running _ _ h := nomatch h

section Decode

variable {d : Decoding} {speeches : List Timestamp} {start : ℕ} {pause : Option ℕ}
  {lengths : Lengths}

theorem Decoding.Runs.resume (h : d.Runs speeches start pause) (lengths : Lengths) (cur : ℤ)
    (mark : Mark) :
    (d.resume lengths cur mark.loud).Runs speeches start (Reading.pauseBefore mark pause) := by
  rw [Decoding.resume, Reading.pauseBefore]
  cases mark.loud with
  | false => simpa using h
  | true =>
    by_cases hzero : d.tempEnd = 0
    · rw [if_neg (by simpa using hzero)]
      exact ⟨h.triggered, h.speeches, h.start, hzero⟩
    · rw [if_pos (by simpa using hzero)]
      exact ⟨h.triggered, h.speeches, h.start, rfl⟩

variable {count : ℕ}

theorem Decoding.Runs.startPause (h : d.Runs speeches start pause)
    (hpause : start < pause.getD count) :
    (d.startPause (chunkSamples * count)).Runs speeches start (some (pause.getD count)) := by
  rw [Decoding.startPause]
  cases pause with
  | none =>
    have hzero : d.tempEnd = 0 := h.tempEnd
    rw [if_pos hzero]
    exact ⟨h.triggered, h.speeches, h.start, (Int.add_zero _).symm⟩
  | some window =>
    rw [Option.getD_some] at hpause
    have hnot : d.tempEnd ≠ 0 := by
      rw [h.tempEnd, pauseSample, chunkSamples]
      omega
    rw [if_neg hnot]
    exact h

theorem Decoding.Runs.notePause (h : d.Runs speeches start pause) (lengths : Lengths)
    (config : SileroVADConfig F) (cur : ℤ) :
    (d.notePause lengths config cur).Runs speeches start pause := by
  rw [Decoding.notePause]
  split_ifs
  · exact ⟨h.triggered, h.speeches, h.start, h.tempEnd⟩
  · exact h

theorem Decoding.Runs.endSpeech {window : ℕ} (h : d.Runs speeches start (some window))
    (hspeech : lengths.minSpeech = msSamples sampleRate16k config.minSpeechDurationMs) :
    (d.endSpeech lengths).Idles (speeches ++ longSpans config [(start, window)]) := by
  have htemp : d.tempEnd = chunkSamples * window := by
    rw [h.tempEnd, pauseSample, Int.add_zero]
  rw [Decoding.endSpeech, hspeech, htemp, h.start]
  refine ⟨rfl, ?_, rfl⟩
  by_cases hlong : msSamples sampleRate16k config.minSpeechDurationMs <
      chunkSamples * window - chunkSamples * start
  · have hburst : longBurst config (start, window) = true := decide_eq_true hlong
    rw [if_pos hlong, longSpans, List.filter_cons_of_pos hburst]
    change d.speeches ++ [⟨d.current.start, chunkSamples * window⟩] = _
    rw [h.speeches, h.start]
    rfl
  · rw [if_neg hlong, longSpans, List.filter_cons_of_neg (by simpa [longBurst] using hlong)]
    change d.speeches = _
    rw [h.speeches]
    exact (List.append_nil _).symm

theorem Decoding.Runs.quiet {window : ℕ} (h : d.Runs speeches start (some window))
    (hsilence : lengths.minSilence = msSamples sampleRate16k config.minSilenceDurationMs)
    (hspeech : lengths.minSpeech = msSamples sampleRate16k config.minSpeechDurationMs)
    (hcount : window ≤ count) :
    if pauseEnds config (count - window) then (d.pause lengths config (chunkSamples * count)).Idles
        (speeches ++ longSpans config [(start, window)])
    else (d.pause lengths config (chunkSamples * count)).Runs speeches start (some window) := by
  have hwindows : chunkSamples * (count : ℤ) - d.tempEnd =
      chunkSamples * ((count - window : ℕ) : ℤ) := by
    rw [h.tempEnd, pauseSample, chunkSamples]
    omega
  have hnoted := h.notePause lengths config (chunkSamples * count)
  rw [Decoding.pause, hsilence, pauseEnds, hwindows]
  by_cases hends : msSamples sampleRate16k config.minSilenceDurationMs ≤
      chunkSamples * ((count - window : ℕ) : ℤ)
  · rw [if_pos (decide_eq_true hends), if_neg (Int.not_lt.mpr hends)]
    exact hnoted.endSpeech hspeech
  · rw [if_neg (by simpa using hends), if_pos (Int.not_le.mp hends)]
    exact hnoted

theorem longSpans_append (config : SileroVADConfig F) (done : List (ℕ × ℕ)) (burst : ℕ × ℕ) :
    longSpans config (done ++ [burst]) = longSpans config done ++ longSpans config [burst] := by
  rw [longSpans, longSpans, longSpans, List.filter_append, List.map_append]

theorem Decoding.Runs.window (h : d.Runs speeches start pause) {cur : ℤ} (prob : F)
    (hmax : cur - chunkSamples * start ≤ lengths.maxSpeech) :
    decodeWindow floats lengths config cur prob d = if (markOf floats config prob).quiet then
        ((d.resume lengths cur (markOf floats config prob).loud).startPause cur).pause lengths
          config cur else d.resume lengths cur (markOf floats config prob).loud := by
  have hresume := h.resume lengths cur (markOf floats config prob)
  rw [markOf] at hresume ⊢
  rw [decodeWindow]
  dsimp only at hresume ⊢
  generalize d.resume lengths cur (floats.atLeast prob config.threshold) = d' at hresume ⊢
  have hnot : ¬ (floats.atLeast prob config.threshold && !d'.triggered) = true := by
    simp [hresume.triggered]
  have hfits : ¬ (d'.triggered && decide (lengths.maxSpeech < cur - d'.current.start)) = true := by
    simpa [hresume.triggered, hresume.start] using hmax
  rw [if_neg hnot, if_neg hfits, hresume.triggered, Bool.and_true]
  rfl

section

variable {reading : Reading} (h : Decodes config reading d) (hordered : reading.Ordered)
  (hsilence : lengths.minSilence = msSamples sampleRate16k config.minSilenceDurationMs)
  (hspeech : lengths.minSpeech = msSamples sampleRate16k config.minSpeechDurationMs)
include h hordered hsilence hspeech

theorem Decodes.window (hmax : chunkSamples * reading.count ≤ lengths.maxSpeech) (prob : F) :
    Decodes config (reading.read (pauseEnds config) (markOf floats config prob))
      (decodeWindow floats lengths config (reading.count * chunkSamples) prob d) := by
  rw [Int.mul_comm, Reading.read]
  cases hphase : reading.phase with
  | running start pause =>
    have hruns := h.running start pause hphase
    obtain ⟨hfirst, hlast⟩ := hordered.first hphase (markOf floats config prob)
    have hfits : chunkSamples * (reading.count : ℤ) - chunkSamples * start ≤ lengths.maxSpeech := by
      rw [chunkSamples] at hmax ⊢
      omega
    have hresume := hruns.resume lengths (chunkSamples * reading.count) (markOf floats config prob)
    dsimp only
    rw [hruns.window prob hfits, Reading.readRunning]
    generalize markOf floats config prob = mark at hfirst hlast hresume ⊢
    generalize d.resume lengths (chunkSamples * reading.count) mark.loud = d' at hresume ⊢
    generalize Reading.pauseBefore mark pause = next at hfirst hlast hresume ⊢
    by_cases hquiet : mark.quiet
    · rw [if_pos hquiet, if_pos hquiet]
      have hended := (hresume.startPause hfirst).quiet hsilence hspeech hlast
      by_cases hends : pauseEnds config (reading.count - next.getD reading.count)
      · rw [if_pos hends] at hended
        simp only [if_pos hends]
        refine ⟨fun _ => ?_, by simp⟩
        rw [longSpans_append]
        exact hended
      · rw [if_neg hends] at hended
        simp only [if_neg hends]
        refine ⟨by simp, ?_⟩
        intro start' pause' hrunning
        cases hrunning
        exact hended
    · rw [if_neg hquiet, if_neg hquiet]
      refine ⟨by simp, ?_⟩
      intro start' pause' hrunning
      cases hrunning
      exact hresume
  | idle =>
    have hidle := h.idle hphase
    have hresume : d.resume lengths (chunkSamples * reading.count)
        (floats.atLeast prob config.threshold) = d := by
      simp [Decoding.resume, hidle.tempEnd]
    rw [decodeWindow, markOf]
    dsimp only
    rw [hresume, hidle.triggered, Bool.not_false, Bool.and_true]
    by_cases hloud : floats.atLeast prob config.threshold
    · rw [if_pos hloud, if_pos hloud]
      refine ⟨by simp, ?_⟩
      intro start pause hrunning
      cases hrunning
      exact ⟨rfl, hidle.speeches, rfl, hidle.tempEnd⟩
    · simp only [if_neg hloud, hidle.triggered, Bool.false_and, Bool.and_false, Bool.false_eq_true,
        if_false]
      exact ⟨fun _ => hidle, by simp⟩

theorem Decodes.windows (probs : List F)
    (hmax : ∀ i < reading.count + probs.length, chunkSamples * i ≤ lengths.maxSpeech) :
    Decodes config ((probs.map (markOf floats config)).foldl (.read (pauseEnds config)) reading)
      (decodeWindows floats lengths config reading.count probs d) := by
  induction probs generalizing reading d with
  | nil => exact h
  | cons prob probs ih =>
    rw [List.length_cons] at hmax
    have hnext : Decodes config (reading.read (pauseEnds config) (markOf floats config prob)) _ :=
      h.window hordered hsilence hspeech (hmax reading.count (by omega)) prob
    have hcount := Reading.count_read (pauseEnds config) reading (markOf floats config prob)
    have hrest := ih hnext (hordered.readMark _) (by rw [hcount]; intro i hi; exact hmax i (by omega))
    rw [hcount] at hrest
    exact hrest

end

end Decode

/-! ## Segments in order -/

structure InOrder (samples : ℤ) (segments : List Timestamp) : Prop where
  inside : ∀ segment ∈ segments, 0 ≤ segment.start ∧ segment.stop ≤ samples
  pairwise : segments.Pairwise fun first next => first.stop ≤ next.start

theorem padAfter_zero {speech : Timestamp} {rest : List Timestamp}
    (h : InOrder samples (speech :: rest)) : padAfter samples 0 speech rest = speech :: rest := by
  induction rest generalizing speech with
  | nil =>
    have hinside := h.inside speech List.mem_cons_self
    rw [padAfter, Int.add_zero, Int.min_eq_right hinside.2]
  | cons next rest ih =>
    have hinside := h.inside speech List.mem_cons_self
    have hnext := h.inside next (List.mem_cons_of_mem _ List.mem_cons_self)
    have hpairwise := List.pairwise_cons.mp h.pairwise
    have horder := hpairwise.1 next List.mem_cons_self
    have hsilence : ¬ next.start - speech.stop < 2 * 0 := by omega
    have hrest : InOrder samples (next :: rest) :=
      ⟨fun segment hsegment => h.inside segment (List.mem_cons_of_mem _ hsegment), hpairwise.2⟩
    rw [padAfter, if_neg hsilence, Int.add_zero, Int.sub_zero, Int.min_eq_right hinside.2,
      Int.max_eq_right hnext.1, ih hrest]

theorem padSpeeches_zero {segments : List Timestamp} (h : InOrder samples segments) :
    padSpeeches samples 0 segments = segments := by
  cases segments with
  | nil => rfl
  | cons first rest =>
    have hinside := h.inside first List.mem_cons_self
    rw [padSpeeches, Int.sub_zero, Int.max_eq_right hinside.1, padAfter_zero h]

/-- The burst that the end of the windows cuts, if it is longer than `minSpeech`. -/
def openSpan (minSpeech : ℤ) (reading : Reading) : List Timestamp :=
  match reading.phase with
  | .idle => []
  | .running start _ =>
    if minSpeech < chunkSamples * reading.count - chunkSamples * start then
      [⟨chunkSamples * start, chunkSamples * reading.count⟩] else []

theorem mem_openSpan (h : segment ∈ openSpan minSpeech reading) : ∃ start pause,
      reading.phase = .running start pause ∧
      segment = ⟨chunkSamples * start, chunkSamples * reading.count⟩ := by
  rw [openSpan] at h
  cases hphase : reading.phase with
  | idle =>
    rw [hphase] at h
    cases h
  | running start pause =>
    rw [hphase] at h
    dsimp only at h
    split_ifs at h
    · exact ⟨start, pause, rfl, List.mem_singleton.mp h⟩
    · cases h

theorem inOrder_spans (h : reading.Ordered) (keep : ℕ × ℕ → Bool) (minSpeech : ℤ) :
    InOrder (chunkSamples * reading.count)
      ((reading.done.filter keep).map spanOf ++ openSpan minSpeech reading) := by
  constructor
  · intro segment hsegment
    rcases List.mem_append.mp hsegment with hdone | hopen
    · obtain ⟨burst, hburst, rfl⟩ := List.mem_map.mp hdone
      have hread := h.read burst (List.mem_of_mem_filter hburst)
      rw [spanOf, chunkSamples]
      dsimp only
      omega
    · obtain ⟨start, pause, _, rfl⟩ := mem_openSpan hopen
      dsimp only [chunkSamples]
      omega
  · rw [List.pairwise_append]
    refine ⟨?_, ?_, ?_⟩
    · rw [List.pairwise_map]
      apply (h.pairwise.filter keep).imp
      intro first next hlt
      dsimp only [spanOf, chunkSamples]
      omega
    · rw [openSpan]
      split
      · exact .nil
      · split_ifs
        · exact List.pairwise_singleton _ _
        · exact .nil
    · intro segment hsegment next hnext
      obtain ⟨burst, hburst, rfl⟩ := List.mem_map.mp hsegment
      obtain ⟨start, pause, hphase, rfl⟩ := mem_openSpan hnext
      have hlast := h.last start pause hphase burst (List.mem_of_mem_filter hburst)
      dsimp only [spanOf, chunkSamples]
      omega

/-! ## Both ways -/

def streamMinSpeech (config : SileroVADConfig F) : ℤ :=
  (sampleRate16k * config.minSpeechDurationMs).tdiv 1000

theorem finalizeStream_spans (hpad : config.speechPadMs = 0) (probs : List F) :
    (finalizeStream config (streamWindows floats config probs)).map (·.span) =
      (readWindows floats config probs).done.map spanOf ++
        openSpan (streamMinSpeech config) (readWindows floats config probs) := by
  have hstreams : Streams (readWindows floats config probs) (streamWindows floats config probs) :=
    streams_windows hpad probs
  generalize streamWindows floats config probs = s at hstreams ⊢
  generalize readWindows floats config probs = reading at hstreams ⊢
  rw [finalizeStream, List.map_map, hstreams.done, openSpan, streamMinSpeech]
  cases hphase : reading.phase with
  | idle =>
    rw [(hstreams.idle hphase).1, Bool.false_and, if_neg Bool.false_ne_true, List.append_nil]
    exact List.map_id _
  | running start pause =>
    obtain ⟨htriggered, hstart, _⟩ := hstreams.running start pause hphase
    rw [htriggered, Bool.true_and, hstart, hstreams.count]
    simp only [decide_eq_true_eq]
    split_ifs
    · exact List.map_id _
    · rw [List.append_nil]
      exact List.map_id _

theorem count_readWindows (floats : Floats F) (config : SileroVADConfig F) (probs : List F) :
    (readWindows floats config probs).count = probs.length := by
  rw [readWindows, Reading.count_ofMarks, List.length_map]

theorem decodeSpeechTimestamps_spans (hpad : config.speechPadMs = 0) (probs : List F)
    (hmax : ∀ i < probs.length, chunkSamples * i ≤
      floats.samples sampleRate16k config.maxSpeechDurationS - chunkSamples) :
    decodeSpeechTimestamps floats probs (chunkSamples * probs.length) sampleRate16k config =
      longSpans config (readWindows floats config probs).done ++
        openSpan (msSamples sampleRate16k config.minSpeechDurationMs)
          (readWindows floats config probs) := by
  have hlengths : (lengthsOf floats sampleRate16k config).maxSpeech =
      floats.samples sampleRate16k config.maxSpeechDurationS - chunkSamples := by
    rw [lengthsOf, hpad, msSamples_zero, Int.mul_zero, Int.sub_zero]
  have hfits : ∀ i < Reading.none.count + probs.length,
      chunkSamples * i ≤ (lengthsOf floats sampleRate16k config).maxSpeech := by
    intro i hi
    rw [hlengths]
    exact hmax i (by rwa [Reading.none, Nat.zero_add] at hi)
  have hdecodes : Decodes config (readWindows floats config probs)
      (decodeWindows floats (lengthsOf floats sampleRate16k config) config 0 probs .initial) :=
    decodes_initial.windows Reading.ordered_none rfl rfl probs hfits
  have hordered : (readWindows floats config probs).Ordered := Reading.ordered_ofMarks _ _
  have hcount := count_readWindows floats config probs
  have hinorder := inOrder_spans hordered (longBurst config)
    (msSamples sampleRate16k config.minSpeechDurationMs)
  rw [hcount] at hinorder
  rw [decodeSpeechTimestamps]
  dsimp only
  generalize decodeWindows floats (lengthsOf floats sampleRate16k config) config 0 probs .initial = d
    at hdecodes ⊢
  generalize readWindows floats config probs = reading at hdecodes hordered hcount hinorder ⊢
  have hspeeches : (if d.triggered && decide ((lengthsOf floats sampleRate16k config).minSpeech <
      chunkSamples * probs.length - d.current.start) then
      d.speeches ++ [{ d.current with stop := chunkSamples * probs.length }] else d.speeches) =
      longSpans config reading.done ++
        openSpan (msSamples sampleRate16k config.minSpeechDurationMs) reading := by
    rw [openSpan, hcount]
    cases hphase : reading.phase with
    | idle =>
      have hidle := hdecodes.idle hphase
      rw [hidle.triggered, Bool.false_and, if_neg Bool.false_ne_true, List.append_nil,
        hidle.speeches]
    | running start pause =>
      have hruns := hdecodes.running start pause hphase
      rw [hruns.triggered, Bool.true_and, hruns.start, hruns.speeches, lengthsOf]
      simp only [decide_eq_true_eq]
      split_ifs
      · rw [hruns.start]
      · rw [List.append_nil]
  rw [hspeeches, lengthsOf, hpad, msSamples_zero]
  exact padSpeeches_zero hinorder

/-- Every burst that a pause ends is longer than the shortest speech; the one that the end of the
windows cuts is longer than both its value in `int64_t` and its value in `int`, or than neither. -/
structure KeepsBursts (floats : Floats F) (config : SileroVADConfig F) (probs : List F) : Prop where
  ended : ∀ burst ∈ (readWindows floats config probs).done, longBurst config burst = true
  cut : ∀ start pause, (readWindows floats config probs).phase = .running start pause →
    (streamMinSpeech config < chunkSamples * probs.length - chunkSamples * start ↔
      msSamples sampleRate16k config.minSpeechDurationMs <
        chunkSamples * probs.length - chunkSamples * start)

theorem openSpan_not_done (h : reading.Ordered) (hopen : segment ∈ openSpan minSpeech reading) :
    segment ∉ reading.done.map spanOf := by
  intro hdone
  obtain ⟨start, pause, hphase, rfl⟩ := mem_openSpan hopen
  obtain ⟨burst, hburst, hspan⟩ := List.mem_map.mp hdone
  have hlast := h.last start pause hphase burst hburst
  have hnonempty := h.nonempty burst hburst
  have hstart := congrArg Timestamp.start hspan
  dsimp only [spanOf, chunkSamples] at hstart
  omega

theorem openSpan_eq_iff (minSpeech minSpeech' : ℤ) (reading : Reading) :
    openSpan minSpeech reading = openSpan minSpeech' reading ↔
      ∀ start pause, reading.phase = .running start pause →
        (minSpeech < chunkSamples * reading.count - chunkSamples * start ↔
          minSpeech' < chunkSamples * reading.count - chunkSamples * start) := by
  rw [openSpan, openSpan]
  cases reading.phase with
  | idle => simp
  | running start pause =>
    dsimp only
    constructor
    · intro heq start' pause' hrunning
      cases hrunning
      split_ifs at heq with h h' h'
      · exact ⟨fun _ => h', fun _ => h⟩
      · exact ⟨fun hlt => absurd hlt h, fun hlt => absurd hlt h'⟩
    · intro hiff
      have hsame := hiff start pause rfl
      by_cases h : minSpeech < chunkSamples * reading.count - chunkSamples * start
      · rw [if_pos h, if_pos (hsame.mp h)]
      · rw [if_neg h, if_neg fun h' => h (hsame.mpr h')]

theorem append_filter_eq_iff {α β : Type} {f : α → β} {l : List α} {keep : α → Bool}
    {ends ends' : List β} (hnew : ∀ b ∈ ends', b ∉ l.map f)
    (hends : ends = [] ∨ ends' = [] ∨ ends = ends') :
    l.map f ++ ends = (l.filter keep).map f ++ ends' ↔ (∀ a ∈ l, keep a = true) ∧ ends = ends' := by
  have hlength : (l.filter keep).length ≤ l.length := List.length_filter_le _ _
  constructor
  · intro heq
    have hcount := congrArg List.length heq
    simp only [List.length_append, List.length_map] at hcount
    have hsame : ends = ends' := by
      rcases hends with rfl | rfl | hsame
      · cases hends' : ends' with
        | nil => rfl
        | cons b rest =>
          have hmem : b ∈ l.map f := by
            rw [List.append_nil] at heq
            rw [heq, hends']
            simp
          exact absurd hmem (hnew b (by rw [hends']; exact List.mem_cons_self))
      · rw [List.length_nil] at hcount
        exact List.eq_nil_of_length_eq_zero (by omega)
      · exact hsame
    rw [hsame] at hcount
    exact ⟨List.length_filter_eq_length_iff.mp (by omega), hsame⟩
  · rintro ⟨hkeep, rfl⟩
    rw [List.filter_eq_self.mpr hkeep]

/-- The stream reports what is decoded offline exactly if no burst that it reports is too short. -/
theorem stream_eq_offline_iff (floats : Floats F) (config : SileroVADConfig F) (probs : List F)
    (hpad : config.speechPadMs = 0) (hmax : ∀ i < probs.length, chunkSamples * i ≤
      floats.samples sampleRate16k config.maxSpeechDurationS - chunkSamples) :
    (finalizeStream config (streamWindows floats config probs)).map (·.span) =
      decodeSpeechTimestamps floats probs (chunkSamples * probs.length) sampleRate16k config ↔
    KeepsBursts floats config probs := by
  have hordered : (readWindows floats config probs).Ordered := Reading.ordered_ofMarks _ _
  have hiff := openSpan_eq_iff (streamMinSpeech config)
    (msSamples sampleRate16k config.minSpeechDurationMs) (readWindows floats config probs)
  rw [count_readWindows] at hiff
  rw [finalizeStream_spans hpad, decodeSpeechTimestamps_spans hpad probs hmax, longSpans,
    append_filter_eq_iff fun segment => openSpan_not_done hordered, hiff]
  · exact ⟨fun h => ⟨h.1, h.2⟩, fun h => ⟨h.ended, h.cut⟩⟩
  · rw [openSpan, openSpan]
    split
    · exact .inl rfl
    · split_ifs <;> simp

def percent : Floats ℤ where
  atLeast value threshold := decide (threshold ≤ value)
  below value threshold := decide (value < threshold)
  negative value := decide (value < 0)
  lowered threshold := max (threshold - 15) 1
  samples sampleRate seconds := sampleRate * seconds

def unpadded : SileroVADConfig ℤ := ⟨50, 250, 100, 0, 1000000000, -1, 98, true⟩

theorem stream_eq_offline_sentence :
    (finalizeStream unpadded (streamWindows percent unpadded
      (List.replicate 10 90 ++ List.replicate 5 0))).map (·.span) =
      decodeSpeechTimestamps percent (List.replicate 10 90 ++ List.replicate 5 0)
        (chunkSamples * (List.replicate 10 90 ++ List.replicate 5 (0 : ℤ)).length) sampleRate16k
        unpadded :=
  (stream_eq_offline_iff percent unpadded (List.replicate 10 90 ++ List.replicate 5 0) rfl
    (by decide)).mpr ⟨by decide, nofun⟩

/-- One loud window before a pause is a segment of the stream and none offline. -/
theorem stream_reports_click : ¬ ∀ (config : SileroVADConfig ℤ) (probs : List ℤ),
    config.speechPadMs = 0 → (∀ i < probs.length, chunkSamples * i ≤
      percent.samples sampleRate16k config.maxSpeechDurationS - chunkSamples) →
    (finalizeStream config (streamWindows percent config probs)).map (·.span) =
      decodeSpeechTimestamps percent probs (chunkSamples * probs.length) sampleRate16k config := by
  intro hall
  have hsame := hall unpadded [90, 0, 0, 0, 0, 0] rfl (by decide)
  exact absurd hsame (by decide)

end FastTts.Silero
