import FastTts.SileroBursts

/-!
# Segments of speech that do not overlap

The marks of the offline decoder keep their order, whichever way a speech is cut: a speech ends where
a pause began, and the next one begins when that pause is over. Padding then shares the silence
between two segments out, as long as its length is not negative.
-/

namespace FastTts.Silero

variable {F : Type} {floats : Floats F} {config : SileroVADConfig F} {lengths : Lengths}
  {cur samples pad : ℤ}

/-- Segments in order, none of which ends before it starts. -/
structure Segmented (samples : ℤ) (segments : List Timestamp) : Prop
    extends InOrder samples segments where
  start_le_stop : ∀ segment ∈ segments, segment.start ≤ segment.stop

theorem segmented_nil (samples : ℤ) : Segmented samples [] :=
  ⟨⟨nofun, .nil⟩, nofun⟩

variable {segments : List Timestamp}

theorem segmented_cons {segment : Timestamp} :
    Segmented samples (segment :: segments) ↔
      (0 ≤ segment.start ∧ segment.start ≤ segment.stop ∧ segment.stop ≤ samples) ∧
      (∀ next ∈ segments, segment.stop ≤ next.start) ∧ Segmented samples segments := by
  constructor
  · rintro ⟨⟨hinside, hpairwise⟩, hsize⟩
    rw [List.forall_mem_cons] at hinside hsize
    rw [List.pairwise_cons] at hpairwise
    exact ⟨⟨hinside.1.1, hsize.1, hinside.1.2⟩, hpairwise.1, ⟨hinside.2, hpairwise.2⟩, hsize.2⟩
  · rintro ⟨⟨hstart, hsize, hstop⟩, hnext, ⟨hinside, hpairwise⟩, hsizes⟩
    exact ⟨⟨List.forall_mem_cons.mpr ⟨⟨hstart, hstop⟩, hinside⟩,
      List.pairwise_cons.mpr ⟨hnext, hpairwise⟩⟩, List.forall_mem_cons.mpr ⟨hsize, hsizes⟩⟩

theorem Segmented.mono (h : Segmented cur segments) (hle : cur ≤ samples) :
    Segmented samples segments :=
  ⟨⟨fun segment hsegment => ⟨(h.inside segment hsegment).1,
    Int.le_trans (h.inside segment hsegment).2 hle⟩, h.pairwise⟩, h.start_le_stop⟩

variable {stop : ℤ} {speech : Timestamp} {rest : List Timestamp}

theorem Segmented.concat {start : ℤ} (h : Segmented start segments) (hstart : 0 ≤ start)
    (hstop : start ≤ stop) : Segmented stop (segments ++ [⟨start, stop⟩]) := by
  refine ⟨⟨?_, ?_⟩, ?_⟩
  · intro segment hsegment
    rcases List.mem_append.mp hsegment with hbefore | hlast
    · have hinside := h.inside segment hbefore
      exact ⟨hinside.1, Int.le_trans hinside.2 hstop⟩
    · obtain rfl := List.mem_singleton.mp hlast
      exact ⟨hstart, Int.le_refl _⟩
  · rw [List.pairwise_append]
    refine ⟨h.pairwise, List.pairwise_singleton _ _, fun segment hsegment last hlast => ?_⟩
    obtain rfl := List.mem_singleton.mp hlast
    exact (h.inside segment hsegment).2
  · intro segment hsegment
    rcases List.mem_append.mp hsegment with hbefore | hlast
    · exact h.start_le_stop segment hbefore
    · obtain rfl := List.mem_singleton.mp hlast
      exact hstop

/-! ## The marks -/

/-- In a speech, up to the window at `cur`: every mark that is set is between the speech's start,
which is after the segments, and the window. -/
structure Decoding.Speaks (cur : ℤ) (d : Decoding) : Prop where
  speeches : Segmented d.current.start d.speeches
  start_nonneg : 0 ≤ d.current.start
  start_le : d.current.start ≤ cur
  tempEnd : d.tempEnd ≠ 0 → d.current.start ≤ d.tempEnd ∧ d.tempEnd ≤ cur
  prevEnd : d.prevEnd ≠ 0 → d.current.start ≤ d.prevEnd ∧ d.prevEnd ≤ cur
  nextStart : d.nextStart ≤ cur
  possibleEnds : ∀ pause ∈ d.possibleEnds,
    d.current.start ≤ pause.1 ∧ 0 ≤ pause.2 ∧ pause.1 + pause.2 ≤ cur

structure Decoding.Rests (cur : ℤ) (d : Decoding) : Prop where
  speeches : Segmented cur d.speeches
  cleared : d.clear = d

structure Decoding.Kept (cur : ℤ) (d : Decoding) : Prop where
  speaks : d.triggered = true → d.Speaks cur
  rests : d.triggered = false → d.Rests cur

variable {d : Decoding}

theorem Decoding.Speaks.kept (h : d.Speaks cur) (htriggered : d.triggered = true) : d.Kept cur :=
  ⟨fun _ => h, fun hnot => absurd (htriggered.symm.trans hnot) (by decide)⟩

theorem Decoding.Rests.kept (h : d.Rests cur) (htriggered : d.triggered = false) : d.Kept cur :=
  ⟨fun hnot => absurd (hnot.symm.trans htriggered) (by decide), fun _ => h⟩

theorem Decoding.kept_initial (cur : ℤ) : Decoding.initial.Kept cur :=
  Decoding.Rests.kept ⟨segmented_nil cur, rfl⟩ rfl

theorem Decoding.Kept.mono (h : d.Kept cur) {later : ℤ} (hle : cur ≤ later) : d.Kept later where
  speaks htriggered := by
    have hspeaks := h.speaks htriggered
    refine { hspeaks with
      start_le := Int.le_trans hspeaks.start_le hle
      tempEnd := fun hset =>
        ⟨(hspeaks.tempEnd hset).1, Int.le_trans (hspeaks.tempEnd hset).2 hle⟩
      prevEnd := fun hset =>
        ⟨(hspeaks.prevEnd hset).1, Int.le_trans (hspeaks.prevEnd hset).2 hle⟩
      nextStart := Int.le_trans hspeaks.nextStart hle
      possibleEnds := fun pause hpause => ?_ }
    obtain ⟨hstart, hlength, hend⟩ := hspeaks.possibleEnds pause hpause
    exact ⟨hstart, hlength, Int.le_trans hend hle⟩
  rests htriggered :=
    ⟨(h.rests htriggered).speeches.mono hle, (h.rests htriggered).cleared⟩

theorem Decoding.Speaks.passPause (h : d.Speaks cur) (hset : d.tempEnd ≠ 0) (lengths : Lengths) :
    (d.passPause lengths cur).Speaks cur := by
  obtain ⟨hstart, hend⟩ := h.tempEnd hset
  refine ⟨h.speeches, h.start_nonneg, h.start_le, fun hnot => absurd rfl hnot, h.prevEnd, ?_, ?_⟩
  · dsimp only [Decoding.passPause]
    split_ifs
    · exact Int.le_refl _
    · exact h.nextStart
  · intro pause hpause
    dsimp only [Decoding.passPause] at hpause ⊢
    split_ifs at hpause
    · rcases List.mem_append.mp hpause with hbefore | hlast
      · exact h.possibleEnds pause hbefore
      · obtain rfl := List.mem_singleton.mp hlast
        exact ⟨hstart, by dsimp only; omega, by dsimp only; omega⟩
    · exact h.possibleEnds pause hpause

theorem Decoding.Kept.resume (h : d.Kept cur) (lengths : Lengths) (speech : Bool) :
    (d.resume lengths cur speech).Kept cur := by
  rw [Decoding.resume]
  split_ifs with hresume
  · have hset : d.tempEnd ≠ 0 := by simpa using (Bool.and_eq_true_iff.mp hresume).2
    cases htriggered : d.triggered with
    | true => exact ((h.speaks htriggered).passPause hset lengths).kept htriggered
    | false =>
      have hcleared := (h.rests htriggered).cleared
      exact absurd (congrArg Decoding.tempEnd hcleared).symm hset
  · exact h

theorem Decoding.Speaks.push (h : d.Speaks cur) (hstop : d.current.start ≤ stop) :
    Segmented stop (d.push stop).speeches :=
  h.speeches.concat h.start_nonneg hstop

theorem Decoding.speaks_clear {d : Decoding} {stop : ℤ} (h : Segmented stop d.speeches)
    (hstop : 0 ≤ stop) (hstart : stop ≤ d.current.start) (hcur : d.current.start ≤ cur)
    (hpositive : 0 ≤ cur) : d.clear.Speaks cur where
  speeches := h.mono hstart
  start_nonneg := Int.le_trans hstop hstart
  start_le := hcur
  tempEnd hset := absurd rfl hset
  prevEnd hset := absurd rfl hset
  nextStart := hpositive
  possibleEnds := nofun

theorem longestPause_mem (best : ℤ × ℤ) (pauses : List (ℤ × ℤ)) :
    longestPause best pauses ∈ best :: pauses := by
  induction pauses generalizing best with
  | nil => exact List.mem_cons_self
  | cons pause pauses ih =>
    rw [longestPause]
    split_ifs
    · exact List.mem_cons_of_mem _ (ih pause)
    · rcases List.mem_cons.mp (ih best) with hbest | hlater
      · rw [hbest]
        exact List.mem_cons_self
      · exact List.mem_cons_of_mem _ (List.mem_cons_of_mem _ hlater)

theorem Decoding.Speaks.cut (h : d.Speaks cur) (htriggered : d.triggered = true)
    (config : SileroVADConfig F) : (d.cut config cur).1.Kept cur := by
  have hstart := h.start_nonneg
  have hcur := h.start_le
  rw [Decoding.cut]
  split
  · rename_i pause pauses _ hends
    have hbest := h.possibleEnds _ (hends ▸ longestPause_mem pause pauses)
    dsimp only
    generalize longestPause pause pauses = best at hbest ⊢
    obtain ⟨hafter, hlength, hend⟩ := hbest
    have hpushed := h.push hafter
    split_ifs
    · refine Decoding.Speaks.kept ?_ htriggered
      exact Decoding.speaks_clear hpushed (Int.le_trans hstart hafter)
        (show best.1 ≤ best.1 + best.2 by omega) hend (Int.le_trans hstart hcur)
    · exact Decoding.Rests.kept ⟨hpushed.mono (by omega), rfl⟩ rfl
  · by_cases hset : d.prevEnd ≠ 0
    · obtain ⟨hafter, hend⟩ := h.prevEnd hset
      have hpushed := h.push hafter
      rw [if_pos hset]
      dsimp only
      split_ifs with hnext
      · exact Decoding.Rests.kept ⟨hpushed.mono hend, rfl⟩ rfl
      · refine Decoding.Speaks.kept ?_ htriggered
        exact Decoding.speaks_clear hpushed (Int.le_trans hstart hafter) (Int.not_lt.mp hnext)
          h.nextStart (Int.le_trans hstart hcur)
    · rw [if_neg hset]
      exact Decoding.Rests.kept ⟨h.push hcur, rfl⟩ rfl

/-! ## A window -/

theorem Decoding.Speaks.startPause (h : d.Speaks cur) : (d.startPause cur).Speaks cur := by
  rw [Decoding.startPause]
  split_ifs
  · exact { h with tempEnd := fun _ => ⟨h.start_le, Int.le_refl _⟩ }
  · exact h

theorem Decoding.Speaks.startPause_tempEnd (h : d.Speaks cur) :
    d.current.start ≤ (d.startPause cur).tempEnd ∧ (d.startPause cur).tempEnd ≤ cur := by
  rw [Decoding.startPause]
  split_ifs with hzero
  · exact ⟨h.start_le, Int.le_refl _⟩
  · exact h.tempEnd hzero

theorem Decoding.Speaks.notePause (h : d.Speaks cur)
    (htemp : d.current.start ≤ d.tempEnd ∧ d.tempEnd ≤ cur) (lengths : Lengths)
    (config : SileroVADConfig F) : (d.notePause lengths config cur).Speaks cur := by
  rw [Decoding.notePause]
  split_ifs
  · exact { h with prevEnd := fun _ => htemp }
  · exact h

theorem Decoding.notePause_same (lengths : Lengths) (config : SileroVADConfig F) (d : Decoding) :
    (d.notePause lengths config cur).triggered = d.triggered ∧
      (d.notePause lengths config cur).current = d.current ∧
      (d.notePause lengths config cur).tempEnd = d.tempEnd := by
  rw [Decoding.notePause]
  split_ifs <;> exact ⟨rfl, rfl, rfl⟩

theorem Decoding.Speaks.endSpeech (h : d.Speaks cur)
    (htemp : d.current.start ≤ d.tempEnd ∧ d.tempEnd ≤ cur) (lengths : Lengths) :
    (d.endSpeech lengths).Kept cur := by
  refine Decoding.Rests.kept ⟨?_, rfl⟩ rfl
  rw [Decoding.endSpeech]
  split_ifs
  · exact (h.push htemp.1).mono htemp.2
  · exact h.speeches.mono h.start_le

theorem Decoding.Speaks.pause (h : d.Speaks cur) (htriggered : d.triggered = true)
    (htemp : d.current.start ≤ d.tempEnd ∧ d.tempEnd ≤ cur) (lengths : Lengths)
    (config : SileroVADConfig F) : (d.pause lengths config cur).Kept cur := by
  have hnoted := h.notePause htemp lengths config
  obtain ⟨hsame, hcurrent, htempEnd⟩ := d.notePause_same lengths config
  rw [Decoding.pause]
  split_ifs
  · exact hnoted.kept (hsame.trans htriggered)
  · refine hnoted.endSpeech ?_ lengths
    rw [hcurrent, htempEnd]
    exact htemp

theorem Decoding.Kept.quiet (h : d.Kept cur) (lengths : Lengths) (config : SileroVADConfig F)
    (quiet : Bool) :
    (if quiet && d.triggered then (d.startPause cur).pause lengths config cur else d).Kept cur := by
  split_ifs with hquiet
  · have htriggered := (Bool.and_eq_true_iff.mp hquiet).2
    have hspeaks := h.speaks htriggered
    have hsame : (d.startPause cur).triggered = d.triggered ∧
        (d.startPause cur).current = d.current := by
      rw [Decoding.startPause]
      split_ifs <;> exact ⟨rfl, rfl⟩
    refine hspeaks.startPause.pause (hsame.1.trans htriggered) ?_ lengths config
    rw [hsame.2]
    exact hspeaks.startPause_tempEnd
  · exact h

theorem Decoding.Rests.start (h : d.Rests cur) (hcur : 0 ≤ cur) :
    { d with triggered := true, current := { d.current with start := cur } }.Kept cur := by
  refine Decoding.Speaks.kept ?_ rfl
  rw [← h.cleared]
  exact ⟨h.speeches, hcur, Int.le_refl _, fun hset => absurd rfl hset, fun hset => absurd rfl hset,
    hcur, nofun⟩

theorem Decoding.Kept.window (h : d.Kept cur) (hcur : 0 ≤ cur) (floats : Floats F)
    (lengths : Lengths) (config : SileroVADConfig F) (prob : F) :
    (decodeWindow floats lengths config cur prob d).Kept cur := by
  have hresume := h.resume lengths (floats.atLeast prob config.threshold)
  rw [decodeWindow]
  dsimp only
  generalize d.resume lengths cur (floats.atLeast prob config.threshold) = d at hresume ⊢
  by_cases hstart : (floats.atLeast prob config.threshold && !d.triggered) = true
  · rw [if_pos hstart]
    have hidle : d.triggered = false := by simpa using (Bool.and_eq_true_iff.mp hstart).2
    exact (hresume.rests hidle).start hcur
  rw [if_neg hstart]
  by_cases hlong : (d.triggered && decide (lengths.maxSpeech < cur - d.current.start)) = true
  · have htriggered := (Bool.and_eq_true_iff.mp hlong).1
    have hcut := (hresume.speaks htriggered).cut htriggered config
    rw [if_pos hlong]
    by_cases hcontinued : (d.cut config cur).2 = true
    · rw [if_pos hcontinued]
      exact hcut
    · rw [if_neg hcontinued]
      exact hcut.quiet lengths config _
  · rw [if_neg hlong]
    exact hresume.quiet lengths config _

theorem Decoding.Kept.windows {i : ℕ} (h : d.Kept cur) (hcur : cur ≤ i * chunkSamples)
    (hlast : cur ≤ samples) (floats : Floats F) (lengths : Lengths) (config : SileroVADConfig F)
    (probs : List F)
    (hwindows : ∀ j, i ≤ j → j < i + probs.length → (j : ℤ) * chunkSamples ≤ samples) :
    (decodeWindows floats lengths config i probs d).Kept samples := by
  induction probs generalizing i d cur with
  | nil => exact h.mono hlast
  | cons prob probs ih =>
    rw [List.length_cons] at hwindows
    have hpositive : 0 ≤ (i : ℤ) * chunkSamples := by
      rw [chunkSamples]
      omega
    have hnext := (h.mono hcur).window hpositive floats lengths config prob
    refine ih hnext ?_ (hwindows i (Nat.le_refl i) (by omega)) fun j hij hj =>
      hwindows j (by omega) (by omega)
    rw [chunkSamples]
    omega

/-! ## Padding -/

theorem padAfter_segmented (hpad : 0 ≤ pad) (h : Segmented samples (speech :: rest)) :
    Segmented samples (padAfter samples pad speech rest) ∧
      ∀ segment ∈ padAfter samples pad speech rest, speech.start ≤ segment.start := by
  induction rest generalizing speech with
  | nil =>
    obtain ⟨⟨hstart, hsize, hstop⟩, -, hrest⟩ := segmented_cons.mp h
    rw [padAfter]
    refine ⟨segmented_cons.mpr ⟨⟨hstart, ?_, ?_⟩, List.forall_mem_nil _, hrest⟩, ?_⟩
    · dsimp only
      omega
    · exact Int.min_le_left _ _
    · exact List.forall_mem_singleton.mpr (Int.le_refl _)
  | cons next rest ih =>
    obtain ⟨⟨hstart, hsize, hstop⟩, hnexts, hrest⟩ := segmented_cons.mp h
    obtain ⟨⟨hnext, hnextSize, hnextStop⟩, hlater, hrest⟩ := segmented_cons.mp hrest
    have hafter := hnexts next List.mem_cons_self
    -- the next segment grows to the left by at most the silence
    have hgrow : ∀ stop start : ℤ, speech.stop ≤ stop → stop ≤ start → start ≤ next.start →
        Segmented samples ({ speech with stop := stop } ::
          padAfter samples pad { next with start := start } rest) ∧
        ∀ segment ∈ { speech with stop := stop } ::
          padAfter samples pad { next with start := start } rest, speech.start ≤ segment.start := by
      intro stop start hge hle hmoved
      have hmovedNext : Segmented samples ({ next with start := start } :: rest) :=
        segmented_cons.mpr ⟨⟨by dsimp only; omega, Int.le_trans hmoved hnextSize, hnextStop⟩,
          hlater, hrest⟩
      obtain ⟨hpadded, hstarts⟩ := ih hmovedNext
      refine ⟨segmented_cons.mpr ⟨⟨hstart, Int.le_trans hsize hge, by dsimp only; omega⟩,
        fun segment hsegment => Int.le_trans hle (hstarts segment hsegment), hpadded⟩,
        List.forall_mem_cons.mpr ⟨Int.le_refl _, fun segment hsegment => ?_⟩⟩
      have := hstarts segment hsegment
      dsimp only at this
      omega
    have hhalf : (next.start - speech.stop).tdiv 2 = (next.start - speech.stop) / 2 :=
      Int.tdiv_eq_ediv_of_nonneg (by omega)
    rw [padAfter, hhalf]
    split_ifs with hsilence
    · exact hgrow _ _ (by omega) (by omega) (by omega)
    · exact hgrow _ _ (by omega) (by omega) (by omega)

theorem padSpeeches_segmented (hpad : 0 ≤ pad) (h : Segmented samples segments) :
    Segmented samples (padSpeeches samples pad segments) := by
  cases segments with
  | nil => exact h
  | cons first rest =>
    obtain ⟨⟨hstart, hsize, hstop⟩, hnexts, hrest⟩ := segmented_cons.mp h
    have hmoved : Segmented samples ({ first with start := max 0 (first.start - pad) } :: rest) := by
      refine segmented_cons.mpr ⟨⟨Int.le_max_left _ _, ?_, hstop⟩, hnexts, hrest⟩
      dsimp only
      omega
    exact (padAfter_segmented hpad hmoved).1

def shrunk (pad : ℤ) (segment : Timestamp) : Timestamp :=
  ⟨segment.start - pad, segment.stop + pad⟩

theorem padAfter_neg (hpad : pad < 0) (hstop : speech.stop ≤ samples)
    (hnexts : ∀ next ∈ rest, speech.stop ≤ next.start) (h : Segmented samples rest) :
    padAfter samples pad speech rest =
      { speech with stop := speech.stop + pad } :: rest.map (shrunk pad) := by
  induction rest generalizing speech with
  | nil =>
    have hmin : min samples (speech.stop + pad) = speech.stop + pad := by omega
    rw [padAfter, hmin]
    rfl
  | cons next rest ih =>
    obtain ⟨⟨hnext, hnextSize, hnextStop⟩, hlater, hrest⟩ := segmented_cons.mp h
    have hafter := hnexts next List.mem_cons_self
    have hsilence : ¬ next.start - speech.stop < 2 * pad := by omega
    have hmin : min samples (speech.stop + pad) = speech.stop + pad := by omega
    have hmax : max 0 (next.start - pad) = next.start - pad := by omega
    have hmoved : padAfter samples pad { next with start := next.start - pad } rest =
        { next with start := next.start - pad, stop := next.stop + pad } :: rest.map (shrunk pad) :=
      ih hnextStop hlater hrest
    rw [padAfter, if_neg hsilence, hmin, hmax, hmoved]
    rfl

theorem padSpeeches_neg (hpad : pad < 0) (h : Segmented samples segments) :
    padSpeeches samples pad segments = segments.map (shrunk pad) := by
  cases segments with
  | nil => rfl
  | cons first rest =>
    obtain ⟨⟨hstart, hsize, hstop⟩, hnexts, hrest⟩ := segmented_cons.mp h
    have hmax : max 0 (first.start - pad) = first.start - pad := by omega
    rw [padSpeeches, hmax]
    exact padAfter_neg hpad hstop hnexts hrest

theorem segmented_shrunk_iff (hpad : pad < 0) (h : Segmented samples segments) :
    Segmented samples (segments.map (shrunk pad)) ↔
      ∀ segment ∈ segments, 2 * -pad ≤ segment.stop - segment.start := by
  constructor
  · intro hshrunk segment hsegment
    have := hshrunk.start_le_stop _ (List.mem_map_of_mem hsegment)
    dsimp only [shrunk] at this
    omega
  · intro hlong
    refine ⟨⟨List.forall_mem_map.mpr fun segment hsegment => ?_, ?_⟩,
      List.forall_mem_map.mpr fun segment hsegment => ?_⟩
    · have hinside := h.inside segment hsegment
      dsimp only [shrunk]
      omega
    · rw [List.pairwise_map]
      refine h.pairwise.imp fun {first next} hle => ?_
      dsimp only [shrunk]
      omega
    · have := hlong segment hsegment
      dsimp only [shrunk]
      omega

theorem padSpeeches_segmented_iff (h : Segmented samples segments) :
    Segmented samples (padSpeeches samples pad segments) ↔
      0 ≤ pad ∨ ∀ segment ∈ segments, 2 * -pad ≤ segment.stop - segment.start := by
  by_cases hpad : 0 ≤ pad
  · exact iff_of_true (padSpeeches_segmented hpad h) (.inl hpad)
  · rw [padSpeeches_neg (Int.not_le.mp hpad) h, segmented_shrunk_iff (Int.not_le.mp hpad) h,
      or_iff_right hpad]

/-! ## All windows -/

def speechesOf (floats : Floats F) (probs : List F) (samples sampleRate : ℤ)
    (config : SileroVADConfig F) : List Timestamp :=
  let lengths := lengthsOf floats sampleRate config
  let d := decodeWindows floats lengths config 0 probs .initial
  if d.triggered && lengths.minSpeech < samples - d.current.start then
    d.speeches ++ [{ d.current with stop := samples }] else d.speeches

theorem speechesOf_segmented (floats : Floats F) (probs : List F) (samples sampleRate : ℤ)
    (config : SileroVADConfig F) (hwindows : ∀ j < probs.length, (j : ℤ) * chunkSamples ≤ samples) :
    Segmented samples (speechesOf floats probs samples sampleRate config) := by
  have hkept := (Decoding.kept_initial (min 0 samples)).windows (i := 0)
    (by rw [Int.natCast_zero, Int.zero_mul]; exact Int.min_le_left _ _) (Int.min_le_right _ _)
    floats (lengthsOf floats sampleRate config) config probs
    fun j _ hj => hwindows j (by omega)
  rw [speechesOf]
  dsimp only
  generalize decodeWindows floats (lengthsOf floats sampleRate config) config 0 probs .initial = d
    at hkept ⊢
  cases htriggered : d.triggered with
  | true =>
    have hspeaks := hkept.speaks htriggered
    split_ifs
    · exact hspeaks.speeches.concat hspeaks.start_nonneg hspeaks.start_le
    · exact hspeaks.speeches.mono hspeaks.start_le
  | false =>
    rw [Bool.false_and, if_neg Bool.false_ne_true]
    exact (hkept.rests htriggered).speeches

/-- The segments lie in the samples, in order and apart, unless `int` makes the padding negative and
it is more than a speech has. -/
theorem decodeSpeechTimestamps_segmented_iff (floats : Floats F) (probs : List F)
    (samples sampleRate : ℤ) (config : SileroVADConfig F)
    (hwindows : (probs.length : ℤ) = (samples + chunkSamples - 1) / chunkSamples) :
    Segmented samples (decodeSpeechTimestamps floats probs samples sampleRate config) ↔
      0 ≤ msSamples sampleRate config.speechPadMs ∨
        ∀ speech ∈ speechesOf floats probs samples sampleRate config,
          2 * -msSamples sampleRate config.speechPadMs ≤ speech.stop - speech.start := by
  have hinside : ∀ j < probs.length, (j : ℤ) * chunkSamples ≤ samples := by
    intro j hj
    rw [chunkSamples] at hwindows ⊢
    omega
  exact padSpeeches_segmented_iff
    (speechesOf_segmented floats probs samples sampleRate config hinside)

/-- Two seconds of speech at most, with the padding of the defaults; the last window is not full. -/
theorem decodeSpeechTimestamps_cut :
    Segmented 51000 (decodeSpeechTimestamps percent
      (List.replicate 90 90 ++ List.replicate 4 0 ++ List.replicate 6 90) 51000 sampleRate16k
      ⟨50, 250, 100, 30, 2, -1, 98, true⟩) :=
  (decodeSpeechTimestamps_segmented_iff percent
    (List.replicate 90 90 ++ List.replicate 4 0 ++ List.replicate 6 90) 51000 sampleRate16k
    ⟨50, 250, 100, 30, 2, -1, 98, true⟩ (by decide)).mpr (.inl (by decide))

/-- The segment of ten loud windows ends before it starts, with a padding of 134218 milliseconds. -/
theorem decodeSpeechTimestamps_wraps : ¬ ∀ (config : SileroVADConfig ℤ) (probs : List ℤ)
    (samples : ℤ), 0 ≤ config.minSpeechDurationMs → 0 ≤ config.minSilenceDurationMs →
    0 ≤ config.speechPadMs → 0 < config.maxSpeechDurationS → 0 ≤ config.minSilenceAtMaxSpeechMs →
    (probs.length : ℤ) = (samples + chunkSamples - 1) / chunkSamples →
    Segmented samples (decodeSpeechTimestamps percent probs samples sampleRate16k config) := by
  intro hall
  have hsegmented := hall ⟨50, 250, 100, 134218, 30, -1, 98, true⟩ (List.replicate 10 90) 5120
    (by decide) (by decide) (by decide) (by decide) (by decide) (by decide)
  have hdecoded : decodeSpeechTimestamps percent (List.replicate 10 90) 5120 sampleRate16k
      ⟨50, 250, 100, 134218, 30, -1, 98, true⟩ = [⟨2147479, -2142359⟩] := by
    decide
  rw [hdecoded] at hsegmented
  have hsize := hsegmented.start_le_stop _ List.mem_cons_self
  exact absurd hsize (by decide)

end FastTts.Silero
