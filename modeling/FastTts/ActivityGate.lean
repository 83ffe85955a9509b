import FastTts.Json
import FastTts.Ranges
import Mathlib.Data.Nat.Dist
import Mathlib.Data.Rat.Floor

/-!
# The activity gate

A gate passes the frames of windows that are louder than a threshold, with a margin, and fades the
frames next to them. The region of activity is found by a loop of its own over the same windows.
Numbers are exact; `pow` is the power of two numbers.
-/

namespace FastTts.ActivityGate

local instance two : Nat.AtLeastTwo 2 := ⟨by decide⟩

local instance ten : Nat.AtLeastTwo 10 := ⟨by decide⟩

variable {K : Type} [Field K] [LinearOrder K] [FloorRing K]

def llround (x : K) : ℤ := if 0 ≤ x then ⌊x + 1 / 2⌋ else ⌈x - 1 / 2⌉

def windowFrames (windowSeconds : K) (sampleRate : ℤ) : ℕ :=
  max 1 (llround (windowSeconds * sampleRate)).toNat

def secondsFrames (seconds : K) (sampleRate : ℤ) : ℕ := (llround (seconds * sampleRate)).toNat

/-- The starts that a loop from `start` to `stop` takes with steps of `width`. -/
def windowStarts (width start stop : ℕ) : List ℕ :=
  ((List.range (stop - start)).map fun pass => start + pass * width).filter (· < stop)

omit [FloorRing K] in
def meanEnergy (samples : List K) (channels windowStart windowEnd : ℕ) : K :=
  let values := Ranges.slice samples (windowStart * channels, windowEnd * channels)
  if 0 < values.length then (values.map fun sample => sample * sample).sum / values.length else 0

def isLoud (pow : K → K → K) (samples : List K) (channels : ℕ) (thresholdDbfs : K)
    (windowStart windowEnd : ℕ) : Bool :=
  let threshold := pow 10 (thresholdDbfs / 20)
  threshold * threshold < meanEnergy samples channels windowStart windowEnd

def markWindow (loud : ℕ → ℕ → Bool) (width margin frames : ℕ) (active : ℕ → Bool)
    (windowStart : ℕ) : ℕ → Bool :=
  let windowEnd := min frames (windowStart + width)
  if loud windowStart windowEnd then fun frame =>
    active frame || (windowStart - margin ≤ frame && frame < min frames (windowEnd + margin))
  else active

def activeFrames (loud : ℕ → ℕ → Bool) (width margin frames : ℕ) : ℕ → Bool :=
  (windowStarts width 0 frames).foldl (markWindow loud width margin frames) fun _ => false

/-- What the scan from the first frame has stored at a frame. -/
def prevActive (active : ℕ → Bool) : ℕ → ℤ
  | 0 => if active 0 then 0 else -1
  | frame + 1 => if active (frame + 1) then (frame + 1 : ℕ) else prevActive active frame

/-- What the scan from the last frame stores at a frame with `left - 1` frames behind it. -/
def nextActive (active : ℕ → Bool) : ℕ → ℕ → ℕ
  | 0, frame => frame
  | left + 1, frame => if active frame then frame else nextActive active left (frame + 1)

def nearestDistance (active : ℕ → Bool) (fadeFrames frames frame : ℕ) : ℤ :=
  let prev := prevActive active frame
  let next := nextActive active (frames - frame) frame
  let distancePrev : ℤ := if 0 ≤ prev then frame - prev else fadeFrames + 1
  let distanceNext : ℤ := if next < frames then next - frame else fadeFrames + 1
  min distancePrev distanceNext

def gateAt (active : ℕ → Bool) (fadeFrames frames frame : ℕ) : K :=
  if active frame then 1
  else if 0 < fadeFrames then
    let distance := nearestDistance active fadeFrames frames frame
    if distance ≤ fadeFrames then 1 - distance / (fadeFrames + 1) else 0
  else 0

def applyActivityGateInPlace (pow : K → K → K) (samples reference : List K)
    (channels sampleRate : ℤ) (thresholdDbfs windowSeconds marginSeconds fadeSeconds : K) :
    Except Exception (List K) :=
  if channels ≤ 0 ∨ sampleRate ≤ 0 ∨ windowSeconds ≤ 0 ∨ marginSeconds < 0 ∨ fadeSeconds < 0 then
    .error (bytes "audio activity gate received invalid parameters")
  else if samples.length ≠ reference.length ∨ samples.length % channels.toNat ≠ 0 then
    .error (bytes "audio activity gate requires matching input and reference shapes")
  else
    let frames := samples.length / channels.toNat
    if frames = 0 then .ok samples
    else
      let width := windowFrames windowSeconds sampleRate
      let active := activeFrames (isLoud pow reference channels.toNat thresholdDbfs) width
        (secondsFrames marginSeconds sampleRate) frames
      .ok (samples.mapIdx fun i sample =>
        sample * gateAt active (secondsFrames fadeSeconds sampleRate) frames (i / channels.toNat))

structure AudioActivityRegion where
  hasActivity : Bool
  startFrame : ℕ
  endFrame : ℕ

/-- `first_active` and `last_active` after the windows from `starts`. -/
def activeBounds (loud : ℕ → ℕ → Bool) (width regionEnd : ℕ) (bounds : ℕ × ℕ) (starts : List ℕ) :
    ℕ × ℕ :=
  starts.foldl (fun bounds windowStart =>
    let windowEnd := min regionEnd (windowStart + width)
    if loud windowStart windowEnd then (min bounds.1 windowStart, max bounds.2 windowEnd)
    else bounds) bounds

def findInterleavedAudioActivityRegion (pow : K → K → K) (samples : List K)
    (channelCount sampleRateHz startFrame frameCount : ℤ)
    (thresholdDbfs windowSeconds marginSeconds : K) : Except Exception AudioActivityRegion :=
  if channelCount ≤ 0 ∨ sampleRateHz ≤ 0 then
    .error (bytes "audio activity detection requires positive audio metadata")
  else if startFrame < 0 ∨ frameCount < 0 ∨ windowSeconds ≤ 0 ∨ marginSeconds < 0 then
    .error (bytes "audio activity detection received invalid timing parameters")
  else if samples.length % channelCount.toNat ≠ 0 then
    .error (bytes "audio activity detection samples are not divisible by channel count")
  else
    let totalFrames : ℤ := (samples.length / channelCount.toNat : ℕ)
    if totalFrames < startFrame ∨ totalFrames - startFrame < frameCount then
      .error (bytes "audio activity detection window exceeds the input audio length")
    else
      let start := startFrame.toNat
      if frameCount = 0 then .ok ⟨false, start, start⟩
      else
        let width := windowFrames windowSeconds sampleRateHz
        let margin := secondsFrames marginSeconds sampleRateHz
        let regionEnd := start + frameCount.toNat
        let bounds := activeBounds (isLoud pow samples channelCount.toNat thresholdDbfs) width
          regionEnd (regionEnd, start) (windowStarts width start regionEnd)
        if bounds.2 ≤ bounds.1 then .ok ⟨false, start, start⟩
        else .ok ⟨true, max start (bounds.1 - margin), min regionEnd (bounds.2 + margin)⟩

/-! ## The mask and the bounds -/

variable {loud : ℕ → ℕ → Bool} {width margin fadeFrames frames frame : ℕ} {starts : List ℕ}

/-- What the gate passes: the frames of loud windows and of their margins. -/
def passedFrames (loud : ℕ → ℕ → Bool) (width margin frames : ℕ) : Set ℕ :=
  {frame | frame < frames ∧ ∃ windowStart < frames, width ∣ windowStart ∧
    loud windowStart (min frames (windowStart + width)) = true ∧ windowStart ≤ frame + margin ∧
    frame < min frames (windowStart + width) + margin}

theorem mem_windowStarts (hwidth : 0 < width) {windowStart : ℕ} :
    windowStart ∈ windowStarts width 0 frames ↔ windowStart < frames ∧ width ∣ windowStart := by
  simp only [windowStarts, Nat.sub_zero, Nat.zero_add, List.mem_filter, List.mem_map,
    List.mem_range, decide_eq_true_eq]
  constructor
  · rintro ⟨⟨pass, -, rfl⟩, hlt⟩
    exact ⟨hlt, Nat.dvd_mul_left _ _⟩
  · rintro ⟨hlt, pass, rfl⟩
    exact ⟨⟨pass, (Nat.le_mul_of_pos_left _ hwidth).trans_lt hlt, Nat.mul_comm _ _⟩, hlt⟩

theorem foldl_markWindow (active : ℕ → Bool) :
    starts.foldl (markWindow loud width margin frames) active frame = true ↔
      active frame = true ∨ ∃ windowStart ∈ starts,
        loud windowStart (min frames (windowStart + width)) = true ∧
        windowStart ≤ frame + margin ∧
        frame < min frames (min frames (windowStart + width) + margin) := by
  induction starts generalizing active with
  | nil => simp
  | cons windowStart starts ih =>
    rw [List.foldl_cons, ih, markWindow]
    split <;> simp [*, or_assoc]

theorem activeFrames_passed (hwidth : 0 < width) :
    {frame | frame < frames ∧ activeFrames loud width margin frames frame = true} =
      passedFrames loud width margin frames := by
  refine Set.ext fun frame => and_congr_right fun hframe => ?_
  simp only [activeFrames, foldl_markWindow, Bool.false_eq_true, false_or,
    mem_windowStarts hwidth, hframe, true_and, and_assoc, lt_min_iff]

theorem le_activeBounds (bounds : ℕ × ℕ) (x : ℕ) :
    x ≤ (activeBounds loud width frames bounds starts).1 ↔ x ≤ bounds.1 ∧
      ∀ windowStart ∈ starts, loud windowStart (min frames (windowStart + width)) = true →
        x ≤ windowStart := by
  induction starts generalizing bounds with
  | nil => simp [activeBounds]
  | cons windowStart starts ih =>
    rw [activeBounds, List.foldl_cons, ← activeBounds, ih]
    dsimp only
    split <;> simp [*, and_assoc]

theorem activeBounds_le (bounds : ℕ × ℕ) (x : ℕ) :
    (activeBounds loud width frames bounds starts).2 ≤ x ↔ bounds.2 ≤ x ∧
      ∀ windowStart ∈ starts, loud windowStart (min frames (windowStart + width)) = true →
        min frames (windowStart + width) ≤ x := by
  induction starts generalizing bounds with
  | nil => simp [activeBounds]
  | cons windowStart starts ih =>
    rw [activeBounds, List.foldl_cons, ← activeBounds, ih]
    dsimp only
    split <;> simp [*, and_assoc]

/-- The region from the first of the frames to the last. -/
structure Delimits (passed : Set ℕ) (region : AudioActivityRegion) : Prop where
  hasActivity : region.hasActivity = true ↔ passed.Nonempty
  first : region.hasActivity = true → IsLeast passed region.startFrame
  last : region.hasActivity = true → IsGreatest ((· + 1) '' passed) region.endFrame

theorem region_delimits (hwidth : 0 < width) {bounds : ℕ × ℕ}
    (h : activeBounds loud width frames (frames, 0) (windowStarts width 0 frames) = bounds) :
    Delimits (passedFrames loud width margin frames)
      (if bounds.2 ≤ bounds.1 then ⟨false, 0, 0⟩
      else ⟨true, max 0 (bounds.1 - margin), min frames (bounds.2 + margin)⟩) := by
  have hlow := fun x => h ▸ le_activeBounds (frames, 0) x
  have hhigh := fun x => h ▸ activeBounds_le (frames, 0) x
  simp only [mem_windowStarts hwidth, and_imp] at hlow hhigh
  have hfirst := ((hlow _).mp le_rfl).2
  have hlast := ((hhigh _).mp le_rfl).2
  split
  · next hnone =>
    refine ⟨⟨nofun, ?_⟩, nofun, nofun⟩
    rintro ⟨frame, -, windowStart, hlt, hdvd, hloud, -⟩
    have hle := hfirst windowStart hlt hdvd hloud
    have hge := hlast windowStart hlt hdvd hloud
    omega
  · next hsome =>
    -- Both bounds have moved, and stand at a loud window each.
    have hstop := (hhigh frames).mpr ⟨Nat.zero_le _, fun _ _ _ _ => min_le_left _ _⟩
    have hfirstNext := mt (hlow (bounds.1 + 1)).mpr (by omega)
    have hlastPrev := mt (hhigh (bounds.2 - 1)).mpr (by omega)
    push Not at hfirstNext hlastPrev
    obtain ⟨first, hfirstLt, hfirstDvd, hfirstLoud, hfirstLe⟩ := hfirstNext (by omega)
    obtain ⟨last, hlastLt, hlastDvd, hlastLoud, hlastLe⟩ := hlastPrev (Nat.zero_le _)
    have hatFirst := hfirst first hfirstLt hfirstDvd hfirstLoud
    have hatLast := hlast last hlastLt hlastDvd hlastLoud
    have hleast : max 0 (bounds.1 - margin) ∈ passedFrames loud width margin frames :=
      ⟨by omega, first, hfirstLt, hfirstDvd, hfirstLoud, by omega, by omega⟩
    have hgreatest : min frames (bounds.2 + margin) - 1 ∈ passedFrames loud width margin frames :=
      ⟨by omega, last, hlastLt, hlastDvd, hlastLoud, by omega, by omega⟩
    refine ⟨⟨fun _ => ⟨_, hleast⟩, fun _ => rfl⟩, fun _ => ⟨hleast, ?_⟩,
      fun _ => ⟨⟨_, hgreatest, ?_⟩, ?_⟩⟩
    · rintro frame ⟨-, windowStart, hlt, hdvd, hloud, hfrom, -⟩
      have hle := hfirst windowStart hlt hdvd hloud
      dsimp only
      omega
    · dsimp only
      omega
    · rintro _ ⟨frame, ⟨hframe, windowStart, hlt, hdvd, hloud, -, hto⟩, rfl⟩
      have hle := hlast windowStart hlt hdvd hloud
      dsimp only
      omega

/-! ## The nearest frames -/

variable {active : ℕ → Bool}

theorem le_prevActive (active : ℕ → Bool) {x : ℤ} (hx : 0 ≤ x) (frame : ℕ) :
    x ≤ prevActive active frame ↔ ∃ p ≤ frame, x ≤ p ∧ active p = true := by
  induction frame with
  | zero => cases h : active 0 <;> simp [prevActive, h, hx.trans_lt']
  | succ frame ih =>
    rw [prevActive]
    split
    · next h => exact ⟨fun hle => ⟨frame + 1, le_rfl, hle, h⟩, fun ⟨p, hp, hle, _⟩ => by omega⟩
    · next h =>
      rw [ih]
      refine exists_congr fun p => ⟨fun ⟨hp, hrest⟩ => ⟨by omega, hrest⟩, ?_⟩
      rintro ⟨hp, hle, hpassed⟩
      have hne : p ≠ frame + 1 := by
        rintro rfl
        exact h hpassed
      exact ⟨by omega, hle, hpassed⟩

theorem nextActive_le (active : ℕ → Bool) {left frame : ℕ} {x : ℤ} (hx : x < frame + left) :
    nextActive active left frame ≤ x ↔ ∃ p, frame ≤ p ∧ (p : ℤ) ≤ x ∧ active p = true := by
  induction left generalizing frame with
  | zero =>
    rw [nextActive]
    exact ⟨fun hle => by omega, fun ⟨p, hp, hle, _⟩ => by omega⟩
  | succ left ih =>
    rw [nextActive]
    split
    · next h => exact ⟨fun hle => ⟨frame, le_rfl, hle, h⟩, fun ⟨p, hp, hle, _⟩ => by omega⟩
    · next h =>
      rw [ih (by omega)]
      refine exists_congr fun p => ⟨fun ⟨hp, hrest⟩ => ⟨by omega, hrest⟩, ?_⟩
      rintro ⟨hp, hle, hpassed⟩
      have hne : p ≠ frame := by
        rintro rfl
        exact h hpassed
      exact ⟨by omega, hle, hpassed⟩

theorem nearestDistance_le (hframe : frame < frames) {e : ℤ} (he : e ≤ fadeFrames) :
    nearestDistance active fadeFrames frames frame ≤ e ↔
      ∃ p < frames, active p = true ∧ (Nat.dist frame p : ℤ) ≤ e := by
  have hback : (if 0 ≤ prevActive active frame then frame - prevActive active frame
      else (fadeFrames : ℤ) + 1) ≤ e ↔ max 0 (frame - e) ≤ prevActive active frame := by
    split <;> omega
  have hahead : (if nextActive active (frames - frame) frame < frames then
      (nextActive active (frames - frame) frame : ℤ) - frame else (fadeFrames : ℤ) + 1) ≤ e ↔
      nextActive active (frames - frame) frame ≤ min ((frames : ℤ) - 1) (frame + e) := by
    split <;> omega
  have hinside : min ((frames : ℤ) - 1) (frame + e) < frame + (frames - frame : ℕ) := by omega
  rw [nearestDistance]
  simp only [min_le_iff, hback, hahead, le_prevActive active (le_max_left 0 (frame - e)),
    nextActive_le active hinside, Nat.dist]
  constructor
  · rintro (⟨p, hp, hle, hpassed⟩ | ⟨p, hp, hle, hpassed⟩)
    all_goals exact ⟨p, by omega, hpassed, by omega⟩
  · rintro ⟨p, hp, hpassed, hle⟩
    rcases le_total p frame with h | h
    · exact .inl ⟨p, h, by omega, hpassed⟩
    · exact .inr ⟨p, h, by omega, hpassed⟩

/-- What a gate does: it passes frames, fades those next to them and silences the others. -/
structure Gates (passed : Set ℕ) (fadeFrames frames : ℕ) (gate : ℕ → K) : Prop where
  passes : ∀ frame ∈ passed, gate frame = 1
  fades : ∀ frame < frames, frame ∉ passed → ∀ distance,
    IsLeast (Nat.dist frame '' passed) distance →
      gate frame = if distance ≤ fadeFrames then 1 - (distance : K) / (fadeFrames + 1) else 0
  silences : passed = ∅ → ∀ frame < frames, gate frame = 0

theorem nearestDistance_pos (fadeFrames : ℕ) (hframe : frame < frames)
    (h : ¬ active frame = true) :
    0 < nearestDistance active fadeFrames frames frame := by
  by_contra! hle
  obtain ⟨p, -, hpassed, hdist⟩ := (nearestDistance_le hframe (Int.natCast_nonneg _)).mp hle
  exact h (Nat.eq_of_dist_eq_zero (by omega : Nat.dist frame p = 0) ▸ hpassed)

omit [LinearOrder K] [FloorRing K] in
theorem gateAt_gates :
    Gates {frame | frame < frames ∧ active frame = true} fadeFrames frames
      (gateAt (K := K) active fadeFrames frames) := by
  refine ⟨fun frame hpassed => if_pos hpassed.2, fun frame hframe hother d hleast => ?_, ?_⟩
  · have hd : ∀ e : ℤ, e ≤ fadeFrames →
        (nearestDistance active fadeFrames frames frame ≤ e ↔ (d : ℤ) ≤ e) := by
      intro e he
      rw [nearestDistance_le hframe he]
      constructor
      · rintro ⟨p, hp, hpassed, hle⟩
        exact (Int.ofNat_le.mpr (hleast.2 ⟨p, ⟨hp, hpassed⟩, rfl⟩)).trans hle
      · obtain ⟨p, hp, rfl⟩ := hleast.1
        exact fun hle => ⟨p, hp.1, hp.2, hle⟩
    have hfade := hd fadeFrames le_rfl
    have hactive : ¬ active frame = true := fun h => hother ⟨hframe, h⟩
    have hpos := nearestDistance_pos fadeFrames hframe hactive
    rw [gateAt, if_neg hactive]
    by_cases hle : d ≤ fadeFrames
    · have heq : nearestDistance active fadeFrames frames frame = d :=
        le_antisymm ((hd d (by omega)).mpr le_rfl) ((hd _ (by omega)).mp le_rfl)
      have hsome : 0 < fadeFrames := by omega
      simp [heq, hle, hsome]
    · simp [hle, mt hfade.mp (by omega)]
  · intro hempty frame hframe
    have hnone : ∀ p < frames, ¬ active p = true := fun p hp h =>
      Set.eq_empty_iff_forall_notMem.mp hempty p ⟨hp, h⟩
    have hfar : ¬ nearestDistance active fadeFrames frames frame ≤ fadeFrames :=
      mt (nearestDistance_le hframe le_rfl).mp fun ⟨p, hp, hpassed, _⟩ => hnone p hp hpassed
    simp [gateAt, hnone frame hframe, hfar]

omit [FloorRing K] in
theorem gateAt_eq_one_iff [IsStrictOrderedRing K] (hframe : frame < frames) :
    gateAt (K := K) active fadeFrames frames frame = 1 ↔ active frame = true := by
  refine ⟨fun hone => ?_, fun h => if_pos h⟩
  by_contra hactive
  have hpos := nearestDistance_pos fadeFrames hframe hactive
  have hdenominator : (fadeFrames : K) + 1 ≠ 0 := Nat.cast_add_one_ne_zero fadeFrames
  rw [gateAt, if_neg hactive] at hone
  dsimp only at hone
  split_ifs at hone
  · rw [sub_eq_self, div_eq_zero_iff, or_iff_left hdenominator, Int.cast_eq_zero] at hone
    exact hpos.ne' hone
  all_goals exact zero_ne_one hone

/-- What the gate accepts, the search for the region accepts as well. -/
theorem region_of_accepted {pow : K → K → K} {reference : List K} {channels sampleRate : ℤ}
    {thresholdDbfs windowSeconds marginSeconds : K} (hchannels : 0 < channels)
    (hrate : 0 < sampleRate) (hwindow : 0 < windowSeconds) (hmargin : 0 ≤ marginSeconds)
    (hshape : reference.length % channels.toNat = 0)
    (hframes : reference.length / channels.toNat = frames) :
    ∃ region, findInterleavedAudioActivityRegion pow reference channels sampleRate 0 frames
        thresholdDbfs windowSeconds marginSeconds = .ok region ∧
      Delimits (passedFrames (isLoud pow reference channels.toNat thresholdDbfs)
        (windowFrames windowSeconds sampleRate) (secondsFrames marginSeconds sampleRate) frames)
        region := by
  have hwidth : 0 < windowFrames windowSeconds sampleRate := lt_max_of_lt_left Nat.one_pos
  rw [findInterleavedAudioActivityRegion, if_neg (by omega), if_neg (by simp [hwindow, hmargin]),
    if_neg (not_not.mpr hshape)]
  dsimp only
  rw [hframes, if_neg (by omega)]
  rcases Nat.eq_zero_or_pos frames with rfl | hpos
  · refine ⟨⟨false, 0, 0⟩, rfl, ⟨nofun, ?_⟩, nofun, nofun⟩
    rintro ⟨frame, hframe, -⟩
    exact absurd hframe (Nat.not_lt_zero _)
  · rw [if_neg (by omega), Int.toNat_zero, Nat.zero_add, Int.toNat_natCast, ← apply_ite]
    exact ⟨_, rfl, region_delimits hwidth rfl⟩

/-- The gate passes the frames of loud windows and their margins and fades the frames next to
them. What it passes goes from the first to the last frame of the region of activity. -/
theorem applyActivityGate_delimits [IsStrictOrderedRing K] {pow : K → K → K}
    {samples reference out : List K} {channels sampleRate : ℤ}
    {thresholdDbfs windowSeconds marginSeconds fadeSeconds : K}
    (h : applyActivityGateInPlace pow samples reference channels sampleRate thresholdDbfs
      windowSeconds marginSeconds fadeSeconds = .ok out) :
    let frames := samples.length / channels.toNat
    ∃ gate : ℕ → K, out = samples.mapIdx (fun i sample => sample * gate (i / channels.toNat)) ∧
      Gates (passedFrames (isLoud pow reference channels.toNat thresholdDbfs)
          (windowFrames windowSeconds sampleRate) (secondsFrames marginSeconds sampleRate) frames)
        (secondsFrames fadeSeconds sampleRate) frames gate ∧
      ∃ region, findInterleavedAudioActivityRegion pow reference channels sampleRate 0 frames
          thresholdDbfs windowSeconds marginSeconds = .ok region ∧
        Delimits {frame | frame < frames ∧ gate frame = 1} region := by
  intro frames
  unfold applyActivityGateInPlace at h
  split at h
  · cases h
  next hparameters =>
  split at h
  · cases h
  next hshapes =>
  push Not at hparameters hshapes
  obtain ⟨hchannels, hrate, hwindow, hmargin, -⟩ := hparameters
  have hwidth : 0 < windowFrames windowSeconds sampleRate := lt_max_of_lt_left Nat.one_pos
  obtain ⟨region, hregion, hdelimits⟩ := region_of_accepted hchannels hrate hwindow hmargin
    (hshapes.1 ▸ hshapes.2) (congrArg (· / channels.toNat) hshapes.1.symm)
  rw [← activeFrames_passed hwidth] at hdelimits ⊢
  refine ⟨_, ?_, gateAt_gates, region, hregion, ?_⟩
  · change (if frames = 0 then _ else _) = _ at h
    split at h
    · next hempty =>
      have hlength := Nat.div_add_mod samples.length channels.toNat
      rw [hshapes.2, show samples.length / channels.toNat = 0 from hempty] at hlength
      rw [List.eq_nil_of_length_eq_zero hlength.symm] at h ⊢
      exact (Except.ok.inj h).symm
    · exact (Except.ok.inj h).symm
  · convert hdelimits using 1
    exact Set.ext fun frame => and_congr_right gateAt_eq_one_iff

/-- The frame next to a loud one is halved, the one behind it silenced. -/
theorem applyActivityGate_halves :
    ∃ gate : ℕ → ℚ, [1, 1 / 2, 0] = [1, 1, 1].mapIdx fun i sample => sample * gate (i / 1) :=
  have hout : applyActivityGateInPlace (fun _ _ => 1) [1, 1, 1] [2, 0, 0] 1 1 0 1 0 1 =
      .ok [1, 1 / 2, (0 : ℚ)] := by decide +kernel
  let ⟨gate, hgate, _⟩ := applyActivityGate_delimits hout
  ⟨gate, hgate⟩

end FastTts.ActivityGate
