import FastTts.Json
import Mathlib

/-!
# Chunks of speech

`plan_vad_audio_chunks` cuts audio into chunks of a greatest length that hold the padded segments of
speech. A segment extends the last chunk, is cut off from it in the silence between the two, or
begins chunks of its own; one that reaches back into a full chunk overlaps it.
-/

namespace FastTts.VadChunks

structure TimeSpan where
  start : ℤ
  stop : ℤ
  deriving DecidableEq, Repr

structure VadAudioChunkOptions where
  maxChunkSamples : ℤ
  mergeGapSamples : ℤ
  paddingSamples : ℤ
  deriving DecidableEq, Repr

/-- `require_valid_time_span` lets the span pass. -/
def ValidTimeSpan (audioSamples : ℤ) (span : TimeSpan) : Prop :=
  0 ≤ span.start ∧ span.start < span.stop ∧ span.stop ≤ audioSamples

instance (audioSamples : ℤ) (span : TimeSpan) : Decidable (ValidTimeSpan audioSamples span) :=
  inferInstanceAs (Decidable (_ ∧ _))

def paddedSpan (audioSamples paddingSamples : ℤ) (span : TimeSpan) : TimeSpan :=
  ⟨max 0 (span.start - paddingSamples), min audioSamples (span.stop + paddingSamples)⟩

structure WorkSpan where
  padded : TimeSpan
  speech : TimeSpan
  deriving DecidableEq, Repr

def workSpan (audioSamples paddingSamples : ℤ) (segment : TimeSpan) : WorkSpan :=
  ⟨paddedSpan audioSamples paddingSamples segment, segment⟩

def WorkSpan.before (a b : WorkSpan) : Bool :=
  if a.padded.start ≠ b.padded.start then decide (a.padded.start < b.padded.start)
  else decide (a.padded.stop < b.padded.stop)

structure ChunkState where
  span : TimeSpan
  speechEnd : ℤ
  deriving DecidableEq, Repr

/-! ## The loop -/

variable (options : VadAudioChunkOptions) (speech span : TimeSpan)

/-- What one iteration leaves: the chunks, the last one first, and the rest of the span, if it is
not done. -/
inductive Iteration
  | done (states : List ChunkState)
  | more (states : List ChunkState) (span : TimeSpan)

def begun : ChunkState :=
  let stop := min span.stop (span.start + options.maxChunkSamples)
  ⟨⟨span.start, stop⟩, if speech.start < stop then min speech.stop stop else span.start⟩

def startChunk (states : List ChunkState) : Iteration :=
  let chunk := begun options speech span
  .more (chunk :: states) { span with start := chunk.span.stop }

def ChunkState.grown (current : ChunkState) : ChunkState :=
  ⟨{ current.span with stop := span.stop }, max current.speechEnd speech.stop⟩

/-- The last chunk takes what it can of the span. -/
def ChunkState.filled (current : ChunkState) (stop : ℤ) : ChunkState :=
  ⟨{ current.span with stop := stop },
    if speech.start < stop then max current.speechEnd (min speech.stop stop)
    else current.speechEnd⟩

def ChunkState.cutAt (current : ChunkState) (boundary : ℤ) : ChunkState :=
  { current with span := { current.span with stop := boundary } }

/-- The span touches the last chunk, which cannot take it whole. -/
def splitSpan (current : ChunkState) (states : List ChunkState) : Iteration :=
  let capacityEnd := current.span.start + options.maxChunkSamples
  let boundary := min current.span.stop speech.start
  if (current.speechEnd < speech.start ∧ current.span.start < current.speechEnd) ∧
      current.speechEnd ≤ boundary ∧ current.span.start < boundary then
    startChunk options speech { span with start := boundary } (current.cutAt boundary :: states)
  else if current.span.stop < capacityEnd then
    let stop := min span.stop capacityEnd
    .more (current.filled speech stop :: states) { span with start := stop }
  else startChunk options speech span (current :: states)

def iterate : List ChunkState → Iteration
  | [] => startChunk options speech span []
  | current :: states =>
    if span.stop ≤ current.span.stop then
      .done ({ current with speechEnd := max current.speechEnd speech.stop } :: states)
    else if span.start ≤ current.span.stop then
      if span.stop ≤ current.span.start + options.maxChunkSamples then
        .done (current.grown speech span :: states)
      else splitSpan options speech span current states
    else if span.start - current.span.stop ≤ options.mergeGapSamples ∧
        span.stop - current.span.start ≤ options.maxChunkSamples then
      .done (current.grown speech span :: states)
    else startChunk options speech span (current :: states)

/-- The loop over one span, for a number of iterations. -/
def place : ℕ → TimeSpan → List ChunkState → Option (List ChunkState)
  | 0, span, states => if span.start < span.stop then none else some states
  | fuel + 1, span, states =>
    if span.start < span.stop then
      match iterate options speech span states with
      | .done states => some states
      | .more states span => place fuel span states
    else some states

/-- Every iteration takes a sample at least. -/
def placeSpan (states : List ChunkState) (item : WorkSpan) : Option (List ChunkState) :=
  place options item.speech (item.padded.stop - item.padded.start).toNat item.padded states

def requirePositive (value : ℤ) (label : String) : Except Exception Unit :=
  if value ≤ 0 then .error (bytes ("Audio chunker requires positive " ++ label)) else .ok ()

/-- The chunks, or nothing if a loop does not end. `sort` is `std::sort`. -/
def planVadAudioChunks (sort : List WorkSpan → List WorkSpan) (segments : List TimeSpan)
    (audioSamples : ℤ) : Except Exception (Option (List TimeSpan)) := do
  requirePositive audioSamples "audio samples"
  requirePositive options.maxChunkSamples "max VAD chunk samples"
  if options.mergeGapSamples < 0 then
    .error (bytes "Audio VAD chunker merge_gap_samples must be non-negative")
  else if options.paddingSamples < 0 then
    .error (bytes "Audio VAD chunker padding_samples must be non-negative")
  else if segments.isEmpty then .ok (some [])
  else if ∃ segment ∈ segments, ¬ ValidTimeSpan audioSamples segment then
    .error (bytes "Audio VAD chunker speech segment span is outside audio bounds")
  else
    let spans := segments.map (workSpan audioSamples options.paddingSamples)
    let states := (sort spans).foldlM (placeSpan options) []
    .ok (states.map fun states => states.reverse.map ChunkState.span)

/-! ## What one iteration does -/

def Iteration.states : Iteration → List ChunkState
  | .done states => states
  | .more states _ => states

def ChunkState.heard (current : ChunkState) : ChunkState :=
  { current with speechEnd := max current.speechEnd speech.stop }

/-- The pause between the last chunk's speech and the span's lies in the last chunk. -/
def Pause (current : ChunkState) : Prop :=
  current.speechEnd < speech.start ∧ current.span.start < current.speechEnd ∧
    current.speechEnd ≤ current.span.stop

inductive Move : List ChunkState → Iteration → Prop
  | first : Move [] (startChunk options speech span [])
  | held (current states) (hstop : span.stop ≤ current.span.stop) :
      Move (current :: states) (.done (current.heard speech :: states))
  | grown (current states) (hstop : current.span.stop < span.stop)
      (hroom : span.stop ≤ current.span.start + options.maxChunkSamples) :
      Move (current :: states) (.done (current.grown speech span :: states))
  | cut (current states) (htouch : span.start ≤ current.span.stop)
      (hroom : current.span.start + options.maxChunkSamples < span.stop)
      (hpause : Pause speech current) :
      Move (current :: states) (startChunk options speech
        { span with start := min current.span.stop speech.start }
        (current.cutAt (min current.span.stop speech.start) :: states))
  | filled (current states) (htouch : span.start ≤ current.span.stop)
      (hcapacity : current.span.stop < current.span.start + options.maxChunkSamples)
      (hroom : current.span.start + options.maxChunkSamples < span.stop) :
      Move (current :: states)
        (.more (current.filled speech (current.span.start + options.maxChunkSamples) :: states)
          { span with start := current.span.start + options.maxChunkSamples })
  | apart (current states) (hstop : current.span.stop < span.start) :
      Move (current :: states) (startChunk options speech span (current :: states))
  | full (current states) (htouch : span.start ≤ current.span.stop)
      (hcapacity : current.span.start + options.maxChunkSamples ≤ current.span.stop)
      (hstop : current.span.stop < span.stop) (hpause : ¬ Pause speech current) :
      Move (current :: states) (startChunk options speech span (current :: states))

variable {options speech span}

theorem move_splitSpan {current : ChunkState} {states : List ChunkState}
    (hsize : current.span.start < current.span.stop) (hheard : current.speechEnd ≤ current.span.stop)
    (hstop : current.span.stop < span.stop) (htouch : span.start ≤ current.span.stop)
    (hroom : current.span.start + options.maxChunkSamples < span.stop) :
    Move options speech span (current :: states)
      (splitSpan options speech span current states) := by
  unfold splitSpan
  dsimp only
  by_cases hpause : Pause speech current
  · have hcut := hpause
    unfold Pause at hcut
    rw [if_pos (by omega)]
    exact .cut current states htouch hroom hpause
  · have hkeep := hpause
    unfold Pause at hkeep
    rw [if_neg (by omega)]
    by_cases hcapacity : current.span.stop < current.span.start + options.maxChunkSamples
    · rw [if_pos hcapacity, min_eq_right hroom.le]
      exact .filled current states htouch hcapacity hroom
    · rw [if_neg hcapacity]
      exact .full current states htouch (not_lt.mp hcapacity) hstop hpause

theorem move_iterate {states : List ChunkState}
    (hsize : ∀ chunk ∈ states, chunk.span.start < chunk.span.stop)
    (hheard : ∀ chunk ∈ states, chunk.speechEnd ≤ chunk.span.stop) :
    Move options speech span states (iterate options speech span states) := by
  cases states with
  | nil => exact .first
  | cons current states =>
    simp only [List.forall_mem_cons] at hsize hheard
    rw [iterate]
    by_cases hstop : span.stop ≤ current.span.stop
    · rw [if_pos hstop]
      exact .held current states hstop
    rw [if_neg hstop]
    by_cases htouch : span.start ≤ current.span.stop
    · rw [if_pos htouch]
      by_cases hroom : span.stop ≤ current.span.start + options.maxChunkSamples
      · rw [if_pos hroom]
        exact .grown current states (not_le.mp hstop) hroom
      · rw [if_neg hroom]
        exact move_splitSpan hsize.1 hheard.1 (not_le.mp hstop) htouch (not_le.mp hroom)
    · rw [if_neg htouch]
      split_ifs with hgap
      · exact .grown current states (not_le.mp hstop) (by omega)
      · exact .apart current states (not_le.mp htouch)

/-! ## Sizes -/

structure Sound (options : VadAudioChunkOptions) (audioSamples : ℤ) (chunk : ChunkState) : Prop where
  start_nonneg : 0 ≤ chunk.span.start
  start_lt_stop : chunk.span.start < chunk.span.stop
  stop_le_max : chunk.span.stop ≤ chunk.span.start + options.maxChunkSamples
  stop_le_audio : chunk.span.stop ≤ audioSamples
  heard_le_stop : chunk.speechEnd ≤ chunk.span.stop

/-- What padding makes of a valid segment. -/
structure Fits (audioSamples : ℤ) (item : WorkSpan) : Prop where
  start_nonneg : 0 ≤ item.padded.start
  start_le : item.padded.start ≤ item.speech.start
  start_lt_stop : item.speech.start < item.speech.stop
  stop_le : item.speech.stop ≤ item.padded.stop
  stop_le_audio : item.padded.stop ≤ audioSamples

theorem fits_workSpan {audioSamples paddingSamples : ℤ} {segment : TimeSpan}
    (hpadding : 0 ≤ paddingSamples) (hvalid : ValidTimeSpan audioSamples segment) :
    Fits audioSamples (workSpan audioSamples paddingSamples segment) := by
  obtain ⟨hstart, hsize, hstop⟩ := hvalid
  constructor <;> simp only [workSpan, paddedSpan] <;> omega

variable {audioSamples : ℤ} {item : WorkSpan} {states : List ChunkState}

/-- Inside the loop over one span: it starts where the last chunk stops, and then the speech in the
last chunk has been heard, unless the loop just began. -/
structure Going (options : VadAudioChunkOptions) (audioSamples : ℤ) (item : WorkSpan)
    (span : TimeSpan) (states : List ChunkState) : Prop where
  sound : ∀ chunk ∈ states, Sound options audioSamples chunk
  stop_eq : span.stop = item.padded.stop
  start_ge : item.padded.start ≤ span.start
  reached : span.start = item.padded.start ∨ ∃ current ∈ states.head?,
    span.start = current.span.stop ∧ (item.speech.start < current.span.stop →
      min item.speech.stop current.span.stop ≤ current.speechEnd)

theorem Going.move (hgoing : Going options audioSamples item span states) :
    Move options item.speech span states (iterate options item.speech span states) :=
  move_iterate (fun chunk hchunk => (hgoing.sound chunk hchunk).start_lt_stop)
    fun chunk hchunk => (hgoing.sound chunk hchunk).heard_le_stop

theorem Going.start_le_cut {current : ChunkState} (hfits : Fits audioSamples item)
    (hgoing : Going options audioSamples item span (current :: states))
    (htouch : span.start ≤ current.span.stop) (hpause : Pause item.speech current) :
    span.start ≤ min current.span.stop item.speech.start := by
  have hstart := hfits.start_le
  have hsize := hfits.start_lt_stop
  have hafter := hpause.1
  obtain hfirst | ⟨last, hlast, hstop, hheard⟩ := hgoing.reached
  · omega
  · obtain rfl : current = last := by simpa using hlast
    by_cases hinside : item.speech.start < current.span.stop
    · have := hheard hinside
      omega
    · omega

theorem begun_sound {speech span : TimeSpan} (hmax : 0 < options.maxChunkSamples)
    (hstart : 0 ≤ span.start) (hspan : span.start < span.stop) (hstop : span.stop ≤ audioSamples) :
    Sound options audioSamples (begun options speech span) := by
  constructor <;> simp only [begun] <;> omega

theorem begun_heard (speech span : TimeSpan) (h : speech.start < (begun options speech span).span.stop) :
    min speech.stop (begun options speech span).span.stop ≤ (begun options speech span).speechEnd := by
  simp only [begun] at h ⊢
  rw [if_pos h]

theorem Sound.cutAt {current : ChunkState} {speech : TimeSpan}
    (hsound : Sound options audioSamples current) (hpause : Pause speech current) :
    Sound options audioSamples (current.cutAt (min current.span.stop speech.start)) := by
  obtain ⟨hstart, hsize, hmax, hstop, hheard⟩ := hsound
  obtain ⟨hafter, hbegun, -⟩ := hpause
  constructor <;> simp only [ChunkState.cutAt] <;> omega

theorem sound_iterate (hmax : 0 < options.maxChunkSamples) (hfits : Fits audioSamples item)
    (hspan : span.start < span.stop) (hgoing : Going options audioSamples item span states) :
    ∀ chunk ∈ (iterate options item.speech span states).states,
      Sound options audioSamples chunk := by
  have hpadded := hfits.start_nonneg
  have hstart := hgoing.start_ge
  have hstop := hgoing.stop_eq
  have haudio := hfits.stop_le_audio
  have hspeech := hfits.stop_le
  have hbegun : Sound options audioSamples (begun options item.speech span) :=
    begun_sound hmax (by omega) hspan (by omega)
  have hsound := hgoing.sound
  have hmove := hgoing.move
  generalize iterate options item.speech span states = next at hmove ⊢
  cases hmove with
  | first => simpa [startChunk, Iteration.states] using hbegun
  | held current states hheld =>
    simp only [List.forall_mem_cons] at hsound
    refine List.forall_mem_cons.mpr ⟨?_, hsound.2⟩
    obtain ⟨h0, h1, h2, h3, h4⟩ := hsound.1
    exact ⟨h0, h1, h2, h3, by simp only [ChunkState.heard]; omega⟩
  | grown current states hend hroom =>
    simp only [List.forall_mem_cons] at hsound
    refine List.forall_mem_cons.mpr ⟨?_, hsound.2⟩
    obtain ⟨h0, h1, h2, h3, h4⟩ := hsound.1
    constructor <;> simp only [ChunkState.grown] <;> omega
  | cut current states htouch hroom hpause =>
    have hcut := hgoing.start_le_cut hfits htouch hpause
    simp only [List.forall_mem_cons] at hsound
    obtain ⟨h0, h1, h2, h3, h4⟩ := hsound.1
    refine List.forall_mem_cons.mpr ⟨begun_sound hmax ?_ ?_ ?_,
      List.forall_mem_cons.mpr ⟨hsound.1.cutAt hpause, hsound.2⟩⟩ <;> dsimp only <;> omega
  | filled current states htouch hcapacity hroom =>
    simp only [List.forall_mem_cons] at hsound
    refine List.forall_mem_cons.mpr ⟨?_, hsound.2⟩
    obtain ⟨h0, h1, h2, h3, h4⟩ := hsound.1
    constructor <;> simp only [ChunkState.filled] <;> omega
  | apart current states hapart => exact List.forall_mem_cons.mpr ⟨hbegun, hsound⟩
  | full current states htouch hcapacity hend hpause =>
    exact List.forall_mem_cons.mpr ⟨hbegun, hsound⟩

/-! ## The samples in the chunks -/

def samples (states : List ChunkState) : Set ℤ :=
  {x | ∃ chunk ∈ states, x ∈ Set.Ico chunk.span.start chunk.span.stop}

@[simp] theorem mem_samples_cons {x : ℤ} {current : ChunkState} {states : List ChunkState} :
    x ∈ samples (current :: states) ↔
      (current.span.start ≤ x ∧ x < current.span.stop) ∨ x ∈ samples states := by
  simp [samples]

/-- From `low` on, the chunks hold every sample before the end of the last one. -/
def Reaches (low : ℤ) (states : List ChunkState) : Prop :=
  ∀ current ∈ states.head?, Set.Ico low current.span.stop ⊆ samples states

variable {low : ℤ} {last : ChunkState} {rest : TimeSpan}

@[simp] theorem reaches_cons {current : ChunkState} {states : List ChunkState} :
    Reaches low (current :: states) ↔
      ∀ x, low ≤ x → x < current.span.stop → x ∈ samples (current :: states) := by
  simp [Reaches, Set.subset_def]

theorem Reaches.mono {high : ℤ} (h : low ≤ high) (hreaches : Reaches low states) :
    Reaches high states :=
  fun current hcurrent => (Set.Ico_subset_Ico_left h).trans (hreaches current hcurrent)

theorem samples_head {current : ChunkState} {states : List ChunkState}
    (hstart : last.span.start = current.span.start) (hstop : current.span.stop ≤ last.span.stop) :
    samples (current :: states) ⊆ samples (last :: states) := by
  intro x hx
  simp only [mem_samples_cons] at hx ⊢
  exact hx.imp_left fun h => by omega

theorem samples_cut {current : ChunkState} {boundary : ℤ} {states : List ChunkState}
    (hstart : last.span.start = boundary) (hstop : current.span.stop ≤ last.span.stop) :
    samples (current :: states) ⊆ samples (last :: current.cutAt boundary :: states) := by
  intro x hx
  simp only [mem_samples_cons, ChunkState.cutAt] at hx ⊢
  obtain hx | hx := hx
  · by_cases hbefore : x < boundary <;> omega
  · exact .inr (.inr hx)

theorem samples_iterate (hmax : 0 < options.maxChunkSamples)
    (hgoing : Going options audioSamples item span states) :
    samples states ⊆ samples (iterate options item.speech span states).states := by
  have hsound := hgoing.sound
  have hmove := hgoing.move
  generalize iterate options item.speech span states = next at hmove ⊢
  cases hmove with
  | first => exact fun x hx => mem_samples_cons.mpr (.inr hx)
  | held current states hheld => exact samples_head rfl le_rfl
  | grown current states hend hroom => exact samples_head rfl hend.le
  | cut current states htouch hroom hpause =>
    have hsize := hsound current List.mem_cons_self
    obtain ⟨h0, h1, h2, h3, h4⟩ := hsize
    obtain ⟨hafter, hbegun, -⟩ := hpause
    exact samples_cut rfl (by simp only [begun]; omega)
  | filled current states htouch hcapacity hroom => exact samples_head rfl hcapacity.le
  | apart current states hapart => exact fun x hx => mem_samples_cons.mpr (.inr hx)
  | full current states htouch hcapacity hend hpause =>
    exact fun x hx => mem_samples_cons.mpr (.inr hx)

theorem reaches_begun {states : List ChunkState}
    (hbefore : ∀ x, low ≤ x → x < last.span.start → x ∈ samples states) :
    Reaches low (last :: states) := by
  rw [reaches_cons]
  intro x hlow hx
  rw [mem_samples_cons]
  by_cases hinside : last.span.start ≤ x
  · exact .inl ⟨hinside, hx⟩
  · exact .inr (hbefore x hlow (not_le.mp hinside))

theorem Reaches.next {current : ChunkState} {states next : List ChunkState}
    (hreaches : Reaches low (current :: states))
    (hkept : samples (current :: states) ⊆ samples (last :: next))
    (hstart : last.span.start ≤ current.span.stop) : Reaches low (last :: next) := by
  rw [reaches_cons] at hreaches ⊢
  intro x hlow hx
  by_cases hbefore : x < current.span.stop
  · exact hkept (hreaches x hlow hbefore)
  · exact mem_samples_cons.mpr (.inl ⟨by omega, hx⟩)

theorem reaches_iterate (hmax : 0 < options.maxChunkSamples)
    (hgoing : Going options audioSamples item span states)
    (hreaches : Reaches item.padded.start states)
    (hspan : ∀ x, item.padded.start ≤ x → x < span.start → x ∈ samples states) :
    Reaches item.padded.start (iterate options item.speech span states).states := by
  have hsound := hgoing.sound
  have hkept := samples_iterate hmax hgoing
  have hmove := hgoing.move
  generalize iterate options item.speech span states = next at hmove hkept ⊢
  cases hmove with
  | first => exact reaches_begun hspan
  | held current states hheld =>
    exact hreaches.next hkept (hsound current List.mem_cons_self).start_lt_stop.le
  | grown current states hend hroom =>
    exact hreaches.next hkept (hsound current List.mem_cons_self).start_lt_stop.le
  | cut current states htouch hroom hpause => exact hreaches.next hkept (min_le_left _ _)
  | filled current states htouch hcapacity hroom =>
    exact hreaches.next hkept (hsound current List.mem_cons_self).start_lt_stop.le
  | apart current states hapart => exact reaches_begun hspan
  | full current states htouch hcapacity hend hpause => exact reaches_begun hspan

/-! ## The order of the chunks -/

def Ordered (states : List ChunkState) : Prop :=
  states.Pairwise fun later earlier => earlier.span.stop ≤ later.span.start

/-- The span reaches back into the last chunk, which is full and ends without a pause. -/
def Clash (options : VadAudioChunkOptions) (speech span : TimeSpan) (states : List ChunkState) :
    Prop :=
  ∃ current ∈ states.head?,
    current.span.start + options.maxChunkSamples ≤ current.span.stop ∧
    span.start < current.span.stop ∧ current.span.stop < span.stop ∧ ¬ Pause speech current

instance (current : ChunkState) (speech : TimeSpan) : Decidable (Pause speech current) :=
  inferInstanceAs (Decidable (_ ∧ _))

instance (states : List ChunkState) (speech span : TimeSpan) :
    Decidable (Clash options speech span states) :=
  match states with
  | [] => .isFalse fun ⟨_, h, _⟩ => nomatch h
  | current :: _ => decidable_of_iff (current.span.start + options.maxChunkSamples ≤
      current.span.stop ∧ span.start < current.span.stop ∧ current.span.stop < span.stop ∧
      ¬ Pause speech current) (by simp [Clash])

section

variable {current : ChunkState} {states : List ChunkState}

@[simp] theorem clash_cons {speech span : TimeSpan} : Clash options speech span (current :: states) ↔
      current.span.start + options.maxChunkSamples ≤ current.span.stop ∧
      span.start < current.span.stop ∧ current.span.stop < span.stop ∧ ¬ Pause speech current := by
  simp [Clash]

theorem ordered_head {clash : Prop} (hstart : last.span.start = current.span.start)
    (hclash : ¬ clash) : Ordered (last :: states) ↔ Ordered (current :: states) ∧ ¬ clash := by
  rw [and_iff_left hclash]
  simp only [Ordered, List.pairwise_cons, hstart]

theorem ordered_begun (hsize : current.span.start < current.span.stop) :
    Ordered (last :: current :: states) ↔
      Ordered (current :: states) ∧ current.span.stop ≤ last.span.start := by
  simp only [Ordered, List.pairwise_cons, List.forall_mem_cons]
  constructor
  · rintro ⟨⟨hlast, -⟩, hrest⟩
    exact ⟨hrest, hlast⟩
  · rintro ⟨⟨hcurrent, hrest⟩, hlast⟩
    exact ⟨⟨hlast, fun chunk hchunk => (hcurrent chunk hchunk).trans (hsize.le.trans hlast)⟩,
      hcurrent, hrest⟩

end

theorem ordered_iterate_iff (hgoing : Going options audioSamples item span states) :
    Ordered (iterate options item.speech span states).states ↔
      Ordered states ∧ ¬ Clash options item.speech span states := by
  have hsound := hgoing.sound
  have hmove := hgoing.move
  generalize iterate options item.speech span states = next at hmove ⊢
  cases hmove with
  | first => simp [startChunk, Iteration.states, Ordered, Clash]
  | held current states hheld =>
    refine ordered_head rfl ?_
    rw [clash_cons]
    omega
  | grown current states hend hroom =>
    refine ordered_head rfl ?_
    rw [clash_cons]
    omega
  | cut current states htouch hroom hpause =>
    have hsize := ((hsound current List.mem_cons_self).cutAt hpause).start_lt_stop
    refine ((ordered_begun hsize).trans (and_iff_left le_rfl)).trans ?_
    refine ordered_head rfl ?_
    rw [clash_cons]
    exact fun hclash => hclash.2.2.2 hpause
  | filled current states htouch hcapacity hroom =>
    refine ordered_head rfl ?_
    rw [clash_cons]
    omega
  | apart current states hapart =>
    have hsize := (hsound current List.mem_cons_self).start_lt_stop
    refine (ordered_begun hsize).trans (and_congr_right' ?_)
    rw [clash_cons]
    exact iff_of_true hapart.le (by omega)
  | full current states htouch hcapacity hend hpause =>
    have hsize := (hsound current List.mem_cons_self).start_lt_stop
    refine (ordered_begun hsize).trans (and_congr_right' ?_)
    rw [clash_cons, not_and, not_and]
    constructor
    · intro hstart _ hback
      exact absurd hback (not_lt.mpr hstart)
    · intro hclash
      by_contra! hback
      exact hclash hcapacity hback ⟨hend, hpause⟩

/-! ## The loop over one span -/

/-- The last chunk ends with the span and with its speech. -/
def Closes (item : WorkSpan) (last : ChunkState) : Prop :=
  last.span.stop = item.padded.stop ∧ last.speechEnd = item.speech.stop

/-- What an iteration that goes on leaves of its span: the last chunk is full, unless it took all. -/
structure Rest (options : VadAudioChunkOptions) (item : WorkSpan) (span : TimeSpan)
    (next : List ChunkState) (rest : TimeSpan) : Prop where
  stop_eq : rest.stop = span.stop
  start_lt : span.start < rest.start
  last : ∃ last ∈ next.head?, rest.start = last.span.stop ∧
    (item.speech.start < last.span.stop → min item.speech.stop last.span.stop ≤ last.speechEnd) ∧
    (rest.start < rest.stop → last.span.start + options.maxChunkSamples ≤ last.span.stop) ∧
    (rest.stop ≤ rest.start → Closes item last)

theorem begun_closes (hfits : Fits audioSamples item) (hstop : span.stop = item.padded.stop)
    (hall : span.stop ≤ (begun options item.speech span).span.stop) :
    Closes item (begun options item.speech span) := by
  obtain ⟨-, -, hsize, hspeech, -⟩ := hfits
  have hend : (begun options item.speech span).span.stop = span.stop :=
    le_antisymm (min_le_left _ _) hall
  have hheard := hend
  simp only [begun] at hheard
  refine ⟨hend.trans hstop, ?_⟩
  simp only [begun]
  rw [hheard, if_pos (by omega), min_eq_left (by omega)]

theorem rest_startChunk (hmax : 0 < options.maxChunkSamples) (hfits : Fits audioSamples item)
    (hend : span.stop = item.padded.stop) {begin : ℤ} (hbegin : span.start ≤ begin)
    (hstop : begin < span.stop) {next : List ChunkState}
    (hmore : startChunk options item.speech { span with start := begin } states =
      .more next rest) : Rest options item span next rest := by
  obtain ⟨rfl, rfl⟩ := Iteration.more.inj hmore
  refine ⟨rfl, ?_, _, rfl, rfl, begun_heard _ _, ?_, begun_closes hfits hend⟩
  · simp only [begun]
    omega
  · simp only [begun]
    omega

theorem rest_iterate (hmax : 0 < options.maxChunkSamples) (hfits : Fits audioSamples item)
    (hspan : span.start < span.stop) (hgoing : Going options audioSamples item span states)
    {next : List ChunkState} (hmore : iterate options item.speech span states = .more next rest) :
    Rest options item span next rest := by
  have hsound := hgoing.sound
  have hend := hgoing.stop_eq
  have hmove := hgoing.move
  generalize iterate options item.speech span states = left at hmove hmore
  cases hmove with
  | first => exact rest_startChunk hmax hfits hend le_rfl hspan hmore
  | held => cases hmore
  | grown => cases hmore
  | cut current states htouch hroom hpause =>
    have hcut := hgoing.start_le_cut hfits htouch hpause
    have hsize := hsound current List.mem_cons_self
    exact rest_startChunk hmax hfits hend hcut (by have := hsize.stop_le_max; omega) hmore
  | filled current states htouch hcapacity hroom =>
    obtain ⟨rfl, rfl⟩ := Iteration.more.inj hmore
    refine ⟨rfl, by dsimp only; omega, _, rfl, rfl, fun hheard => ?_, fun _ => le_rfl, fun hall => ?_⟩
    · simp only [ChunkState.filled] at hheard ⊢
      rw [if_pos hheard]
      exact le_max_right _ _
    · exact absurd hall (not_le.mpr hroom)
  | apart => exact rest_startChunk hmax hfits hend le_rfl hspan hmore
  | full => exact rest_startChunk hmax hfits hend le_rfl hspan hmore

/-- What the last chunk is when the loop over a span is done: begun with it, or grown. -/
inductive Ends (options : VadAudioChunkOptions) (item : WorkSpan) (states : List ChunkState)
    (last : ChunkState) : Prop
  | begun (hcloses : Closes item last)
  | grown (current) (hcurrent : current ∈ states.head?)
      (hstop : last.span.stop = max current.span.stop item.padded.stop)
      (hheard : last.speechEnd = max current.speechEnd item.speech.stop)
      (hroom : item.padded.stop ≤ current.span.stop ∨
        item.padded.stop ≤ current.span.start + options.maxChunkSamples)

theorem ends_of_done (hgoing : Going options audioSamples item span states)
    {next : List ChunkState} (hdone : iterate options item.speech span states = .done next) :
    ∃ last ∈ next.head?, span.stop ≤ last.span.stop ∧ Ends options item states last := by
  have hend := hgoing.stop_eq
  have hmove := hgoing.move
  generalize iterate options item.speech span states = left at hmove hdone
  cases hmove with
  | held current states hheld =>
    obtain rfl := Iteration.done.inj hdone
    have hpadded := hend ▸ hheld
    exact ⟨_, rfl, hheld, .grown current rfl (max_eq_left hpadded).symm rfl (.inl hpadded)⟩
  | grown current states hlater hroom =>
    obtain rfl := Iteration.done.inj hdone
    have hstop : span.stop = max current.span.stop item.padded.stop := by omega
    exact ⟨_, rfl, le_rfl, .grown current rfl hstop rfl (.inr (hend ▸ hroom))⟩
  | first => cases hdone
  | cut => cases hdone
  | filled => cases hdone
  | apart => cases hdone
  | full => cases hdone

theorem Rest.not_clash {speech : TimeSpan} {next : List ChunkState}
    (hrest : Rest options item span next rest) : ¬ Clash options speech rest next := by
  rintro ⟨current, hcurrent, -, hback, -⟩
  obtain ⟨last, hlast, hstart, -⟩ := hrest.last
  obtain rfl := Option.mem_unique hcurrent hlast
  omega

/-- What the loop over one span leaves. -/
structure Placed (options : VadAudioChunkOptions) (audioSamples : ℤ) (item : WorkSpan)
    (span : TimeSpan) (states next : List ChunkState) : Prop where
  sound : ∀ chunk ∈ next, Sound options audioSamples chunk
  kept : samples states ⊆ samples next
  reaches : Reaches item.padded.start next
  covers : Set.Ico item.padded.start item.padded.stop ⊆ samples next
  ordered : Ordered next ↔ Ordered states ∧ ¬ Clash options item.speech span states
  ends : ∀ last ∈ next.head?, span.start < span.stop → Ends options item states last

theorem placed_rfl (hspan : span.stop ≤ span.start)
    (hgoing : Going options audioSamples item span states)
    (hreaches : Reaches item.padded.start states)
    (hpast : Set.Ico item.padded.start span.start ⊆ samples states) :
    Placed options audioSamples item span states states where
  sound := hgoing.sound
  kept := subset_rfl
  reaches := hreaches
  covers := (Set.Ico_subset_Ico_right (hgoing.stop_eq ▸ hspan)).trans hpast
  ordered := by
    refine (and_iff_left ?_).symm
    rintro ⟨current, -, -, hback, hend, -⟩
    omega
  ends _ _ hlater := absurd hlater (not_lt.mpr hspan)

theorem place_of_le (speech : TimeSpan) (fuel : ℕ) (hspan : span.stop ≤ span.start) :
    place options speech fuel span states = some states := by
  cases fuel with
  | zero => rw [place, if_neg (not_lt.mpr hspan)]
  | succ fuel => rw [place, if_neg (not_lt.mpr hspan)]

variable {final : List ChunkState} {sort : List WorkSpan → List WorkSpan}

theorem Rest.closes {next : List ChunkState} {fuel : ℕ} (hrest : Rest options item span next rest)
    (hstop : rest.stop = item.padded.stop)
    (hplace : place options item.speech fuel rest next = some final)
    (hends : ∀ last ∈ final.head?, rest.start < rest.stop → Ends options item next last) :
    ∀ last ∈ final.head?, Closes item last := by
  intro last hlast
  obtain ⟨current, hcurrent, hstart, -, hfull, hcloses⟩ := hrest.last
  by_cases hlater : rest.start < rest.stop
  · cases hends last hlast hlater with
    | begun hclosed => exact hclosed
    | grown taken htaken _ _ hroom =>
      obtain rfl := Option.mem_unique htaken hcurrent
      have hcapacity := hfull hlater
      omega
  · have hall := not_lt.mp hlater
    rw [place_of_le item.speech fuel hall] at hplace
    obtain rfl := Option.some.inj hplace
    obtain rfl := Option.mem_unique hlast hcurrent
    exact hcloses hall

theorem place_spec (hmax : 0 < options.maxChunkSamples) (hfits : Fits audioSamples item)
    (fuel : ℕ) (span : TimeSpan) (states : List ChunkState) (hfuel : span.stop ≤ span.start + fuel)
    (hgoing : Going options audioSamples item span states)
    (hreaches : Reaches item.padded.start states)
    (hpast : Set.Ico item.padded.start span.start ⊆ samples states) :
    ∃ next, place options item.speech fuel span states = some next ∧
      Placed options audioSamples item span states next := by
  induction fuel generalizing span states with
  | zero =>
    have hspan : span.stop ≤ span.start := by simpa using hfuel
    exact ⟨states, place_of_le item.speech _ hspan, placed_rfl hspan hgoing hreaches hpast⟩
  | succ fuel ih =>
    by_cases hspan : span.start < span.stop
    · have hsound := sound_iterate hmax hfits hspan hgoing
      have hkept := samples_iterate hmax hgoing
      have hreached := reaches_iterate hmax hgoing hreaches fun x hlow hx => hpast ⟨hlow, hx⟩
      have hordered := ordered_iterate_iff hgoing
      rw [place, if_pos hspan]
      cases hiterate : iterate options item.speech span states with
      | done next =>
        rw [hiterate] at hsound hkept hreached hordered
        obtain ⟨last, hlast, hstop, hends⟩ := ends_of_done hgoing hiterate
        have hcovers : Set.Ico item.padded.start item.padded.stop ⊆ samples next :=
          (Set.Ico_subset_Ico_right (hgoing.stop_eq ▸ hstop)).trans (hreached last hlast)
        refine ⟨next, rfl, hsound, hkept, hreached, hcovers, hordered, fun final hfinal _ => ?_⟩
        exact Option.mem_unique hlast hfinal ▸ hends
      | more next rest =>
        rw [hiterate] at hsound hkept hreached hordered
        have hrest := rest_iterate hmax hfits hspan hgoing hiterate
        obtain ⟨last, hlast, hstart, hheard, -⟩ := hrest.last
        have hend := hrest.stop_eq.trans hgoing.stop_eq
        have hgoing' : Going options audioSamples item rest next :=
          ⟨hsound, hend, hgoing.start_ge.trans hrest.start_lt.le,
            .inr ⟨last, hlast, hstart, hheard⟩⟩
        have hstop := hrest.stop_eq
        have hlater := hrest.start_lt
        obtain ⟨final, hplace, hplaced⟩ := ih rest next (by push_cast at hfuel; omega) hgoing'
          hreached (hstart ▸ hreached last hlast)
        refine ⟨final, hplace, hplaced.sound, hkept.trans hplaced.kept, hplaced.reaches,
          hplaced.covers, ?_, fun final hfinal _ => ?_⟩
        · rw [hplaced.ordered, and_iff_left hrest.not_clash]
          exact hordered
        · exact .begun (hrest.closes hend hplace hplaced.ends final hfinal)
    · have hend := not_lt.mp hspan
      exact ⟨states, place_of_le item.speech _ hend, placed_rfl hend hgoing hreaches hpast⟩

theorem placeSpan_spec (hmax : 0 < options.maxChunkSamples) (hfits : Fits audioSamples item)
    (hsound : ∀ chunk ∈ states, Sound options audioSamples chunk)
    (hreaches : Reaches item.padded.start states) :
    ∃ next, placeSpan options states item = some next ∧
      Placed options audioSamples item item.padded states next := by
  refine place_spec hmax hfits _ _ _ (by omega) ⟨hsound, rfl, le_rfl, .inl rfl⟩ hreaches ?_
  rw [Set.Ico_self]
  exact Set.empty_subset _

/-! ## All spans -/

/-- No span clashes with the chunks before it. -/
def Clear (options : VadAudioChunkOptions) : List ChunkState → List WorkSpan → Prop
  | _, [] => True
  | states, item :: items => ¬ Clash options item.speech item.padded states ∧
      ∀ next ∈ placeSpan options states item, Clear options next items

instance decidableClear (options : VadAudioChunkOptions) :
    ∀ items states, Decidable (Clear options states items)
  | [], _ => .isTrue trivial
  | item :: items, states =>
    haveI : DecidablePred fun next => Clear options next items := decidableClear options items
    inferInstanceAs (Decidable (¬ Clash options item.speech item.padded states ∧
      ∀ next ∈ placeSpan options states item, Clear options next items))

theorem foldlM_spec (hmax : 0 < options.maxChunkSamples) (items : List WorkSpan)
    (states : List ChunkState) (hfits : ∀ item ∈ items, Fits audioSamples item)
    (hsorted : items.Pairwise fun a b => a.padded.start ≤ b.padded.start)
    (hsound : ∀ chunk ∈ states, Sound options audioSamples chunk)
    (hreaches : ∀ item ∈ items, Reaches item.padded.start states) :
    ∃ final, items.foldlM (placeSpan options) states = some final ∧
      (∀ chunk ∈ final, Sound options audioSamples chunk) ∧ samples states ⊆ samples final ∧
      (∀ item ∈ items, Set.Ico item.padded.start item.padded.stop ⊆ samples final) ∧
      (Ordered final ↔ Ordered states ∧ Clear options states items) := by
  induction items generalizing states with
  | nil => exact ⟨states, rfl, hsound, subset_rfl, by simp, by simp [Clear]⟩
  | cons item items ih =>
    rw [List.forall_mem_cons] at hfits hreaches
    obtain ⟨hfirst, hsorted⟩ := List.pairwise_cons.mp hsorted
    obtain ⟨next, hplace, hplaced⟩ := placeSpan_spec hmax hfits.1 hsound hreaches.1
    obtain ⟨final, hfold, hfinal, hkept, hcovers, hordered⟩ := ih next hfits.2 hsorted
      hplaced.sound fun later hlater => hplaced.reaches.mono (hfirst later hlater)
    refine ⟨final, ?_, hfinal, hplaced.kept.trans hkept,
      List.forall_mem_cons.mpr ⟨hplaced.covers.trans hkept, hcovers⟩, ?_⟩
    · rw [List.foldlM_cons, hplace]
      exact hfold
    · rw [hordered, hplaced.ordered, Clear, hplace, and_assoc]
      simp

structure SortsSpans (sort : List WorkSpan → List WorkSpan) : Prop where
  perm : ∀ spans, (sort spans).Perm spans
  sorted : ∀ spans, (sort spans).Pairwise fun a b => b.before a = false

theorem start_le_of_not_before {a b : WorkSpan} (h : b.before a = false) :
    a.padded.start ≤ b.padded.start := by
  unfold WorkSpan.before at h
  split_ifs at h with heq
  · exact not_lt.mp (of_decide_eq_false h)
  · exact (not_not.mp heq).ge

/-- The chunks as they should be. -/
structure Planned (options : VadAudioChunkOptions) (segments : List TimeSpan) (audioSamples : ℤ)
    (chunks : List TimeSpan) : Prop where
  nonempty : ∀ chunk ∈ chunks, chunk.start < chunk.stop
  short : ∀ chunk ∈ chunks, chunk.stop - chunk.start ≤ options.maxChunkSamples
  inside : ∀ chunk ∈ chunks, 0 ≤ chunk.start ∧ chunk.stop ≤ audioSamples
  ordered : chunks.Pairwise fun a b => a.stop ≤ b.start
  covers : ∀ segment ∈ segments, ∀ x,
    (paddedSpan audioSamples options.paddingSamples segment).start ≤ x →
    x < (paddedSpan audioSamples options.paddingSamples segment).stop →
    ∃ chunk ∈ chunks, chunk.start ≤ x ∧ x < chunk.stop

theorem ordered_iff_chunks (states : List ChunkState) :
    Ordered states ↔ (states.reverse.map ChunkState.span).Pairwise fun a b => a.stop ≤ b.start := by
  rw [List.pairwise_map, List.pairwise_reverse]
  rfl

theorem planVadAudioChunks_eq (hsort : SortsSpans sort) (segments : List TimeSpan)
    (haudio : 0 < audioSamples) (hmax : 0 < options.maxChunkSamples)
    (hgap : 0 ≤ options.mergeGapSamples) (hpadding : 0 ≤ options.paddingSamples)
    (hvalid : ∀ segment ∈ segments, ValidTimeSpan audioSamples segment) :
    planVadAudioChunks options sort segments audioSamples =
      .ok (((sort (segments.map (workSpan audioSamples options.paddingSamples))).foldlM
        (placeSpan options) []).map fun states => states.reverse.map ChunkState.span) := by
  have hbounds : ¬ ∃ segment ∈ segments, ¬ ValidTimeSpan audioSamples segment := by
    push Not
    exact hvalid
  rw [planVadAudioChunks, requirePositive, requirePositive, if_neg (not_le.mpr haudio),
    if_neg (not_le.mpr hmax), if_neg (not_lt.mpr hgap), if_neg (not_lt.mpr hpadding),
    if_neg hbounds]
  cases segments with
  | nil =>
    have hempty : sort [] = [] := List.perm_nil.mp (hsort.perm [])
    rw [List.map_nil, hempty]
    rfl
  | cons segment segments => rfl

theorem planned_of_ordered {segments : List TimeSpan}
    (hsound : ∀ chunk ∈ final, Sound options audioSamples chunk)
    (hcovers : ∀ segment ∈ segments,
      Set.Ico (paddedSpan audioSamples options.paddingSamples segment).start
        (paddedSpan audioSamples options.paddingSamples segment).stop ⊆ samples final)
    (hordered : Ordered final) :
    Planned options segments audioSamples (final.reverse.map ChunkState.span) := by
  have hchunk : ∀ chunk ∈ final.reverse.map ChunkState.span,
      ∃ state ∈ final, state.span = chunk := by simp
  constructor
  · intro chunk h
    obtain ⟨state, hstate, rfl⟩ := hchunk chunk h
    exact (hsound state hstate).start_lt_stop
  · intro chunk h
    obtain ⟨state, hstate, rfl⟩ := hchunk chunk h
    have := (hsound state hstate).stop_le_max
    omega
  · intro chunk h
    obtain ⟨state, hstate, rfl⟩ := hchunk chunk h
    exact ⟨(hsound state hstate).start_nonneg, (hsound state hstate).stop_le_audio⟩
  · exact (ordered_iff_chunks final).mp hordered
  · intro segment hsegment x hstart hstop
    obtain ⟨state, hstate, hinside⟩ := hcovers segment hsegment ⟨hstart, hstop⟩
    exact ⟨state.span, by simpa using ⟨state, hstate, rfl⟩, hinside⟩

theorem exists_plan (hsort : SortsSpans sort) (segments : List TimeSpan) (haudio : 0 < audioSamples)
    (hmax : 0 < options.maxChunkSamples) (hgap : 0 ≤ options.mergeGapSamples)
    (hpadding : 0 ≤ options.paddingSamples)
    (hvalid : ∀ segment ∈ segments, ValidTimeSpan audioSamples segment) :
    ∃ chunks, planVadAudioChunks options sort segments audioSamples = .ok (some chunks) ∧
      (Planned options segments audioSamples chunks ↔
        Clear options [] (sort (segments.map (workSpan audioSamples options.paddingSamples)))) := by
  have hplan := planVadAudioChunks_eq hsort segments haudio hmax hgap hpadding hvalid
  have hperm := hsort.perm (segments.map (workSpan audioSamples options.paddingSamples))
  have hsorted := (hsort.sorted (segments.map (workSpan audioSamples options.paddingSamples))).imp
    start_le_of_not_before
  generalize sort (segments.map (workSpan audioSamples options.paddingSamples)) = items
    at hplan hperm hsorted ⊢
  have hfits : ∀ item ∈ items, Fits audioSamples item := by
    intro item hitem
    obtain ⟨segment, hsegment, rfl⟩ := List.mem_map.mp (hperm.mem_iff.mp hitem)
    exact fits_workSpan hpadding (hvalid segment hsegment)
  obtain ⟨final, hfold, hsound, -, hcovers, hordered⟩ := foldlM_spec hmax items [] hfits hsorted
    (by simp) (by simp [Reaches])
  have hnone : Ordered [] := List.Pairwise.nil
  rw [and_iff_right hnone] at hordered
  rw [hfold] at hplan
  refine ⟨final.reverse.map ChunkState.span, hplan, ?_⟩
  rw [← hordered]
  constructor
  · exact fun hplanned => (ordered_iff_chunks final).mpr hplanned.ordered
  · exact planned_of_ordered hsound fun segment hsegment =>
      hcovers _ (hperm.mem_iff.mpr (List.mem_map_of_mem hsegment))

/-! ## Silence between the segments -/

def sortSpans (spans : List WorkSpan) : List WorkSpan :=
  spans.insertionSort fun a b => b.before a = false

theorem sortsSpans_sortSpans : SortsSpans sortSpans where
  perm := List.perm_insertionSort _
  sorted spans := by
    have : Std.Total fun a b : WorkSpan => b.before a = false := ⟨fun a b => by
      unfold WorkSpan.before
      split_ifs <;> simp <;> omega⟩
    have : IsTrans WorkSpan fun a b => b.before a = false := ⟨fun a b c => by
      unfold WorkSpan.before
      split_ifs <;> simp <;> omega⟩
    exact List.pairwise_insertionSort _ spans

end FastTts.VadChunks
