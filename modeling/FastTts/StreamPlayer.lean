import FastTts.Bytes

/-!
# The PCM stream player

`Pcm16StreamPlayer` gathers a reserve of audio before it starts and after an underrun, hands its
buffers to the speakers, and is stopped for good by `stop` and at the end of `finish`. What the clock
and the counters of seconds say is part of the calls, and the conversion to samples is left out.
-/

namespace FastTts.StreamPlayer

structure Player where
  channels : ℕ
  context : Bool
  carry : Bytes
  /-- Buffers that the speakers have and that have not ended. -/
  sources : List Bytes
  /-- Somebody waits for the last source to end. -/
  drainResolver : Bool
  stopped : Bool
  hasScheduledAudio : Bool
  begun : Bool
  pending : List Bytes
  startTimer : Bool
  rebuffering : Bool
  segments : List Bytes
  deriving DecidableEq

def Player.new (channels : ℕ) : Player where
  channels := channels
  context := false
  carry := []
  sources := []
  drainResolver := false
  stopped := false
  hasScheduledAudio := false
  begun := false
  pending := []
  startTimer := false
  rebuffering := false
  segments := []

namespace Player

def scheduleBuffers (p : Player) (audio : List Bytes) : Player :=
  if audio.isEmpty then p
  else { p with
    sources := p.sources ++ audio, segments := p.segments ++ audio, hasScheduledAudio := true }

def flushPending (p : Player) : Player :=
  if p.context then
    { p with
      startTimer := false, begun := true, rebuffering := p.rebuffering && !p.begun,
      pending := [] }.scheduleBuffers p.pending
  else p

/-- `late` says that the scheduled audio has played out, `enough` that the reserve is complete.
Without a context the call throws. -/
def push (late enough : Bool) (chunk : Bytes) (p : Player) : Option Player :=
  if chunk.isEmpty || p.stopped then some p
  else if !p.context then none
  else
    let data := p.carry ++ chunk
    let completeBytes := data.length - data.length % (p.channels * 2)
    let p := { p with carry := data.drop completeBytes }
    if completeBytes = 0 then some p
    else
      let audio := data.take completeBytes
      let p := { p with
        rebuffering := p.rebuffering || (p.begun && p.hasScheduledAudio && late) }
      if !p.begun || p.rebuffering then
        let p := { p with pending := p.pending ++ [audio] }
        some (if enough then p.flushPending else { p with startTimer := true })
      else some (p.scheduleBuffers [audio])

def timeOut (p : Player) : Player :=
  let p := { p with startTimer := false }
  if p.stopped then p else p.flushPending

/-- A source has ended; the last one wakes whoever waits for it. -/
def ended (audio : Bytes) (p : Player) : Player :=
  let sources := p.sources.erase audio
  { p with sources := sources, drainResolver := p.drainResolver && !sources.isEmpty }

def releaseContext (p : Player) : Player := { p with context := false, stopped := true }

/-- `finish` up to its await, and whether it waits there. -/
def finish (p : Player) : Player × Bool :=
  if !p.context || p.stopped then (p, false)
  else
    let p := { p with carry := [] }
    let p := if p.pending.isEmpty then p else p.flushPending
    let p := { p with startTimer := false }
    if p.sources.isEmpty then (p.releaseContext, false) else ({ p with drainResolver := true }, true)

def stop (p : Player) : Player :=
  if p.stopped then p
  else
    { p with
      stopped := true, carry := [], pending := [], rebuffering := false, startTimer := false,
      sources := [], drainResolver := false }.releaseContext

/-! ## What the calls keep -/

/-- Nothing sounds and nothing is held back. -/
def Quiet (p : Player) : Prop := p.sources = [] ∧ p.pending = [] ∧ p.drainResolver = false

/-- A stopped player is quiet, and one waits for sources only. -/
def Settled (p : Player) : Prop :=
  (p.stopped = true → p.Quiet) ∧ (p.drainResolver = true → p.sources ≠ [])

/-- Nothing is held back, and who waited for the sources to end is woken by the last. -/
def Draining (p : Player) : Prop := p.pending = [] ∧ (p.drainResolver = false → p.sources = [])

theorem quiet_new (channels : ℕ) : (new channels).Quiet := ⟨rfl, rfl, rfl⟩

theorem settled_new (channels : ℕ) : (new channels).Settled := ⟨fun _ => quiet_new channels, nofun⟩

variable {p : Player}

theorem stop_quiet (h : p.Settled) : p.stop.Quiet := by
  rw [stop]
  split
  · next hstopped => exact h.1 hstopped
  · exact ⟨rfl, rfl, rfl⟩

theorem stop_segments (p : Player) : p.stop.segments = p.segments := by
  rw [stop]
  split <;> rfl

theorem stop_settled (h : p.Settled) : p.stop.Settled := by
  have hquiet := stop_quiet h
  refine ⟨fun _ => hquiet, fun hdrain => ?_⟩
  rw [hquiet.2.2] at hdrain
  exact nomatch hdrain

section

variable (p : Player) (audio : List Bytes)

@[simp] theorem scheduleBuffers_stopped : (p.scheduleBuffers audio).stopped = p.stopped := by
  unfold scheduleBuffers
  split <;> rfl

@[simp] theorem scheduleBuffers_pending : (p.scheduleBuffers audio).pending = p.pending := by
  unfold scheduleBuffers
  split <;> rfl

@[simp] theorem scheduleBuffers_drainResolver :
    (p.scheduleBuffers audio).drainResolver = p.drainResolver := by
  unfold scheduleBuffers
  split <;> rfl

theorem scheduleBuffers_sources : (p.scheduleBuffers audio).sources = p.sources ++ audio := by
  unfold scheduleBuffers
  split
  · next h => rw [List.isEmpty_iff.mp h, List.append_nil]
  · rfl

theorem scheduleBuffers_segments : (p.scheduleBuffers audio).segments = p.segments ++ audio := by
  unfold scheduleBuffers
  split
  · next h => rw [List.isEmpty_iff.mp h, List.append_nil]
  · rfl

end

@[simp] theorem flushPending_stopped (p : Player) : p.flushPending.stopped = p.stopped := by
  unfold flushPending
  split <;> simp

@[simp] theorem flushPending_drainResolver (p : Player) :
    p.flushPending.drainResolver = p.drainResolver := by
  unfold flushPending
  split <;> simp

theorem flushPending_pending (h : p.context = true ∨ p.pending = []) :
    p.flushPending.pending = [] := by
  unfold flushPending
  split
  · rw [scheduleBuffers_pending]
  · next hcontext => exact h.resolve_left hcontext

theorem flushPending_of_pending (h : p.pending = []) :
    p.flushPending.sources = p.sources ∧ p.flushPending.segments = p.segments := by
  unfold flushPending
  split
  · rw [scheduleBuffers_sources, scheduleBuffers_segments, h]
    exact ⟨List.append_nil _, List.append_nil _⟩
  · exact ⟨rfl, rfl⟩

theorem flushPending_sources (p : Player) : p.sources <+: p.flushPending.sources := by
  unfold flushPending
  split
  · rw [scheduleBuffers_sources]
    exact List.prefix_append _ _
  · exact List.prefix_rfl

theorem timeOut_settled (h : p.Settled) : p.timeOut.Settled := by
  unfold timeOut
  dsimp only
  split
  · exact h
  · next hstopped =>
    refine ⟨fun hs => absurd (by simpa using hs) hstopped, fun hdrain hnil => ?_⟩
    rw [flushPending_drainResolver] at hdrain
    have hpart := flushPending_sources { p with startTimer := false }
    rw [hnil, List.prefix_nil] at hpart
    exact h.2 hdrain hpart

theorem timeOut_of_pending (h : p.pending = []) :
    p.timeOut.pending = [] ∧ p.timeOut.sources = p.sources ∧ p.timeOut.segments = p.segments ∧
      p.timeOut.drainResolver = p.drainResolver := by
  unfold timeOut
  dsimp only
  split
  · exact ⟨h, rfl, rfl, rfl⟩
  · have hflush := flushPending_of_pending (p := { p with startTimer := false }) h
    exact ⟨flushPending_pending (.inr h), hflush.1, hflush.2, flushPending_drainResolver _⟩

theorem timeOut_quiet (h : p.Quiet) : p.timeOut.Quiet := by
  obtain ⟨hpending, hsources, -, hdrain⟩ := timeOut_of_pending h.2.1
  exact ⟨hsources.trans h.1, hpending, hdrain.trans h.2.2⟩

theorem timeOut_draining (h : p.Draining) : p.timeOut.Draining := by
  obtain ⟨hpending, hsources, -, hdrain⟩ := timeOut_of_pending h.1
  refine ⟨hpending, fun hwoken => ?_⟩
  rw [hsources]
  exact h.2 (hdrain.symm.trans hwoken)

theorem ended_settled (audio : Bytes) (h : p.Settled) : (p.ended audio).Settled := by
  refine ⟨fun hstopped => ?_, fun hdrain hnil => ?_⟩
  · obtain ⟨hsources, hpending, hdrain⟩ := h.1 hstopped
    refine ⟨?_, hpending, ?_⟩
    · rw [ended, hsources]
      rfl
    · rw [ended, hdrain]
      rfl
  · have hsources : p.sources.erase audio = [] := hnil
    have hwaits : (p.drainResolver && !(p.sources.erase audio).isEmpty) = true := hdrain
    rw [hsources] at hwaits
    simp at hwaits

theorem ended_quiet (audio : Bytes) (h : p.Quiet) : (p.ended audio).Quiet := by
  obtain ⟨hsources, hpending, hdrain⟩ := h
  refine ⟨?_, hpending, ?_⟩
  · rw [ended, hsources]
    rfl
  · rw [ended, hdrain]
    rfl

theorem ended_draining (audio : Bytes) (h : p.Draining) : (p.ended audio).Draining := by
  refine ⟨h.1, fun hdrain => ?_⟩
  have hwoken : (p.drainResolver && !(p.sources.erase audio).isEmpty) = false := hdrain
  change p.sources.erase audio = []
  rw [Bool.and_eq_false_iff] at hwoken
  rcases hwoken with hnot | hempty
  · rw [h.2 hnot]
    rfl
  · rwa [Bool.not_eq_false', List.isEmpty_iff] at hempty

theorem push_of_stopped (late enough : Bool) (chunk : Bytes) (h : p.stopped = true) :
    p.push late enough chunk = some p := by
  unfold push
  rw [h, Bool.or_true, if_pos rfl]

theorem push_frame {p' : Player} {late enough : Bool} {chunk : Bytes}
    (h : p.push late enough chunk = some p') :
    p'.stopped = p.stopped ∧ p'.drainResolver = p.drainResolver ∧ p.sources <+: p'.sources := by
  unfold push at h
  split at h
  · cases h
    exact ⟨rfl, rfl, List.prefix_rfl⟩
  · split at h
    · cases h
    · dsimp only at h
      split at h
      · cases h
        exact ⟨rfl, rfl, List.prefix_rfl⟩
      · split at h
        · split at h
          · cases h
            refine ⟨by simp, by simp, ?_⟩
            exact flushPending_sources { p with
              carry := _, rebuffering := _, pending := p.pending ++ [_] }
          · cases h
            exact ⟨rfl, rfl, List.prefix_rfl⟩
        · cases h
          refine ⟨by simp, by simp, ?_⟩
          rw [scheduleBuffers_sources]
          exact List.prefix_append _ _

theorem push_settled (late enough : Bool) (chunk : Bytes) (h : p.Settled) :
    ((p.push late enough chunk).getD p).Settled := by
  by_cases hstopped : p.stopped = true
  · rw [push_of_stopped late enough chunk hstopped]
    exact h
  · cases hpush : p.push late enough chunk with
    | none => exact h
    | some p' =>
      obtain ⟨hsame, hdrain, hsources⟩ := push_frame hpush
      refine ⟨fun hs => absurd (hsame.symm.trans hs) hstopped, fun hwaits hnil => ?_⟩
      change p'.sources = [] at hnil
      rw [hnil, List.prefix_nil] at hsources
      exact h.2 (hdrain.symm.trans hwaits) hsources

theorem finish_spec (h : p.Settled) :
    p.finish.1.Settled ∧ (p.finish.2 = true → p.finish.1.Draining) := by
  unfold finish
  split
  · exact ⟨h, nofun⟩
  · next hopen =>
    simp only [Bool.or_eq_true, Bool.not_eq_true', not_or, Bool.not_eq_false,
      Bool.not_eq_true] at hopen
    dsimp only
    generalize hflushed : (if p.pending.isEmpty = true then
      ({ p with carry := [] } : Player) else flushPending { p with carry := [] }) = q
    have hq : q.stopped = false ∧ q.pending = [] ∧ q.drainResolver = p.drainResolver ∧
        p.sources <+: q.sources := by
      rw [← hflushed]
      split
      · next hempty => exact ⟨hopen.2, List.isEmpty_iff.mp hempty, rfl, List.prefix_rfl⟩
      · refine ⟨by simpa using hopen.2, flushPending_pending (.inl hopen.1), by simp, ?_⟩
        exact flushPending_sources { p with carry := [] }
    obtain ⟨hstopped, hpending, hdrain, hsources⟩ := hq
    split
    · next hempty =>
      have hnil : q.sources = [] := List.isEmpty_iff.mp hempty
      rw [hnil, List.prefix_nil] at hsources
      have hwoken : q.drainResolver = false := by
        by_contra hwaits
        rw [Bool.not_eq_false, hdrain] at hwaits
        exact h.2 hwaits hsources
      refine ⟨⟨fun _ => ⟨hnil, hpending, hwoken⟩, fun hwaits => ?_⟩, nofun⟩
      exact absurd (hwoken.symm.trans hwaits) Bool.false_ne_true
    · next hleft =>
      have hne : q.sources ≠ [] := fun hnil => hleft (List.isEmpty_iff.mpr hnil)
      refine ⟨⟨fun hs => absurd (hstopped.symm.trans hs) Bool.false_ne_true, fun _ => hne⟩,
        fun _ => ⟨hpending, nofun⟩⟩

theorem releaseContext_settled (h : p.Draining) (hwoken : p.drainResolver = false) :
    p.releaseContext.Settled :=
  ⟨fun _ => ⟨h.2 hwoken, h.1, hwoken⟩,
    fun hwaits => absurd (hwoken.symm.trans hwaits) Bool.false_ne_true⟩

end Player

end FastTts.StreamPlayer
