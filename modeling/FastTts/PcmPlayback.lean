import Mathlib.Algebra.Order.Field.Basic
import Mathlib.Data.List.GetD
import Mathlib.Tactic.Ring
import FastTts.Json
import FastTts.Timelines

/-!
# PCM playback on a clock

`Pcm16StreamPlayer` with its clock and its samples, in exact arithmetic. The bytes of the calls are
cut into whole frames; the buffers wait for a reserve, and each is then started at a time of the
context's clock. What the speakers are told is kept beside the player, as the list of its sources.
-/

namespace FastTts.PcmPlayback

open Timelines

/-! ## Samples -/

structure Format where
  sampleRate : ℕ
  channels : ℕ
  rate_pos : 0 < sampleRate
  channels_pos : 0 < channels

def Format.frameBytes (format : Format) : ℕ := format.channels * 2

theorem Format.frameBytes_pos (format : Format) : 0 < format.frameBytes :=
  Nat.mul_pos format.channels_pos (by decide)

structure AudioBuffer (F : Type) where
  frames : ℕ
  data : List (List F)

def getInt16 (view : Bytes) (offset : ℕ) : ℤ :=
  let value : ℕ := (view.getD offset 0).toNat + 2 ^ 8 * (view.getD (offset + 1) 0).toNat
  if value < 2 ^ 15 then value else value - 2 ^ 16

variable {F : Type} [Field F]

def sampleAt (format : Format) (view : Bytes) (channel frame : ℕ) : F :=
  getInt16 view ((frame * format.channels + channel) * 2) / 32768

def channelData (format : Format) (view : Bytes) (channel : ℕ) : List F :=
  (List.range (view.length / format.frameBytes)).map (sampleAt format view channel)

def decodeBuffer (format : Format) (view : Bytes) : AudioBuffer F where
  frames := view.length / format.frameBytes
  data := (List.range format.channels).map (channelData format view)

def AudioBuffer.seconds (format : Format) (audio : AudioBuffer F) : F :=
  audio.frames / format.sampleRate

/-! ## The player -/

local instance hundred : Nat.AtLeastTwo 100 := ⟨by decide⟩

def initialPlaybackLead : F := 64 / 1000

def continuationLead : F := 1 / 100

structure Segment (F : Type) where
  ctxStart : F
  streamStart : F
  seconds : F

/-- A buffer and the time at which the speakers start it, with the clock when they were told. -/
structure Source (F : Type) where
  startAt : F
  toldAt : F
  audio : AudioBuffer F

structure Player (F : Type) where
  format : Format
  startBufferSeconds : F
  startMaxWaitMs : F
  context : Bool
  nextStartTime : F
  carry : Bytes
  /-- The numbers of the sources that have not ended. -/
  sources : List ℕ
  drainResolver : Bool
  stopped : Bool
  initialPlaybackLeadSeconds : F
  hasScheduledAudio : Bool
  begun : Bool
  pending : List (AudioBuffer F)
  pendingSeconds : F
  startTimer : Option F
  underruns : ℕ
  rebuffering : Bool
  rebufferTargetSeconds : F
  rebufferStepSeconds : F
  maxRebufferSeconds : F
  rebufferMaxWaitMs : F
  segments : List (Segment F)
  scheduledSeconds : F
  receivedSeconds : F
  lastPlayedSeconds : F
  started : List (Source F)

/-- The player behind `start`, when the clock shows `now`. -/
def Player.startedAt (format : Format) (startBufferSeconds startMaxWaitMs now : F) : Player F where
  format
  startBufferSeconds
  startMaxWaitMs
  context := true
  nextStartTime := now
  carry := []
  sources := []
  drainResolver := false
  stopped := false
  initialPlaybackLeadSeconds := initialPlaybackLead
  hasScheduledAudio := false
  begun := false
  pending := []
  pendingSeconds := 0
  startTimer := none
  underruns := 0
  rebuffering := false
  rebufferTargetSeconds := 0
  rebufferStepSeconds := 16 / 100
  maxRebufferSeconds := 48 / 100
  rebufferMaxWaitMs := 800
  segments := []
  scheduledSeconds := 0
  receivedSeconds := 0
  lastPlayedSeconds := 0
  started := []

def Source.span (format : Format) (source : Source F) : Span F :=
  ⟨source.startAt, source.audio.seconds format⟩

def Player.track (p : Player F) : List (Span F) := p.started.map (Source.span p.format)

variable [LinearOrder F]

namespace Player

/-- Beyond 512 segments the oldest 256 are dropped. -/
def trimSegments (segments : List (Segment F)) : List (Segment F) :=
  if 512 < segments.length then segments.drop 256 else segments

variable (now : F) (p : Player F)

def startTime : F :=
  max p.nextStartTime (now + if p.hasScheduledAudio then continuationLead else 0)

variable (audio : AudioBuffer F)

def scheduleBuffer : Player F :=
  if p.context then
    { p with
      sources := p.sources ++ [p.started.length]
      started := p.started ++ [⟨p.startTime now, now, audio⟩]
      segments := trimSegments
        (p.segments ++ [⟨p.startTime now, p.scheduledSeconds, audio.seconds p.format⟩])
      scheduledSeconds := p.scheduledSeconds + audio.seconds p.format
      nextStartTime := p.startTime now + audio.seconds p.format
      hasScheduledAudio := true }
  else p

/-- Playback begins, or goes on behind an underrun. -/
def resume : Player F :=
  if p.begun = false then
    { p with begun := true, nextStartTime := now + p.initialPlaybackLeadSeconds }
  else if p.rebuffering then
    { p with
      rebuffering := false
      nextStartTime := if p.nextStartTime ≤ now then now + continuationLead else p.nextStartTime }
  else p

def takePending : Player F := { p with pending := [], pendingSeconds := 0 }

def flushPending : Player F :=
  if p.context then
    p.pending.foldl (scheduleBuffer now) ({ p with startTimer := none }.resume now).takePending
  else p

/-- The scheduled tail has played out: a reserve is gathered anew. -/
def noteUnderrun : Player F :=
  if p.begun && !p.rebuffering && p.hasScheduledAudio && decide (p.nextStartTime ≤ now) then
    { p with
      underruns := p.underruns + 1
      rebuffering := true
      rebufferTargetSeconds := min (p.rebufferStepSeconds * ↑(p.underruns + 1))
        p.maxRebufferSeconds }
  else p

def hold (p : Player F) : Player F :=
  { p with
    pending := p.pending ++ [audio]
    pendingSeconds := p.pendingSeconds + audio.seconds p.format }

def targetSeconds : F :=
  if p.begun then p.rebufferTargetSeconds else p.startBufferSeconds

def maxWaitMs : F := if p.begun then p.rebufferMaxWaitMs else p.startMaxWaitMs

/-- A buffer is held back until the reserve is complete. -/
def reserve (p : Player F) : Player F :=
  let p := p.hold audio
  if p.targetSeconds ≤ p.pendingSeconds then p.flushPending now
  else if p.startTimer.isNone then { p with startTimer := some p.maxWaitMs }
  else p

/-- A buffer that has been received is held back or scheduled. -/
def receive (p : Player F) : Player F :=
  let p := { p with
    receivedSeconds := p.receivedSeconds + audio.seconds p.format }.noteUnderrun now
  if !p.begun || p.rebuffering then p.reserve now audio else p.scheduleBuffer now audio

def push (chunk : Bytes) (p : Player F) : Except Exception (Player F) :=
  if chunk = [] ∨ p.stopped = true then .ok p
  else if p.context = false then .error (bytes "PCM stream player has not been started.")
  else
    let data := p.carry ++ chunk
    let completeBytes := data.length - data.length % p.format.frameBytes
    let p := { p with carry := data.drop completeBytes }
    if completeBytes = 0 then .ok p
    else .ok (p.receive now (decodeBuffer p.format (data.take completeBytes)))

def timeOut : Player F :=
  let p := { p with startTimer := none }
  if p.stopped then p else p.flushPending now

/-- The last segment that has begun says what is at the speakers. -/
def position : F :=
  match p.segments.reverse.find? fun segment => decide (segment.ctxStart ≤ now) with
  | some segment =>
    min (segment.streamStart + (now - segment.ctxStart)) (segment.streamStart + segment.seconds)
  | none => p.lastPlayedSeconds

/-- `playedSeconds` keeps what it returns. -/
def poll : Player F :=
  if p.context then { p with lastPlayedSeconds := p.position now } else p

def playedSeconds : F := (p.poll now).lastPlayedSeconds

def releaseContext : Player F :=
  { p.poll now with context := false, stopped := true }

/-- A source has ended; behind the last one, who waits for it in `finish` goes on. -/
def ended (source : ℕ) (p : Player F) : Player F :=
  let p := { p with sources := p.sources.erase source }
  if p.sources.isEmpty && p.drainResolver then
    { p with drainResolver := false }.releaseContext now
  else p

def finish : Player F :=
  if p.context = false ∨ p.stopped = true then p
  else
    let p := { p with carry := [] }
    let p := if p.pending.isEmpty then p else p.flushPending now
    let p := { p with startTimer := none }
    if p.sources.isEmpty then p.releaseContext now else { p with drainResolver := true }

def stop : Player F :=
  if p.stopped then p
  else
    { p with
      stopped := true, carry := [], pending := [], pendingSeconds := 0, rebuffering := false,
      startTimer := none, sources := [], drainResolver := false }.releaseContext now

def setStartBuffer (seconds maxWaitMs : F) (p : Player F) : Except Exception (Player F) :=
  if seconds < 0 then .error (bytes "PCM start reserve must be a non-negative finite number.")
  else if p.begun = true ∨ p.sources ≠ [] then
    .error (bytes "PCM start reserve must be set before the first audio chunk.")
  else .ok { p with
    startBufferSeconds := seconds, startMaxWaitMs := maxWaitMs
    rebufferStepSeconds := 35 / 100, maxRebufferSeconds := 12 / 10, rebufferMaxWaitMs := 1500 }

def setInitialPlaybackLeadSeconds (seconds : F) (p : Player F) : Except Exception (Player F) :=
  if seconds < 0 then
    .error (bytes "Initial PCM playback lead must be a non-negative finite number.")
  else if p.begun = true ∨ p.sources ≠ [] then
    .error (bytes "Initial PCM playback lead must be set before the first audio chunk.")
  else .ok { p with initialPlaybackLeadSeconds := seconds }

end Player

/-! ## Runs -/

structure World (F : Type) where
  player : Player F
  clock : F

inductive Event (F : Type)
  | push (chunk : Bytes)
  | advance (time : F)
  | timeOut
  | ended (source : ℕ)
  | poll
  | finish
  | stop
  | setStartBuffer (seconds maxWaitMs : F)
  | setInitialPlaybackLeadSeconds (seconds : F)

/-- A call that throws leaves the player as it was. -/
def orSame (p : Player F) : Except Exception (Player F) → Player F
  | .ok p' => p'
  | .error _ => p

/-- The speakers have played the source to its end. -/
def World.hasPlayed (w : World F) (source : ℕ) : Bool :=
  (w.player.track[source]?).any fun span => decide (span.stop ≤ w.clock)

def World.onPlayer (w : World F) (f : F → Player F → Player F) : World F :=
  { w with player := f w.clock w.player }

/-- The clock never goes back. A timer fires while it is set, and a source ends when it has been
played. -/
def World.step (w : World F) : Event F → World F
  | .push chunk => w.onPlayer fun now p => orSame p (p.push now chunk)
  | .advance time => { w with clock := max w.clock time }
  | .timeOut => if w.player.startTimer.isSome then w.onPlayer Player.timeOut else w
  | .ended source =>
    if source ∈ w.player.sources ∧ w.hasPlayed source = true then
      w.onPlayer fun now => Player.ended now source
    else w
  | .poll => w.onPlayer Player.poll
  | .finish => w.onPlayer Player.finish
  | .stop => w.onPlayer Player.stop
  | .setStartBuffer seconds maxWaitMs =>
    w.onPlayer fun _ p => orSame p (p.setStartBuffer seconds maxWaitMs)
  | .setInitialPlaybackLeadSeconds seconds =>
    w.onPlayer fun _ p => orSame p (p.setInitialPlaybackLeadSeconds seconds)

def World.run (w : World F) (events : List (Event F)) : World F := events.foldl World.step w

def World.initial (format : Format) (startBufferSeconds startMaxWaitMs now : F) : World F :=
  ⟨Player.startedAt format startBufferSeconds startMaxWaitMs now, now⟩

def Event.chunk : Event F → Bytes
  | .push chunk => chunk
  | _ => []

def pushed (events : List (Event F)) : Bytes := events.flatMap Event.chunk

/-! ## Samples of bytes in pieces -/

section Samples

omit [LinearOrder F]

variable {format : Format} {whole : Bytes}

theorem getInt16_append_left {offset : ℕ} (h : offset + 1 < whole.length) (rest : Bytes) :
    getInt16 (whole ++ rest) offset = getInt16 whole offset := by
  unfold getInt16
  rw [List.getD_append _ _ _ _ (by omega), List.getD_append _ _ _ _ h]

theorem getInt16_append_right (rest : Bytes) (offset : ℕ) :
    getInt16 (whole ++ rest) (whole.length + offset) = getInt16 rest offset := by
  unfold getInt16
  rw [List.getD_append_right _ _ _ _ (by omega), List.getD_append_right _ _ _ _ (by omega),
    Nat.add_sub_cancel_left, Nat.add_assoc, Nat.add_sub_cancel_left]

variable {frames : ℕ} {rest : Bytes}

theorem sampleAt_append_left {channel frame : ℕ}
    (hwhole : whole.length = frames * format.frameBytes) (hchannel : channel < format.channels)
    (hframe : frame < frames) (rest : Bytes) :
    sampleAt format (whole ++ rest) channel frame = (sampleAt format whole channel frame : F) := by
  have hlast : (frame + 1) * format.frameBytes ≤ frames * format.frameBytes :=
    Nat.mul_le_mul_right _ hframe
  have hsplit : (frame + 1) * format.frameBytes =
      (frame * format.channels) * 2 + format.channels * 2 := by
    unfold Format.frameBytes
    ring
  unfold sampleAt
  rw [getInt16_append_left (by omega)]

theorem sampleAt_append_right (hwhole : whole.length = frames * format.frameBytes) (rest : Bytes)
    (channel frame : ℕ) :
    sampleAt format (whole ++ rest) channel (frames + frame) =
      (sampleAt format rest channel frame : F) := by
  have hoffset : ((frames + frame) * format.channels + channel) * 2 =
      whole.length + (frame * format.channels + channel) * 2 := by
    rw [hwhole, Format.frameBytes]
    ring
  unfold sampleAt
  rw [hoffset, getInt16_append_right]

theorem channelData_append (hwhole : format.frameBytes ∣ whole.length) {channel : ℕ}
    (hchannel : channel < format.channels) (rest : Bytes) :
    (channelData format (whole ++ rest) channel : List F) =
      channelData format whole channel ++ channelData format rest channel := by
  obtain ⟨frames, hframes⟩ := hwhole
  have hpos := format.frameBytes_pos
  have hlength : whole.length = frames * format.frameBytes := by rw [hframes, Nat.mul_comm]
  have hcount : whole.length / format.frameBytes = frames := by
    rw [hlength, Nat.mul_div_cancel _ hpos]
  have htotal : (whole ++ rest).length / format.frameBytes =
      frames + rest.length / format.frameBytes := by
    rw [List.length_append, hlength, Nat.add_comm, Nat.add_mul_div_right _ _ hpos, Nat.add_comm]
  unfold channelData
  rw [htotal, hcount, List.range_add, List.map_append, List.map_map]
  congr 1
  · refine List.map_congr_left fun frame hframe => ?_
    exact sampleAt_append_left hlength hchannel (List.mem_range.mp hframe) rest
  · exact List.map_congr_left fun frame _ => sampleAt_append_right hlength rest channel frame

theorem channelData_short (h : rest.length < format.frameBytes) (channel : ℕ) :
    (channelData format rest channel : List F) = [] := by
  rw [channelData, Nat.div_eq_of_lt h]
  rfl

def AudioBuffer.channel (audio : AudioBuffer F) (channel : ℕ) : List F := audio.data.getD channel []

theorem decodeBuffer_channel (view : Bytes) {channel : ℕ} (hchannel : channel < format.channels) :
    (decodeBuffer format view : AudioBuffer F).channel channel =
      channelData format view channel := by
  rw [AudioBuffer.channel, decodeBuffer, List.getD_eq_getElem _ _ (by simpa using hchannel),
    List.getElem_map, List.getElem_range]

theorem flatMap_decodeBuffer {pieces : List Bytes}
    (hpieces : ∀ piece ∈ pieces, format.frameBytes ∣ piece.length) {channel : ℕ}
    (hchannel : channel < format.channels) (hrest : rest.length < format.frameBytes) :
    (pieces.map (decodeBuffer format)).flatMap (fun audio => audio.channel channel) =
      (channelData format (pieces.flatten ++ rest) channel : List F) := by
  induction pieces with
  | nil => exact (channelData_short hrest channel).symm
  | cons piece pieces ih =>
    rw [List.map_cons, List.flatMap_cons, decodeBuffer_channel piece hchannel, List.flatten_cons,
      List.append_assoc, channelData_append (hpieces piece List.mem_cons_self) hchannel,
      ih fun other hother => hpieces other (List.mem_cons_of_mem piece hother)]

end Samples

end FastTts.PcmPlayback
