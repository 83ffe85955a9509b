import FastTts.FifoMatching
import FastTts.JsonWriting
import FastTts.MidiNotes

/-!
# Standard MIDI files

`write_standard_midi_file` cleans the notes, turns each into two events and gives every program a
track and a channel of its own, as long as there are channels. Beyond fifteen programs the last
channel is shared, and a drum always sounds for the least duration.
-/

namespace FastTts.MidiFile

open FifoMatching JsonText MidiNotes StdSort

/-! ## Bytes -/

def u8 (value : ℤ) : UInt8 := UInt8.ofNat (value % 256).toNat

/-- The last bytes of a number, the greatest first. -/
def bigEndian : ℕ → ℤ → Bytes
  | 0, _ => []
  | count + 1, value => bigEndian count (value / 256) ++ [u8 value]

/-- The loop of `append_varlen`, with what is written already. -/
def varlenLoop : ℕ → ℤ → Bytes → Bytes
  | 0, _, out => out
  | fuel + 1, value, out =>
    if value / 128 = 0 then out
    else varlenLoop fuel (value / 128) (u8 (value / 128 % 128 + 0x80) :: out)

/-- A `uint32_t` has at most five groups of seven bits. -/
def varlen (value : ℤ) : Bytes :=
  varlenLoop 4 (value % 2 ^ 32) [u8 (value % 2 ^ 32 % 128)]

/-! ## Options and events -/

structure MidiFileOptions where
  ticksPerBeat : ℤ := 480
  tempoUsPerBeat : ℤ := 500000
  velocity : ℤ := 100
  deriving DecidableEq, Repr

structure NoteEvent (T : Type) where
  isDrum : Bool
  program : ℤ
  timeSeconds : T
  velocity : ℤ
  pitch : ℤ
  trackName : Bytes
  deriving DecidableEq, Repr

def requireU7 (value : ℤ) (name : Bytes) : Except Exception Unit :=
  if value < 0 ∨ 127 < value then .error (name ++ bytes " must be in [0, 127]") else .ok ()

variable {T : Type} (event : NoteEvent T)

def eventKeyProgram : ℤ :=
  if event.isDrum then kDrumProgram else event.program

/-- The key of the sort of the events. -/
def eventOrder : T ×ₗ Bool ×ₗ ℤ ×ₗ ℤ ×ₗ ℤ :=
  toLex (event.timeSeconds, toLex (event.isDrum, toLex (event.program,
    toLex (event.velocity, event.pitch))))

def onEvent (note : MidiNote T) : NoteEvent T :=
  ⟨note.isDrum, note.program, note.onsetSeconds, 1, note.pitch, note.trackName⟩

section Events

variable [Add T] (kMinimumNoteDurationSeconds : T)

def endSeconds (note : MidiNote T) : T :=
  if note.isDrum then note.onsetSeconds + kMinimumNoteDurationSeconds else note.offsetSeconds

def offEvent (note : MidiNote T) : NoteEvent T :=
  ⟨note.isDrum, note.program, endSeconds kMinimumNoteDurationSeconds note, 0, note.pitch,
    note.trackName⟩

def noteEvents (note : MidiNote T) : Except Exception (List (NoteEvent T)) := do
  requireU7 note.pitch (bytes "MIDI note pitch")
  if note.isDrum = false then requireU7 note.program (bytes "MIDI program") else pure ()
  return [onEvent note, offEvent kMinimumNoteDurationSeconds note]

def noteEventsFromNotes [LinearOrder T]
    (sort : (NoteEvent T → NoteEvent T → Bool) → List (NoteEvent T) → List (NoteEvent T))
    (notes : List (MidiNote T)) : Except Exception (List (NoteEvent T)) := do
  let events ← notes.mapM (noteEvents kMinimumNoteDurationSeconds)
  return sort (byKey eventOrder) events.flatten

end Events

/-! ## Tracks -/

/-- The entries of a key in `tracks`, `track_ticks` and `channels`. -/
structure Track where
  key : ℤ
  bytes : Bytes
  ticks : ℤ
  channel : ℤ
  deriving DecidableEq, Repr

/-- The tracks are in `track_order`. -/
structure Tracks where
  tracks : List Track
  availableChannels : List ℤ
  deriving DecidableEq, Repr

def allChannels : List ℤ := [0, 1, 2, 3, 4, 5, 6, 7, 8, 10, 11, 12, 13, 14, 15]

def nameOf : Bytes :=
  if event.trackName.isEmpty = false then event.trackName
  else if eventKeyProgram event = kDrumProgram then bytes "drums"
  else bytes "program " ++ intText (eventKeyProgram event)

/-- The name and the program that a track begins with. -/
def trackHead (name : Bytes) (key channel : ℤ) : Bytes :=
  [0x00, 0xFF, 0x03] ++ varlen name.length ++ name ++
    [0x00, u8 (0xC0 + channel), u8 (if key = kDrumProgram then 0 else key)]

def openTrack (state : Tracks) : Tracks :=
  let key := eventKeyProgram event
  if key = kDrumProgram then
    ⟨state.tracks ++ [⟨key, trackHead (nameOf event) key 9, 0, 9⟩], state.availableChannels⟩
  else
    let channel := state.availableChannels.headD 15
    ⟨state.tracks ++ [⟨key, trackHead (nameOf event) key channel, 0, channel⟩],
      state.availableChannels.tail⟩

def noteBytes (velocity deltaTick channel : ℤ) (event : NoteEvent T) : Bytes :=
  varlen deltaTick ++
    [u8 ((if 0 < event.velocity then 0x90 else 0x80) + channel), u8 event.pitch,
      u8 (if 0 < event.velocity then velocity else 0)]

/-- The track of a key with an event more, or its error. -/
def appendEvent (velocity absoluteTick : ℤ) (event : NoteEvent T) :
    List Track → Except Exception (List Track)
  | [] => .ok []
  | track :: rest =>
    if track.key = eventKeyProgram event then
      if absoluteTick - track.ticks < 0 then
        .error (bytes "MIDI events for a track must be time sorted")
      else .ok (⟨track.key,
        track.bytes ++ noteBytes velocity (absoluteTick - track.ticks) track.channel event,
        absoluteTick, track.channel⟩ :: rest)
    else do
      let rest ← appendEvent velocity absoluteTick event rest
      return track :: rest

section Writing

variable (secondsToTick : T → ℤ) (velocity : ℤ)

def writeEvent (state : Tracks) (event : NoteEvent T) : Except Exception Tracks := do
  let state := if eventKeyProgram event ∈ state.tracks.map Track.key then state
    else openTrack event state
  if secondsToTick event.timeSeconds < 0 then
    .error (bytes "MIDI note time must be non-negative")
  else do
    let tracks ← appendEvent velocity (secondsToTick event.timeSeconds) event state.tracks
    return ⟨tracks, state.availableChannels⟩

def writeTracks (events : List (NoteEvent T)) : Except Exception (List Track) := do
  let state ← events.foldlM (writeEvent secondsToTick velocity) ⟨[], allChannels⟩
  return state.tracks

end Writing

/-! ## The file -/

def endOfTrack : Bytes := [0x00, 0xFF, 0x2F, 0x00]

def metaTrack (tempoUsPerBeat : ℤ) : Bytes :=
  [0x00, 0xFF, 0x51, 0x03] ++ bigEndian 3 tempoUsPerBeat ++ endOfTrack

def midiTrack (track : Bytes) : Bytes := bytes "MTrk" ++ bigEndian 4 track.length ++ track

def fileBytes (options : MidiFileOptions) (tracks : List Track) : Bytes :=
  bytes "MThd" ++ bigEndian 4 6 ++ bigEndian 2 1 ++ bigEndian 2 (1 + tracks.length) ++
    bigEndian 2 options.ticksPerBeat ++ midiTrack (metaTrack options.tempoUsPerBeat) ++
      tracks.flatMap fun track => midiTrack (track.bytes ++ endOfTrack)

section Code

variable [LinearOrder T] [Add T] [Sub T] [Mul T] [Div T] [IntCast T]
  (llround : T → ℤ) (kMinimumNoteDurationSeconds : T)

def secondsToTick (options : MidiFileOptions) (seconds : T) : ℤ :=
  llround (seconds * ((options.ticksPerBeat : ℤ) : T) * ((1000000 : ℤ) : T) /
    ((options.tempoUsPerBeat : ℤ) : T))

variable (sort : (MidiNote T → MidiNote T → Bool) → List (MidiNote T) → List (MidiNote T))
  (sortEvents : (NoteEvent T → NoteEvent T → Bool) → List (NoteEvent T) → List (NoteEvent T))

def writeStandardMidiFile (notes : List (MidiNote T)) (options : MidiFileOptions) :
    Except Exception Bytes :=
  if options.ticksPerBeat ≤ 0 then .error (bytes "MIDI ticks_per_beat must be positive")
  else if options.tempoUsPerBeat ≤ 0 ∨ 0x00FFFFFF < options.tempoUsPerBeat then
    .error (bytes "MIDI tempo_us_per_beat must fit in a tempo meta event")
  else do
    requireU7 options.velocity (bytes "MIDI velocity")
    let events ← noteEventsFromNotes kMinimumNoteDurationSeconds sortEvents
      (cleanMidiNotes kMinimumNoteDurationSeconds sort notes)
    let tracks ← writeTracks (secondsToTick llround options) options.velocity events
    return fileBytes options tracks

end Code

/-! ## Reading a file -/

/-- A number of at most as many bytes; the last one has no high bit. -/
def readVarlen : ℕ → ℕ → Bytes → Option (ℕ × Bytes)
  | 0, _, _ => none
  | _ + 1, _, [] => none
  | count + 1, value, ch :: rest =>
    if ch.toNat < 0x80 then some (value * 128 + ch.toNat, rest)
    else readVarlen count (value * 128 + ch.toNat % 128) rest

def fromBigEndian (digits : Bytes) : ℕ := digits.foldl (fun value ch => value * 256 + ch.toNat) 0

structure ParsedEvent where
  tick : ℕ
  status : ℕ
  a : ℕ
  b : ℕ
  deriving DecidableEq, Repr

/-- The channel and the program are those of the last program change. -/
structure ParsedTrack where
  name : Bytes
  program : Option ℕ
  channel : Option ℕ
  events : List ParsedEvent
  deriving DecidableEq, Repr

/-- The tick and the track behind one event, and the bytes behind it. -/
def parseEvent (tick : ℕ) (out : ParsedTrack) (text : Bytes) : Option (ℕ × ParsedTrack × Bytes) :=
  match readVarlen 4 0 text with
  | some (delta, status :: first :: rest) =>
    if status = 0xFF then
      match readVarlen 4 0 rest with
      | none => none
      | some (size, rest) =>
        if rest.length < size then none
        else some (tick + delta,
          { out with name := if first = 0x03 then rest.take size else out.name }, rest.drop size)
    else if status.toNat / 16 = 0xC then
      some (tick + delta,
        { out with program := some first.toNat, channel := some (status.toNat % 16) }, rest)
    else if status.toNat / 16 = 0x8 ∨ status.toNat / 16 = 0x9 then
      match rest with
      | [] => none
      | second :: rest =>
        some (tick + delta,
          { out with events := out.events ++
              [⟨tick + delta, status.toNat, first.toNat, second.toNat⟩] }, rest)
    else none
  | _ => none

def parseEvents : ℕ → ℕ → ParsedTrack → Bytes → Option ParsedTrack
  | 0, _, out, text => if text.isEmpty then some out else none
  | fuel + 1, tick, out, text =>
    if text.isEmpty then some out
    else
      match parseEvent tick out text with
      | none => none
      | some (tick, out, rest) => parseEvents fuel tick out rest

def parseTrack (text : Bytes) : Option ParsedTrack :=
  parseEvents text.length 0 ⟨[], none, none, []⟩ text

def parseTracks : ℕ → Bytes → Option (List ParsedTrack)
  | 0, text => if text.isEmpty then some [] else none
  | count + 1, text =>
    let size := fromBigEndian ((text.drop 4).take 4)
    if text.take 4 ≠ bytes "MTrk" ∨ text.length < 8 + size then none
    else
      match parseTrack ((text.drop 8).take size), parseTracks count (text.drop (8 + size)) with
      | some track, some tracks => some (track :: tracks)
      | _, _ => none

/-- The ticks of a beat, and the tracks. A division with a high bit counts no ticks of a beat. -/
def parseMidi (file : Bytes) : Option (ℕ × List ParsedTrack) :=
  if file.take 10 ≠ bytes "MThd" ++ [0, 0, 0, 6, 0, 1] ∨
      2 ^ 15 ≤ fromBigEndian ((file.drop 12).take 2) then none
  else
    (parseTracks (fromBigEndian ((file.drop 10).take 2)) (file.drop 14)).map
      (fromBigEndian ((file.drop 12).take 2), ·)

/-! ## The notes of a file -/

structure SoundingNote where
  isDrum : Bool
  program : ℤ
  pitch : ℤ
  onsetTick : ℤ
  endTick : ℤ
  deriving DecidableEq, Repr

/-- A note-on without velocity ends a note. -/
def ParsedEvent.edge (event : ParsedEvent) : Edge ℕ :=
  ⟨decide (event.status / 16 = 9) && decide (event.b ≠ 0), event.tick⟩

def pitchEdges (track : ParsedTrack) (channel pitch : ℕ) : List (Edge ℕ) :=
  (track.events.filter fun event => event.status % 16 = channel ∧ event.a = pitch).map
    ParsedEvent.edge

/-- Channel 9 is the one of the drums. -/
def heardNote (track : ParsedTrack) (channel pitch : ℕ) (ticks : ℕ × ℕ) : SoundingNote :=
  ⟨channel = 9, if channel = 9 then kDrumProgram else ((track.program.getD 0 : ℕ) : ℤ), pitch,
    ticks.1, ticks.2⟩

def trackNotes (track : ParsedTrack) : List SoundingNote :=
  match track.channel with
  | none => []
  | some channel =>
    (List.range 128).flatMap fun pitch =>
      (matched [] (pitchEdges track channel pitch)).map (heardNote track channel pitch)

def soundingNotes (tracks : List ParsedTrack) : List SoundingNote := tracks.flatMap trackNotes

end FastTts.MidiFile
