import FastTts.MidiFile

/-!
# Reading what was written

Numbers of variable length, the events of a track and the chunks of a file are read back as they
were written, as long as they fit in their fields.
-/

namespace FastTts.MidiFile

open FifoMatching MidiNotes

/-! ## Numbers -/

variable {value : ℤ} {count : ℕ}

theorem toNat_u8 (h : 0 ≤ value) (hlt : value < 256) : (u8 value).toNat = value.toNat := by
  rw [u8, Int.emod_eq_of_lt h hlt, UInt8.toNat_ofNat']
  omega

variable {digit : ℤ} {parsed : List ParsedTrack}

theorem readVarlen_last {value : ℕ} (h : 0 ≤ digit) (hlt : digit < 128) (rest : Bytes) :
    readVarlen (count + 1) value (u8 digit :: rest) = some (value * 128 + digit.toNat, rest) := by
  rw [readVarlen, toNat_u8 h (by omega), if_pos (by omega)]

theorem readVarlen_more {value : ℕ} (h : 0 ≤ digit) (hlt : digit < 128) (rest : Bytes) :
    readVarlen (count + 1) value (u8 (digit + 0x80) :: rest) =
      readVarlen count (value * 128 + digit.toNat) rest := by
  rw [readVarlen, toNat_u8 (by omega) (by omega), if_neg (by omega)]
  congr 2
  omega

theorem readVarlen_varlen (h : 0 ≤ value) (hlt : value < 2 ^ 28) (rest : Bytes) :
    readVarlen 4 0 (varlen value ++ rest) = some (value.toNat, rest) := by
  rw [varlen, Int.emod_eq_of_lt h (by omega)]
  simp only [varlenLoop]
  split_ifs with h1 h2 h3 h4
  · rw [List.singleton_append, readVarlen_last (by omega) (by omega)]
    congr 2
    omega
  · rw [List.cons_append, readVarlen_more (by omega) (by omega), List.singleton_append,
      readVarlen_last (by omega) (by omega)]
    congr 2
    omega
  · rw [List.cons_append, readVarlen_more (by omega) (by omega), List.cons_append,
      readVarlen_more (by omega) (by omega), List.singleton_append,
      readVarlen_last (by omega) (by omega)]
    congr 2
    omega
  · rw [List.cons_append, readVarlen_more (by omega) (by omega), List.cons_append,
      readVarlen_more (by omega) (by omega), List.cons_append,
      readVarlen_more (by omega) (by omega), List.singleton_append,
      readVarlen_last (by omega) (by omega)]
    congr 2
    omega
  · omega

theorem length_bigEndian (count : ℕ) (value : ℤ) : (bigEndian count value).length = count := by
  induction count generalizing value with
  | zero => rfl
  | succ count ih => rw [bigEndian, List.length_append, ih, List.length_singleton]

theorem fromBigEndian_bigEndian (h : 0 ≤ value) (hlt : value < 256 ^ count) :
    fromBigEndian (bigEndian count value) = value.toNat := by
  induction count generalizing value with
  | zero =>
      rw [pow_zero] at hlt
      rw [(by omega : value = 0)]
      rfl
  | succ count ih =>
      rw [pow_succ] at hlt
      have hhigh := ih (Int.ediv_nonneg h (by decide)) (Int.ediv_lt_of_lt_mul (by decide) hlt)
      unfold fromBigEndian at hhigh ⊢
      rw [bigEndian, List.foldl_append, hhigh]
      have hlow : (u8 value).toNat = (value % 256).toNat := by
        rw [u8, UInt8.toNat_ofNat']
        omega
      simp only [List.foldl_cons, List.foldl_nil, hlow]
      omega

/-! ## Events of a track -/

variable {T : Type}

/-- What is read from the bytes of an event. -/
def parsedEvent (velocity tick channel : ℤ) (event : NoteEvent T) : ParsedEvent :=
  ⟨tick.toNat, ((if 0 < event.velocity then 0x90 else 0x80) + channel).toNat, event.pitch.toNat,
    (if 0 < event.velocity then velocity else 0).toNat⟩

/-- The values that an event has bytes for. -/
structure Fits (velocity channel : ℤ) (event : NoteEvent T) : Prop where
  velocity : 1 ≤ velocity ∧ velocity ≤ 127
  channel : 0 ≤ channel ∧ channel < 16
  pitch : 0 ≤ event.pitch ∧ event.pitch ≤ 127

theorem length_noteBytes (velocity delta channel : ℤ) (event : NoteEvent T) :
    (noteBytes velocity delta channel event).length = (varlen delta).length + 3 :=
  List.length_append

theorem parseEvent_note (tick : ℕ) (out : ParsedTrack) {velocity delta channel : ℤ}
    {event : NoteEvent T} (h : Fits velocity channel event) (hdelta : 0 ≤ delta)
    (hlt : delta < 2 ^ 28) (rest : Bytes) :
    parseEvent tick out (noteBytes velocity delta channel event ++ rest) =
      some (tick + delta.toNat, { out with events := out.events ++
        [parsedEvent velocity (tick + delta.toNat : ℕ) channel event] }, rest) := by
  obtain ⟨⟨hvelocity, hvelocity'⟩, ⟨hchannel, hchannel'⟩, ⟨hpitch, hpitch'⟩⟩ := h
  have hstatus : (u8 ((if 0 < event.velocity then 0x90 else 0x80) + channel)).toNat =
      ((if 0 < event.velocity then 0x90 else 0x80) + channel).toNat := by
    apply toNat_u8 <;> split_ifs <;> omega
  have hvalue : (u8 (if 0 < event.velocity then velocity else 0)).toNat =
      (if 0 < event.velocity then velocity else 0).toNat := by
    apply toNat_u8 <;> split_ifs <;> omega
  have hkind : ((if 0 < event.velocity then 0x90 else 0x80) + channel).toNat / 16 = 8 ∨
      ((if 0 < event.velocity then 0x90 else 0x80) + channel).toNat / 16 = 9 := by
    split_ifs <;> omega
  have hmeta : u8 ((if 0 < event.velocity then 0x90 else 0x80) + channel) ≠ 0xFF := by
    intro heq
    rw [heq] at hstatus
    rw [← hstatus] at hkind
    exact absurd hkind (by decide)
  rw [parseEvent, noteBytes, List.append_assoc, readVarlen_varlen hdelta hlt]
  simp only [List.cons_append, List.nil_append]
  rw [if_neg hmeta, hstatus, if_neg (by omega), if_pos hkind, toNat_u8 hpitch (by omega), hvalue]
  simp only [parsedEvent, Int.toNat_natCast]

theorem parseEvent_meta (tick : ℕ) (out : ParsedTrack) (kind : UInt8) (data : Bytes)
    (h : data.length < 2 ^ 28) (rest : Bytes) :
    parseEvent tick out (0x00 :: 0xFF :: kind :: (varlen data.length ++ (data ++ rest))) =
      some (tick, { out with name := if kind = 0x03 then data else out.name }, rest) := by
  have hread : readVarlen 4 0 (0x00 :: 0xFF :: kind :: (varlen data.length ++ (data ++ rest))) =
      some (0, 0xFF :: kind :: (varlen data.length ++ (data ++ rest))) := rfl
  rw [parseEvent, hread]
  simp only [if_true]
  rw [readVarlen_varlen (Int.natCast_nonneg _) (by exact_mod_cast h)]
  simp only [Int.toNat_natCast, List.length_append]
  rw [if_neg (by omega), List.take_left, List.drop_left]
  rfl

theorem parseEvent_program (tick : ℕ) (out : ParsedTrack) {program channel : ℤ}
    (hprogram : 0 ≤ program) (hprogram' : program < 128) (hchannel : 0 ≤ channel)
    (hchannel' : channel < 16) (rest : Bytes) :
    parseEvent tick out (0x00 :: u8 (0xC0 + channel) :: u8 program :: rest) =
      some (tick, { out with program := some program.toNat, channel := some channel.toNat },
        rest) := by
  have hread : readVarlen 4 0 (0x00 :: u8 (0xC0 + channel) :: u8 program :: rest) =
      some (0, u8 (0xC0 + channel) :: u8 program :: rest) := rfl
  have hstatus := toNat_u8 (by omega : 0 ≤ 0xC0 + channel) (by omega)
  have hmeta : u8 (0xC0 + channel) ≠ 0xFF := by
    intro heq
    rw [heq] at hstatus
    have hlast : (0xFF : UInt8).toNat = 255 := rfl
    omega
  rw [parseEvent, hread]
  dsimp only
  rw [if_neg hmeta, hstatus, if_pos (by omega), toNat_u8 hprogram (by omega)]
  have hmod : (0xC0 + channel).toNat % 16 = channel.toNat := by omega
  rw [hmod]
  rfl

theorem parseEvents_step {fuel tick tick' : ℕ} {out out' : ParsedTrack} {text rest : Bytes}
    (h : parseEvent tick out text = some (tick', out', rest)) (hfuel : text.length ≤ fuel)
    (hlt : rest.length < text.length) : ∃ less, rest.length ≤ less ∧
      parseEvents fuel tick out text = parseEvents less tick' out' rest := by
  obtain ⟨less, rfl⟩ : ∃ less, fuel = less + 1 := ⟨fuel - 1, by omega⟩
  have hne : text.isEmpty = false := by
    cases text with
    | nil => exact absurd hlt (Nat.not_lt_zero _)
    | cons ch text => rfl
  refine ⟨less, by omega, ?_⟩
  rw [parseEvents, hne, if_neg Bool.false_ne_true, h]

/-! ## Tracks -/

/-- The bytes of the events of a track, of which the last one so far was at a tick. -/
def eventBytes (secondsToTick : T → ℤ) (velocity channel : ℤ) : ℤ → List (NoteEvent T) → Bytes
  | _, [] => []
  | ticks, event :: rest =>
    noteBytes velocity (secondsToTick event.timeSeconds - ticks) channel event ++
      eventBytes secondsToTick velocity channel (secondsToTick event.timeSeconds) rest

section Events

variable {secondsToTick : T → ℤ} {velocity channel : ℤ}

/-- No gap between two events is negative or takes more than 28 bits. -/
def Steps (secondsToTick : T → ℤ) : ℤ → List (NoteEvent T) → Prop
  | _, [] => True
  | ticks, event :: rest =>
    0 ≤ secondsToTick event.timeSeconds - ticks ∧
      secondsToTick event.timeSeconds - ticks < 2 ^ 28 ∧
        Steps secondsToTick (secondsToTick event.timeSeconds) rest

variable {events : List (NoteEvent T)}

theorem parseEvents_events (hfits : ∀ event ∈ events, Fits velocity channel event) {ticks : ℤ}
    (hticks : 0 ≤ ticks) (hsteps : Steps secondsToTick ticks events) {fuel : ℕ} (out : ParsedTrack)
    {rest : Bytes}
    (hfuel : (eventBytes secondsToTick velocity channel ticks events ++ rest).length ≤ fuel) :
    ∃ less last, rest.length ≤ less ∧
      parseEvents fuel ticks.toNat out
          (eventBytes secondsToTick velocity channel ticks events ++ rest) =
        parseEvents less last { out with events := out.events ++ events.map (fun event =>
          parsedEvent velocity (secondsToTick event.timeSeconds) channel event) } rest := by
  induction events generalizing ticks fuel out with
  | nil => exact ⟨fuel, ticks.toNat, hfuel, by simp [eventBytes]⟩
  | cons event events ih =>
      obtain ⟨hfirst, hothers⟩ := List.forall_mem_cons.mp hfits
      obtain ⟨hdelta, hlt, hmore⟩ := hsteps
      rw [eventBytes, List.append_assoc] at hfuel ⊢
      have hparse := parseEvent_note ticks.toNat out hfirst hdelta hlt
        (eventBytes secondsToTick velocity channel (secondsToTick event.timeSeconds) events ++ rest)
      obtain ⟨less, hless, hstep⟩ := parseEvents_step hparse hfuel (by
        simp only [List.length_append, length_noteBytes]
        omega)
      have htick : ticks.toNat + (secondsToTick event.timeSeconds - ticks).toNat =
          (secondsToTick event.timeSeconds).toNat := by omega
      rw [htick] at hstep
      obtain ⟨fuel', last, hfuel', hrun⟩ := ih hothers (by omega) hmore _ hless
      refine ⟨fuel', last, hfuel', hstep.trans (hrun.trans ?_)⟩
      rw [List.map_cons, Int.toNat_of_nonneg (by omega), List.append_assoc,
        List.singleton_append]

theorem parseEvents_end (fuel tick : ℕ) (out : ParsedTrack) :
    parseEvents fuel tick out [] = some out := by
  cases fuel <;> rfl

theorem parseTrack_written {name : Bytes} {key : ℤ}
    (hfits : ∀ event ∈ events, Fits velocity channel event) (hsteps : Steps secondsToTick 0 events)
    (hname : name.length < 2 ^ 28) (hkey : 0 ≤ key ∧ key ≤ kDrumProgram)
    (hchannel : 0 ≤ channel ∧ channel < 16) :
    parseTrack (trackHead name key channel ++ eventBytes secondsToTick velocity channel 0 events ++
        endOfTrack) =
      some ⟨name, some (if key = kDrumProgram then 0 else key).toNat, some channel.toNat,
        events.map fun event =>
          parsedEvent velocity (secondsToTick event.timeSeconds) channel event⟩ := by
  have hprogram : 0 ≤ (if key = kDrumProgram then 0 else key) ∧
      (if key = kDrumProgram then 0 else key) < 128 := by
    unfold kDrumProgram at hkey ⊢
    split_ifs <;> omega
  set bytes := eventBytes secondsToTick velocity channel 0 events with hbytes
  have htext : trackHead name key channel ++ bytes ++ endOfTrack =
      0x00 :: 0xFF :: 0x03 :: (varlen name.length ++ (name ++ (0x00 :: u8 (0xC0 + channel) ::
        u8 (if key = kDrumProgram then 0 else key) :: (bytes ++ endOfTrack)))) := by
    simp [trackHead]
  rw [htext, parseTrack]
  obtain ⟨less₁, hless₁, hstep₁⟩ := parseEvents_step
    (parseEvent_meta 0 ⟨[], none, none, []⟩ 0x03 name hname _) le_rfl (by
      simp only [List.length_cons, List.length_append]
      omega)
  obtain ⟨less₂, hless₂, hstep₂⟩ := parseEvents_step
    (parseEvent_program 0 _ hprogram.1 hprogram.2 hchannel.1 hchannel.2 (bytes ++ endOfTrack))
    hless₁ (by
      simp only [List.length_cons]
      omega)
  obtain ⟨less₃, last, hless₃, hrun⟩ := parseEvents_events hfits le_rfl hsteps _ hless₂
  obtain ⟨less₄, -, hstep₄⟩ := parseEvents_step
    (parseEvent_meta last _ 0x2F [] (Nat.two_pow_pos 28) []) hless₃ Nat.succ_pos'
  rw [hstep₁, hstep₂]
  refine hrun.trans (hstep₄.trans ?_)
  rw [parseEvents_end]
  rfl

end Events

/-! ## Chunks -/

theorem parseTrack_metaTrack (tempoUsPerBeat : ℤ) :
    parseTrack (metaTrack tempoUsPerBeat) = some ⟨[], none, none, []⟩ := by
  have hdata : (bigEndian 3 tempoUsPerBeat).length = 3 := length_bigEndian _ _
  have hparse := parseEvent_meta 0 ⟨[], none, none, []⟩ 0x51 (bigEndian 3 tempoUsPerBeat)
    (by omega) endOfTrack
  rw [hdata] at hparse
  obtain ⟨less₁, hless₁, hstep₁⟩ := parseEvents_step hparse le_rfl (by
    simp only [List.length_cons, List.length_append]
    omega)
  obtain ⟨less₂, -, hstep₂⟩ := parseEvents_step
    (parseEvent_meta 0 ⟨[], none, none, []⟩ 0x2F [] (Nat.two_pow_pos 28) []) hless₁
    Nat.succ_pos'
  exact hstep₁.trans (hstep₂.trans (parseEvents_end _ _ _))

/-- The bytes of a track and what is read from them. -/
def Chunk (track : Bytes) (parsed : ParsedTrack) : Prop :=
  parseTrack track = some parsed ∧ track.length < 2 ^ 32

theorem parseTracks_flatMap {tracks : List Bytes} (h : List.Forall₂ Chunk tracks parsed) :
    parseTracks tracks.length (tracks.flatMap midiTrack) = some parsed := by
  induction h with
  | nil => rfl
  | @cons track out tracks parsed hfirst hrest ih =>
      obtain ⟨hparse, hsize⟩ := hfirst
      set more := tracks.flatMap midiTrack with hmore
      have htext : (track :: tracks).flatMap midiTrack =
          bytes "MTrk" ++ (bigEndian 4 track.length ++ (track ++ more)) := by
        rw [List.flatMap_cons, midiTrack, ← hmore, List.append_assoc, List.append_assoc]
      have hname : (bytes "MTrk").length = 4 := rfl
      have hfield : (bigEndian 4 (track.length : ℤ)).length = 4 := length_bigEndian _ _
      have hread : fromBigEndian (bigEndian 4 (track.length : ℤ)) = track.length := by
        rw [fromBigEndian_bigEndian (Int.natCast_nonneg _) (by omega), Int.toNat_natCast]
      have hhead : (bytes "MTrk" ++ bigEndian 4 (track.length : ℤ)).length = 8 := by
        rw [List.length_append, hname, hfield]
      have hchunk : (bytes "MTrk" ++ (bigEndian 4 (track.length : ℤ) ++ track)).length =
          8 + track.length := by
        rw [← List.append_assoc, List.length_append, hhead]
      have hlong : 8 + track.length ≤
          (bytes "MTrk" ++ (bigEndian 4 (track.length : ℤ) ++ (track ++ more))).length := by
        rw [List.length_append, List.length_append, List.length_append, hname, hfield]
        omega
      rw [htext, List.length_cons, parseTracks]
      rw [List.take_left' hname, List.drop_left' hname, List.take_left' hfield, hread]
      rw [if_neg (not_or.mpr ⟨not_not.mpr rfl, hlong.not_gt⟩)]
      rw [← List.append_assoc, List.drop_left' hhead, List.take_left, hparse]
      rw [List.append_assoc, ← List.append_assoc (bigEndian 4 _), ← List.append_assoc,
        List.drop_left' hchunk, ih]

theorem parseMidi_fileBytes (options : MidiFileOptions) {tracks : List Track}
    (hticks : 0 ≤ options.ticksPerBeat) (hticks' : options.ticksPerBeat < 2 ^ 15)
    (hcount : 1 + tracks.length < 2 ^ 16)
    (h : List.Forall₂ (fun track out => Chunk (track.bytes ++ endOfTrack) out) tracks parsed) :
    parseMidi (fileBytes options tracks) =
      some (options.ticksPerBeat.toNat, ⟨[], none, none, []⟩ :: parsed) := by
  have hlength : parsed.length = tracks.length := h.length_eq.symm
  have hmeta : (metaTrack options.tempoUsPerBeat).length < 2 ^ 32 := by
    rw [metaTrack, List.length_append, List.length_append, length_bigEndian]
    decide
  have hchunks := parseTracks_flatMap
    (List.Forall₂.cons ⟨parseTrack_metaTrack options.tempoUsPerBeat, hmeta⟩
      (List.forall₂_map_left_iff.mpr h))
  rw [List.length_cons, List.length_map, List.flatMap_cons, List.flatMap_map] at hchunks
  have hcountField : (bigEndian 2 (1 + tracks.length : ℤ)).length = 2 := length_bigEndian _ _
  have hticksField : (bigEndian 2 options.ticksPerBeat).length = 2 := length_bigEndian _ _
  have hsix : bigEndian 4 6 = [0, 0, 0, 6] := by decide
  have hone : bigEndian 2 1 = [0, 1] := by decide
  have htext : fileBytes options tracks = (bytes "MThd" ++ [0, 0, 0, 6, 0, 1]) ++
      (bigEndian 2 (1 + tracks.length) ++ (bigEndian 2 options.ticksPerBeat ++
        (midiTrack (metaTrack options.tempoUsPerBeat) ++
          tracks.flatMap fun track => midiTrack (track.bytes ++ endOfTrack)))) := by
    simp [fileBytes, hsix, hone]
  have hhead : (bytes "MThd" ++ [0, 0, 0, 6, 0, 1] : Bytes).length = 10 := rfl
  have hcounted : (bytes "MThd" ++ [0, 0, 0, 6, 0, 1] ++
      bigEndian 2 (1 + tracks.length : ℤ)).length = 12 := by
    rw [List.length_append, hhead, hcountField]
  have htimed : (bytes "MThd" ++ [0, 0, 0, 6, 0, 1] ++ bigEndian 2 (1 + tracks.length : ℤ) ++
      bigEndian 2 options.ticksPerBeat).length = 14 := by
    rw [List.length_append, hcounted, hticksField]
  have hcountRead : fromBigEndian (bigEndian 2 (1 + tracks.length : ℤ)) = tracks.length + 1 := by
    rw [fromBigEndian_bigEndian (by omega) (by omega)]
    omega
  have hticksRead : fromBigEndian (bigEndian 2 options.ticksPerBeat) =
      options.ticksPerBeat.toNat :=
    fromBigEndian_bigEndian hticks (by omega)
  have hsmall : ¬2 ^ 15 ≤ options.ticksPerBeat.toNat := by omega
  rw [htext, parseMidi, List.take_left' hhead, List.drop_left' hhead,
    List.take_left' hcountField, hcountRead, ← List.append_assoc, List.drop_left' hcounted,
    List.take_left' hticksField, hticksRead, if_neg (not_or.mpr ⟨not_not.mpr rfl, hsmall⟩),
    ← List.append_assoc, List.drop_left' htimed, hchunks]
  rfl

end FastTts.MidiFile
