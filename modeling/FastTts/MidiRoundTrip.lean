import FastTts.MidiEvents

/-!
# The notes of a written file

A decoder that gives every end to the earliest note of its pitch that sounds finds the clean notes
in a written file again, track by track.
-/

namespace FastTts.MidiFile

open FifoMatching JsonText MidiNotes StdSort

variable {T : Type}

/-! ## Gaps -/

theorem steps_of_forall {secondsToTick : T → ℤ} {ticks : ℤ} {events : List (NoteEvent T)}
    (hsorted : events.Pairwise fun a b =>
      secondsToTick a.timeSeconds ≤ secondsToTick b.timeSeconds)
    (hticks : ∀ event ∈ events, ticks ≤ secondsToTick event.timeSeconds)
    (hgap : ∀ event ∈ events, secondsToTick event.timeSeconds < ticks + 2 ^ 28 ∨
      ∃ earlier ∈ events, secondsToTick earlier.timeSeconds < secondsToTick event.timeSeconds ∧
        secondsToTick event.timeSeconds < secondsToTick earlier.timeSeconds + 2 ^ 28) :
    Steps secondsToTick ticks events := by
  induction events generalizing ticks with
  | nil => exact trivial
  | cons event rest ih =>
      obtain ⟨hfirst, hrest⟩ := List.pairwise_cons.mp hsorted
      have htick := hticks event List.mem_cons_self
      refine ⟨by omega, ?_, ih hrest hfirst fun later hlater => ?_⟩
      · -- Nothing comes before the first event.
        rcases hgap event List.mem_cons_self with hnear | ⟨earlier, hearlier, hlt, -⟩
        · omega
        · rcases List.mem_cons.mp hearlier with rfl | hmem
          · omega
          · exact absurd hlt (hfirst earlier hmem).not_gt
      · rcases hgap later (List.mem_cons_of_mem _ hlater) with hnear | ⟨earlier, hmem, hlt, hnear⟩
        · exact .inl (by omega)
        · rcases List.mem_cons.mp hmem with rfl | hmem
          · exact .inl hnear
          · exact .inr ⟨earlier, hmem, hlt, hnear⟩

section Gaps

variable [Add T] (secondsToTick : T → ℤ) (d : T)

def keyTicks (key : ℤ) (notes : List (MidiNote T)) : List ℤ :=
  (notes.filter fun note => noteKeyProgram note = key).flatMap fun note =>
    [secondsToTick note.onsetSeconds, secondsToTick (endSeconds d note)]

/-- An event comes less than `2 ^ 28` ticks after the one before it in its track. -/
def NoLongGap (notes : List (MidiNote T)) : Prop :=
  ∀ key, ∀ tick ∈ keyTicks secondsToTick d key notes, tick < 2 ^ 28 ∨
    ∃ earlier ∈ keyTicks secondsToTick d key notes, earlier < tick ∧ tick < earlier + 2 ^ 28

end Gaps

section Writing

variable [LinearOrder T] [Add T] {secondsToTick : T → ℤ} {d : T} {notes : List (MidiNote T)}
  {events : List (NoteEvent T)}

section

variable (h : Sequence d notes events)
include h

theorem Sequence.keyEvents_perm (key : ℤ) :
    (keyEvents key events).Perm
      ((notes.filter fun note => noteKeyProgram note = key).flatMap (eventsOf d)) := by
  have hkey : ∀ note : MidiNote T, ∀ event ∈ eventsOf d note,
      decide (eventKeyProgram event = key) = decide (noteKeyProgram note = key) := by
    intro note
    exact List.forall_mem_cons.mpr ⟨rfl, List.forall_mem_singleton.mpr rfl⟩
  have hperm := h.perm.filter fun event => eventKeyProgram event = key
  rwa [filter_flatMap_of_forall hkey] at hperm

theorem Sequence.mem_keyTicks {key tick : ℤ} :
    tick ∈ keyTicks secondsToTick d key notes ↔
      ∃ event ∈ keyEvents key events, secondsToTick event.timeSeconds = tick := by
  have hperm := (h.keyEvents_perm key).map fun event => secondsToTick event.timeSeconds
  rw [List.map_flatMap] at hperm
  rw [← List.mem_map, hperm.mem_iff]
  rfl

theorem Sequence.steps (hmono : Monotone secondsToTick)
    (hticks : ∀ event ∈ events, 0 ≤ secondsToTick event.timeSeconds)
    (hgap : NoLongGap secondsToTick d notes) (key : ℤ) :
    Steps secondsToTick 0 (keyEvents key events) := by
  refine steps_of_forall ((h.sorted.filter _).imp fun hle => hmono hle)
    (fun event hevent => hticks event (List.mem_filter.mp hevent).1) fun event hevent => ?_
  rcases hgap key _ (h.mem_keyTicks.mpr ⟨event, hevent, rfl⟩) with
    hlt | ⟨tick, htick, hlt, hnear⟩
  · exact .inl (by omega)
  · obtain ⟨earlier, hearlier, rfl⟩ := h.mem_keyTicks.mp htick
    exact .inr ⟨earlier, hearlier, hlt, hnear⟩

theorem Sequence.length_eq : events.length = 2 * notes.length := by
  rw [h.perm.length_eq]
  clear h
  induction notes with
  | nil => rfl
  | cons note rest ih =>
      rw [List.flatMap_cons, List.length_append, ih, List.length_cons, eventsOf, List.length_cons,
        List.length_singleton]
      omega

end

omit [LinearOrder T] [Add T] in
theorem length_nameOf {event : NoteEvent T}
    (hkey : 0 ≤ eventKeyProgram event ∧ eventKeyProgram event ≤ kDrumProgram)
    (hname : event.trackName.length < 2 ^ 28) : (nameOf event).length < 2 ^ 28 := by
  have hshort : ∀ program < 129, (bytes "program " ++ intText (program : ℕ)).length ≤ 16 := by
    decide +kernel
  have hnumber := hshort (eventKeyProgram event).toNat (by unfold kDrumProgram at hkey; omega)
  rw [Int.toNat_of_nonneg hkey.1] at hnumber
  unfold nameOf
  split_ifs
  · exact hname
  · decide
  · omega

end Writing

/-! ## The notes of a track -/

def soundingNote [Add T] (secondsToTick : T → ℤ) (d : T) (note : MidiNote T) : SoundingNote :=
  ⟨note.isDrum, noteKeyProgram note, note.pitch, secondsToTick note.onsetSeconds,
    secondsToTick (endSeconds d note)⟩

section Reading

variable {secondsToTick : T → ℤ} {velocity : ℤ} {events : List (NoteEvent T)} {track : Track}
  {out : ParsedTrack}

theorem edge_parsedEvent {tick channel : ℤ} {event : NoteEvent T}
    (h : Fits velocity channel event) :
    (parsedEvent velocity tick channel event).edge = ⟨decide (0 < event.velocity), tick.toNat⟩ ∧
      (parsedEvent velocity tick channel event).status % 16 = channel.toNat := by
  obtain ⟨⟨hvelocity, -⟩, ⟨hchannel, hchannel'⟩, -⟩ := h
  unfold ParsedEvent.edge parsedEvent
  split_ifs with hstarts
  · have hstatus : (0x90 + channel).toNat / 16 = 9 := by omega
    have hvalue : velocity.toNat ≠ 0 := by omega
    exact ⟨by simp [hstatus, hvalue, hstarts], by dsimp only; omega⟩
  · have hstatus : (0x80 + channel).toNat / 16 ≠ 9 := by omega
    exact ⟨by simp [hstatus, hstarts], by dsimp only; omega⟩

theorem Track.Reads.pitchEdges_eq (h : track.Reads secondsToTick velocity events out)
    (hfits : ∀ event ∈ events, Fits velocity track.channel event) (pitch : ℕ) :
    pitchEdges out track.channel.toNat pitch =
      ((pitchEvents track.key pitch events).map noteEdge).map
        (Edge.map fun seconds => (secondsToTick seconds).toNat) := by
  unfold pitchEdges pitchEvents
  rw [h.events, List.filter_map, List.map_map, List.map_map]
  have hmem : ∀ event ∈ keyEvents track.key events, Fits velocity track.channel event :=
    fun event hevent => hfits event (List.mem_filter.mp hevent).1
  have hfilter : (keyEvents track.key events).filter ((fun event : ParsedEvent =>
      decide (event.status % 16 = track.channel.toNat ∧ event.a = pitch)) ∘ fun event =>
        parsedEvent velocity (secondsToTick event.timeSeconds) track.channel event) =
      (keyEvents track.key events).filter fun event => event.pitch = (pitch : ℤ) := by
    refine List.filter_congr fun event hevent => ?_
    have hpitch := (hmem event hevent).pitch
    rw [Function.comp_apply, (edge_parsedEvent (hmem event hevent)).2, decide_eq_decide]
    simp only [parsedEvent, true_and]
    omega
  rw [hfilter]
  refine List.map_congr_left fun event hevent => ?_
  exact (edge_parsedEvent (hmem event (List.mem_filter.mp hevent).1)).1

end Reading

section Notes

variable [LinearOrder T] [Add T] [Sub T]
  {sort : (MidiNote T → MidiNote T → Bool) → List (MidiNote T) → List (MidiNote T)}
  {secondsToTick : T → ℤ} {velocity : ℤ} {d : T} {notes : List (MidiNote T)}
  {events : List (NoteEvent T)} {track : Track} {out : ParsedTrack}

section

variable (h : track.Reads secondsToTick velocity events out)
  (hfits : ∀ event ∈ events, Fits velocity track.channel event) (hchannel : 0 ≤ track.channel)
  (hnine : track.channel = 9 ↔ track.key = kDrumProgram)
  (hsequence : Sequence d (cleanMidiNotes d sort notes) events)
  (hvalid : Valid secondsToTick d notes) (hsort : Sorts sort) (hmono : Monotone secondsToTick)
  (hlater : Monotone fun seconds : T => seconds + d)
include h hfits hchannel hnine hsequence hvalid hsort hmono hlater

theorem Track.Reads.heardNotes_perm (pitch : ℕ) :
    ((matched [] (pitchEdges out track.channel.toNat pitch)).map
        (heardNote out track.channel.toNat pitch)).Perm
      ((pitchNotes track.key pitch (cleanMidiNotes d sort notes)).map
        (soundingNote secondsToTick d)) := by
  have hperm := hsequence.matched_perm hvalid hsort hlater track.key pitch
  have hmap := matched_map (fun seconds => (secondsToTick seconds).toNat) []
    ((pitchEvents track.key pitch events).map noteEdge)
  rw [List.map_nil] at hmap
  rw [h.pitchEdges_eq hfits pitch, hmap]
  refine ((hperm.map _).map _).trans (.of_eq ?_)
  rw [List.map_map, List.map_map]
  refine List.map_congr_left fun note hnote => ?_
  obtain ⟨hmem, hpitch⟩ := List.mem_filter.mp hnote
  obtain ⟨hclean, hkey⟩ := List.mem_filter.mp hmem
  have hpitch := of_decide_eq_true hpitch
  have hkey := of_decide_eq_true hkey
  obtain ⟨honset, hend⟩ := hvalid.tick_nonneg hsort hmono hclean
  have hdrum : track.channel.toNat = 9 ↔ note.isDrum = true := by
    rw [← hvalid.key_eq_drum hsort hclean, hkey, ← hnine]
    omega
  have hprogram : (if track.channel.toNat = 9 then kDrumProgram
      else ((out.program.getD 0 : ℕ) : ℤ)) = noteKeyProgram note := by
    have hbounds := hvalid.clean_key hsort hclean
    rw [hkey] at hbounds ⊢
    rw [h.program, Option.getD_some]
    by_cases hkeyDrum : track.key = kDrumProgram
    · rw [if_pos (by have := hnine.mpr hkeyDrum; omega), hkeyDrum]
    · have hother : track.channel.toNat ≠ 9 := fun heq => hkeyDrum (hnine.mp (by omega))
      rw [if_neg hother, if_neg hkeyDrum, Int.toNat_of_nonneg hbounds.1]
  simp only [Function.comp_apply, heardNote, interval, Prod.map, soundingNote,
    Int.toNat_of_nonneg honset, Int.toNat_of_nonneg hend, hprogram, hpitch]
  rw [SoundingNote.mk.injEq]
  exact ⟨by rw [Bool.eq_iff_iff, decide_eq_true_iff, hdrum], rfl, rfl, rfl, rfl⟩

theorem Track.Reads.trackNotes_perm :
    (trackNotes out).Perm
      (((cleanMidiNotes d sort notes).filter fun note => noteKeyProgram note = track.key).map
        (soundingNote secondsToTick d)) := by
  have hpitches : ((List.range 128).map (Nat.cast : ℕ → ℤ)).Nodup :=
    List.nodup_range.map Nat.cast_injective
  have hmem : ∀ note ∈ (cleanMidiNotes d sort notes).filter fun note =>
      noteKeyProgram note = track.key,
      note.pitch ∈ (List.range 128).map (Nat.cast : ℕ → ℤ) := by
    intro note hnote
    obtain ⟨hlow, hhigh⟩ := hvalid.clean_pitch hsort (List.mem_filter.mp hnote).1
    exact List.mem_map.mpr ⟨note.pitch.toNat, List.mem_range.mpr (by omega), by omega⟩
  have hpartition := flatMap_filter_perm MidiNote.pitch hpitches hmem
  rw [trackNotes, h.channel]
  refine (List.Perm.flatMap_left _ fun pitch _ => h.heardNotes_perm hfits hchannel hnine hsequence
    hvalid hsort hmono hlater pitch).trans ?_
  rw [List.flatMap_map] at hpartition
  rw [← List.map_flatMap]
  exact hpartition.map _

end

end Notes

/-! ## The file -/

def trackChannels (tracks : List ParsedTrack) : List ℕ := tracks.filterMap ParsedTrack.channel

def melodicChannels (tracks : List ParsedTrack) : List ℕ :=
  (trackChannels tracks).filter fun channel => channel ≠ 9

def melodicPrograms (notes : List (MidiNote T)) : List ℤ :=
  (notes.filter fun note => !note.isDrum).map MidiNote.program

theorem trackChannels_read {secondsToTick : T → ℤ} {velocity : ℤ} {events : List (NoteEvent T)}
    {tracks : List Track} {parsed : List ParsedTrack}
    (h : List.Forall₂ (Track.Reads secondsToTick velocity events) tracks parsed) :
    trackChannels parsed = (tracks.map Track.channel).map Int.toNat := by
  induction h with
  | nil => rfl
  | cons hfirst _ ih =>
      rw [trackChannels, List.filterMap_cons_some hfirst.channel, ← trackChannels, ih]
      rfl

section File

variable [LinearOrder T] [Add T] [Sub T]
  {sort : (MidiNote T → MidiNote T → Bool) → List (MidiNote T) → List (MidiNote T)}
  {secondsToTick : T → ℤ} {velocity : ℤ} {d : T} {notes : List (MidiNote T)}
  {events : List (NoteEvent T)} {state : Tracks} {parsed : List ParsedTrack}

omit [LinearOrder T] [Add T] [Sub T] in
theorem Written.melodicChannels_read (h : Written secondsToTick velocity events events state)
    (hread : List.Forall₂ (Track.Reads secondsToTick velocity events) state.tracks parsed) :
    melodicChannels parsed = (List.range (melodicTracks state.tracks).length).map fun place =>
      (channelAt place).toNat := by
  have hfilter : (state.tracks.filter fun track => track.channel.toNat ≠ 9) =
      melodicTracks state.tracks := by
    refine List.filter_congr fun track htrack => ?_
    have hnine := h.channel_eq_nine htrack
    have hbounds := h.channel_bounds htrack
    rw [decide_eq_decide, Ne, Ne, ← hnine]
    omega
  rw [melodicChannels, trackChannels_read hread, List.filter_map, List.filter_map]
  refine (congrArg (fun tracks => (tracks.map Track.channel).map Int.toNat) hfilter).trans ?_
  rw [h.channels, List.map_map]
  rfl

theorem Sequence.soundingNotes_perm (hsequence : Sequence d (cleanMidiNotes d sort notes) events)
    (hvalid : Valid secondsToTick d notes) (hsort : Sorts sort) (hmono : Monotone secondsToTick)
    (hlater : Monotone fun seconds : T => seconds + d)
    (hwritable : Writable secondsToTick velocity events)
    (h : Written secondsToTick velocity events events state)
    (hread : List.Forall₂ (Track.Reads secondsToTick velocity events) state.tracks parsed) :
    (soundingNotes parsed).Perm
      ((cleanMidiNotes d sort notes).map (soundingNote secondsToTick d)) := by
  have hkeys : ∀ note ∈ cleanMidiNotes d sort notes,
      noteKeyProgram note ∈ state.tracks.map Track.key := by
    intro note hnote
    refine h.opened (onEvent note) (hsequence.perm.mem_iff.mpr ?_)
    exact List.mem_flatMap.mpr ⟨note, hnote, List.mem_cons_self⟩
  have hpartition := (flatMap_filter_perm noteKeyProgram h.keys hkeys).map
    (soundingNote secondsToTick d)
  rw [List.flatMap_map, List.map_flatMap] at hpartition
  refine List.Perm.trans ?_ hpartition
  have hchannels : ∀ track ∈ state.tracks, 0 ≤ track.channel ∧
      (track.channel = 9 ↔ track.key = kDrumProgram) ∧
        ∀ event ∈ events, Fits velocity track.channel event := fun track htrack =>
    ⟨(h.channel_bounds htrack).1, h.channel_eq_nine htrack, fun event hevent =>
      ⟨hwritable.velocity, h.channel_bounds htrack, hwritable.pitch event hevent⟩⟩
  clear hpartition hkeys
  unfold soundingNotes
  generalize state.tracks = tracks at hread hchannels
  induction hread with
  | nil => exact List.Perm.nil
  | cons hfirst hrest ih =>
      obtain ⟨⟨hchannel, hnine, hfits⟩, hothers⟩ := List.forall_mem_cons.mp hchannels
      exact (hfirst.trackNotes_perm hfits hchannel hnine hsequence hvalid hsort hmono hlater).append
        (ih hothers)

omit [LinearOrder T] [Add T] [Sub T] in
theorem Written.trackChannels_nodup (h : Written secondsToTick velocity events events state)
    (hread : List.Forall₂ (Track.Reads secondsToTick velocity events) state.tracks parsed)
    {programs : List ℤ} (hlength : programs.length ≤ 15)
    (hprograms : ∀ event ∈ events, eventKeyProgram event ≠ kDrumProgram →
      eventKeyProgram event ∈ programs) : (trackChannels parsed).Nodup := by
  have hkeys : ((melodicTracks state.tracks).map Track.key).Nodup :=
    h.keys.sublist (List.filter_sublist.map _)
  have hsubset : (melodicTracks state.tracks).map Track.key ⊆ programs := by
    intro key hkey
    obtain ⟨track, htrack, rfl⟩ := List.mem_map.mp hkey
    obtain ⟨htrack, hmelodic⟩ := List.mem_filter.mp htrack
    obtain ⟨first, hfirst, heq, -⟩ := h.tracks track htrack
    rw [heq] at hmelodic ⊢
    exact hprograms first hfirst (of_decide_eq_true hmelodic)
  have hcount := (List.subperm_of_subset hkeys hsubset).length_le
  rw [List.length_map] at hcount
  rw [trackChannels_read hread]
  refine List.Nodup.map_on (fun a ha b hb heq => ?_) (h.channels_nodup (hcount.trans hlength))
  obtain ⟨track, htrack, rfl⟩ := List.mem_map.mp ha
  obtain ⟨other, hother, rfl⟩ := List.mem_map.mp hb
  have hlow := (h.channel_bounds htrack).1
  have hlow' := (h.channel_bounds hother).1
  omega

end File

section Result

variable [LinearOrder T] [Add T] [Sub T]
  {sort : (MidiNote T → MidiNote T → Bool) → List (MidiNote T) → List (MidiNote T)}
  {sortEvents : (NoteEvent T → NoteEvent T → Bool) → List (NoteEvent T) → List (NoteEvent T)}
  {secondsToTick : T → ℤ} {d : T} {options : MidiFileOptions} {notes : List (MidiNote T)}
  {events : List (NoteEvent T)}

/-- Options and clean notes that the fields of a file have room for. -/
structure Encodable (secondsToTick : T → ℤ) (d : T) (options : MidiFileOptions)
    (clean : List (MidiNote T)) : Prop where
  ticksPerBeat : 1 ≤ options.ticksPerBeat ∧ options.ticksPerBeat < 2 ^ 15
  tempo : 1 ≤ options.tempoUsPerBeat ∧ options.tempoUsPerBeat ≤ 0x00FFFFFF
  velocity : 1 ≤ options.velocity ∧ options.velocity ≤ 127
  names : ∀ note ∈ clean, note.trackName.length < 2 ^ 28
  count : clean.length ≤ 2 ^ 28
  gaps : NoLongGap secondsToTick d clean

theorem Sequence.tick_nonneg (h : Sequence d (cleanMidiNotes d sort notes) events)
    (hvalid : Valid secondsToTick d notes) (hsort : Sorts sort) (hmono : Monotone secondsToTick)
    {event : NoteEvent T} (hevent : event ∈ events) : 0 ≤ secondsToTick event.timeSeconds := by
  obtain ⟨note, hnote, rfl | rfl⟩ := h.exists_note hevent
  · exact (hvalid.tick_nonneg hsort hmono hnote).1
  · exact (hvalid.tick_nonneg hsort hmono hnote).2

theorem Encodable.writable (h : Encodable secondsToTick d options (cleanMidiNotes d sort notes))
    (hsequence : Sequence d (cleanMidiNotes d sort notes) events)
    (hvalid : Valid secondsToTick d notes) (hsort : Sorts sort) (hmono : Monotone secondsToTick) :
    Writable secondsToTick options.velocity events := by
  have hprogram : ∀ event ∈ events,
      0 ≤ eventKeyProgram event ∧ eventKeyProgram event ≤ kDrumProgram := by
    intro event hevent
    obtain ⟨note, hnote, rfl | rfl⟩ := hsequence.exists_note hevent
    · exact hvalid.clean_key hsort hnote
    · exact hvalid.clean_key hsort hnote
  refine ⟨h.velocity, ?_, fun event hevent => ?_, hprogram, fun event hevent => ?_,
    fun event _ => hsequence.steps hmono
      (fun _ hmem => hsequence.tick_nonneg hvalid hsort hmono hmem) h.gaps _⟩
  · have hcount := h.count
    rw [hsequence.length_eq]
    omega
  · obtain ⟨note, hnote, rfl | rfl⟩ := hsequence.exists_note hevent
    · exact hvalid.clean_pitch hsort hnote
    · exact hvalid.clean_pitch hsort hnote
  · refine length_nameOf (hprogram event hevent) ?_
    obtain ⟨note, hnote, rfl | rfl⟩ := hsequence.exists_note hevent
    · exact h.names note hnote
    · exact h.names note hnote

/-- What is found in a written file. -/
structure Decoded (secondsToTick : T → ℤ) (d : T) (clean : List (MidiNote T))
    (tracks : List ParsedTrack) : Prop where
  notes : (soundingNotes tracks).Perm (clean.map (soundingNote secondsToTick d))
  channels : melodicChannels tracks =
    (List.range (melodicChannels tracks).length).map fun place => (channelAt place).toNat
  distinct : (melodicPrograms clean).dedup.length ≤ 15 → (trackChannels tracks).Nodup

theorem Sequence.decoded (hsequence : Sequence d (cleanMidiNotes d sort notes) events)
    (hvalid : Valid secondsToTick d notes) (hsort : Sorts sort) (hmono : Monotone secondsToTick)
    (hlater : Monotone fun seconds : T => seconds + d) {velocity : ℤ} {state : Tracks}
    {parsed : List ParsedTrack} (hwritable : Writable secondsToTick velocity events)
    (h : Written secondsToTick velocity events events state)
    (hread : List.Forall₂ (Track.Reads secondsToTick velocity events) state.tracks parsed) :
    Decoded secondsToTick d (cleanMidiNotes d sort notes) parsed := by
  refine ⟨hsequence.soundingNotes_perm hvalid hsort hmono hlater hwritable h hread, ?_, ?_⟩
  · have hchannels := h.melodicChannels_read hread
    have hlength := congrArg List.length hchannels
    rw [List.length_map, List.length_range] at hlength
    rw [hlength]
    exact hchannels
  · intro hcount
    refine h.trackChannels_nodup hread hcount fun event hevent hmelodic => ?_
    have hprogram : ∀ note ∈ cleanMidiNotes d sort notes, noteKeyProgram note ≠ kDrumProgram →
        noteKeyProgram note ∈ (melodicPrograms (cleanMidiNotes d sort notes)).dedup := by
      intro note hnote hne
      have hdrum : note.isDrum = false := by
        rw [← Bool.not_eq_true, ← hvalid.key_eq_drum hsort hnote]
        exact hne
      refine List.mem_dedup.mpr (List.mem_map.mpr ⟨note, List.mem_filter.mpr ⟨hnote, ?_⟩, ?_⟩)
      · rw [hdrum]
        rfl
      · rw [noteKeyProgram, hdrum]
        rfl
    obtain ⟨note, hnote, rfl | rfl⟩ := hsequence.exists_note hevent
    · exact hprogram note hnote hmelodic
    · exact hprogram note hnote hmelodic

variable (options) in
/-- Every clean note is heard in the file, a drum for the least duration. -/
theorem writeStandardMidiFile_decoded [Mul T] [Div T] [IntCast T] (llround : T → ℤ)
    (hsort : Sorts sort) (hevents : Sorts sortEvents)
    (hmono : Monotone (MidiFile.secondsToTick llround options))
    (hlater : Monotone fun seconds : T => seconds + d)
    (hvalid : Valid (MidiFile.secondsToTick llround options) d notes)
    (h : Encodable (MidiFile.secondsToTick llround options) d options
      (cleanMidiNotes d sort notes)) :
    ∃ file tracks, writeStandardMidiFile llround d sort sortEvents notes options = .ok file ∧
      parseMidi file = some (options.ticksPerBeat.toNat, tracks) ∧
      Decoded (MidiFile.secondsToTick llround options) d (cleanMidiNotes d sort notes) tracks := by
  obtain ⟨events, hmake, hsequence⟩ := hvalid.noteEventsFromNotes_ok hsort hevents
  have hwritable := h.writable hsequence hvalid hsort hmono
  obtain ⟨state, hwrite, hwritten⟩ := writeTracks_ok options.velocity
    (fun _ hevent => hsequence.tick_nonneg hvalid hsort hmono hevent)
    (hsequence.sorted.imp fun hle => hmono hle)
  obtain ⟨parsed, hread⟩ := hwritten.reads hwritable
  have hlength := hwritten.length_tracks hwritable
  have hparse := parseMidi_fileBytes options (by have := h.ticksPerBeat; omega)
    h.ticksPerBeat.2 (by omega) (hread.imp fun _ _ hone => hone.chunk)
  have hvelocity : requireU7 options.velocity (bytes "MIDI velocity") = .ok () := by
    have hbounds := h.velocity
    exact if_neg (by omega)
  obtain ⟨hnotes, hchannels, hdistinct⟩ :=
    hsequence.decoded hvalid hsort hmono hlater hwritable hwritten hread
  refine ⟨_, _, ?_, hparse, hnotes, hchannels, hdistinct⟩
  have hticks := h.ticksPerBeat
  have htempo := h.tempo
  rw [writeStandardMidiFile, if_neg (by omega), if_neg (by omega), hvelocity]
  simp only [bind, Except.bind]
  rw [hmake]
  simp only
  rw [hwrite]
  rfl

end Result

/-! ## Exact numbers -/

def llroundExact (value : ℚ) : ℤ := if value < 0 then -⌊-value + 1 / 2⌋ else ⌊value + 1 / 2⌋

theorem monotone_llroundExact : Monotone llroundExact := by
  intro a b hab
  unfold llroundExact
  split_ifs with ha hb hb
  · exact neg_le_neg (Int.floor_mono (by linarith))
  · have hlow : 0 ≤ ⌊-a + 1 / 2⌋ := Int.floor_nonneg.mpr (by linarith)
    have hhigh : 0 ≤ ⌊b + 1 / 2⌋ := Int.floor_nonneg.mpr (by linarith)
    omega
  · exact absurd (hab.trans_lt hb) ha
  · exact Int.floor_mono (by linarith)

theorem monotone_secondsToTick {options : MidiFileOptions} (hticks : 0 ≤ options.ticksPerBeat)
    (htempo : 0 ≤ options.tempoUsPerBeat) : Monotone (secondsToTick llroundExact options) := by
  intro a b hab
  have hticks : (0 : ℚ) ≤ (options.ticksPerBeat : ℤ) := by exact_mod_cast hticks
  have htempo : (0 : ℚ) ≤ (options.tempoUsPerBeat : ℤ) := by exact_mod_cast htempo
  refine monotone_llroundExact (div_le_div_of_nonneg_right ?_ htempo)
  exact mul_le_mul_of_nonneg_right (mul_le_mul_of_nonneg_right hab hticks) (by norm_num)

theorem noLongGap_of_lt [Add T] {secondsToTick : T → ℤ} {d : T} {notes : List (MidiNote T)}
    (h : ∀ note ∈ notes, secondsToTick note.onsetSeconds < 2 ^ 28 ∧
      secondsToTick (endSeconds d note) < 2 ^ 28) : NoLongGap secondsToTick d notes := by
  intro key tick htick
  obtain ⟨note, hnote, hmem⟩ := List.mem_flatMap.mp htick
  obtain ⟨honset, hend⟩ := h note (List.mem_filter.mp hnote).1
  rcases List.mem_pair.mp hmem with rfl | rfl
  · exact .inl honset
  · exact .inl hend

/-- A piano note that is cut off by the next one, and a drum. -/
def pianoAndDrum : List (MidiNote ℚ) :=
  [⟨false, 0, 0, 1, 60, bytes "acoustic piano"⟩, ⟨false, 0, 1 / 2, 1, 60, bytes "acoustic piano"⟩,
    ⟨true, 128, 1 / 4, 1 / 4, 36, bytes "drums"⟩]

theorem valid_pianoAndDrum :
    Valid (secondsToTick llroundExact {}) kMinimumNoteDurationSeconds pianoAndDrum where
  pitch := by decide
  program := by decide
  onset := by decide +kernel
  drum := by decide +kernel

theorem encodable_pianoAndDrum :
    Encodable (secondsToTick llroundExact {}) kMinimumNoteDurationSeconds {}
      (cleanMidiNotes kMinimumNoteDurationSeconds insertionSorted pianoAndDrum) where
  ticksPerBeat := by decide
  tempo := by decide
  velocity := by decide
  names := by decide +kernel
  count := by decide +kernel
  gaps := noLongGap_of_lt (by decide +kernel)

theorem writeStandardMidiFile_decoded_pianoAndDrum :
    ∃ file tracks, writeStandardMidiFile llroundExact kMinimumNoteDurationSeconds insertionSorted
        insertionSorted pianoAndDrum {} = .ok file ∧
      parseMidi file = some (480, tracks) ∧
      Decoded (secondsToTick llroundExact {}) kMinimumNoteDurationSeconds
        (cleanMidiNotes kMinimumNoteDurationSeconds insertionSorted pianoAndDrum) tracks :=
  writeStandardMidiFile_decoded {} llroundExact sorts_insertionSorted
    sorts_insertionSorted (monotone_secondsToTick (by decide) (by decide))
    (fun _ _ hab => add_le_add_left hab _) valid_pianoAndDrum encodable_pianoAndDrum

/-- Two drums of which the second begins before the first one ends. -/
def closeDrums : List (MidiNote ℚ) :=
  [⟨true, 128, 0, 0, 36, []⟩, ⟨true, 128, 1 / 200, 0, 36, []⟩]

def sixteenPrograms : List (MidiNote ℚ) :=
  (List.range 16).map fun program => ⟨false, program, 0, 1, 60, []⟩

/-- A drum sounds beyond the end of its clean note, and a sixteenth program shares a channel. -/
theorem writeStandardMidiFile_not_decoded :
    (∃ file ∈ (writeStandardMidiFile llroundExact kMinimumNoteDurationSeconds insertionSorted
        insertionSorted closeDrums {}).toOption.bind parseMidi,
      ¬(soundingNotes file.2).Perm
        ((cleanMidiNotes kMinimumNoteDurationSeconds insertionSorted closeDrums).map fun note =>
          ⟨note.isDrum, noteKeyProgram note, note.pitch,
            secondsToTick llroundExact {} note.onsetSeconds,
            secondsToTick llroundExact {} note.offsetSeconds⟩)) ∧
      ∃ file ∈ (writeStandardMidiFile llroundExact kMinimumNoteDurationSeconds insertionSorted
          insertionSorted sixteenPrograms {}).toOption.bind parseMidi,
        ¬(trackChannels file.2).Nodup := by
  decide +kernel

end FastTts.MidiFile
