import FastTts.MidiTracks
import Mathlib.Data.Int.ConditionallyCompleteOrder

/-!
# The events of the clean notes

The notes of one pitch and program sound one after the other, and a drum ends as late as the drums
before it. So each end in the sorted events belongs to the earliest note that sounds.
-/

namespace FastTts.MidiFile

open FifoMatching JsonText MidiNotes StdSort

variable {T : Type}

def eventsOf [Add T] (d : T) (note : MidiNote T) : List (NoteEvent T) :=
  [onEvent note, offEvent d note]

theorem filter_flatMap_of_forall {α β : Type*} {make : α → List β} {p : β → Bool} {q : α → Bool}
    (h : ∀ a, ∀ b ∈ make a, p b = q a) (items : List α) :
    (items.flatMap make).filter p = (items.filter q).flatMap make := by
  induction items with
  | nil => rfl
  | cons a rest ih =>
      rw [List.flatMap_cons, List.filter_append, ih, List.filter_cons]
      cases hq : q a
      · rw [List.filter_eq_nil_iff.mpr fun b hb => by simp [h a b hb, hq]]
        rfl
      · rw [List.filter_eq_self.mpr fun b hb => by rw [h a b hb, hq]]
        rfl

/-! ## The clean notes -/

section Clean

variable [LinearOrder T] [Add T] [Sub T]
  {sort : (MidiNote T → MidiNote T → Bool) → List (MidiNote T) → List (MidiNote T)}

variable {note : MidiNote T}

theorem exists_original (hsort : Sorts sort) {d : T} {notes : List (MidiNote T)}
    (h : note ∈ cleanMidiNotes d sort notes) : ∃ original ∈ notes,
      note.isDrum = original.isDrum ∧ noteKeyProgram note = noteKeyProgram original ∧
        note.pitch = original.pitch ∧ note.onsetSeconds = original.onsetSeconds ∧
          note.trackName = original.trackName := by
  obtain ⟨long, hlong, offset, rfl⟩ := mem_cleanChannel hsort
    ((mem_cleanMidiNotes d notes hsort).mp h)
  obtain ⟨original, horiginal, rfl⟩ := List.mem_map.mp (List.mem_filter.mp hlong).1
  have hkey : channelKey (lengthened d original) = channelKey original :=
    lengthened_channelKey d original
  have hname : (lengthened d original).trackName = original.trackName := by
    unfold lengthened MidiNote.endsAt
    split_ifs <;> rfl
  have hfields : noteKeyProgram (lengthened d original) = noteKeyProgram original ∧
      (lengthened d original).pitch = original.pitch ∧
        (lengthened d original).isDrum = original.isDrum := by
    simpa [channelKey] using hkey
  exact ⟨original, horiginal, lengthened_isDrum d original, hfields.1, hfields.2.1,
    lengthened_onset d original, hname⟩

/-- Notes with a pitch, a program and a time that a file has room for. -/
structure Valid (secondsToTick : T → ℤ) (d : T) (notes : List (MidiNote T)) : Prop where
  pitch : ∀ note ∈ notes, 0 ≤ note.pitch ∧ note.pitch ≤ 127
  program : ∀ note ∈ notes, note.isDrum = false → 0 ≤ note.program ∧ note.program ≤ 127
  onset : ∀ note ∈ notes, 0 ≤ secondsToTick note.onsetSeconds
  drum : ∀ note ∈ notes, note.isDrum = true → note.onsetSeconds < note.onsetSeconds + d

variable {secondsToTick : T → ℤ} {d : T} {notes : List (MidiNote T)}

section

variable (h : Valid secondsToTick d notes) (hsort : Sorts sort)
  (hnote : note ∈ cleanMidiNotes d sort notes)
include h hsort hnote

theorem Valid.clean_pitch : 0 ≤ note.pitch ∧ note.pitch ≤ 127 := by
  obtain ⟨original, horiginal, -, -, hpitch, -⟩ := exists_original hsort hnote
  rw [hpitch]
  exact h.pitch original horiginal

theorem Valid.clean_program (hmelodic : note.isDrum = false) :
    0 ≤ note.program ∧ note.program ≤ 127 := by
  obtain ⟨original, horiginal, hdrum, hkey, -⟩ := exists_original hsort hnote
  rw [hmelodic] at hdrum
  have hprogram : note.program = original.program := by
    simpa [noteKeyProgram, hmelodic, ← hdrum] using hkey
  rw [hprogram]
  exact h.program original horiginal hdrum.symm

theorem Valid.clean_key : 0 ≤ noteKeyProgram note ∧ noteKeyProgram note ≤ kDrumProgram := by
  unfold noteKeyProgram
  split_ifs with hdrum
  · exact ⟨by decide, le_rfl⟩
  · obtain ⟨hlow, hhigh⟩ := h.clean_program hsort hnote (by simpa using hdrum)
    exact ⟨hlow, hhigh.trans (by decide)⟩

theorem Valid.key_eq_drum : noteKeyProgram note = kDrumProgram ↔ note.isDrum = true := by
  cases hdrum : note.isDrum
  · have hprogram := (h.clean_program hsort hnote hdrum).2
    simp only [noteKeyProgram, hdrum, kDrumProgram, Bool.false_eq_true, if_false, iff_false]
    omega
  · simp [noteKeyProgram, hdrum]

theorem Valid.onset_lt_end : note.onsetSeconds < endSeconds d note := by
  unfold endSeconds
  split_ifs with hdrum
  · obtain ⟨original, horiginal, hsame, -, -, honset, -⟩ := exists_original hsort hnote
    rw [honset]
    exact h.drum original horiginal (hsame ▸ hdrum)
  · exact onset_lt_offset d notes hsort hnote (by simpa using hdrum)

end

theorem Valid.tick_nonneg (h : Valid secondsToTick d notes) (hsort : Sorts sort)
    (hmono : Monotone secondsToTick) (hnote : note ∈ cleanMidiNotes d sort notes) :
    0 ≤ secondsToTick note.onsetSeconds ∧ 0 ≤ secondsToTick (endSeconds d note) := by
  obtain ⟨original, horiginal, -, -, -, honset, -⟩ := exists_original hsort hnote
  have hfirst : 0 ≤ secondsToTick note.onsetSeconds := honset ▸ h.onset original horiginal
  exact ⟨hfirst, hfirst.trans (hmono (h.onset_lt_end hsort hnote).le)⟩

end Clean

/-! ## The sorted events -/

theorem noteEvents_ok [Add T] {d : T} {note : MidiNote T}
    (hpitch : 0 ≤ note.pitch ∧ note.pitch ≤ 127)
    (hprogram : note.isDrum = false → 0 ≤ note.program ∧ note.program ≤ 127) :
    noteEvents d note = .ok (eventsOf d note) := by
  unfold noteEvents requireU7
  rw [if_neg (by omega)]
  cases hdrum : note.isDrum
  · rw [if_pos rfl, if_neg (by have := hprogram hdrum; omega)]
    rfl
  · rfl

theorem time_le_of_eventOrder [LinearOrder T] {a b : NoteEvent T}
    (h : eventOrder a ≤ eventOrder b) : a.timeSeconds ≤ b.timeSeconds := by
  rcases Prod.Lex.le_iff.mp h with hlt | ⟨heq, -⟩
  · exact hlt.le
  · exact heq.le

/-- The events of notes in the order of time. -/
structure Sequence [LinearOrder T] [Add T] (d : T) (notes : List (MidiNote T))
    (events : List (NoteEvent T)) : Prop where
  perm : events.Perm (notes.flatMap (eventsOf d))
  sorted : events.Pairwise fun a b => a.timeSeconds ≤ b.timeSeconds

section Sequences

variable [LinearOrder T] [Add T] [Sub T]
  {sort : (MidiNote T → MidiNote T → Bool) → List (MidiNote T) → List (MidiNote T)}
  {sortEvents : (NoteEvent T → NoteEvent T → Bool) → List (NoteEvent T) → List (NoteEvent T)}
  {secondsToTick : T → ℤ} {d : T} {notes : List (MidiNote T)} {events : List (NoteEvent T)}

theorem Valid.noteEventsFromNotes_ok (h : Valid secondsToTick d notes) (hsort : Sorts sort)
    (hevents : Sorts sortEvents) : ∃ events,
      noteEventsFromNotes d sortEvents (cleanMidiNotes d sort notes) = .ok events ∧
        Sequence d (cleanMidiNotes d sort notes) events := by
  have hmap : (cleanMidiNotes d sort notes).mapM (noteEvents d) =
      .ok ((cleanMidiNotes d sort notes).map (eventsOf d)) :=
    mapM_ok fun note hnote =>
      noteEvents_ok (h.clean_pitch hsort hnote) (h.clean_program hsort hnote)
  refine ⟨_, ?_, hevents.perm_byKey eventOrder _,
    (hevents.pairwise_byKey eventOrder _).imp time_le_of_eventOrder⟩
  rw [noteEventsFromNotes, hmap]
  rfl

omit [Sub T] in
theorem Sequence.exists_note (h : Sequence d notes events) {event : NoteEvent T}
    (hevent : event ∈ events) : ∃ note ∈ notes, event = onEvent note ∨ event = offEvent d note := by
  obtain ⟨note, hnote, hmem⟩ := List.mem_flatMap.mp (h.perm.mem_iff.mp hevent)
  exact ⟨note, hnote, by simpa [eventsOf] using hmem⟩

/-! ## One pitch of a key -/

def noteEdge (event : NoteEvent T) : Edge T := ⟨decide (0 < event.velocity), event.timeSeconds⟩

def interval (d : T) (note : MidiNote T) : T × T := (note.onsetSeconds, endSeconds d note)

def pitchEvents (key pitch : ℤ) (events : List (NoteEvent T)) : List (NoteEvent T) :=
  (keyEvents key events).filter fun event => event.pitch = pitch

def pitchNotes (key pitch : ℤ) (notes : List (MidiNote T)) : List (MidiNote T) :=
  (notes.filter fun note => noteKeyProgram note = key).filter fun note => note.pitch = pitch

omit [Sub T] in
theorem Sequence.pitchEvents_perm (h : Sequence d notes events) (key pitch : ℤ) :
    ((pitchEvents key pitch events).map noteEdge).Perm
      (((pitchNotes key pitch notes).map (interval d)).flatMap edgesOf) := by
  have hkey : ∀ note : MidiNote T, ∀ event ∈ eventsOf d note,
      decide (eventKeyProgram event = key) = decide (noteKeyProgram note = key) := by
    intro note
    exact List.forall_mem_cons.mpr ⟨rfl, List.forall_mem_singleton.mpr rfl⟩
  have hpitch : ∀ note : MidiNote T, ∀ event ∈ eventsOf d note,
      decide (event.pitch = pitch) = decide (note.pitch = pitch) := by
    intro note
    exact List.forall_mem_cons.mpr ⟨rfl, List.forall_mem_singleton.mpr rfl⟩
  have hperm := ((h.perm.filter fun event => eventKeyProgram event = key).filter
    fun event => event.pitch = pitch).map noteEdge
  rw [filter_flatMap_of_forall hkey, filter_flatMap_of_forall hpitch, List.map_flatMap] at hperm
  rw [List.flatMap_map]
  exact hperm

theorem Valid.exists_channel (h : Valid secondsToTick d notes) (hsort : Sorts sort)
    (hlater : Monotone fun seconds : T => seconds + d) (key pitch : ℤ) :
    ∃ channel : List (MidiNote T),
      channel.Perm (pitchNotes key pitch (cleanMidiNotes d sort notes)) ∧
        (channel.map (interval d)).Pairwise fun a b => a.1 ≤ b.1 ∧ a.2 ≤ b.2 := by
  set k : ChannelKey := toLex (key, toLex (pitch, decide (key = kDrumProgram))) with hk
  have hperm := filter_cleanMidiNotes (d := d) notes k hsort
  have hnotes : ((cleanMidiNotes d sort notes).filter fun note => channelKey note = k) =
      pitchNotes key pitch (cleanMidiNotes d sort notes) := by
    unfold pitchNotes
    rw [List.filter_filter]
    refine List.filter_congr fun note hnote => ?_
    have hdrum := h.key_eq_drum hsort hnote
    rw [hk, ← Bool.decide_and, decide_eq_decide]
    simp only [channelKey, toLex_inj, Prod.mk.injEq]
    constructor
    · rintro ⟨rfl, rfl, -⟩
      exact ⟨rfl, rfl⟩
    · rintro ⟨rfl, rfl⟩
      exact ⟨rfl, rfl, by simp [hdrum]⟩
  rw [hnotes] at hperm
  refine ⟨_, hperm.symm, List.pairwise_map.mpr ?_⟩
  have hsorted := hsort.pairwise_byKey MidiNote.onsetSeconds (channelOf d notes k)
  have hmem : ∀ note ∈ cleanChannel sort (channelOf d notes k),
      note ∈ cleanMidiNotes d sort notes ∧ noteKeyProgram note = key := fun note hnote => by
    simpa using List.mem_filter.mp (List.mem_filter.mp (hperm.mem_iff.mpr hnote)).1
  refine ((trimmed_sorted hsorted).and ((cutOverlaps_apart hsorted).filter stays)).imp_of_mem ?_
  rintro a b ha hb ⟨honset, hoffset⟩
  obtain ⟨hclean, hkey⟩ := hmem a ha
  obtain ⟨hclean', hkey'⟩ := hmem b hb
  have hsame : a.isDrum = b.isDrum := by
    rw [Bool.eq_iff_iff, ← h.key_eq_drum hsort hclean, ← h.key_eq_drum hsort hclean', hkey, hkey']
  refine ⟨honset, ?_⟩
  by_cases hdrum : a.isDrum = true
  · rw [interval, interval, endSeconds, endSeconds, if_pos hdrum, if_pos (hsame ▸ hdrum)]
    exact hlater honset
  · have hlast := h.onset_lt_end hsort hclean'
    rw [interval, interval, endSeconds, if_neg hdrum]
    exact hoffset.trans hlast.le

theorem Sequence.matched_perm (h : Sequence d (cleanMidiNotes d sort notes) events)
    (hvalid : Valid secondsToTick d notes) (hsort : Sorts sort)
    (hlater : Monotone fun seconds : T => seconds + d) (key pitch : ℤ) :
    (matched [] ((pitchEvents key pitch events).map noteEdge)).Perm
      ((pitchNotes key pitch (cleanMidiNotes d sort notes)).map (interval d)) := by
  obtain ⟨channel, hchannel, hordered⟩ := hvalid.exists_channel hsort hlater key pitch
  have hintervals := hchannel.map (interval d)
  have hedges := (h.pitchEvents_perm key pitch).trans (hintervals.symm.flatMap_right edgesOf)
  rw [matched_of_perm hedges ?_ hordered ?_]
  · exact hintervals
  · exact List.pairwise_map.mpr ((h.sorted.filter _).filter _)
  · intro pair hpair
    obtain ⟨note, hnote, rfl⟩ := List.mem_map.mp hpair
    have hmem := (List.mem_filter.mp (hchannel.mem_iff.mp hnote)).1
    exact hvalid.onset_lt_end hsort (List.mem_filter.mp hmem).1

end Sequences

end FastTts.MidiFile
