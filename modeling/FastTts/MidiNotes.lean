import FastTts.Bytes
import FastTts.StdMap
import FastTts.StdSort
import Mathlib.Algebra.Order.Field.Basic
import Mathlib.Tactic.Linarith
import Mathlib.Data.List.Pairwise
import Mathlib.Data.List.Perm.Subperm

/-!
# Clean notes

`clean_midi_notes` gives every note a least duration and cuts a note off where the next one of its
pitch and program begins. A note that is empty then is left out, unless it is a drum.
-/

namespace FastTts.MidiNotes

open StdMap StdSort

structure MidiNote (T : Type) where
  isDrum : Bool
  program : ℤ
  onsetSeconds : T
  offsetSeconds : T
  pitch : ℤ
  trackName : Bytes
  deriving DecidableEq, Repr

def kDrumProgram : ℤ := 128

variable {T : Type}

def noteKeyProgram (note : MidiNote T) : ℤ :=
  if note.isDrum then kDrumProgram else note.program

/-- The key of the map of channels: program, pitch and whether it is a drum. -/
abbrev ChannelKey := ℤ ×ₗ ℤ ×ₗ Bool

def channelKey (note : MidiNote T) : ChannelKey :=
  toLex (noteKeyProgram note, toLex (note.pitch, note.isDrum))

def outKey (note : MidiNote T) : T ×ₗ Bool ×ₗ ℤ ×ₗ ℤ ×ₗ T :=
  toLex (note.onsetSeconds, toLex (note.isDrum, toLex (note.program,
    toLex (note.pitch, note.offsetSeconds))))

def MidiNote.endsAt (note : MidiNote T) (offsetSeconds : T) : MidiNote T :=
  { note with offsetSeconds := offsetSeconds }

@[simp] theorem endsAt_isDrum (note : MidiNote T) (offsetSeconds : T) :
    (note.endsAt offsetSeconds).isDrum = note.isDrum := rfl

section Channels

variable [LinearOrder T]

def cutAt (note next : MidiNote T) : MidiNote T :=
  if note.offsetSeconds > next.onsetSeconds then note.endsAt next.onsetSeconds else note

/-- The loop over the notes of a channel. -/
def cutOverlaps : List (MidiNote T) → List (MidiNote T)
  | note :: next :: rest => cutAt note next :: cutOverlaps (next :: rest)
  | notes => notes

def stays (note : MidiNote T) : Bool :=
  note.isDrum || decide (note.onsetSeconds < note.offsetSeconds)

def trimmed (notes : List (MidiNote T)) : List (MidiNote T) := (cutOverlaps notes).filter stays

variable (sort : (MidiNote T → MidiNote T → Bool) → List (MidiNote T) → List (MidiNote T))

def cleanChannel (notes : List (MidiNote T)) : List (MidiNote T) :=
  trimmed (sort (byKey MidiNote.onsetSeconds) notes)

end Channels

section Code

variable [LinearOrder T] [Add T] [Sub T] (kMinimumNoteDurationSeconds : T)

/-- The body of the first loop. -/
def lengthened (note : MidiNote T) : MidiNote T :=
  if note.isDrum then
    { note with
      program := kDrumProgram
      offsetSeconds := note.onsetSeconds + kMinimumNoteDurationSeconds }
  else if note.onsetSeconds > note.offsetSeconds ∨
      note.offsetSeconds - note.onsetSeconds < kMinimumNoteDurationSeconds then
    note.endsAt (note.onsetSeconds + kMinimumNoteDurationSeconds)
  else note

variable (sort : (MidiNote T → MidiNote T → Bool) → List (MidiNote T) → List (MidiNote T))

def cleanMidiNotes (notes : List (MidiNote T)) : List (MidiNote T) :=
  let channels := groupBy channelKey (notes.map (lengthened kMinimumNoteDurationSeconds))
  sort (byKey outKey) (channels.flatMap fun channel => cleanChannel sort channel.2)

end Code

/-! ## The notes of one channel -/

section Trimmed

variable [LinearOrder T]

theorem cutAt_eq (note next : MidiNote T) :
    cutAt note next = note.endsAt (min note.offsetSeconds next.onsetSeconds) := by
  unfold cutAt
  split_ifs with h
  · rw [min_eq_right h.le]
  · rw [min_eq_left (not_lt.mp h)]
    rfl

theorem cutAt_congr (note : MidiNote T) {next next' : MidiNote T}
    (h : next'.onsetSeconds = next.onsetSeconds) : cutAt note next' = cutAt note next := by
  rw [cutAt_eq, cutAt_eq, h]

theorem cutOverlaps_cons_cons (note next : MidiNote T) (rest : List (MidiNote T)) :
    cutOverlaps (note :: next :: rest) = cutAt note next :: cutOverlaps (next :: rest) := rfl

theorem forall_cutOverlaps {P : MidiNote T → Prop}
    (hcut : ∀ note next, P note → P next → note.onsetSeconds ≤ next.onsetSeconds →
      P (cutAt note next)) {notes : List (MidiNote T)}
    (hsorted : notes.Pairwise fun a b => a.onsetSeconds ≤ b.onsetSeconds)
    (h : ∀ note ∈ notes, P note) : ∀ note ∈ cutOverlaps notes, P note := by
  induction notes with
  | nil => simp [cutOverlaps]
  | cons note rest ih =>
    cases rest with
    | nil => exact h
    | cons next rest =>
      obtain ⟨hfirst, hrest⟩ := List.pairwise_cons.mp hsorted
      obtain ⟨hnote, htail⟩ := List.forall_mem_cons.mp h
      exact List.forall_mem_cons.mpr
        ⟨hcut note next hnote (htail next List.mem_cons_self) (hfirst next List.mem_cons_self),
          ih hrest htail⟩

theorem cutOverlaps_apart {notes : List (MidiNote T)}
    (hsorted : notes.Pairwise fun a b => a.onsetSeconds ≤ b.onsetSeconds) :
    (cutOverlaps notes).Pairwise fun a b => a.offsetSeconds ≤ b.onsetSeconds := by
  induction notes with
  | nil => simp [cutOverlaps]
  | cons note rest ih =>
    cases rest with
    | nil => simp [cutOverlaps]
    | cons next rest =>
      obtain ⟨hfirst, hrest⟩ := List.pairwise_cons.mp hsorted
      refine List.pairwise_cons.mpr ⟨?_, ih hrest⟩
      have hnext : ∀ later ∈ next :: rest, next.onsetSeconds ≤ later.onsetSeconds :=
        List.forall_mem_cons.mpr ⟨le_rfl, (List.pairwise_cons.mp hrest).1⟩
      have hlater := forall_cutOverlaps (P := fun later => next.onsetSeconds ≤ later.onsetSeconds)
        (fun _ _ h _ _ => by rwa [cutAt_eq]) hrest hnext
      intro later hmem
      rw [cutAt_eq]
      exact (min_le_right _ _).trans (hlater later hmem)

theorem trimmed_cons_cons (note next : MidiNote T) (rest : List (MidiNote T)) :
    trimmed (note :: next :: rest) = [cutAt note next].filter stays ++ trimmed (next :: rest) := by
  unfold trimmed
  rw [cutOverlaps_cons_cons, ← List.singleton_append, List.filter_append]

end Trimmed

section Lengthened

variable [LinearOrder T] [Add T] [Sub T] {d : T}

theorem lengthened_drum (note : MidiNote T) (h : note.isDrum = true) :
    lengthened d note =
      { note with program := kDrumProgram, offsetSeconds := note.onsetSeconds + d } := by
  unfold lengthened
  rw [if_pos h]

@[simp] theorem lengthened_onset (d : T) (note : MidiNote T) :
    (lengthened d note).onsetSeconds = note.onsetSeconds := by
  unfold lengthened MidiNote.endsAt
  split_ifs <;> rfl

@[simp] theorem lengthened_isDrum (d : T) (note : MidiNote T) :
    (lengthened d note).isDrum = note.isDrum := by
  unfold lengthened MidiNote.endsAt
  split_ifs <;> rfl

@[simp] theorem lengthened_channelKey (d : T) (note : MidiNote T) :
    channelKey (lengthened d note) = channelKey note := by
  unfold lengthened channelKey noteKeyProgram MidiNote.endsAt
  split_ifs <;> simp_all

/-- The note lasts, and is left as it is by the first loop. -/
structure Lasts (d : T) (note : MidiNote T) : Prop where
  long : note.onsetSeconds + d ≤ note.offsetSeconds
  fixed : lengthened d note = note

structure Ready (d : T) (notes : List (MidiNote T)) : Prop where
  sorted : notes.Pairwise fun a b => a.onsetSeconds ≤ b.onsetSeconds
  lasts : ∀ note ∈ notes, Lasts d note

theorem Ready.tail {note : MidiNote T} {rest : List (MidiNote T)} (h : Ready d (note :: rest)) :
    Ready d rest :=
  ⟨(List.pairwise_cons.mp h.sorted).2, fun a ha => h.lasts a (List.mem_cons_of_mem _ ha)⟩

end Lengthened

section Exact

variable [LinearOrder T] [AddCommGroup T] [IsOrderedAddMonoid T] {d : T}

theorem lengthened_pitched (hd : 0 < d) (note : MidiNote T) (h : note.isDrum = false) :
    lengthened d note = note.endsAt (max note.offsetSeconds (note.onsetSeconds + d)) := by
  unfold lengthened
  rw [if_neg (by simp [h])]
  split_ifs with hshort
  · have hle : note.offsetSeconds ≤ note.onsetSeconds + d := by
      rcases hshort with hshort | hshort
      · exact hshort.le.trans (le_add_of_nonneg_right hd.le)
      · rw [add_comm]
        exact (sub_lt_iff_lt_add.mp hshort).le
    rw [max_eq_right hle]
  · rw [not_or, not_lt, not_lt] at hshort
    rw [max_eq_left (by rw [add_comm]; exact le_sub_iff_add_le.mp hshort.2)]
    rfl

theorem lasts_lengthened (hd : 0 < d) (note : MidiNote T) : Lasts d (lengthened d note) := by
  cases h : note.isDrum
  · rw [lengthened_pitched hd note h]
    refine ⟨le_max_right _ _, ?_⟩
    rw [lengthened_pitched hd _ ((endsAt_isDrum note _).trans h)]
    simp [MidiNote.endsAt]
  · rw [lengthened_drum note h]
    exact ⟨le_rfl, lengthened_drum _ h⟩

theorem Lasts.onset_lt (hd : 0 < d) {note : MidiNote T} (h : Lasts d note) :
    note.onsetSeconds < note.offsetSeconds :=
  (lt_add_of_pos_right _ hd).trans_le h.long

theorem cutAt_lengthened (hd : 0 < d) {note : MidiNote T} (h : Lasts d note)
    (next : MidiNote T) : cutAt (lengthened d (cutAt note next)) next = cutAt note next := by
  have hfixed := h.fixed
  rw [cutAt_eq note]
  cases hdrum : note.isDrum
  · rw [lengthened_pitched hd _ ((endsAt_isDrum note _).trans hdrum), cutAt_eq]
    simp only [MidiNote.endsAt]
    rw [max_min_distrib_right, max_eq_left h.long, min_assoc, min_eq_right (le_max_left _ _)]
  · rw [lengthened_drum note hdrum] at hfixed
    rw [lengthened_drum _ ((endsAt_isDrum note _).trans hdrum), cutAt_eq]
    have hprogram := congrArg MidiNote.program hfixed
    have hoffset := congrArg MidiNote.offsetSeconds hfixed
    simp only at hprogram hoffset
    simp only [MidiNote.endsAt, hprogram, hoffset]

variable {rest : List (MidiNote T)}

theorem Ready.stays_cutAt (hd : 0 < d) {note next : MidiNote T}
    (h : Ready d (note :: next :: rest)) :
    stays (cutAt note next) = true ∨ next.onsetSeconds = note.onsetSeconds := by
  have hle := (List.pairwise_cons.mp h.sorted).1 next List.mem_cons_self
  rcases hle.eq_or_lt with heq | hlt
  · exact .inr heq.symm
  · have hlong := (h.lasts note List.mem_cons_self).onset_lt hd
    left
    simp [stays, cutAt_eq, MidiNote.endsAt, hlt, hlong]

theorem Ready.trimmed_cons (hd : 0 < d) {note : MidiNote T} (h : Ready d (note :: rest)) :
    ∃ first others, trimmed (note :: rest) = first :: others ∧
      first.onsetSeconds = note.onsetSeconds := by
  induction rest generalizing note with
  | nil =>
    have hlong := (h.lasts note List.mem_cons_self).onset_lt hd
    exact ⟨note, [], by simp [trimmed, cutOverlaps, stays, hlong], rfl⟩
  | cons next rest ih =>
    rw [trimmed_cons_cons]
    cases hstays : stays (cutAt note next)
    · have hsame := (h.stays_cutAt hd).resolve_left (by simp [hstays])
      obtain ⟨first, others, htrimmed, honset⟩ := ih h.tail
      exact ⟨first, others, by simp [hstays, htrimmed], honset.trans hsame⟩
    · refine ⟨cutAt note next, trimmed (next :: rest), by simp [hstays], ?_⟩
      rw [cutAt_eq]
      rfl

section

variable (hd : 0 < d) {notes : List (MidiNote T)} (h : Ready d notes)
include hd h

theorem Ready.last_mem_trimmed (hne : notes ≠ []) : notes.getLast hne ∈ trimmed notes := by
  induction notes with
  | nil => exact absurd rfl hne
  | cons note rest ih =>
    cases rest with
    | nil =>
      have hlong := (h.lasts note List.mem_cons_self).onset_lt hd
      simp [trimmed, cutOverlaps, stays, hlong]
    | cons next rest =>
      rw [trimmed_cons_cons, List.getLast_cons (by simp)]
      exact List.mem_append_right _ (ih h.tail (by simp))

theorem Ready.sounds :
    ∀ note ∈ trimmed notes, ∃ sounding ∈ trimmed notes, sounding.onsetSeconds = note.onsetSeconds ∧
        sounding.onsetSeconds < sounding.offsetSeconds := by
  induction notes with
  | nil => simp [trimmed, cutOverlaps]
  | cons note rest ih =>
    cases rest with
    | nil =>
      have hlong := (h.lasts note List.mem_cons_self).onset_lt hd
      simp [trimmed, cutOverlaps, stays, hlong]
    | cons next rest =>
      rw [trimmed_cons_cons]
      intro kept hkept
      have hlater : ∀ later ∈ trimmed (next :: rest), ∃ sounding ∈
          [cutAt note next].filter stays ++ trimmed (next :: rest),
          sounding.onsetSeconds = later.onsetSeconds ∧
            sounding.onsetSeconds < sounding.offsetSeconds := by
        intro later hlater
        obtain ⟨sounding, hmem, hsounding⟩ := ih h.tail later hlater
        exact ⟨sounding, List.mem_append_right _ hmem, hsounding⟩
      rcases List.mem_append.mp hkept with hfirst | hrest
      · obtain ⟨hfirst, hstays⟩ := List.mem_filter.mp hfirst
        obtain rfl := List.mem_singleton.mp hfirst
        by_cases hlt : (cutAt note next).onsetSeconds < (cutAt note next).offsetSeconds
        · exact ⟨_, hkept, rfl, hlt⟩
        · have hle := (List.pairwise_cons.mp h.sorted).1 next List.mem_cons_self
          have hlong := (h.lasts note List.mem_cons_self).onset_lt hd
          have hsame : next.onsetSeconds = (cutAt note next).onsetSeconds := by
            rw [cutAt_eq] at hlt ⊢
            simp only [MidiNote.endsAt, lt_min_iff, not_and, not_lt] at hlt ⊢
            exact (hlt hlong).antisymm hle
          obtain ⟨first, others, htrimmed, honset⟩ := h.tail.trimmed_cons hd
          rw [← hsame, ← honset]
          exact hlater first (htrimmed ▸ List.mem_cons_self)
      · exact hlater kept hrest

theorem Ready.trimmed_again : trimmed ((trimmed notes).map (lengthened d)) = trimmed notes := by
  induction notes with
  | nil => rfl
  | cons note rest ih =>
    cases rest with
    | nil =>
      have hlast := h.lasts note List.mem_cons_self
      have hlong := hlast.onset_lt hd
      simp [trimmed, cutOverlaps, stays, hlong, hlast.fixed]
    | cons next rest =>
      have ih := ih h.tail
      obtain ⟨first, others, htrimmed, honset⟩ := h.tail.trimmed_cons hd
      rw [trimmed_cons_cons]
      cases hstays : stays (cutAt note next)
      · simpa [hstays] using ih
      · have hcut : cutAt (lengthened d (cutAt note next)) (lengthened d first) =
            cutAt note next := by
          rw [cutAt_congr _ ((lengthened_onset d first).trans honset)]
          exact cutAt_lengthened hd (h.lasts note List.mem_cons_self) next
        rw [htrimmed] at ih ⊢
        simp only [List.filter_cons, hstays, if_true, List.filter_nil, List.singleton_append,
          List.map_cons] at ih ⊢
        rw [trimmed_cons_cons, hcut, ih]
        simp [hstays]

end

end Exact

/-! ## All channels -/

section Channels

variable [LinearOrder T]
  {sort : (MidiNote T → MidiNote T → Bool) → List (MidiNote T) → List (MidiNote T)}

theorem mem_cutOverlaps {notes : List (MidiNote T)} :
    ∀ kept ∈ cutOverlaps notes, ∃ note ∈ notes, ∃ offset, kept = note.endsAt offset := by
  induction notes with
  | nil => simp [cutOverlaps]
  | cons note rest ih =>
    cases rest with
    | nil => exact fun kept hkept => ⟨kept, hkept, kept.offsetSeconds, rfl⟩
    | cons next rest =>
      refine List.forall_mem_cons.mpr ⟨?_, fun kept hkept => ?_⟩
      · exact ⟨note, List.mem_cons_self, _, cutAt_eq note next⟩
      · obtain ⟨a, ha, offset, rfl⟩ := ih kept hkept
        exact ⟨a, List.mem_cons_of_mem _ ha, offset, rfl⟩

theorem mem_cleanChannel (hsort : Sorts sort) {notes : List (MidiNote T)} {kept : MidiNote T}
    (h : kept ∈ cleanChannel sort notes) : ∃ note ∈ notes, ∃ offset, kept = note.endsAt offset := by
  obtain ⟨note, hnote, offset, rfl⟩ := mem_cutOverlaps kept (List.mem_filter.mp h).1
  exact ⟨note, (hsort.perm_byKey _ _).mem_iff.mp hnote, offset, rfl⟩

theorem cleanChannel_nil (hsort : Sorts sort) : cleanChannel sort [] = [] := by
  unfold cleanChannel
  rw [List.perm_nil.mp (hsort.perm_byKey _ [])]
  rfl

variable [Add T] [Sub T] (d : T) (notes : List (MidiNote T)) (k : ChannelKey)

def channelOf : List (MidiNote T) :=
  (notes.map (lengthened d)).filter fun note => channelKey note = k

theorem channelOf_eq :
    channelOf d notes k = (notes.filter fun note => channelKey note = k).map (lengthened d) := by
  unfold channelOf
  rw [List.filter_map]
  simp only [Function.comp_def, lengthened_channelKey]

theorem filter_cleanMidiNotes (hsort : Sorts sort) :
    ((cleanMidiNotes d sort notes).filter fun note => channelKey note = k).Perm
      (cleanChannel sort (channelOf d notes k)) := by
  have hkept : ∀ channel ∈ groupBy channelKey (notes.map (lengthened d)),
      ∀ kept ∈ cleanChannel sort channel.2, channelKey kept = channel.1 := by
    intro channel hchannel kept hkept
    obtain ⟨note, hnote, offset, rfl⟩ := mem_cleanChannel hsort hkept
    rw [mem_groupBy hchannel] at hnote
    exact of_decide_eq_true (List.mem_filter.mp hnote).2
  have hfilter := filter_flatMap (cleanChannel_nil hsort)
    (pairwise_groupBy channelKey (notes.map (lengthened d))) hkept k
  rw [find?_groupBy] at hfilter
  unfold channelOf
  rw [← hfilter]
  exact (hsort.perm_byKey outKey _).filter _

section

variable (hsort : Sorts sort) {note : MidiNote T}
include hsort

theorem mem_cleanMidiNotes :
    note ∈ cleanMidiNotes d sort notes ↔
      note ∈ cleanChannel sort (channelOf d notes (channelKey note)) := by
  rw [← (filter_cleanMidiNotes d notes _ hsort).mem_iff, List.mem_filter]
  simp

theorem onset_lt_offset (h : note ∈ cleanMidiNotes d sort notes) (hdrum : note.isDrum = false) :
    note.onsetSeconds < note.offsetSeconds := by
  have hkept := (mem_cleanMidiNotes d notes hsort).mp h
  simpa [stays, hdrum] using (List.mem_filter.mp hkept).2

theorem drum_program (h : note ∈ cleanMidiNotes d sort notes) (hdrum : note.isDrum = true) :
    note.program = kDrumProgram := by
  have hkept := (mem_cleanMidiNotes d notes hsort).mp h
  obtain ⟨long, hlong, offset, rfl⟩ := mem_cleanChannel hsort hkept
  obtain ⟨original, -, rfl⟩ := List.mem_map.mp (List.mem_filter.mp hlong).1
  rw [endsAt_isDrum, lengthened_isDrum] at hdrum
  rw [lengthened_drum original hdrum]
  rfl

end

end Channels

section Clean

variable [LinearOrder T]

/-- Notes of one channel of which one is over when the other begins. -/
def Apart (a b : MidiNote T) : Prop :=
  channelKey a = channelKey b →
    a.offsetSeconds ≤ b.onsetSeconds ∨ b.offsetSeconds ≤ a.onsetSeconds

instance symm_apart : Std.Symm (Apart (T := T)) where
  symm _ _ h hchannel := (h hchannel.symm).symm

/-- A drum note that begins together with another one of its channel. -/
def coincides (notes : List (MidiNote T)) (note : MidiNote T) : Bool :=
  note.isDrum && decide (2 ≤ notes.countP fun other =>
    channelKey other = channelKey note ∧ other.onsetSeconds = note.onsetSeconds)

def withoutName (notes : List (MidiNote T)) (note : MidiNote T) : MidiNote T :=
  if coincides notes note then { note with trackName := [] } else note

omit [LinearOrder T] in
theorem outKey_eq {a b : MidiNote T} (h : outKey a = outKey b) :
    channelKey a = channelKey b ∧ a.onsetSeconds = b.onsetSeconds ∧
      { a with trackName := [] } = { b with trackName := [] } := by
  obtain ⟨da, pa, oa, ea, ia, na⟩ := a
  obtain ⟨db, pb, ob, eb, ib, nb⟩ := b
  simp only [outKey, EmbeddingLike.apply_eq_iff_eq, Prod.mk.injEq] at h
  obtain ⟨rfl, rfl, rfl, rfl, rfl⟩ := h
  exact ⟨rfl, rfl, rfl⟩

theorem onset_le_of_outKey {a b : MidiNote T} (h : outKey a ≤ outKey b) :
    a.onsetSeconds ≤ b.onsetSeconds := by
  rcases Prod.Lex.le_iff.mp h with hlt | ⟨heq, -⟩
  · exact hlt.le
  · exact heq.le

section WithoutName

variable (notes : List (MidiNote T)) (note : MidiNote T)

@[simp] theorem withoutName_onset : (withoutName notes note).onsetSeconds = note.onsetSeconds := by
  unfold withoutName
  split_ifs <;> rfl

@[simp] theorem withoutName_offset :
    (withoutName notes note).offsetSeconds = note.offsetSeconds := by
  unfold withoutName
  split_ifs <;> rfl

@[simp] theorem withoutName_isDrum : (withoutName notes note).isDrum = note.isDrum := by
  unfold withoutName
  split_ifs <;> rfl

@[simp] theorem withoutName_outKey : outKey (withoutName notes note) = outKey note := by
  unfold withoutName
  split_ifs <;> rfl

@[simp] theorem withoutName_channelKey : channelKey (withoutName notes note) = channelKey note := by
  unfold withoutName
  split_ifs <;> rfl

theorem withoutName_endsAt (offset : T) :
    withoutName notes (note.endsAt offset) = (withoutName notes note).endsAt offset := by
  have hsame : coincides notes (note.endsAt offset) = coincides notes note := rfl
  unfold withoutName
  rw [hsame]
  split_ifs <;> rfl

theorem cutOverlaps_withoutName (channel : List (MidiNote T)) :
    cutOverlaps (channel.map (withoutName notes)) =
      (cutOverlaps channel).map (withoutName notes) := by
  induction channel with
  | nil => rfl
  | cons note rest ih =>
    cases rest with
    | nil => rfl
    | cons next rest =>
      simp only [List.map_cons, cutOverlaps_cons_cons] at ih ⊢
      rw [ih, cutAt_eq, cutAt_eq, withoutName_endsAt, withoutName_offset, withoutName_onset]

theorem trimmed_withoutName (channel : List (MidiNote T)) :
    trimmed (channel.map (withoutName notes)) = (trimmed channel).map (withoutName notes) := by
  have hstays : stays ∘ withoutName notes = stays := by
    funext note
    simp [stays]
  unfold trimmed
  rw [cutOverlaps_withoutName, List.filter_map, hstays]

end WithoutName

theorem cutOverlaps_onsets (notes : List (MidiNote T)) :
    (cutOverlaps notes).map MidiNote.onsetSeconds = notes.map MidiNote.onsetSeconds := by
  induction notes with
  | nil => rfl
  | cons note rest ih =>
    cases rest with
    | nil => rfl
    | cons next rest =>
      rw [cutOverlaps_cons_cons, List.map_cons, ih, cutAt_eq]
      rfl

theorem trimmed_sorted {notes : List (MidiNote T)}
    (hsorted : notes.Pairwise fun a b => a.onsetSeconds ≤ b.onsetSeconds) :
    (trimmed notes).Pairwise fun a b => a.onsetSeconds ≤ b.onsetSeconds := by
  refine List.Pairwise.filter _ ?_
  have honsets := List.pairwise_map.mpr hsorted
  rw [← cutOverlaps_onsets] at honsets
  exact List.pairwise_map.mp honsets

variable [Add T] [Sub T]

/-- The clean notes as they should be, and what cleaning them again gives. -/
structure Cleaned (d : T) (notes clean again : List (MidiNote T)) : Prop where
  sorted : clean.Pairwise fun a b => a.onsetSeconds ≤ b.onsetSeconds
  apart : clean.Pairwise fun a b =>
    channelKey a = channelKey b → a.offsetSeconds ≤ b.onsetSeconds
  lasting : ∀ note ∈ clean, note.isDrum = false → note.onsetSeconds < note.offsetSeconds
  drums : ∀ note ∈ clean, note.isDrum = true →
    note.onsetSeconds < note.offsetSeconds ∨
      note.onsetSeconds = note.offsetSeconds ∧ ∃ sounding ∈ clean,
        channelKey sounding = channelKey note ∧ sounding.onsetSeconds = note.onsetSeconds ∧
          sounding.onsetSeconds < sounding.offsetSeconds
  again : again.map (withoutName clean) = clean.map (withoutName clean)
  latest : ∀ note ∈ notes,
    (∀ other ∈ notes, channelKey other = channelKey note →
      other.onsetSeconds ≤ note.onsetSeconds) →
    ∃ latest ∈ notes, channelKey latest = channelKey note ∧
      latest.onsetSeconds = note.onsetSeconds ∧ lengthened d latest ∈ clean

end Clean

section CleanExact

variable [LinearOrder T] [AddCommGroup T] [IsOrderedAddMonoid T] {d : T}
  {sort : (MidiNote T → MidiNote T → Bool) → List (MidiNote T) → List (MidiNote T)}
  (hd : 0 < d) (hsort : Sorts sort) (notes : List (MidiNote T))

include hd hsort

theorem ready_channelOf (k : ChannelKey) :
    Ready d (sort (byKey MidiNote.onsetSeconds) (channelOf d notes k)) where
  sorted := hsort.pairwise_byKey _ _
  lasts := by
    intro note hnote
    have hmem := (hsort.perm_byKey _ _).mem_iff.mp hnote
    obtain ⟨original, -, rfl⟩ := List.mem_map.mp (List.mem_filter.mp hmem).1
    exact lasts_lengthened hd original

theorem onset_le_offset {note : MidiNote T} (h : note ∈ cleanMidiNotes d sort notes) :
    note.onsetSeconds ≤ note.offsetSeconds := by
  have hready := ready_channelOf hd hsort notes (channelKey note)
  have hkept := (mem_cleanMidiNotes d notes hsort).mp h
  refine forall_cutOverlaps (P := fun kept => kept.onsetSeconds ≤ kept.offsetSeconds) ?_
    hready.sorted (fun first hfirst => ((hready.lasts first hfirst).onset_lt hd).le)
    note (List.mem_filter.mp hkept).1
  intro first next hfirst _ hle
  rw [cutAt_eq]
  exact le_min hfirst hle

theorem apart_either : (cleanMidiNotes d sort notes).Pairwise Apart := by
  apply pairwise_of_filter
  intro k
  have hready := ready_channelOf hd hsort notes k
  have hchannel := (cutOverlaps_apart hready.sorted).filter stays
  exact (hchannel.imp Or.inl).perm (filter_cleanMidiNotes d notes k hsort).symm Or.symm

theorem apart_cleanMidiNotes : (cleanMidiNotes d sort notes).Pairwise fun a b =>
    channelKey a = channelKey b → a.offsetSeconds ≤ b.onsetSeconds := by
  have hsorted : (cleanMidiNotes d sort notes).Pairwise fun a b => outKey a ≤ outKey b :=
    hsort.pairwise_byKey outKey _
  refine (hsorted.and (apart_either hd hsort notes)).imp_of_mem ?_
  rintro a b ha hb ⟨hkey, happart⟩ hchannel
  rcases happart hchannel with hle | hle
  · exact hle
  -- The second one is empty and begins with the first, so both are drums and the first, which is
  -- sorted before, is empty as well.
  have honset := onset_le_of_outKey hkey
  have hlasts := onset_le_offset hd hsort notes hb
  have hbegin : a.onsetSeconds = b.onsetSeconds := honset.antisymm (hlasts.trans hle)
  have hsame : noteKeyProgram a = noteKeyProgram b ∧ a.pitch = b.pitch ∧ a.isDrum = b.isDrum := by
    simpa [channelKey] using hchannel
  have hempty : b.offsetSeconds = b.onsetSeconds := (hle.trans hbegin.le).antisymm hlasts
  cases hdrum : b.isDrum
  · exact absurd (onset_lt_offset d notes hsort hb hdrum) hempty.not_gt
  · have hprogram : a.program = b.program := by
      rw [drum_program d notes hsort ha (hsame.2.2.trans hdrum),
        drum_program d notes hsort hb hdrum]
    simp only [outKey, Prod.Lex.toLex_le_toLex, hbegin, hsame.2, hprogram, lt_irrefl, false_or,
      true_and] at hkey
    exact hkey.trans hempty.le

variable {a b : MidiNote T}

section

variable (ha : a ∈ cleanMidiNotes d sort notes) (hb : b ∈ cleanMidiNotes d sort notes)
  (hchannel : channelKey a = channelKey b) (honset : a.onsetSeconds = b.onsetSeconds)
include ha hb hchannel honset

theorem eq_or_coincides : a = b ∨ coincides (cleanMidiNotes d sort notes) a = true := by
  by_cases heq : a = b
  · exact .inl heq
  right
  have happart := (apart_either hd hsort notes).forall ha hb heq hchannel
  have hdrum : a.isDrum = true := by
    by_contra hpitched
    have hpitched : a.isDrum = false := by simpa using hpitched
    have hpitched' : b.isDrum = false := by
      have hsame : noteKeyProgram a = noteKeyProgram b ∧ a.pitch = b.pitch ∧
        a.isDrum = b.isDrum := by simpa [channelKey] using hchannel
      exact hsame.2.2.symm.trans hpitched
    have hlta := onset_lt_offset d notes hsort ha hpitched
    have hltb := onset_lt_offset d notes hsort hb hpitched'
    rcases happart with hle | hle
    · exact absurd (hle.trans honset.ge) hlta.not_ge
    · exact absurd (hle.trans honset.le) hltb.not_ge
  have htwo : 2 ≤ (cleanMidiNotes d sort notes).countP fun other =>
      channelKey other = channelKey a ∧ other.onsetSeconds = a.onsetSeconds := by
    rw [List.countP_eq_length_filter]
    have hpair : ([a, b] : List (MidiNote T)).Nodup := by simpa using heq
    refine (List.subperm_of_subset hpair ?_).length_le
    simp [ha, hb, hchannel, honset]
  unfold coincides
  rw [hdrum, Bool.true_and]
  exact decide_eq_true htwo

/-- Two notes of the clean channel that begin together are lengthened to notes that differ in their
names at most, and then in names that do not count. -/
theorem withoutName_lengthened :
    withoutName (cleanMidiNotes d sort notes) (lengthened d a) =
      withoutName (cleanMidiNotes d sort notes) (lengthened d b) := by
  rcases eq_or_coincides hd hsort notes ha hb hchannel honset with rfl | hca
  · rfl
  rcases eq_or_coincides hd hsort notes hb ha hchannel.symm honset.symm with rfl | hcb
  · rfl
  have hlong : ∀ note, coincides (cleanMidiNotes d sort notes) (lengthened d note) =
      coincides (cleanMidiNotes d sort notes) note := by
    intro note
    simp [coincides]
  have hdrum : ∀ {note}, coincides (cleanMidiNotes d sort notes) note = true →
      note.isDrum = true := fun h => (Bool.and_eq_true_iff.mp h).1
  have hpitch : a.pitch = b.pitch := by
    have hsame : noteKeyProgram a = noteKeyProgram b ∧ a.pitch = b.pitch ∧
      a.isDrum = b.isDrum := by simpa [channelKey] using hchannel
    exact hsame.2.1
  unfold withoutName
  rw [hlong, hlong, if_pos hca, if_pos hcb, lengthened_drum a (hdrum hca),
    lengthened_drum b (hdrum hcb)]
  simp [honset, hpitch, hdrum hca, hdrum hcb]

end

/-- Cleaning a channel of the clean notes gives the same notes, with the names of drums that begin
together in another order. -/
theorem cleanChannel_again (k : ChannelKey) :
    (cleanChannel sort (channelOf d (cleanMidiNotes d sort notes) k)).map
        (withoutName (cleanMidiNotes d sort notes)) = (cleanChannel sort (channelOf d notes k)).map
        (withoutName (cleanMidiNotes d sort notes)) := by
  have hready := ready_channelOf hd hsort notes k
  have hfilter := filter_cleanMidiNotes d notes k hsort
  have hclean : ∀ kept ∈ cleanChannel sort (channelOf d notes k),
      kept ∈ cleanMidiNotes d sort notes ∧ channelKey kept = k := by
    intro kept hkept
    simpa using hfilter.mem_iff.mpr hkept
  have hperm : (sort (byKey MidiNote.onsetSeconds)
      (channelOf d (cleanMidiNotes d sort notes) k)).Perm
      ((cleanChannel sort (channelOf d notes k)).map (lengthened d)) := by
    refine (hsort.perm_byKey _ _).trans ?_
    rw [channelOf_eq]
    exact hfilter.map (lengthened d)
  have hsorted : ((cleanChannel sort (channelOf d notes k)).map (lengthened d)).Pairwise
      fun a b => a.onsetSeconds ≤ b.onsetSeconds := by
    rw [List.pairwise_map]
    simpa [cleanChannel] using trimmed_sorted hready.sorted
  have hsame := map_eq_of_perm MidiNote.onsetSeconds
    (withoutName_onset (cleanMidiNotes d sort notes)) ?_ (hsort.pairwise_byKey _ _) hsorted
    (hperm.map _)
  · unfold cleanChannel at hsame ⊢
    rw [← trimmed_withoutName, hsame, trimmed_withoutName, hready.trimmed_again hd]
  · intro a ha b hb honset
    obtain ⟨a, hkept, rfl⟩ := List.mem_map.mp (hperm.mem_iff.mp ha)
    obtain ⟨b, hkept', rfl⟩ := List.mem_map.mp hb
    rw [lengthened_onset, lengthened_onset] at honset
    exact withoutName_lengthened hd hsort notes (hclean a hkept).1 (hclean b hkept').1
      ((hclean a hkept).2.trans (hclean b hkept').2.symm) honset

theorem withoutName_of_outKey (ha : a ∈ cleanMidiNotes d sort notes)
    (hb : b ∈ cleanMidiNotes d sort notes) (h : outKey a = outKey b) :
    withoutName (cleanMidiNotes d sort notes) a = withoutName (cleanMidiNotes d sort notes) b := by
  obtain ⟨hchannel, honset, hsame⟩ := outKey_eq h
  rcases eq_or_coincides hd hsort notes ha hb hchannel honset with rfl | hca
  · rfl
  rcases eq_or_coincides hd hsort notes hb ha hchannel.symm honset.symm with rfl | hcb
  · rfl
  unfold withoutName
  rwa [if_pos hca, if_pos hcb]

theorem cleanMidiNotes_again :
    (cleanMidiNotes d sort (cleanMidiNotes d sort notes)).map
        (withoutName (cleanMidiNotes d sort notes)) =
      (cleanMidiNotes d sort notes).map (withoutName (cleanMidiNotes d sort notes)) := by
  have hperm : ((cleanMidiNotes d sort (cleanMidiNotes d sort notes)).map
      (withoutName (cleanMidiNotes d sort notes))).Perm
      ((cleanMidiNotes d sort notes).map (withoutName (cleanMidiNotes d sort notes))) := by
    apply perm_of_filter channelKey
    intro k
    have hagain := filter_cleanMidiNotes d (cleanMidiNotes d sort notes) k hsort
    have honce := filter_cleanMidiNotes d notes k hsort
    rw [List.filter_map, List.filter_map]
    simp only [Function.comp_def, withoutName_channelKey]
    refine (hagain.map _).trans ?_
    rw [cleanChannel_again hd hsort notes k]
    exact (honce.map _).symm
  refine map_eq_of_perm outKey (withoutName_outKey _) ?_ (hsort.pairwise_byKey _ _)
    (hsort.pairwise_byKey _ _) hperm
  intro a ha b hb hkey
  obtain ⟨c, hc, hsame⟩ := List.mem_map.mp (hperm.mem_iff.mp (List.mem_map_of_mem ha))
  have hkey' : outKey c = outKey b := by
    have hkeys := congrArg outKey hsame
    rw [withoutName_outKey, withoutName_outKey] at hkeys
    exact hkeys.trans hkey
  rw [← hsame, withoutName_of_outKey hd hsort notes hc hb hkey']

theorem latest_mem {note : MidiNote T} (h : note ∈ notes)
    (hlatest : ∀ other ∈ notes, channelKey other = channelKey note →
      other.onsetSeconds ≤ note.onsetSeconds) :
    ∃ latest ∈ notes, channelKey latest = channelKey note ∧
      latest.onsetSeconds = note.onsetSeconds ∧
        lengthened d latest ∈ cleanMidiNotes d sort notes := by
  have hready := ready_channelOf hd hsort notes (channelKey note)
  have hperm := hsort.perm_byKey MidiNote.onsetSeconds (channelOf d notes (channelKey note))
  have hmem : lengthened d note ∈
      sort (byKey MidiNote.onsetSeconds) (channelOf d notes (channelKey note)) := by
    rw [hperm.mem_iff, channelOf_eq]
    exact List.mem_map_of_mem (List.mem_filter.mpr ⟨h, by simp⟩)
  have hne := List.ne_nil_of_mem hmem
  have hlast := hready.last_mem_trimmed hd hne
  have hmax := hready.sorted.rel_getLast_of_rel_getLast_getLast hmem le_rfl
  have hin := List.getLast_mem hne
  generalize (sort (byKey MidiNote.onsetSeconds)
    (channelOf d notes (channelKey note))).getLast hne = last at hlast hmax hin
  rw [hperm.mem_iff, channelOf_eq] at hin
  obtain ⟨latest, hgroup, rfl⟩ := List.mem_map.mp hin
  obtain ⟨hnotes, hkey⟩ := List.mem_filter.mp hgroup
  have hkey := of_decide_eq_true hkey
  rw [lengthened_onset, lengthened_onset] at hmax
  refine ⟨latest, hnotes, hkey, (hlatest latest hnotes hkey).antisymm hmax, ?_⟩
  rw [mem_cleanMidiNotes d notes hsort, lengthened_channelKey, hkey]
  exact hlast

theorem drum_sounds {note : MidiNote T} (h : note ∈ cleanMidiNotes d sort notes) :
    note.onsetSeconds < note.offsetSeconds ∨
      note.onsetSeconds = note.offsetSeconds ∧ ∃ sounding ∈ cleanMidiNotes d sort notes,
        channelKey sounding = channelKey note ∧ sounding.onsetSeconds = note.onsetSeconds ∧
          sounding.onsetSeconds < sounding.offsetSeconds := by
  rcases (onset_le_offset hd hsort notes h).lt_or_eq with hlt | heq
  · exact .inl hlt
  · have hready := ready_channelOf hd hsort notes (channelKey note)
    have hkept := (mem_cleanMidiNotes d notes hsort).mp h
    obtain ⟨sounding, hmem, honset, hlt⟩ := hready.sounds hd note hkept
    have hclean : sounding ∈ cleanMidiNotes d sort notes ∧
        channelKey sounding = channelKey note := by
      simpa using (filter_cleanMidiNotes d notes (channelKey note) hsort).mem_iff.mpr hmem
    exact .inr ⟨heq, sounding, hclean.1, hclean.2, honset, hlt⟩

end CleanExact

section Exactly

variable [Field T] [LinearOrder T] [IsStrictOrderedRing T]

def kMinimumNoteDurationSeconds : T := 1 / 100

theorem cleanMidiNotes_cleaned
    (sort : (MidiNote T → MidiNote T → Bool) → List (MidiNote T) → List (MidiNote T))
    (hsort : Sorts sort) (notes : List (MidiNote T)) :
    Cleaned kMinimumNoteDurationSeconds notes
      (cleanMidiNotes kMinimumNoteDurationSeconds sort notes)
      (cleanMidiNotes kMinimumNoteDurationSeconds sort
        (cleanMidiNotes kMinimumNoteDurationSeconds sort notes)) where
  sorted := (hsort.pairwise_byKey outKey _).imp onset_le_of_outKey
  apart := apart_cleanMidiNotes (by norm_num [kMinimumNoteDurationSeconds]) hsort notes
  lasting _ h := onset_lt_offset _ notes hsort h
  drums _ h _ := drum_sounds (by norm_num [kMinimumNoteDurationSeconds]) hsort notes h
  again := cleanMidiNotes_again (by norm_num [kMinimumNoteDurationSeconds]) hsort notes
  latest _ h := latest_mem (by norm_num [kMinimumNoteDurationSeconds]) hsort notes h

end Exactly

def twoDrums : List (MidiNote ℚ) :=
  [⟨true, 128, 0, 1, 36, bytes "kick"⟩, ⟨true, 128, 0, 1, 36, bytes "drums"⟩]

/-- One of two drum notes at once is empty, and sorting may turn their names around each time. -/
theorem cleanMidiNotes_empty_drum :
    (∃ note ∈ cleanMidiNotes kMinimumNoteDurationSeconds insertionSorted twoDrums,
        ¬ note.onsetSeconds < note.offsetSeconds) ∧
      cleanMidiNotes kMinimumNoteDurationSeconds turnedSorted
          (cleanMidiNotes kMinimumNoteDurationSeconds turnedSorted twoDrums) ≠
        cleanMidiNotes kMinimumNoteDurationSeconds turnedSorted twoDrums := by
  decide +kernel

theorem cleanMidiNotes_cleaned_twoDrums :
    Cleaned kMinimumNoteDurationSeconds twoDrums
      (cleanMidiNotes kMinimumNoteDurationSeconds insertionSorted twoDrums)
      (cleanMidiNotes kMinimumNoteDurationSeconds insertionSorted
        (cleanMidiNotes kMinimumNoteDurationSeconds insertionSorted twoDrums)) :=
  cleanMidiNotes_cleaned insertionSorted sorts_insertionSorted twoDrums

end FastTts.MidiNotes
