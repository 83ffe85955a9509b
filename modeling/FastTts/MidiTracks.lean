import FastTts.MidiDecoding
import Mathlib.Data.List.GetD

/-!
# The tracks of the events

After any number of events, every key that occurred has one track, with the bytes of its own
events. The first melodic programs have channels of their own, and the later ones share the last.
-/

namespace FastTts.MidiFile

open MidiNotes

variable {T : Type} {secondsToTick : T → ℤ} {velocity : ℤ}

/-! ## The events of a key -/

def keyEvents (key : ℤ) (events : List (NoteEvent T)) : List (NoteEvent T) :=
  events.filter fun event => eventKeyProgram event = key

theorem keyEvents_append (key : ℤ) (done : List (NoteEvent T)) (event : NoteEvent T) :
    keyEvents key (done ++ [event]) =
      keyEvents key done ++ if eventKeyProgram event = key then [event] else [] := by
  unfold keyEvents
  rw [List.filter_append]
  by_cases h : eventKeyProgram event = key <;> simp [h]

theorem keyEvents_eq_nil {key : ℤ} {done : List (NoteEvent T)}
    (h : ∀ event ∈ done, eventKeyProgram event ≠ key) : keyEvents key done = [] := by
  unfold keyEvents
  simpa using h

def lastTick (secondsToTick : T → ℤ) (ticks : ℤ) (events : List (NoteEvent T)) : ℤ :=
  events.foldl (fun _ event => secondsToTick event.timeSeconds) ticks

theorem lastTick_append (ticks : ℤ) (events : List (NoteEvent T)) (event : NoteEvent T) :
    lastTick secondsToTick ticks (events ++ [event]) = secondsToTick event.timeSeconds := by
  unfold lastTick
  rw [List.foldl_append]
  rfl

theorem lastTick_le {ticks bound : ℤ} {events : List (NoteEvent T)} (hticks : ticks ≤ bound)
    (h : ∀ event ∈ events, secondsToTick event.timeSeconds ≤ bound) :
    lastTick secondsToTick ticks events ≤ bound := by
  induction events generalizing ticks with
  | nil => exact hticks
  | cons event rest ih =>
      obtain ⟨hfirst, hrest⟩ := List.forall_mem_cons.mp h
      exact ih hfirst hrest

theorem eventBytes_append (channel ticks : ℤ) (events : List (NoteEvent T)) (event : NoteEvent T) :
    eventBytes secondsToTick velocity channel ticks (events ++ [event]) =
      eventBytes secondsToTick velocity channel ticks events ++ noteBytes velocity
          (secondsToTick event.timeSeconds - lastTick secondsToTick ticks events) channel
          event := by
  induction events generalizing ticks with
  | nil => simp [eventBytes, lastTick]
  | cons first rest ih =>
      rw [List.cons_append, eventBytes, ih, eventBytes, List.append_assoc]
      rfl

/-! ## One event -/

/-- The track of the key of an event gets its bytes. -/
def Track.append (velocity absoluteTick : ℤ) (event : NoteEvent T) (track : Track) : Track :=
  if track.key = eventKeyProgram event then
    ⟨track.key, track.bytes ++
      noteBytes velocity (absoluteTick - track.ticks) track.channel event, absoluteTick,
      track.channel⟩
  else track

@[simp] theorem append_key (velocity absoluteTick : ℤ) (event : NoteEvent T) (track : Track) :
    (track.append velocity absoluteTick event).key = track.key := by
  unfold Track.append
  split_ifs <;> rfl

@[simp] theorem append_channel (velocity absoluteTick : ℤ) (event : NoteEvent T)
    (track : Track) : (track.append velocity absoluteTick event).channel = track.channel := by
  unfold Track.append
  split_ifs <;> rfl

theorem append_other {velocity absoluteTick : ℤ} {event : NoteEvent T} {track : Track}
    (h : track.key ≠ eventKeyProgram event) : track.append velocity absoluteTick event = track :=
  if_neg h

theorem appendEvent_ok {absoluteTick : ℤ} {event : NoteEvent T} {tracks : List Track}
    (hkeys : (tracks.map Track.key).Nodup) (hticks : ∀ track ∈ tracks, track.ticks ≤ absoluteTick) :
    appendEvent velocity absoluteTick event tracks =
      .ok (tracks.map (Track.append velocity absoluteTick event)) := by
  induction tracks with
  | nil => rfl
  | cons track rest ih =>
      rw [List.map_cons, List.nodup_cons] at hkeys
      obtain ⟨hfirst, hrest⟩ := List.forall_mem_cons.mp hticks
      rw [appendEvent, List.map_cons]
      by_cases h : track.key = eventKeyProgram event
      · rw [if_pos h, if_neg (by omega)]
        have hothers : rest.map (Track.append velocity absoluteTick event) = rest := by
          refine (List.map_congr_left fun other hother => ?_).trans (List.map_id rest)
          refine append_other fun heq => hkeys.1 ?_
          rw [h, ← heq]
          exact List.mem_map_of_mem hother
        rw [hothers, Track.append, if_pos h]
      · rw [if_neg h, ih hkeys.2 hrest, append_other h]
        rfl

/-! ## All events -/

/-- A track with the bytes of the events of its key that are done. -/
def Track.Written (secondsToTick : T → ℤ) (velocity : ℤ) (events done : List (NoteEvent T))
    (track : Track) : Prop :=
  ∃ event ∈ events, track.key = eventKeyProgram event ∧
    track.bytes = trackHead (nameOf event) track.key track.channel ++
      eventBytes secondsToTick velocity track.channel 0 (keyEvents track.key done) ∧
    track.ticks = lastTick secondsToTick 0 (keyEvents track.key done)

def melodicTracks (tracks : List Track) : List Track :=
  tracks.filter fun track => track.key ≠ kDrumProgram

/-- The channel of a melodic track, by its place among them. -/
def channelAt (place : ℕ) : ℤ := allChannels.getD place 15

/-- The tracks after the events that are done. -/
structure Written (secondsToTick : T → ℤ) (velocity : ℤ) (events done : List (NoteEvent T))
    (state : Tracks) : Prop where
  keys : (state.tracks.map Track.key).Nodup
  tracks : ∀ track ∈ state.tracks, track.Written secondsToTick velocity events done
  opened : ∀ event ∈ done, eventKeyProgram event ∈ state.tracks.map Track.key
  channels : (melodicTracks state.tracks).map Track.channel =
    (List.range (melodicTracks state.tracks).length).map channelAt
  available : state.availableChannels = allChannels.drop (melodicTracks state.tracks).length
  drums : ∀ track ∈ state.tracks, track.key = kDrumProgram → track.channel = 9

theorem written_nil (events : List (NoteEvent T)) :
    Written secondsToTick velocity events [] ⟨[], allChannels⟩ where
  keys := List.nodup_nil
  tracks := by simp
  opened := by simp
  channels := rfl
  available := rfl
  drums := by simp

section Step

variable {events done : List (NoteEvent T)} {state : Tracks} {event : NoteEvent T}

theorem headD_drop (channels : List ℤ) (count : ℕ) :
    (channels.drop count).headD 15 = channels.getD count 15 := by
  rw [List.headD_eq_head?_getD, List.head?_drop, List.getD_eq_getElem?_getD]

theorem melodicTracks_append (tracks : List Track) (track : Track) :
    melodicTracks (tracks ++ [track]) =
      melodicTracks tracks ++ if track.key = kDrumProgram then [] else [track] := by
  rw [melodicTracks, List.filter_append, List.filter_singleton]
  by_cases h : track.key = kDrumProgram <;> simp [h, melodicTracks]

theorem Written.open (h : Written secondsToTick velocity events done state)
    (hevent : event ∈ events) (hnew : eventKeyProgram event ∉ state.tracks.map Track.key) :
    Written secondsToTick velocity events done (openTrack event state) := by
  have hnone : keyEvents (eventKeyProgram event) done = [] :=
    keyEvents_eq_nil fun earlier hearlier heq => hnew (heq ▸ h.opened earlier hearlier)
  have hopen : ∃ channel available, openTrack event state =
      ⟨state.tracks ++ [⟨eventKeyProgram event,
        trackHead (nameOf event) (eventKeyProgram event) channel, 0, channel⟩], available⟩ ∧
      (eventKeyProgram event = kDrumProgram → channel = 9 ∧
        available = state.availableChannels) ∧
      (eventKeyProgram event ≠ kDrumProgram → channel = state.availableChannels.headD 15 ∧
        available = state.availableChannels.tail) := by
    dsimp only [openTrack]
    by_cases hdrum : eventKeyProgram event = kDrumProgram
    · exact ⟨9, _, by rw [if_pos hdrum], fun _ => ⟨rfl, rfl⟩, fun hne => absurd hdrum hne⟩
    · exact ⟨_, _, by rw [if_neg hdrum], fun heq => absurd heq hdrum, fun _ => ⟨rfl, rfl⟩⟩
  obtain ⟨channel, available, hopen, hdrums, hmelodic⟩ := hopen
  rw [hopen]
  refine ⟨?_, ?_, ?_, ?_, ?_, ?_⟩
  · rw [List.map_append, List.nodup_append]
    exact ⟨h.keys, List.nodup_singleton _, by simpa using hnew⟩
  · rw [List.forall_mem_append]
    refine ⟨h.tracks, List.forall_mem_singleton.mpr ⟨event, hevent, rfl, ?_, ?_⟩⟩
    · rw [hnone, eventBytes, List.append_nil]
    · rw [hnone]
      rfl
  · intro earlier hearlier
    rw [List.map_append]
    exact List.mem_append_left _ (h.opened earlier hearlier)
  · rw [melodicTracks_append]
    by_cases hdrum : eventKeyProgram event = kDrumProgram
    · simpa [hdrum] using h.channels
    · have hchannel := (hmelodic hdrum).1
      rw [h.available, headD_drop] at hchannel
      rw [if_neg hdrum, List.map_append, h.channels, List.length_append, List.length_singleton,
        List.range_succ, List.map_append, List.map_singleton, hchannel]
      rfl
  · rw [melodicTracks_append]
    by_cases hdrum : eventKeyProgram event = kDrumProgram
    · rw [if_pos hdrum, List.append_nil, (hdrums hdrum).2, h.available]
    · rw [if_neg hdrum, (hmelodic hdrum).2, h.available, List.tail_drop, List.length_append,
        List.length_singleton]
  · rw [List.forall_mem_append]
    exact ⟨h.drums, List.forall_mem_singleton.mpr fun hdrum => (hdrums hdrum).1⟩

theorem openTrack_key (event : NoteEvent T) (state : Tracks) :
    eventKeyProgram event ∈ (openTrack event state).tracks.map Track.key := by
  dsimp only [openTrack]
  split_ifs <;> simp

section

variable (h : Written secondsToTick velocity events done state)
include h

theorem Written.append (hopened : eventKeyProgram event ∈ state.tracks.map Track.key) :
    Written secondsToTick velocity events (done ++ [event])
      ⟨state.tracks.map (Track.append velocity (secondsToTick event.timeSeconds) event),
        state.availableChannels⟩ := by
  have hkeys : (state.tracks.map
      (Track.append velocity (secondsToTick event.timeSeconds) event)).map Track.key =
        state.tracks.map Track.key := by
    simp
  have hmelodic : melodicTracks (state.tracks.map
      (Track.append velocity (secondsToTick event.timeSeconds) event)) =
        (melodicTracks state.tracks).map
          (Track.append velocity (secondsToTick event.timeSeconds) event) := by
    unfold melodicTracks
    rw [List.filter_map]
    simp [Function.comp_def]
  refine ⟨?_, ?_, ?_, ?_, ?_, ?_⟩
  · rw [hkeys]
    exact h.keys
  · intro track htrack
    obtain ⟨before, hbefore, rfl⟩ := List.mem_map.mp htrack
    obtain ⟨first, hfirst, hkey, hbytes, hticks⟩ := h.tracks before hbefore
    refine ⟨first, hfirst, by rw [append_key, hkey], ?_⟩
    rw [append_key, append_channel, keyEvents_append]
    unfold Track.append
    by_cases hsame : before.key = eventKeyProgram event
    · rw [if_pos hsame, if_pos hsame.symm, eventBytes_append, lastTick_append, ← hticks, hbytes,
        List.append_assoc]
      exact ⟨rfl, rfl⟩
    · rw [if_neg hsame, if_neg (Ne.symm hsame), List.append_nil]
      exact ⟨hbytes, hticks⟩
  · rw [hkeys, List.forall_mem_append]
    exact ⟨h.opened, List.forall_mem_singleton.mpr hopened⟩
  · rw [hmelodic, List.length_map, ← h.channels, List.map_map]
    simp [Function.comp_def]
  · rw [hmelodic, List.length_map]
    exact h.available
  · intro track htrack hdrum
    obtain ⟨before, hbefore, rfl⟩ := List.mem_map.mp htrack
    rw [append_channel]
    exact h.drums before hbefore ((append_key _ _ _ _).symm.trans hdrum)

theorem Written.ticks_le {bound : ℤ}
    (hbound : 0 ≤ bound) (hdone : ∀ event ∈ done, secondsToTick event.timeSeconds ≤ bound) :
    ∀ track ∈ state.tracks, track.ticks ≤ bound := by
  intro track htrack
  obtain ⟨first, -, -, -, hticks⟩ := h.tracks track htrack
  rw [hticks]
  exact lastTick_le hbound fun event hevent => hdone event (List.mem_filter.mp hevent).1

theorem Written.step (hevent : event ∈ events)
    (htick : 0 ≤ secondsToTick event.timeSeconds)
    (hlast : ∀ earlier ∈ done,
      secondsToTick earlier.timeSeconds ≤ secondsToTick event.timeSeconds) :
    ∃ after, writeEvent secondsToTick velocity state event = .ok after ∧
      Written secondsToTick velocity events (done ++ [event]) after := by
  have hopen : ∃ opened, (if eventKeyProgram event ∈ state.tracks.map Track.key then state
      else openTrack event state) = opened ∧ Written secondsToTick velocity events done opened ∧
        eventKeyProgram event ∈ opened.tracks.map Track.key := by
    by_cases hold : eventKeyProgram event ∈ state.tracks.map Track.key
    · exact ⟨state, if_pos hold, h, hold⟩
    · exact ⟨_, if_neg hold, h.open hevent hold, openTrack_key event state⟩
  obtain ⟨opened, hopened, hwritten, hkey⟩ := hopen
  refine ⟨_, ?_, hwritten.append hkey⟩
  unfold writeEvent
  rw [hopened, if_neg (not_lt.mpr htick),
    appendEvent_ok hwritten.keys (hwritten.ticks_le htick hlast)]
  rfl

theorem Written.foldlM {rest : List (NoteEvent T)}
    (hrest : ∀ event ∈ rest, event ∈ events ∧ 0 ≤ secondsToTick event.timeSeconds)
    (hsorted : (done ++ rest).Pairwise fun a b =>
      secondsToTick a.timeSeconds ≤ secondsToTick b.timeSeconds) :
    ∃ after, rest.foldlM (writeEvent secondsToTick velocity) state = .ok after ∧
      Written secondsToTick velocity events (done ++ rest) after := by
  induction rest generalizing done state with
  | nil => exact ⟨state, rfl, by rwa [List.append_nil]⟩
  | cons event rest ih =>
      obtain ⟨⟨hmem, htick⟩, hothers⟩ := List.forall_mem_cons.mp hrest
      have hlast : ∀ earlier ∈ done,
          secondsToTick earlier.timeSeconds ≤ secondsToTick event.timeSeconds := fun earlier he =>
        (List.pairwise_append.mp hsorted).2.2 earlier he event List.mem_cons_self
      obtain ⟨next, hstep, hnext⟩ := h.step hmem htick hlast
      rw [List.append_cons] at hsorted ⊢
      obtain ⟨after, hrun, hafter⟩ := ih hnext hothers hsorted
      refine ⟨after, ?_, hafter⟩
      rw [List.foldlM_cons, hstep]
      exact hrun

end

end Step

variable (velocity) in
theorem writeTracks_ok {events : List (NoteEvent T)}
    (hticks : ∀ event ∈ events, 0 ≤ secondsToTick event.timeSeconds)
    (hsorted : events.Pairwise fun a b =>
      secondsToTick a.timeSeconds ≤ secondsToTick b.timeSeconds) :
    ∃ after, writeTracks secondsToTick velocity events = .ok after.tracks ∧
      Written secondsToTick velocity events events after := by
  have hnil : Written secondsToTick velocity events [] ⟨[], allChannels⟩ := written_nil events
  obtain ⟨after, hrun, hwritten⟩ := hnil.foldlM
    (fun event hevent => ⟨hevent, hticks event hevent⟩) hsorted
  refine ⟨after, ?_, hwritten⟩
  rw [writeTracks, hrun]
  rfl

/-! ## Channels -/

section Channels

variable {events done : List (NoteEvent T)} {state : Tracks}

theorem channelAt_mem (place : ℕ) : channelAt place ∈ allChannels := by
  unfold channelAt
  by_cases h : place < allChannels.length
  · rw [List.getD_eq_getElem _ _ h]
    exact List.getElem_mem h
  · rw [List.getD_eq_default _ _ (by omega)]
    decide

variable {track : Track}

section

variable (h : Written secondsToTick velocity events done state) (htrack : track ∈ state.tracks)
include h htrack

theorem Written.melodic_channel (hmelodic : track.key ≠ kDrumProgram) :
    track.channel ∈ allChannels := by
  have hmem : track.channel ∈ (melodicTracks state.tracks).map Track.channel :=
    List.mem_map_of_mem (List.mem_filter.mpr ⟨htrack, decide_eq_true hmelodic⟩)
  rw [h.channels] at hmem
  obtain ⟨place, -, hplace⟩ := List.mem_map.mp hmem
  rw [← hplace]
  exact channelAt_mem place

theorem Written.channel_bounds : 0 ≤ track.channel ∧ track.channel < 16 := by
  have hall : ∀ channel ∈ allChannels, 0 ≤ channel ∧ channel < 16 := by decide
  by_cases hdrum : track.key = kDrumProgram
  · rw [h.drums track htrack hdrum]
    decide
  · exact hall _ (h.melodic_channel htrack hdrum)

theorem Written.channel_eq_nine : track.channel = 9 ↔ track.key = kDrumProgram := by
  refine ⟨fun hnine => ?_, h.drums track htrack⟩
  by_contra hmelodic
  have hmem := h.melodic_channel htrack hmelodic
  rw [hnine] at hmem
  exact absurd hmem (by decide)

end

theorem Written.channels_nodup (h : Written secondsToTick velocity events done state)
    (hcount : (melodicTracks state.tracks).length ≤ 15) :
    (state.tracks.map Track.channel).Nodup := by
  have hmelodic : ((melodicTracks state.tracks).map Track.channel).Nodup := by
    have hfirst : ((List.range 15).map channelAt).Nodup := by decide
    rw [h.channels]
    exact hfirst.sublist ((List.range_sublist.mpr hcount).map _)
  refine List.Nodup.map_on (fun a ha b hb heq => ?_) (List.Nodup.of_map _ h.keys)
  by_cases hdrum : a.key = kDrumProgram
  · have hother : b.key = kDrumProgram := by
      rw [← h.channel_eq_nine hb, ← heq, h.channel_eq_nine ha, hdrum]
    exact List.inj_on_of_nodup_map h.keys ha hb (hdrum.trans hother.symm)
  · have hother : b.key ≠ kDrumProgram := by
      rwa [Ne, ← h.channel_eq_nine hb, ← heq, h.channel_eq_nine ha]
    exact List.inj_on_of_nodup_map hmelodic (List.mem_filter.mpr ⟨ha, decide_eq_true hdrum⟩)
      (List.mem_filter.mpr ⟨hb, decide_eq_true hother⟩) heq

end Channels

/-! ## Sizes -/

theorem length_varlen_le {value : ℤ} (h : 0 ≤ value) (hlt : value < 2 ^ 28) :
    (varlen value).length ≤ 4 := by
  rw [varlen, Int.emod_eq_of_lt h (by omega)]
  simp only [varlenLoop]
  split_ifs <;> simp
  omega

theorem length_eventBytes_le (velocity channel : ℤ) {ticks : ℤ} {events : List (NoteEvent T)}
    (h : Steps secondsToTick ticks events) :
    (eventBytes secondsToTick velocity channel ticks events).length ≤ 7 * events.length := by
  induction events generalizing ticks with
  | nil => exact le_rfl
  | cons event rest ih =>
      obtain ⟨hdelta, hlt, hmore⟩ := h
      have hfirst := length_varlen_le hdelta hlt
      have hrest := ih hmore
      rw [eventBytes, List.length_append, length_noteBytes, List.length_cons]
      omega

/-- What the fields of a file have room for. -/
structure Writable (secondsToTick : T → ℤ) (velocity : ℤ) (events : List (NoteEvent T)) : Prop where
  velocity : 1 ≤ velocity ∧ velocity ≤ 127
  length : events.length ≤ 2 ^ 29
  pitch : ∀ event ∈ events, 0 ≤ event.pitch ∧ event.pitch ≤ 127
  program : ∀ event ∈ events, 0 ≤ eventKeyProgram event ∧ eventKeyProgram event ≤ kDrumProgram
  name : ∀ event ∈ events, (nameOf event).length < 2 ^ 28
  steps : ∀ event ∈ events, Steps secondsToTick 0 (keyEvents (eventKeyProgram event) events)

theorem Written.length_tracks {events : List (NoteEvent T)} {state : Tracks}
    (h : Written secondsToTick velocity events events state)
    (hwritable : Writable secondsToTick velocity events) : state.tracks.length ≤ 129 := by
  have hsubset : state.tracks.map Track.key ⊆ (List.range 129).map Nat.cast := by
    intro key hkey
    obtain ⟨track, htrack, rfl⟩ := List.mem_map.mp hkey
    obtain ⟨first, hfirst, heq, -⟩ := h.tracks track htrack
    obtain ⟨hlow, hhigh⟩ := heq ▸ hwritable.program first hfirst
    unfold kDrumProgram at hhigh
    exact List.mem_map.mpr ⟨track.key.toNat, List.mem_range.mpr (by omega), by omega⟩
  have hlength := (List.subperm_of_subset h.keys hsubset).length_le
  rwa [List.length_map, List.length_map, List.length_range] at hlength

/-- What is read of a track. -/
structure Track.Reads (secondsToTick : T → ℤ) (velocity : ℤ) (events : List (NoteEvent T))
    (track : Track) (out : ParsedTrack) : Prop where
  chunk : Chunk (track.bytes ++ endOfTrack) out
  program : out.program = some (if track.key = kDrumProgram then 0 else track.key).toNat
  channel : out.channel = some track.channel.toNat
  events : out.events = (keyEvents track.key events).map fun event =>
    parsedEvent velocity (secondsToTick event.timeSeconds) track.channel event

theorem Written.reads {events : List (NoteEvent T)} {state : Tracks}
    (h : Written secondsToTick velocity events events state)
    (hwritable : Writable secondsToTick velocity events) :
    ∃ parsed, List.Forall₂ (Track.Reads secondsToTick velocity events) state.tracks parsed := by
  have hone : ∀ track ∈ state.tracks, ∃ out,
      track.Reads secondsToTick velocity events out := by
    intro track htrack
    obtain ⟨first, hfirst, hkey, hbytes, -⟩ := h.tracks track htrack
    have hchannel := h.channel_bounds htrack
    have hsteps := hkey ▸ hwritable.steps first hfirst
    have hfits : ∀ event ∈ keyEvents track.key events, Fits velocity track.channel event :=
      fun event hevent =>
        ⟨hwritable.velocity, hchannel, hwritable.pitch event (List.mem_filter.mp hevent).1⟩
    have hparse := parseTrack_written hfits hsteps (hwritable.name first hfirst)
      (hkey ▸ hwritable.program first hfirst) hchannel
    rw [← hbytes] at hparse
    refine ⟨_, ⟨hparse, ?_⟩, rfl, rfl, rfl⟩
    have hname := hwritable.name first hfirst
    have hvarlen := length_varlen_le (Int.natCast_nonneg (nameOf first).length) (by omega)
    have hevents := length_eventBytes_le velocity track.channel hsteps
    have hlength := (List.length_filter_le
      (fun event => decide (eventKeyProgram event = track.key)) events).trans hwritable.length
    rw [← keyEvents] at hlength
    rw [hbytes, trackHead, endOfTrack]
    simp only [List.length_append, List.length_cons, List.length_nil]
    omega
  have : Nonempty ParsedTrack := ⟨⟨[], none, none, []⟩⟩
  choose! read hread using hone
  exact ⟨state.tracks.map read, List.forall₂_map_right_iff.mpr (List.forall₂_same.mpr hread)⟩

end FastTts.MidiFile
