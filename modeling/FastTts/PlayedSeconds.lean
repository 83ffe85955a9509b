import FastTts.PlaybackOrder

/-!
# What is at the speakers

`playedSeconds` looks up the clock in the list of segments, from the last one backwards, and falls
back to what it returned before. The list loses its oldest segments while later ones are still
ahead of the clock: until one that was kept has begun, the position stands still.
-/

namespace FastTts.PcmPlayback

open Timelines

variable {F : Type} [Field F]

/-! ## Segments -/

def segmentsOf (streamStart : F) : List (Span F) → List (Segment F)
  | [] => []
  | span :: track =>
    ⟨span.start, streamStart, span.length⟩ :: segmentsOf (streamStart + span.length) track

variable (streamStart : F) (segments : List (Segment F))

theorem segmentsOf_append (track behind : List (Span F)) :
    segmentsOf streamStart (track ++ behind) =
      segmentsOf streamStart track ++ segmentsOf (streamStart + duration track) behind := by
  induction track generalizing streamStart with
  | nil => simp [segmentsOf]
  | cons span track ih =>
    have hduration : streamStart + duration (span :: track) =
        streamStart + span.length + duration track := by
      simp [duration, add_assoc]
    rw [List.cons_append, segmentsOf, ih, segmentsOf, hduration, List.cons_append]

theorem length_segmentsOf (track : List (Span F)) :
    (segmentsOf streamStart track).length = track.length := by
  induction track generalizing streamStart with
  | nil => rfl
  | cons span track ih => rw [segmentsOf, List.length_cons, ih, List.length_cons]

variable {track : List (Span F)} {segment : Segment F} {w : World F} {p : Player F}

theorem start_of_mem_segmentsOf {span : Span F} (h : span ∈ track) :
    ∃ segment ∈ segmentsOf streamStart track, segment.ctxStart = span.start := by
  induction track generalizing streamStart with
  | nil => exact nomatch h
  | cons first track ih =>
    rcases List.mem_cons.mp h with rfl | hrest
    · exact ⟨_, List.mem_cons_self, rfl⟩
    · obtain ⟨segment, hsegment, hstart⟩ := ih (streamStart + first.length) hrest
      exact ⟨segment, List.mem_cons_of_mem _ hsegment, hstart⟩

theorem segmentsOf_eq_append {streamStart : F} {earlier later : List (Segment F)}
    (h : segmentsOf streamStart track = earlier ++ segment :: later) :
    ∃ before span behind, track = before ++ span :: behind ∧
      segment = ⟨span.start, streamStart + duration before, span.length⟩ ∧
        later = segmentsOf (streamStart + duration before + span.length) behind := by
  induction earlier generalizing streamStart track with
  | nil =>
    cases track with
    | nil => exact nomatch h
    | cons span track =>
      obtain ⟨rfl, rfl⟩ := List.cons.inj h
      exact ⟨[], span, track, rfl, by simp, by simp⟩
  | cons first earlier ih =>
    cases track with
    | nil => exact nomatch h
    | cons head track =>
      obtain ⟨-, hrest⟩ := List.cons.inj h
      obtain ⟨before, span, behind, rfl, hsegment, hlater⟩ := ih hrest
      have hduration : streamStart + duration (head :: before) =
          streamStart + head.length + duration before := by
        simp [duration, add_assoc]
      exact ⟨head :: before, span, behind, rfl, by rw [hduration, hsegment],
        by rw [hduration, hlater]⟩

variable [LinearOrder F]

theorem position_of_begun [IsStrictOrderedRing F] {now : F} {s : Speakers F}
    (horderly : Timelines.Orderly s.track) (hsegments : s.segments <:+ segmentsOf 0 s.track)
    (hbegun : ∃ segment ∈ s.segments, segment.ctxStart ≤ now) :
    s.position now = elapsed now s.track := by
  obtain ⟨dropped, hdropped⟩ := hsegments
  unfold Speakers.position
  cases hfound : s.segments.reverse.find? fun segment => decide (segment.ctxStart ≤ now) with
  | none =>
    obtain ⟨segment, hsegment, hstart⟩ := hbegun
    have hnot := List.find?_eq_none.mp hfound segment (List.mem_reverse.mpr hsegment)
    exact absurd (decide_eq_true hstart) hnot
  | some segment =>
    obtain ⟨hstart, later, earlier, hsplit, hlater⟩ := List.find?_eq_some_iff_append.mp hfound
    have hlist : s.segments = earlier.reverse ++ segment :: later.reverse := by
      rw [← List.reverse_reverse s.segments, hsplit, List.reverse_append, List.reverse_cons,
        List.append_assoc, List.singleton_append]
    rw [hlist, ← List.append_assoc] at hdropped
    obtain ⟨before, span, behind, htrack, rfl, hbehind⟩ := segmentsOf_eq_append hdropped.symm
    rw [htrack] at horderly ⊢
    have hahead : ∀ other ∈ behind, now ≤ other.start := fun other hother => by
      obtain ⟨segment, hsegment, hothers⟩ :=
        start_of_mem_segmentsOf (0 + duration before + span.length) hother
      rw [← hbehind, List.mem_reverse] at hsegment
      have hnot := hlater segment hsegment
      rw [hothers] at hnot
      exact (not_le.mp fun hle => by simp [hle] at hnot).le
    rw [elapsed_at horderly (of_decide_eq_true hstart) hahead, zero_add]

/-! ## What the moves keep -/

structure Speakers.Counted (now : F) (s : Speakers F) : Prop where
  timed : s.Timed
  scheduled : s.scheduledSeconds = duration s.track
  segments : s.segments <:+ segmentsOf 0 s.track
  nonneg : 0 ≤ s.lastPlayedSeconds
  last : s.lastPlayedSeconds ≤ elapsed now s.track

/-- No segment was dropped, or one that was kept has begun. -/
def Speakers.Covers (now : F) (s : Speakers F) : Prop :=
  s.started.length ≤ s.segments.length ∨ ∃ segment ∈ s.segments, segment.ctxStart ≤ now

theorem Speakers.position_of_ahead {now : F} {s : Speakers F}
    (h : ¬∃ segment ∈ s.segments, segment.ctxStart ≤ now) :
    s.position now = s.lastPlayedSeconds := by
  have hnone : (s.segments.reverse.find? fun segment => decide (segment.ctxStart ≤ now)) = none :=
    List.find?_eq_none.mpr fun segment hsegment hstart =>
      h ⟨segment, List.mem_reverse.mp hsegment, of_decide_eq_true hstart⟩
  rw [Speakers.position, hnone]

variable [IsStrictOrderedRing F]

namespace Speakers.Counted

variable {now : F} {s : Speakers F}

theorem position_of_covers (h : s.Counted now) (hcovers : s.Covers now) :
    s.position now = elapsed now s.track := by
  by_cases hbegun : ∃ segment ∈ s.segments, segment.ctxStart ≤ now
  · exact position_of_begun h.timed.orderly h.segments hbegun
  · have hall : s.segments = segmentsOf 0 s.track := by
      refine h.segments.eq_of_length_le ?_
      rw [length_segmentsOf, track, List.length_map]
      exact hcovers.resolve_right hbegun
    have hnothing : elapsed now s.track = 0 := elapsed_of_ahead fun span hspan => by
      obtain ⟨segment, hsegment, hstart⟩ := start_of_mem_segmentsOf 0 hspan
      rw [← hstart]
      rw [← hall] at hsegment
      exact (not_le.mp fun hle => hbegun ⟨segment, hsegment, hle⟩).le
    rw [position_of_ahead hbegun, hnothing]
    exact le_antisymm (hnothing ▸ h.last) h.nonneg

theorem position_cases (h : s.Counted now) :
    s.position now = elapsed now s.track ∨
      ¬s.Covers now ∧ s.position now = s.lastPlayedSeconds := by
  by_cases hcovers : s.Covers now
  · exact .inl (h.position_of_covers hcovers)
  · exact .inr ⟨hcovers, position_of_ahead fun hbegun => hcovers (.inr hbegun)⟩

theorem last_le_position (h : s.Counted now) : s.lastPlayedSeconds ≤ s.position now := by
  rcases h.position_cases with hplayed | ⟨-, hlast⟩
  · rw [hplayed]
    exact h.last
  · rw [hlast]

theorem position_le (h : s.Counted now) : s.position now ≤ elapsed now s.track := by
  rcases h.position_cases with hplayed | ⟨-, hlast⟩
  · rw [hplayed]
  · rw [hlast]
    exact h.last

theorem later {now' : F} (h : s.Counted now) (hle : now ≤ now') : s.Counted now' :=
  ⟨h.timed, h.scheduled, h.segments, h.nonneg, h.last.trans (elapsed_mono hle _)⟩

end Speakers.Counted

omit [Field F] [LinearOrder F] [IsStrictOrderedRing F] in
theorem trimSegments_suffix : Player.trimSegments segments <:+ segments := by
  unfold Player.trimSegments
  split
  · exact List.drop_suffix _ _
  · exact List.suffix_rfl

theorem Move.counted {now : F} {s s' : Speakers F} (move : Move now s s') (h : s.Counted now) :
    s'.Counted now ∧ s.lastPlayedSeconds ≤ s'.lastPlayedSeconds := by
  have htimed := move.timed h.timed
  cases move with
  | @schedule audio startAt hbegun hnext hnow =>
    have hduration : s.scheduledSeconds + audio.seconds s.format =
        duration (s.schedule now startAt audio).track := by
      rw [Speakers.track_schedule, duration_append, h.scheduled]
      simp [duration]
    have hnew : elapsed now [⟨startAt, audio.seconds s.format⟩] = 0 :=
      elapsed_of_ahead fun span hspan => by
        rw [List.mem_singleton.mp hspan]
        exact hnow
    have helapsed : elapsed now (s.schedule now startAt audio).track = elapsed now s.track := by
      rw [Speakers.track_schedule, elapsed_append, hnew, add_zero]
    refine ⟨⟨htimed, hduration, ?_, h.nonneg, ?_⟩, le_refl _⟩
    · refine (trimSegments_suffix _).trans ?_
      obtain ⟨dropped, hdropped⟩ := h.segments
      rw [Speakers.track_schedule, segmentsOf_append, zero_add, ← h.scheduled, ← hdropped]
      exact ⟨dropped, (List.append_assoc _ _ _).symm⟩
    · rw [helapsed]
      exact h.last
  | begin lead hbegun => exact ⟨⟨htimed, h.scheduled, h.segments, h.nonneg, h.last⟩, le_refl _⟩
  | resume hnext => exact ⟨⟨htimed, h.scheduled, h.segments, h.nonneg, h.last⟩, le_refl _⟩
  | poll =>
    exact ⟨⟨htimed, h.scheduled, h.segments, h.nonneg.trans h.last_le_position, h.position_le⟩,
      h.last_le_position⟩

theorem Moves.counted {now : F} {s s' : Speakers F} (moves : Moves now s s') (h : s.Counted now) :
    s'.Counted now ∧ s.lastPlayedSeconds ≤ s'.lastPlayedSeconds := by
  induction moves with
  | refl => exact ⟨h, le_refl _⟩
  | tail _ move ih =>
    obtain ⟨hcounted, hlast⟩ := move.counted ih.1
    exact ⟨hcounted, ih.2.trans hlast⟩

/-! ## Runs -/

def World.played (w : World F) : F := w.player.playedSeconds w.clock

/-- How much of the stream has been due at the speakers until now. -/
def World.heardSeconds (w : World F) : F := elapsed w.clock w.player.track

theorem World.step_counted (h : w.player.speakers.Counted w.clock) (event : Event F) :
    (w.step event).player.speakers.Counted (w.step event).clock ∧
      w.player.lastPlayedSeconds ≤ (w.step event).player.lastPlayedSeconds := by
  obtain ⟨hcounted, hlast⟩ := (w.step_moves event).counted h
  exact ⟨hcounted.later (w.clock_le_step event), hlast⟩

theorem World.run_counted (h : w.player.speakers.Counted w.clock) (events : List (Event F)) :
    (w.run events).player.speakers.Counted (w.run events).clock ∧
      w.player.lastPlayedSeconds ≤ (w.run events).player.lastPlayedSeconds := by
  induction events generalizing w with
  | nil => exact ⟨h, le_refl _⟩
  | cons event events ih =>
    obtain ⟨hcounted, hlast⟩ := World.step_counted h event
    obtain ⟨hall, hrest⟩ := ih hcounted
    exact ⟨hall, hlast.trans hrest⟩

omit [IsStrictOrderedRing F] in
theorem counted_initial (format : Format) (startBufferSeconds startMaxWaitMs now : F) :
    (World.initial format startBufferSeconds startMaxWaitMs now).player.speakers.Counted now :=
  ⟨timed_initial format startBufferSeconds startMaxWaitMs now, rfl, List.suffix_rfl, le_refl _,
    le_refl _⟩

omit [IsStrictOrderedRing F] in
theorem Player.playedSeconds_open (h : p.context = true) (now : F) :
    p.playedSeconds now = p.speakers.position now := by
  rw [playedSeconds, poll, if_pos h]
  rfl

omit [IsStrictOrderedRing F] in
theorem Player.playedSeconds_closed (h : p.context = false) (now : F) :
    p.playedSeconds now = p.lastPlayedSeconds := by
  rw [playedSeconds, poll, if_neg (by simp [h])]

theorem World.last_le_played (h : w.player.speakers.Counted w.clock) :
    w.player.lastPlayedSeconds ≤ w.played := by
  cases hcontext : w.player.context with
  | false => rw [played, Player.playedSeconds_closed hcontext]
  | true =>
    rw [played, Player.playedSeconds_open hcontext]
    exact h.last_le_position

/-- What `playedSeconds` tells in the states of a run. While the context is held it is the audio
that has been due exactly if the list still covers the clock, or what was returned before is right. It
never goes back, and stands still when the context has been released. -/
structure Tells (w : World F) : Prop where
  exact_iff : w.player.context = true → (w.played = w.heardSeconds ↔
    w.player.speakers.Covers w.clock ∨ w.player.lastPlayedSeconds = w.heardSeconds)
  mono : ∀ later : List (Event F), w.played ≤ ((w.step .poll).run later).played
  frozen : w.player.context = false → w.player.stopped = true →
    ∀ later : List (Event F), (w.run later).played = w.played

theorem run_tells (format : Format) (startBufferSeconds startMaxWaitMs now : F)
    (events : List (Event F)) :
    Tells ((World.initial format startBufferSeconds startMaxWaitMs now).run events) := by
  have hinitial := counted_initial format startBufferSeconds startMaxWaitMs now
  obtain ⟨hcounted, -⟩ := World.run_counted
    (w := World.initial format startBufferSeconds startMaxWaitMs now) hinitial events
  set w := (World.initial format startBufferSeconds startMaxWaitMs now).run events
  refine ⟨fun hcontext => ?_, fun later => ?_, fun hclosed hstopped later => ?_⟩
  · rw [World.played, Player.playedSeconds_open hcontext]
    constructor
    · intro hright
      by_cases hcovers : w.player.speakers.Covers w.clock
      · exact .inl hcovers
      · have hlast := Speakers.position_of_ahead fun hbegun => hcovers (.inr hbegun)
        exact .inr (hlast.symm.trans hright)
    · rintro (hcovers | hlast)
      · exact hcounted.position_of_covers hcovers
      · exact le_antisymm hcounted.position_le (hlast.symm.le.trans hcounted.last_le_position)
  · have hpolled := (World.step_counted hcounted .poll).1
    obtain ⟨hlater, hlast⟩ := World.run_counted hpolled later
    exact hlast.trans (World.last_le_played hlater)
  · obtain ⟨-, -, hstill⟩ := World.run_rests hstopped later
    obtain ⟨hcontext, hlast⟩ := hstill hclosed
    rw [World.played, World.played, Player.playedSeconds_closed hcontext,
      Player.playedSeconds_closed hclosed, hlast]

theorem run_tells_cut :
    Tells ((World.initial mono24k 0 0 (0 : ℚ)).run [.push [0x00, 0x00], .advance 1]) :=
  run_tells mono24k 0 0 0 _

/-! ## A list that lost what is at the speakers -/

/-- A player with audio ahead of the clock, which schedules what it gets. -/
structure Ahead (w : World ℚ) : Prop where
  format : w.player.format = mono24k
  context : w.player.context = true
  running : w.player.stopped = false
  carry : w.player.carry = []
  begun : w.player.begun = true
  playing : w.player.rebuffering = false
  clock : w.clock = 0
  next : 0 < w.player.nextStartTime
  last : w.player.lastPlayedSeconds = 0

def frame : Bytes := [0x00, 0x00]

omit [IsStrictOrderedRing F] in
theorem Player.receive_ahead {now : F} (hbegun : p.begun = true) (hplaying : p.rebuffering = false)
    (hnext : now < p.nextStartTime) (audio : AudioBuffer F) :
    p.receive now audio = { p with
      receivedSeconds := p.receivedSeconds + audio.seconds p.format }.scheduleBuffer now audio := by
  have hnote : { p with
      receivedSeconds := p.receivedSeconds + audio.seconds p.format }.noteUnderrun now =
        { p with receivedSeconds := p.receivedSeconds + audio.seconds p.format } := by
    rw [noteUnderrun, if_neg (by simp [hnext])]
  unfold receive
  dsimp only
  rw [hnote, if_neg (by simp [hbegun, hplaying])]

theorem Player.push_frame {p : Player ℚ} (hformat : p.format = mono24k)
    (hcontext : p.context = true) (hrunning : p.stopped = false) (hcarry : p.carry = []) :
    p.push 0 frame =
      .ok ({ p with carry := [] }.receive 0 (decodeBuffer mono24k frame)) := by
  have hlength :
      (p.carry ++ frame).length - (p.carry ++ frame).length % p.format.frameBytes = 2 := by
    rw [hcarry, hformat]
    rfl
  have hopen : ¬(frame = [] ∨ p.stopped = true) := by simp [frame, hrunning]
  have hcut : (p.carry ++ frame).drop 2 = [] ∧ (p.carry ++ frame).take 2 = frame := by
    rw [hcarry]
    exact ⟨rfl, rfl⟩
  unfold push
  dsimp only
  rw [if_neg hopen, if_neg (by simp [hcontext]), hlength, if_neg (by decide), hcut.1, hcut.2,
    hformat]

theorem Ahead.step {w : World ℚ} (h : Ahead w) :
    Ahead (w.step (.push frame)) ∧
      (∃ source, (w.step (.push frame)).player.started = w.player.started ++ [source]) ∧
      ∃ segment, (w.step (.push frame)).player.segments =
        Player.trimSegments (w.player.segments ++ [segment]) := by
  obtain ⟨p, clock⟩ := w
  obtain ⟨hformat, hcontext, hrunning, hcarry, hbegun, hplaying, hclock, hnext, hlast⟩ := h
  dsimp only at hformat hcontext hrunning hcarry hbegun hplaying hclock hnext hlast
  subst hclock
  have hreceive := Player.receive_ahead (p := { p with carry := [] }) hbegun hplaying hnext
    (decodeBuffer mono24k frame)
  have hstep : (World.step ⟨p, 0⟩ (.push frame)).player = _ :=
    congrArg (orSame p) ((Player.push_frame hformat hcontext hrunning hcarry).trans
      (congrArg Except.ok hreceive))
  set q := { p with
    carry := []
    receivedSeconds := p.receivedSeconds + (decodeBuffer mono24k frame).seconds p.format }
  have hq : q.context = true := hcontext
  rw [orSame, Player.scheduleBuffer, if_pos hq] at hstep
  have hlater : 0 < q.startTime 0 + (decodeBuffer mono24k frame).seconds q.format :=
    add_pos_of_pos_of_nonneg (hnext.trans_le (le_max_left _ _))
      (AudioBuffer.seconds_nonneg q.format _)
  refine ⟨⟨?_, ?_, ?_, ?_, ?_, ?_, rfl, ?_, ?_⟩, ?_, ?_⟩ <;> rw [hstep]
  · exact hformat
  · exact hcontext
  · exact hrunning
  · exact hbegun
  · exact hplaying
  · exact hlater
  · exact hlast
  · exact ⟨_, rfl⟩
  · exact ⟨_, rfl⟩

variable (count : ℕ)

/-- Frames that are pushed while the clock stands still. -/
def framesPushed : World ℚ :=
  (World.initial mono24k 0 0 0).run (List.replicate count (.push frame))

theorem framesPushed_succ : framesPushed (count + 1) = (framesPushed count).step (.push frame) := by
  rw [framesPushed, List.replicate_succ', World.run, List.foldl_append]
  rfl

theorem framesPushed_counted :
    (framesPushed count).player.speakers.Counted (framesPushed count).clock :=
  (World.run_counted (w := World.initial mono24k 0 0 (0 : ℚ)) (counted_initial mono24k 0 0 0)
    (List.replicate count (.push frame))).1

theorem run_framesPushed (time : ℚ) :
    (World.initial mono24k 0 0 0).run (List.replicate count (.push frame) ++ [.advance time]) =
      (framesPushed count).step (.advance time) := by
  rw [World.run, List.foldl_append]
  rfl

theorem ahead_framesPushed_one : Ahead (framesPushed 1) := by
  constructor
  · exact (World.run_framed (framed_initial mono24k 0 0 0) _ (by decide)).format_eq
  all_goals decide +kernel

def firstFrame : Span ℚ := ⟨64 / 1000, 1 / 24000⟩

theorem track_framesPushed_one : (framesPushed 1).player.track = [firstFrame] := by decide +kernel

omit [Field F] [LinearOrder F] [IsStrictOrderedRing F] in
theorem length_trimSegments (segment : Segment F) :
    (Player.trimSegments (segments ++ [segment])).length =
      if 512 < segments.length + 1 then segments.length - 255 else segments.length + 1 := by
  unfold Player.trimSegments
  rw [List.length_append, List.length_singleton]
  split
  · rw [List.length_drop, List.length_append, List.length_singleton]
    omega
  · rw [List.length_append, List.length_singleton]

theorem framesPushed_grows : Ahead (framesPushed (count + 1)) ∧
    (framesPushed (count + 1)).player.started.length = count + 1 ∧
      (∃ behind, (framesPushed (count + 1)).player.track = firstFrame :: behind) ∧
        (count < 512 → (framesPushed (count + 1)).player.segments.length = count + 1) := by
  induction count with
  | zero =>
    exact ⟨ahead_framesPushed_one, by decide +kernel, ⟨[], track_framesPushed_one⟩,
      fun _ => by decide +kernel⟩
  | succ count ih =>
    obtain ⟨hahead, hstarted, ⟨behind, htrack⟩, hsegments⟩ := ih
    rw [framesPushed_succ (count + 1)]
    obtain ⟨hnext, ⟨source, hsource⟩, segment, hsegment⟩ := hahead.step
    refine ⟨hnext, by rw [hsource, List.length_append, hstarted, List.length_singleton], ?_, ?_⟩
    · refine ⟨behind ++ [source.span mono24k], ?_⟩
      rw [Player.track, hsource, hnext.format, List.map_append, ← List.cons_append, ← htrack,
        Player.track, hahead.format]
      rfl
    · intro hcount
      rw [hsegment, length_trimSegments, hsegments (by omega), if_neg (by omega)]

omit [LinearOrder F] [IsStrictOrderedRing F] in
theorem span_of_mem_segmentsOf {streamStart : F} (h : segment ∈ segmentsOf streamStart track) :
    ∃ span ∈ track, segment.ctxStart = span.start := by
  obtain ⟨earlier, later, hsplit⟩ := List.append_of_mem h
  obtain ⟨before, span, behind, rfl, rfl, -⟩ := segmentsOf_eq_append hsplit
  exact ⟨span, List.mem_append_right _ List.mem_cons_self, rfl⟩

omit [IsStrictOrderedRing F] in
theorem Speakers.Counted.ahead_of_dropped {now : F} {s : Speakers F} (h : s.Counted now)
    {first : Span F} {behind : List (Span F)} (htrack : s.track = first :: behind)
    (hdropped : s.segments.length < s.track.length) (hsegment : segment ∈ s.segments) :
    first.stop ≤ segment.ctxStart := by
  have hsuffix := h.segments
  rw [htrack, segmentsOf, List.suffix_cons_iff] at hsuffix
  rcases hsuffix with hall | hlater
  · have hlength := congrArg List.length hall
    rw [List.length_cons, length_segmentsOf] at hlength
    rw [htrack, List.length_cons] at hdropped
    omega
  · obtain ⟨span, hspan, hstart⟩ := span_of_mem_segmentsOf (hlater.subset hsegment)
    have horderly := h.timed.orderly.apart
    rw [htrack] at horderly
    rw [hstart]
    exact (List.pairwise_cons.mp horderly).1 span hspan

def midFrame : ℚ := 64 / 1000 + 1 / 48000

theorem Ahead.stands_still {w : World ℚ} (h : Ahead w)
    (hcounted : w.player.speakers.Counted w.clock) {behind : List (Span ℚ)}
    (htrack : w.player.track = firstFrame :: behind)
    (hdropped : w.player.segments.length < w.player.track.length) :
    (w.step (.advance midFrame)).player.context = true ∧ (w.step (.advance midFrame)).played = 0 ∧
        0 < (w.step (.advance midFrame)).heardSeconds := by
  have hclock : (w.step (.advance midFrame)).clock = midFrame := by
    change max w.clock midFrame = midFrame
    rw [h.clock]
    norm_num [midFrame]
  refine ⟨h.context, ?_, ?_⟩
  · rw [World.played, hclock]
    change w.player.playedSeconds midFrame = 0
    rw [Player.playedSeconds_open h.context, Speakers.position_of_ahead]
    · exact h.last
    · rintro ⟨segment, hsegment, hle⟩
      have hstop := hcounted.ahead_of_dropped htrack hdropped hsegment
      have hlt : midFrame < firstFrame.stop := by norm_num [midFrame, firstFrame, Span.stop]
      exact absurd (hstop.trans hle) (not_le.mpr hlt)
  · rw [World.heardSeconds, hclock]
    change 0 < elapsed midFrame w.player.track
    have hfirst : firstFrame.elapsed midFrame = 1 / 48000 := by
      norm_num [midFrame, firstFrame, Span.elapsed]
    rw [htrack, elapsed_cons, hfirst]
    exact add_pos_of_pos_of_nonneg (by norm_num) (elapsed_nonneg midFrame behind)

theorem framesPushed_dropped :
    (framesPushed (512 + 1)).player.segments.length <
      (framesPushed (512 + 1)).player.track.length := by
  obtain ⟨hbefore, hstarted, -, hfull⟩ := framesPushed_grows 511
  obtain ⟨-, ⟨source, hsource⟩, segment, hsegment⟩ := hbefore.step
  rw [← framesPushed_succ] at hsegment hsource
  rw [hsegment, length_trimSegments, hfull (by omega), if_pos (by omega), Player.track,
    List.length_map, hsource, List.length_append, hstarted]
  omega

/-- While the first frame is at the speakers, the position stands still. -/
theorem position_stands_still :
    ¬ ∀ (format : Format) (startBufferSeconds startMaxWaitMs now : ℚ) (events : List (Event ℚ)),
      ((World.initial format startBufferSeconds startMaxWaitMs now).run
        events).player.context = true →
      ((World.initial format startBufferSeconds startMaxWaitMs now).run events).played =
        ((World.initial format startBufferSeconds startMaxWaitMs now).run events).heardSeconds := by
  intro hclaim
  obtain ⟨hahead, -, ⟨behind, htrack⟩, -⟩ := framesPushed_grows 512
  have hright := hclaim mono24k 0 0 0
    (List.replicate (512 + 1) (.push frame) ++ [.advance midFrame])
  rw [run_framesPushed (512 + 1) midFrame] at hright
  obtain ⟨hcontext, hstill, hheard⟩ :=
    hahead.stands_still (framesPushed_counted (512 + 1)) htrack framesPushed_dropped
  rw [hright hcontext] at hstill
  exact absurd hstill hheard.ne'

end FastTts.PcmPlayback
