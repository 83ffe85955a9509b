import FastTts.PcmPlayback

/-!
# What the speakers are told

All calls of a player act on the speakers by four moves: a buffer is started, playback begins or is
resumed, and the position is read. What holds behind every move holds in every run.
-/

namespace FastTts.PcmPlayback

open Timelines

variable {F : Type} [Field F] [LinearOrder F]

/-! ## What reaches the speakers -/

structure Speakers (F : Type) where
  format : Format
  nextStartTime : F
  begun : Bool
  segments : List (Segment F)
  scheduledSeconds : F
  lastPlayedSeconds : F
  started : List (Source F)

def Player.speakers (p : Player F) : Speakers F :=
  ⟨p.format, p.nextStartTime, p.begun, p.segments, p.scheduledSeconds, p.lastPlayedSeconds,
    p.started⟩

def Speakers.track (s : Speakers F) : List (Span F) := s.started.map (Source.span s.format)

def Speakers.position (now : F) (s : Speakers F) : F :=
  match s.segments.reverse.find? fun segment => decide (segment.ctxStart ≤ now) with
  | some segment =>
    min (segment.streamStart + (now - segment.ctxStart)) (segment.streamStart + segment.seconds)
  | none => s.lastPlayedSeconds

def Speakers.schedule (now startAt : F) (audio : AudioBuffer F) (s : Speakers F) : Speakers F :=
  { s with
    started := s.started ++ [⟨startAt, now, audio⟩]
    segments := Player.trimSegments
      (s.segments ++ [⟨startAt, s.scheduledSeconds, audio.seconds s.format⟩])
    scheduledSeconds := s.scheduledSeconds + audio.seconds s.format
    nextStartTime := startAt + audio.seconds s.format }

/-- All that the calls of a player do to the speakers. -/
inductive Move (now : F) : Speakers F → Speakers F → Prop
  | schedule {s : Speakers F} (audio : AudioBuffer F) {startAt : F} (hbegun : s.begun = true)
      (hnext : s.nextStartTime ≤ startAt) (hnow : now ≤ startAt) :
      Move now s (s.schedule now startAt audio)
  | begin {s : Speakers F} (lead : F) (hbegun : s.begun = false) :
      Move now s { s with begun := true, nextStartTime := now + lead }
  | resume {s : Speakers F} (hnext : s.nextStartTime ≤ now) :
      Move now s { s with nextStartTime := now + continuationLead }
  | poll (s : Speakers F) : Move now s { s with lastPlayedSeconds := s.position now }

abbrev Moves (now : F) : Speakers F → Speakers F → Prop := Relation.ReflTransGen (Move now)

variable [IsStrictOrderedRing F]

omit [LinearOrder F] [IsStrictOrderedRing F] in
@[simp] theorem Player.speakers_takePending (p : Player F) :
    p.takePending.speakers = p.speakers := rfl

omit [IsStrictOrderedRing F] in
@[simp] theorem Player.speakers_noteUnderrun (now : F) (p : Player F) :
    (p.noteUnderrun now).speakers = p.speakers := by
  unfold Player.noteUnderrun
  split <;> rfl

omit [IsStrictOrderedRing F] in
@[simp] theorem Player.begun_scheduleBuffer (now : F) (p : Player F) (audio : AudioBuffer F) :
    (p.scheduleBuffer now audio).begun = p.begun := by
  unfold Player.scheduleBuffer
  split <;> rfl

omit [IsStrictOrderedRing F] in
theorem Player.begun_resume (now : F) (p : Player F) : (p.resume now).begun = true := by
  unfold Player.resume
  split_ifs with hbegun
  · rfl
  all_goals exact Bool.of_not_eq_false hbegun

theorem Player.now_le_startTime (now : F) (p : Player F) : now ≤ p.startTime now := by
  refine le_trans (le_add_of_nonneg_right ?_) (le_max_right _ _)
  split_ifs
  · norm_num [continuationLead]
  · exact le_refl 0

variable {now : F} {p : Player F}

theorem Player.scheduleBuffer_moves (hbegun : p.begun = true) (audio : AudioBuffer F) :
    Moves now p.speakers (p.scheduleBuffer now audio).speakers := by
  unfold Player.scheduleBuffer
  split
  · exact .single (.schedule audio hbegun (le_max_left _ _) (p.now_le_startTime now))
  · exact .refl

theorem Player.scheduleAll_moves (queued : List (AudioBuffer F)) (hbegun : p.begun = true) :
    Moves now p.speakers (queued.foldl (Player.scheduleBuffer now) p).speakers := by
  induction queued generalizing p with
  | nil => exact .refl
  | cons audio queued ih =>
    exact (scheduleBuffer_moves hbegun audio).trans (ih (by simpa using hbegun))

omit [IsStrictOrderedRing F] in
theorem Player.resume_moves (now : F) (p : Player F) :
    Moves now p.speakers (p.resume now).speakers := by
  unfold Player.resume
  split_ifs with hbegun hrebuffering hnext
  · exact .single (.begin _ hbegun)
  · exact .single (.resume hnext)
  · exact .refl
  · exact .refl

theorem Player.flushPending_moves (now : F) (p : Player F) :
    Moves now p.speakers (p.flushPending now).speakers := by
  unfold Player.flushPending
  split
  · refine (resume_moves now { p with startTimer := none }).trans ?_
    have hbegun : ({ p with startTimer := none }.resume now).takePending.begun = true :=
      begun_resume now _
    exact scheduleAll_moves p.pending hbegun
  · exact .refl

theorem Player.reserve_moves (now : F) (audio : AudioBuffer F) (p : Player F) :
    Moves now p.speakers (p.reserve now audio).speakers := by
  unfold Player.reserve
  dsimp only
  split_ifs
  · exact flushPending_moves now (p.hold audio)
  · exact .refl
  · exact .refl

variable {q : Player F} {s s' : Speakers F}

theorem Player.receive_moves (h : q.speakers = p.speakers) (audio : AudioBuffer F) :
    Moves now p.speakers (q.receive now audio).speakers := by
  unfold Player.receive
  dsimp only
  set r := { q with
    receivedSeconds := q.receivedSeconds + audio.seconds q.format }.noteUnderrun now with hr
  have hsame : r.speakers = p.speakers := by
    rw [hr, speakers_noteUnderrun, ← h]
    rfl
  rw [← hsame]
  split_ifs with hheld
  · exact reserve_moves now audio r
  · refine scheduleBuffer_moves ?_ audio
    cases hbegun : r.begun <;> simp [hbegun] at hheld ⊢

theorem Player.push_moves (now : F) (chunk : Bytes) (p : Player F) :
    Moves now p.speakers (orSame p (p.push now chunk)).speakers := by
  unfold Player.push
  dsimp only
  set completeBytes := (p.carry ++ chunk).length - (p.carry ++ chunk).length % p.format.frameBytes
  split_ifs
  · exact .refl
  · exact .refl
  · exact .refl
  · exact receive_moves (q := { p with carry := (p.carry ++ chunk).drop completeBytes }) rfl _

omit [IsStrictOrderedRing F] in
theorem Player.poll_moves (now : F) (p : Player F) :
    Moves now p.speakers (p.poll now).speakers := by
  unfold Player.poll
  split
  · exact .single (.poll p.speakers)
  · exact .refl

omit [IsStrictOrderedRing F] in
theorem Player.releaseContext_moves (h : q.speakers = p.speakers) :
    Moves now p.speakers (q.releaseContext now).speakers := h ▸ poll_moves now q

theorem Player.finish_moves (now : F) (p : Player F) :
    Moves now p.speakers (p.finish now).speakers := by
  unfold Player.finish
  dsimp only
  split_ifs with hclosed hpending hsources hsources
  · exact .refl
  · exact releaseContext_moves rfl
  · exact .refl
  · exact (flushPending_moves now { p with carry := [] }).trans (releaseContext_moves rfl)
  · exact flushPending_moves now { p with carry := [] }

omit [IsStrictOrderedRing F] in
theorem Player.stop_moves (now : F) (p : Player F) :
    Moves now p.speakers (p.stop now).speakers := by
  unfold Player.stop
  split
  · exact .refl
  · exact releaseContext_moves rfl

theorem World.step_moves (w : World F) (event : Event F) :
    Moves w.clock w.player.speakers (w.step event).player.speakers := by
  cases event with
  | push chunk => exact Player.push_moves w.clock chunk w.player
  | advance time => exact .refl
  | timeOut =>
    simp only [World.step]
    split
    · change Moves w.clock w.player.speakers (w.player.timeOut w.clock).speakers
      unfold Player.timeOut
      dsimp only
      split
      · exact .refl
      · exact Player.flushPending_moves w.clock { w.player with startTimer := none }
    · exact .refl
  | ended source =>
    simp only [World.step]
    split
    · change Moves w.clock w.player.speakers (w.player.ended w.clock source).speakers
      unfold Player.ended
      dsimp only
      split
      · exact Player.releaseContext_moves rfl
      · exact .refl
    · exact .refl
  | poll => exact Player.poll_moves w.clock w.player
  | finish => exact Player.finish_moves w.clock w.player
  | stop => exact Player.stop_moves w.clock w.player
  | setStartBuffer seconds maxWaitMs =>
    change Moves w.clock _ (orSame w.player (w.player.setStartBuffer seconds maxWaitMs)).speakers
    unfold Player.setStartBuffer
    split_ifs <;> exact .refl
  | setInitialPlaybackLeadSeconds seconds =>
    change Moves w.clock _
      (orSame w.player (w.player.setInitialPlaybackLeadSeconds seconds)).speakers
    unfold Player.setInitialPlaybackLeadSeconds
    split_ifs <;> exact .refl

omit [IsStrictOrderedRing F] in
theorem World.clock_le_step (w : World F) (event : Event F) : w.clock ≤ (w.step event).clock := by
  cases event with
  | advance time => exact le_max_left _ _
  | timeOut =>
    simp only [World.step]
    split <;> exact le_refl _
  | ended source =>
    simp only [World.step]
    split <;> exact le_refl _
  | _ => exact le_refl _

/-! ## The times of the sources -/

structure Speakers.Timed (s : Speakers F) : Prop where
  told : ∀ source ∈ s.started, source.toldAt ≤ source.startAt
  orderly : Timelines.Orderly s.track
  next : ∀ span ∈ s.track, span.stop ≤ s.nextStartTime
  unbegun : s.begun = false → s.started = []

theorem AudioBuffer.seconds_nonneg (format : Format) (audio : AudioBuffer F) :
    0 ≤ audio.seconds format := div_nonneg (Nat.cast_nonneg _) (Nat.cast_nonneg _)

omit [LinearOrder F] [IsStrictOrderedRing F] in
@[simp] theorem Speakers.track_schedule (now startAt : F) (audio : AudioBuffer F) (s : Speakers F) :
    (s.schedule now startAt audio).track = s.track ++ [⟨startAt, audio.seconds s.format⟩] := by
  simp [Speakers.track, Speakers.schedule, Source.span]

theorem Move.timed (move : Move now s s') (h : s.Timed) : s'.Timed := by
  cases move with
  | @schedule audio startAt hbegun hnext hnow =>
    have hlater : startAt ≤ startAt + audio.seconds s.format :=
      le_add_of_nonneg_right (audio.seconds_nonneg s.format)
    refine ⟨fun source hsource => ?_, ?_, fun span hspan => ?_, fun hunbegun => ?_⟩
    · rcases List.mem_append.mp hsource with hold | hnew
      · exact h.told source hold
      · rw [List.mem_singleton.mp hnew]
        exact hnow
    · rw [Speakers.track_schedule]
      exact h.orderly.concat (audio.seconds_nonneg s.format) fun span hspan =>
        (h.next span hspan).trans hnext
    · rw [Speakers.track_schedule] at hspan
      rcases List.mem_append.mp hspan with hold | hnew
      · exact ((h.next span hold).trans hnext).trans hlater
      · rw [List.mem_singleton.mp hnew]
        exact le_refl _
    · exact absurd (hbegun.symm.trans hunbegun) (by decide)
  | begin lead hbegun =>
    have hnone : s.started = [] := h.unbegun hbegun
    refine ⟨h.told, h.orderly, fun span hspan => ?_, nofun⟩
    simp [Speakers.track, hnone] at hspan
  | resume hnext =>
    refine ⟨h.told, h.orderly, fun span hspan => ?_, h.unbegun⟩
    refine ((h.next span hspan).trans hnext).trans (le_add_of_nonneg_right ?_)
    norm_num [continuationLead]
  | poll => exact ⟨h.told, h.orderly, h.next, h.unbegun⟩

theorem Moves.timed (moves : Moves now s s') (h : s.Timed) : s'.Timed := by
  induction moves with
  | refl => exact h
  | tail _ move ih => exact move.timed ih

omit [IsStrictOrderedRing F] in
theorem timed_initial (format : Format) (startBufferSeconds startMaxWaitMs now : F) :
    (World.initial format startBufferSeconds startMaxWaitMs now).player.speakers.Timed :=
  ⟨nofun, Timelines.Orderly.nil, nofun, fun _ => rfl⟩

theorem World.run_timed {w : World F} (h : w.player.speakers.Timed) (events : List (Event F)) :
    (w.run events).player.speakers.Timed := by
  induction events generalizing w with
  | nil => exact h
  | cons event events ih => exact ih ((w.step_moves event).timed h)

end FastTts.PcmPlayback
