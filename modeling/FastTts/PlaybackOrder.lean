import FastTts.SpeakerMoves

/-!
# The order of the buffers

The bytes of all pushes are cut into buffers of whole frames. Each buffer waits or is started,
behind all buffers before it; `finish` starts what waits, and a stopped player starts nothing.
-/

namespace FastTts.PcmPlayback

open Timelines

variable {F : Type} [Field F] [LinearOrder F] [IsStrictOrderedRing F]

namespace Player

/-- All buffers so far, those that the speakers have and those that wait. -/
def audios (p : Player F) : List (AudioBuffer F) := p.started.map Source.audio ++ p.pending

/-- A player that takes and plays what is pushed. -/
structure Open (p : Player F) : Prop where
  context : p.context = true
  running : p.stopped = false
  unfinished : p.drainResolver = false

omit [IsStrictOrderedRing F]

variable {now : F} {p : Player F}

theorem scheduleBuffer_started (hcontext : p.context = true) (audio : AudioBuffer F) :
    ∃ source, source.audio = audio ∧
      (p.scheduleBuffer now audio).started = p.started ++ [source] := by
  unfold scheduleBuffer
  rw [if_pos hcontext]
  exact ⟨_, rfl, rfl⟩

/-- What scheduling leaves alone. -/
structure SameInput (p q : Player F) : Prop where
  format : q.format = p.format
  context : q.context = p.context
  running : q.stopped = p.stopped
  unfinished : q.drainResolver = p.drainResolver
  carry : q.carry = p.carry

omit [Field F] [LinearOrder F] in
theorem SameInput.refl (p : Player F) : SameInput p p := ⟨rfl, rfl, rfl, rfl, rfl⟩

omit [Field F] [LinearOrder F] in
theorem SameInput.trans {q r : Player F} (h : SameInput p q) (h' : SameInput q r) : SameInput p r :=
  ⟨h'.format.trans h.format, h'.context.trans h.context, h'.running.trans h.running,
    h'.unfinished.trans h.unfinished, h'.carry.trans h.carry⟩

theorem scheduleBuffer_same (now : F) (p : Player F) (audio : AudioBuffer F) :
    SameInput p (p.scheduleBuffer now audio) := by
  unfold scheduleBuffer
  split <;> exact ⟨rfl, rfl, rfl, rfl, rfl⟩

theorem scheduleBuffer_pending (now : F) (p : Player F) (audio : AudioBuffer F) :
    (p.scheduleBuffer now audio).pending = p.pending := by
  unfold scheduleBuffer
  split <;> rfl

theorem scheduleAll (queued : List (AudioBuffer F)) (hcontext : p.context = true) :
    SameInput p (queued.foldl (scheduleBuffer now) p) ∧
      (queued.foldl (scheduleBuffer now) p).pending = p.pending ∧
      (queued.foldl (scheduleBuffer now) p).started.map Source.audio =
        p.started.map Source.audio ++ queued := by
  induction queued generalizing p with
  | nil => exact ⟨.refl p, rfl, (List.append_nil _).symm⟩
  | cons audio queued ih =>
    have hsame := scheduleBuffer_same now p audio
    obtain ⟨source, haudio, hstarted⟩ := scheduleBuffer_started hcontext audio
    obtain ⟨hrest, hpending, hall⟩ := ih (hsame.context.trans hcontext)
    refine ⟨hsame.trans hrest, hpending.trans (scheduleBuffer_pending now p audio), ?_⟩
    rw [List.foldl_cons, hall, hstarted, List.map_append, List.map_singleton, haudio,
      List.append_assoc, List.singleton_append]

theorem resume_same (now : F) (p : Player F) :
    SameInput p (p.resume now) ∧ (p.resume now).started = p.started ∧
      (p.resume now).pending = p.pending := by
  unfold resume
  split_ifs <;> exact ⟨⟨rfl, rfl, rfl, rfl, rfl⟩, rfl, rfl⟩

theorem flushPending_audios (now : F) (hcontext : p.context = true) :
    SameInput p (p.flushPending now) ∧ (p.flushPending now).pending = [] ∧
      (p.flushPending now).audios = p.audios := by
  unfold flushPending
  rw [if_pos hcontext]
  obtain ⟨hsame, hstarted, -⟩ := resume_same now { p with startTimer := none }
  set q := { p with startTimer := none }.resume now
  obtain ⟨hrest, hpending, hall⟩ := scheduleAll p.pending
    (p := q.takePending) (hsame.context.trans hcontext)
  have htimer : SameInput p { p with startTimer := none } := ⟨rfl, rfl, rfl, rfl, rfl⟩
  have htaken : SameInput q q.takePending := ⟨rfl, rfl, rfl, rfl, rfl⟩
  refine ⟨htimer.trans (hsame.trans (htaken.trans hrest)), hpending, ?_⟩
  rw [audios, hpending, hall]
  change List.map Source.audio q.started ++ p.pending ++ [] = _
  rw [hstarted, List.append_nil]
  rfl

theorem noteUnderrun_same (now : F) (p : Player F) :
    SameInput p (p.noteUnderrun now) ∧ (p.noteUnderrun now).audios = p.audios ∧
      (p.noteUnderrun now).begun = p.begun := by
  unfold noteUnderrun
  split <;> exact ⟨⟨rfl, rfl, rfl, rfl, rfl⟩, rfl, rfl⟩

theorem reserve_audios (hcontext : p.context = true) (audio : AudioBuffer F) :
    SameInput p (p.reserve now audio) ∧ (p.reserve now audio).audios = p.audios ++ [audio] := by
  have hhold : SameInput p (p.hold audio) := ⟨rfl, rfl, rfl, rfl, rfl⟩
  have haudios : (p.hold audio).audios = p.audios ++ [audio] := (List.append_assoc _ _ _).symm
  unfold reserve
  dsimp only
  split_ifs
  · obtain ⟨hsame, -, hflushed⟩ := flushPending_audios now (p := p.hold audio) hcontext
    exact ⟨hhold.trans hsame, hflushed.trans haudios⟩
  · exact ⟨⟨rfl, rfl, rfl, rfl, rfl⟩, haudios⟩
  · exact ⟨hhold, haudios⟩

/-- Nothing waits unless a reserve is gathered. -/
def Prompt (p : Player F) : Prop := p.begun = true → p.rebuffering = false → p.pending = []

theorem reserve_prompt (hcontext : p.context = true) (h : p.begun = true → p.rebuffering = true)
    (audio : AudioBuffer F) : (p.reserve now audio).Prompt := by
  unfold reserve
  dsimp only
  split_ifs
  · exact fun _ _ => (flushPending_audios now (p := p.hold audio) hcontext).2.1
  all_goals
    intro hbegun hplaying
    exact absurd ((h hbegun).symm.trans hplaying) (by decide)

theorem receive_audios (hcontext : p.context = true) (h : p.Prompt) (audio : AudioBuffer F) :
    SameInput p (p.receive now audio) ∧ (p.receive now audio).Prompt ∧
      (p.receive now audio).audios = p.audios ++ [audio] := by
  unfold receive
  dsimp only
  have hcount : SameInput p { p with
      receivedSeconds := p.receivedSeconds + audio.seconds p.format } := ⟨rfl, rfl, rfl, rfl, rfl⟩
  obtain ⟨hnoted, haudios, hbegun⟩ := noteUnderrun_same now { p with
    receivedSeconds := p.receivedSeconds + audio.seconds p.format }
  have hpending : p.Prompt → ({ p with
      receivedSeconds := p.receivedSeconds + audio.seconds p.format }.noteUnderrun now).Prompt := by
    intro hprompt
    unfold noteUnderrun
    split
    · exact fun _ hplaying => nomatch hplaying
    · exact hprompt
  set q := { p with
    receivedSeconds := p.receivedSeconds + audio.seconds p.format }.noteUnderrun now
  have hsame := hcount.trans hnoted
  have hq : q.context = true := hsame.context.trans hcontext
  split_ifs with hheld
  · obtain ⟨hreserved, hbehind⟩ := reserve_audios hq audio
    refine ⟨hsame.trans hreserved, reserve_prompt hq (fun hbegun => ?_) audio, hbehind.trans ?_⟩
    · simpa [hbegun] using hheld
    · rw [haudios]
      rfl
  · have hfree : q.begun = true ∧ q.rebuffering = false := by simpa using hheld
    have hnone : q.pending = [] := hpending h hfree.1 hfree.2
    obtain ⟨source, hsource, hstarted⟩ := scheduleBuffer_started hq audio
    have hwaits : (q.scheduleBuffer now audio).pending = [] :=
      (scheduleBuffer_pending now q audio).trans hnone
    refine ⟨hsame.trans (scheduleBuffer_same now q audio), fun _ _ => hwaits, ?_⟩
    have hbefore : q.started.map Source.audio = p.audios := by
      rw [← List.append_nil (q.started.map Source.audio), ← hnone]
      exact haudios
    rw [audios, hwaits, hstarted, List.map_append, List.map_singleton, hsource, List.append_nil,
      hbefore]

/-- The bytes so far are cut into buffers, in order, up to the carry. -/
structure Framed (format : Format) (input : Bytes) (p : Player F) : Prop where
  format_eq : p.format = format
  opened : p.Open
  prompt : p.Prompt
  short : p.carry.length < format.frameBytes
  pieces : ∃ pieces : List Bytes, input = pieces.flatten ++ p.carry ∧
    (∀ piece ∈ pieces, format.frameBytes ∣ piece.length) ∧
      p.audios = pieces.map (decodeBuffer format)

omit [Field F] [LinearOrder F] in
theorem Open.of_same {q : Player F} (h : p.Open) (hsame : SameInput p q) : q.Open :=
  ⟨hsame.context.trans h.context, hsame.running.trans h.running,
    hsame.unfinished.trans h.unfinished⟩

theorem push_framed {format : Format} {input : Bytes} (h : Framed format input p) (now : F)
    (chunk : Bytes) : Framed format (input ++ chunk) (orSame p (p.push now chunk)) := by
  obtain ⟨rfl, hopened, hprompt, hshort, pieces, hinput, hpieces, haudios⟩ := h
  have hpos := p.format.frameBytes_pos
  unfold push
  dsimp only
  set data := p.carry ++ chunk with hdata
  set completeBytes := data.length - data.length % p.format.frameBytes with hcomplete
  have hall : input ++ chunk = pieces.flatten ++ data := by rw [hinput, List.append_assoc]
  have hmod := Nat.mod_lt data.length hpos
  have hrest : (data.drop completeBytes).length < p.format.frameBytes := by
    rw [List.length_drop]
    omega
  split_ifs with hskip hclosed hnone
  · rcases hskip with rfl | hstopped
    · rw [List.append_nil]
      exact ⟨rfl, hopened, hprompt, hshort, pieces, hinput, hpieces, haudios⟩
    · exact absurd (hstopped.symm.trans hopened.running) (by decide)
  · exact absurd (hclosed.symm.trans hopened.context) (by decide)
  · refine ⟨rfl, ⟨hopened.context, hopened.running, hopened.unfinished⟩, hprompt, hrest, pieces,
      ?_, hpieces, haudios⟩
    rw [hall]
    change _ = pieces.flatten ++ data.drop completeBytes
    rw [hnone, List.drop_zero]
  · set q := { p with carry := data.drop completeBytes }
    have hopen : q.Open := ⟨hopened.context, hopened.running, hopened.unfinished⟩
    obtain ⟨hsame, hstill, hbehind⟩ := receive_audios (p := q) hopened.context hprompt
      (decodeBuffer p.format (data.take completeBytes))
    refine ⟨hsame.format, hopen.of_same hsame, hstill, ?_, pieces ++ [data.take completeBytes], ?_,
      fun piece hpiece => ?_, ?_⟩
    · exact lt_of_eq_of_lt (congrArg List.length hsame.carry) hrest
    · refine Eq.trans ?_ (congrArg (_ ++ ·) hsame.carry.symm)
      rw [hall, List.flatten_append, List.flatten_singleton, List.append_assoc]
      exact congrArg (_ ++ ·) (List.take_append_drop _ _).symm
    · rcases List.mem_append.mp hpiece with hold | hnew
      · exact hpieces piece hold
      · rw [List.mem_singleton.mp hnew, List.length_take_of_le (Nat.sub_le _ _)]
        exact Nat.dvd_sub_mod data.length
    · refine hbehind.trans ?_
      rw [List.map_append, List.map_singleton, ← haudios]
      rfl

end Player

/-! ## Runs of the player -/

section Runs

def Event.ends : Event F → Bool
  | .finish => true
  | .stop => true
  | _ => false

omit [IsStrictOrderedRing F]

theorem Player.poll_same (now : F) (p : Player F) :
    SameInput p (p.poll now) ∧ (p.poll now).started = p.started ∧
      (p.poll now).pending = p.pending := by
  unfold Player.poll
  split <;> exact ⟨⟨rfl, rfl, rfl, rfl, rfl⟩, rfl, rfl⟩

variable {format : Format} {input : Bytes} {p : Player F} {w : World F}

section

variable (h : p.Framed format input) (now : F)
include h

theorem Player.poll_framed : (p.poll now).Framed format input := by
  unfold Player.poll
  split
  · exact ⟨h.format_eq, ⟨h.opened.context, h.opened.running, h.opened.unfinished⟩, h.prompt,
      h.short, h.pieces⟩
  · exact h

theorem Player.timeOut_framed : (p.timeOut now).Framed format input := by
  unfold Player.timeOut
  dsimp only
  rw [if_neg (by simp [h.opened.running])]
  have hopen : Open { p with startTimer := none } :=
    ⟨h.opened.context, h.opened.running, h.opened.unfinished⟩
  obtain ⟨hsame, hnone, haudios⟩ :=
    flushPending_audios now (p := { p with startTimer := none }) h.opened.context
  obtain ⟨pieces, hinput, hpieces, hall⟩ := h.pieces
  refine ⟨hsame.format.trans h.format_eq, hopen.of_same hsame, fun _ _ => hnone, ?_, pieces, ?_,
    hpieces, haudios.trans hall⟩
  · exact lt_of_eq_of_lt (congrArg List.length hsame.carry) h.short
  · exact hinput.trans (congrArg (_ ++ ·) hsame.carry.symm)

theorem Player.ended_framed (source : ℕ) : (p.ended now source).Framed format input := by
  unfold Player.ended
  dsimp only
  rw [h.opened.unfinished, Bool.and_false]
  exact ⟨h.format_eq, ⟨h.opened.context, h.opened.running, rfl⟩, h.prompt, h.short, h.pieces⟩

end

theorem World.step_framed (h : w.player.Framed format input) {event : Event F}
    (hevent : event.ends = false) : (w.step event).player.Framed format (input ++ event.chunk) := by
  cases event <;> simp only [Event.chunk, List.append_nil, World.step]
  case push chunk => exact Player.push_framed h w.clock chunk
  case finish => cases hevent
  case stop => cases hevent
  case advance time => exact h
  case timeOut =>
    split
    · exact Player.timeOut_framed h w.clock
    · exact h
  case ended source =>
    split
    · exact Player.ended_framed h w.clock source
    · exact h
  case poll => exact Player.poll_framed h w.clock
  case setStartBuffer seconds maxWaitMs =>
    change (orSame w.player (w.player.setStartBuffer seconds maxWaitMs)).Framed format input
    unfold Player.setStartBuffer
    split_ifs
    · exact h
    · exact h
    · exact ⟨h.format_eq, ⟨h.opened.context, h.opened.running, h.opened.unfinished⟩, h.prompt,
        h.short, h.pieces⟩
  case setInitialPlaybackLeadSeconds seconds =>
    change (orSame w.player (w.player.setInitialPlaybackLeadSeconds seconds)).Framed format input
    unfold Player.setInitialPlaybackLeadSeconds
    split_ifs
    · exact h
    · exact h
    · exact ⟨h.format_eq, ⟨h.opened.context, h.opened.running, h.opened.unfinished⟩, h.prompt,
        h.short, h.pieces⟩

theorem World.run_framed (h : w.player.Framed format input) (events : List (Event F))
    (hevents : ∀ event ∈ events, event.ends = false) :
    (w.run events).player.Framed format (input ++ pushed events) := by
  induction events generalizing w input with
  | nil =>
    rw [pushed, List.flatMap_nil, List.append_nil]
    exact h
  | cons event events ih =>
    have hstep := World.step_framed h (hevents event List.mem_cons_self)
    have hrun := ih hstep fun other hother => hevents other (List.mem_cons_of_mem event hother)
    rwa [List.append_assoc] at hrun

omit [LinearOrder F] in
theorem framed_initial (format : Format) (startBufferSeconds startMaxWaitMs now : F) :
    (World.initial format startBufferSeconds startMaxWaitMs now).player.Framed format [] :=
  ⟨rfl, ⟨rfl, rfl, rfl⟩, fun _ _ => rfl, format.frameBytes_pos, [], rfl, nofun, rfl⟩

/-! ## The end of a run -/

/-- What a stopped player does: nothing. -/
structure Player.Rests (p q : Player F) : Prop where
  stopped : q.stopped = true
  started : q.started = p.started
  closed : p.context = false → q.context = false ∧ q.lastPlayedSeconds = p.lastPlayedSeconds

section

variable (h : p.stopped = true)
include h

omit [Field F] [LinearOrder F] in
theorem Player.Rests.refl : Rests p p :=
  ⟨h, rfl, fun hclosed => ⟨hclosed, rfl⟩⟩

theorem Player.poll_rests (now : F) : Rests p (p.poll now) := by
  obtain ⟨hsame, hstarted, -⟩ := poll_same now p
  refine ⟨hsame.running.trans h, hstarted, fun hclosed => ⟨hsame.context.trans hclosed, ?_⟩⟩
  rw [poll, if_neg (by simp [hclosed])]

theorem Player.timeOut_rests (now : F) : Rests p (p.timeOut now) := by
  rw [timeOut, if_pos h]
  exact ⟨h, rfl, fun hclosed => ⟨hclosed, rfl⟩⟩

theorem Player.ended_rests (now : F) (source : ℕ) : Rests p (p.ended now source) := by
  unfold ended
  dsimp only
  split
  · obtain ⟨-, hstarted, hclosed⟩ := poll_rests
      (p := { p with sources := p.sources.erase source, drainResolver := false }) h now
    exact ⟨rfl, hstarted, fun hp => ⟨rfl, (hclosed hp).2⟩⟩
  · exact ⟨h, rfl, fun hclosed => ⟨hclosed, rfl⟩⟩

end

theorem World.step_rests (h : w.player.stopped = true) (event : Event F) :
    w.player.Rests (w.step event).player := by
  cases event with
  | push chunk =>
    change w.player.Rests (orSame w.player (w.player.push w.clock chunk))
    rw [Player.push, if_pos (.inr h)]
    exact .refl h
  | advance time => exact .refl h
  | timeOut =>
    simp only [World.step]
    split
    · exact Player.timeOut_rests h w.clock
    · exact .refl h
  | ended source =>
    simp only [World.step]
    split
    · exact Player.ended_rests h w.clock source
    · exact .refl h
  | poll => exact Player.poll_rests h w.clock
  | finish =>
    change w.player.Rests (w.player.finish w.clock)
    rw [Player.finish, if_pos (.inr h)]
    exact .refl h
  | stop =>
    change w.player.Rests (w.player.stop w.clock)
    rw [Player.stop, if_pos h]
    exact .refl h
  | setStartBuffer seconds maxWaitMs =>
    change w.player.Rests (orSame w.player (w.player.setStartBuffer seconds maxWaitMs))
    unfold Player.setStartBuffer
    split_ifs <;> exact ⟨h, rfl, fun hclosed => ⟨hclosed, rfl⟩⟩
  | setInitialPlaybackLeadSeconds seconds =>
    change w.player.Rests (orSame w.player (w.player.setInitialPlaybackLeadSeconds seconds))
    unfold Player.setInitialPlaybackLeadSeconds
    split_ifs <;> exact ⟨h, rfl, fun hclosed => ⟨hclosed, rfl⟩⟩

theorem World.run_rests (h : w.player.stopped = true) (events : List (Event F)) :
    w.player.Rests (w.run events).player := by
  induction events generalizing w with
  | nil => exact .refl h
  | cons event events ih =>
    obtain ⟨hstopped, hstarted, hclosed⟩ := World.step_rests h event
    obtain ⟨hstill, hsame, hlast⟩ := ih hstopped
    exact ⟨hstill, hsame.trans hstarted, fun hp =>
      ⟨(hlast (hclosed hp).1).1, (hlast (hclosed hp).1).2.trans (hclosed hp).2⟩⟩

theorem Player.stop_stopped (now : F) (p : Player F) :
    (p.stop now).stopped = true ∧ (p.stop now).started = p.started := by
  unfold Player.stop
  split
  · next h => exact ⟨h, rfl⟩
  · exact ⟨rfl, (poll_same now _).2.1⟩

theorem Player.flushPending_drained (h : p.pending = []) (now : F) :
    (p.flushPending now).pending = [] ∧ (p.flushPending now).started = p.started := by
  unfold Player.flushPending
  split
  · obtain ⟨-, hstarted, -⟩ := resume_same now { p with startTimer := none }
    set q := { p with startTimer := none }.resume now
    rw [h]
    exact ⟨rfl, hstarted⟩
  · exact ⟨h, rfl⟩

theorem Player.releaseContext_drained (h : p.pending = []) (now : F) :
    (p.releaseContext now).pending = [] ∧ (p.releaseContext now).started = p.started := by
  obtain ⟨-, hstarted, hpending⟩ := poll_same now p
  exact ⟨hpending.trans h, hstarted⟩

theorem Player.finish_drained (h : p.pending = []) (now : F) :
    (p.finish now).pending = [] ∧ (p.finish now).started = p.started := by
  unfold Player.finish
  dsimp only
  rw [if_pos (List.isEmpty_iff.mpr h)]
  split_ifs
  · exact ⟨h, rfl⟩
  · exact releaseContext_drained (p := { p with carry := [], startTimer := none }) h now
  · exact ⟨h, rfl⟩

theorem World.step_drained (h : w.player.pending = []) {event : Event F}
    (hevent : event.chunk = []) :
    (w.step event).player.pending = [] ∧ (w.step event).player.started = w.player.started := by
  cases event with
  | push chunk =>
    obtain rfl : chunk = [] := hevent
    change (orSame w.player (w.player.push w.clock [])).pending = [] ∧
      (orSame w.player (w.player.push w.clock [])).started = _
    rw [Player.push, if_pos (.inl rfl)]
    exact ⟨h, rfl⟩
  | advance time => exact ⟨h, rfl⟩
  | timeOut =>
    simp only [World.step]
    split
    · change (w.player.timeOut w.clock).pending = [] ∧ (w.player.timeOut w.clock).started = _
      unfold Player.timeOut
      dsimp only
      split
      · exact ⟨h, rfl⟩
      · exact Player.flushPending_drained (p := { w.player with startTimer := none }) h w.clock
    · exact ⟨h, rfl⟩
  | ended source =>
    simp only [World.step]
    split
    · change (w.player.ended w.clock source).pending = [] ∧
        (w.player.ended w.clock source).started = _
      unfold Player.ended
      dsimp only
      set q := { w.player with sources := w.player.sources.erase source }
      split
      · exact Player.releaseContext_drained (p := { q with drainResolver := false }) h w.clock
      · exact ⟨h, rfl⟩
    · exact ⟨h, rfl⟩
  | poll =>
    obtain ⟨-, hstarted, hpending⟩ := Player.poll_same w.clock w.player
    exact ⟨hpending.trans h, hstarted⟩
  | finish => exact Player.finish_drained h w.clock
  | stop =>
    change (w.player.stop w.clock).pending = [] ∧ (w.player.stop w.clock).started = _
    refine ⟨?_, (Player.stop_stopped w.clock w.player).2⟩
    unfold Player.stop
    split
    · exact h
    · exact (Player.poll_same w.clock _).2.2
  | setStartBuffer seconds maxWaitMs =>
    change (orSame w.player (w.player.setStartBuffer seconds maxWaitMs)).pending = [] ∧
      (orSame w.player (w.player.setStartBuffer seconds maxWaitMs)).started = _
    unfold Player.setStartBuffer
    split_ifs <;> exact ⟨h, rfl⟩
  | setInitialPlaybackLeadSeconds seconds =>
    change (orSame w.player (w.player.setInitialPlaybackLeadSeconds seconds)).pending = [] ∧
      (orSame w.player (w.player.setInitialPlaybackLeadSeconds seconds)).started = _
    unfold Player.setInitialPlaybackLeadSeconds
    split_ifs <;> exact ⟨h, rfl⟩

theorem World.run_drained (h : w.player.pending = []) (events : List (Event F))
    (hevents : ∀ event ∈ events, event.chunk = []) :
    (w.run events).player.started = w.player.started := by
  induction events generalizing w with
  | nil => rfl
  | cons event events ih =>
    obtain ⟨hpending, hstarted⟩ := World.step_drained h (hevents event List.mem_cons_self)
    exact (ih hpending fun other hother => hevents other (List.mem_cons_of_mem event hother)).trans
      hstarted

theorem Player.finish_audios (h : p.Open) (now : F) :
    (p.finish now).pending = [] ∧ (p.finish now).started.map Source.audio = p.audios := by
  by_cases hnone : p.pending = []
  · obtain ⟨hpending, hstarted⟩ := finish_drained hnone now
    refine ⟨hpending, ?_⟩
    rw [hstarted, audios, hnone, List.append_nil]
  · obtain ⟨-, hpending, haudios⟩ :=
      flushPending_audios now (p := { p with carry := [] }) h.context
    have hall : ({ p with carry := [] }.flushPending now).started.map Source.audio = p.audios := by
      rw [← List.append_nil (List.map _ _), ← hpending]
      exact haudios
    have hclosed : ¬(p.context = false ∨ p.stopped = true) := by simp [h.context, h.running]
    have hwaiting : ¬p.pending.isEmpty = true := by simpa using hnone
    unfold Player.finish
    dsimp only
    rw [if_neg hclosed, if_neg hwaiting]
    split
    · set q := { p with carry := [] }.flushPending now
      obtain ⟨hdrained, hstarted⟩ :=
        releaseContext_drained (p := { q with startTimer := none }) hpending now
      exact ⟨hdrained, (congrArg _ hstarted).trans hall⟩
    · exact ⟨hpending, hall⟩

/-! ## What the speakers play -/

/-- The samples of a channel that the speakers have been given. -/
def Player.heard (p : Player F) (channel : ℕ) : List F :=
  p.started.flatMap fun source => source.audio.channel channel

/-- What a run of the player gives to the speakers: buffers at times that have not passed and that
do not overlap, with the samples of the pushed bytes in their order; all of them with `finish`, and
no more behind `stop`. -/
structure Plays (format : Format) (events : List (Event F)) (w : World F) : Prop where
  told : ∀ source ∈ w.player.started, source.toldAt ≤ source.startAt
  orderly : Timelines.Orderly w.player.track
  inOrder : (∀ event ∈ events, event.ends = false) → ∀ channel < format.channels,
    w.player.heard channel <+: channelData format (pushed events) channel
  finished : (∀ event ∈ events, event.ends = false) →
    ∀ later : List (Event F), (∀ event ∈ later, event.chunk = []) →
      ∀ channel < format.channels, ((w.step .finish).run later).player.heard channel =
        channelData format (pushed events) channel
  stopped : ∀ later : List (Event F),
    ((w.step .stop).run later).player.started = w.player.started

omit [LinearOrder F] in
theorem Player.Framed.samples (h : p.Framed format input) {channel : ℕ}
    (hchannel : channel < format.channels) :
    p.audios.flatMap (fun audio => audio.channel channel) = channelData format input channel := by
  obtain ⟨pieces, hinput, hpieces, haudios⟩ := h.pieces
  rw [haudios, hinput, flatMap_decodeBuffer hpieces hchannel h.short]

omit [Field F] [LinearOrder F] in
theorem Player.heard_eq (p : Player F) (channel : ℕ) :
    p.heard channel = (p.started.map Source.audio).flatMap fun audio => audio.channel channel := by
  rw [Player.heard, List.flatMap_map]

end Runs

theorem run_plays (format : Format) (startBufferSeconds startMaxWaitMs now : F)
    (events : List (Event F)) :
    Plays format events
      ((World.initial format startBufferSeconds startMaxWaitMs now).run events) := by
  have htimed := World.run_timed (timed_initial format startBufferSeconds startMaxWaitMs now) events
  have hinitial := framed_initial format startBufferSeconds startMaxWaitMs now
  refine ⟨htimed.told, htimed.orderly, fun hevents channel hchannel => ?_,
    fun hevents later hlater channel hchannel => ?_, fun later => ?_⟩
  · have hframed := World.run_framed hinitial events hevents
    rw [List.nil_append] at hframed
    rw [← hframed.samples hchannel, Player.heard_eq, Player.audios, List.flatMap_append]
    exact List.prefix_append _ _
  · have hframed := World.run_framed hinitial events hevents
    rw [List.nil_append] at hframed
    set w := (World.initial format startBufferSeconds startMaxWaitMs now).run events
    obtain ⟨hpending, haudios⟩ := Player.finish_audios hframed.opened w.clock
    have hkept := World.run_drained (w := w.step .finish) hpending later hlater
    rw [Player.heard_eq, hkept, ← hframed.samples hchannel]
    exact congrArg (List.flatMap _) haudios
  · set w := (World.initial format startBufferSeconds startMaxWaitMs now).run events
    obtain ⟨hstopped, hstarted⟩ := Player.stop_stopped w.clock w.player
    exact (World.run_rests (w := w.step .stop) hstopped later).started.trans hstarted

def mono24k : Format := ⟨24000, 1, by decide, by decide⟩

/-- A frame that is cut between two pushes. -/
theorem run_plays_cut :
    Plays mono24k [.push [0x00], .advance 1, .push [0x80]]
      ((World.initial mono24k 0 0 (0 : ℚ)).run [.push [0x00], .advance 1, .push [0x80]]) :=
  run_plays mono24k 0 0 0 _

end FastTts.PcmPlayback
