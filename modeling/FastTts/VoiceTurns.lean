import FastTts.StreamPlayer
import FastTts.Runs

/-!
# Turns of the voice view

Every final transcript starts a call of `sendVoiceTurn`, and all calls share the module's variables.
A step is what runs between two awaits: an event of the session, a call that goes on behind one of
its awaits, a promise that rejects, an event of the reply stream, a timer or a buffer that ends. A
call is known by its number; it makes at most one player and one abort controller, which bear the
same number. The tags of the messages and of the calls that were cut are there for the statements
only; what the page displays is left out.
-/

namespace FastTts.VoiceTurns

open StreamPlayer
open Function (update)

def isTrimmed (c : Char) : Bool :=
  ('\t' ≤ c && c ≤ '\r') || c == ' ' || c == '\u00a0' || c == '\u1680' ||
    ('\u2000' ≤ c && c ≤ '\u200a') || c == '\u2028' || c == '\u2029' || c == '\u202f' ||
    c == '\u205f' || c == '\u3000' || c == '\ufeff'

def isShown (text : String) : Bool := text.toList.any fun c => !isTrimmed c

inductive Role
  | user
  | assistant
  deriving DecidableEq

structure Message where
  role : Role
  content : String
  turn : ℕ
  deriving DecidableEq

inductive Failure
  | abort
  /-- `voiceReplyAborter.signal` of null. -/
  | typeError
  | other (message : String)
  deriving DecidableEq

/-- The await that a call stands at. -/
inductive Await
  | prime
  /-- In `start`, for the context. -/
  | context
  | start
  | fetch
  | read
  /-- `chatSpeak` has returned. -/
  | chatSpeak
  /-- In `finish`, for the last source of a player. -/
  | drain (player : ℕ)
  | finish
  | rejected (error : Failure)
  | returned
  deriving DecidableEq

structure Call where
  await : Await
  /-- `reply.text`. -/
  text : String
  /-- Whose abort controller the request listens to. -/
  signal : Option ℕ
  /-- `stopVoiceReply` ran while the call was under way. -/
  cut : Bool
  deriving DecidableEq

structure State where
  voiceConverse : Bool
  voiceError : Option Failure
  voiceChat : List Message
  voiceReplyPlayer : Option ℕ
  voiceReplyAborter : Option ℕ
  voiceSpeakingReply : Bool
  voiceReplyFinal : Bool
  voiceReplyCounter : ℕ
  calls : ℕ → Call
  players : ℕ → Player
  aborted : ℕ → Bool
  /-- The requests to `/v1/chat/speak` with their calls. -/
  requests : List (ℕ × List Message)

def initial (voiceConverse : Bool) : State where
  voiceConverse := voiceConverse
  voiceError := none
  voiceChat := []
  voiceReplyPlayer := none
  voiceReplyAborter := none
  voiceSpeakingReply := false
  voiceReplyFinal := true
  voiceReplyCounter := 0
  calls _ := ⟨.returned, "", none, false⟩
  players _ := .new 1
  aborted _ := false
  requests := []

inductive ChatEvent
  | token (text : String)
  | audio (chunk : Bytes) (late enough : Bool)
  | llmDone
  | error (message : String)
  | other

inductive Action
  | speechStarted
  | finalTranscript (text : Option String)
  | sessionError (message : String)
  | stopVoice
  | setConverse (voiceConverse : Bool)
  /-- The promise that the call awaits is fulfilled. -/
  | resume (turn : ℕ)
  /-- It is rejected; a request is aborted through its signal only. -/
  | reject (turn : ℕ) (error : Failure)
  | receive (turn : ℕ) (event : ChatEvent)
  | timer (player : ℕ)
  | ended (player : ℕ) (audio : Bytes)

namespace State

def setCall (s : State) (turn : ℕ) (call : Call) : State :=
  { s with calls := update s.calls turn call }

def setPlayer (s : State) (player : ℕ) (p : Player) : State :=
  { s with players := update s.players player p }

def setAwait (s : State) (turn : ℕ) (await : Await) : State :=
  s.setCall turn { s.calls turn with await := await }

@[simp] theorem calls_setCall (s : State) (turn : ℕ) (call : Call) :
    (s.setCall turn call).calls = update s.calls turn call := rfl

@[simp] theorem players_setPlayer (s : State) (player : ℕ) (p : Player) :
    (s.setPlayer player p).players = update s.players player p := rfl

/-- `voiceReplyAborter?.abort()`. -/
def abortReply (s : State) : State :=
  match s.voiceReplyAborter with
  | some aborter => { s with aborted := update s.aborted aborter true }
  | none => s

/-- `voiceReplyPlayer?.stop()`. -/
def stopPlayer (s : State) : State :=
  match s.voiceReplyPlayer with
  | some player => s.setPlayer player (s.players player).stop
  | none => s

def markCut (s : State) : State :=
  { s with calls := fun turn =>
      { s.calls turn with
        cut := (s.calls turn).cut || decide ((s.calls turn).await ≠ .returned) } }

def stopVoiceReply (s : State) : State :=
  { s.markCut.abortReply.stopPlayer with
    voiceReplyAborter := none, voiceReplyPlayer := none, voiceSpeakingReply := false }

/-- `sendVoiceTurn` up to its first await. -/
def sendVoiceTurn (s : State) (content : String) : State :=
  let s := s.stopVoiceReply
  let turn := s.voiceReplyCounter
  { s.setCall turn ⟨.prime, "", none, false⟩ with
    voiceChat := s.voiceChat ++ [⟨.user, content, turn⟩]
    voiceReplyCounter := turn + 1
    voiceSpeakingReply := true
    voiceReplyFinal := false
    voiceReplyAborter := some turn
    aborted := update s.aborted turn false }

/-- The block `finally`. -/
def leave (s : State) (turn : ℕ) : State :=
  { s.stopPlayer.setAwait turn .returned with
    voiceReplyPlayer := none, voiceSpeakingReply := false, voiceReplyFinal := true }

def appendReply (s : State) (turn : ℕ) : State :=
  if isShown (s.calls turn).text then
    { s with voiceChat := s.voiceChat ++ [⟨.assistant, (s.calls turn).text, turn⟩] }
  else s

/-- The block `catch`. -/
def fail (s : State) (turn : ℕ) (error : Failure) : State :=
  (if error = .abort then s.appendReply turn else { s with voiceError := some error }).leave turn

def makePlayer (s : State) (turn : ℕ) : State :=
  { (s.setPlayer turn (.new 1)).setAwait turn .context with voiceReplyPlayer := some turn }

/-- The history is sent, unless the signal has been aborted. -/
def sendHistory (s : State) (turn : ℕ) : State :=
  match s.voiceReplyAborter with
  | none => s.fail turn .typeError
  | some aborter =>
    let call := { s.calls turn with signal := some aborter }
    if s.aborted aborter then s.setCall turn { call with await := .rejected .abort }
    else
      let history := s.voiceChat.drop (s.voiceChat.length - 24)
      { s.setCall turn { call with await := .fetch } with
        requests := s.requests ++ [(turn, history)] }

/-- `voiceReplyPlayer?.finish()`. -/
def finishPlayer (s : State) (turn : ℕ) : State :=
  match s.voiceReplyPlayer with
  | none => s.setAwait turn .finish
  | some player =>
    let (p, waits) := (s.players player).finish
    (s.setPlayer player p).setAwait turn (if waits then .drain player else .finish)

def onEvent (s : State) (turn : ℕ) : ChatEvent → State
  | .token text => s.setCall turn { s.calls turn with text := (s.calls turn).text ++ text }
  | .audio chunk late enough =>
    match s.voiceReplyPlayer with
    | none => s
    | some player =>
      -- A throwing handler loses its frame, the stream goes on.
      s.setPlayer player (((s.players player).push late enough chunk).getD (s.players player))
  | .llmDone => { s with voiceReplyFinal := true }
  | .error message => { s with voiceError := some (.other message) }
  | .other => s

end State

def step (s : State) : Action → Option State
  | .speechStarted => some (if s.voiceSpeakingReply then s.stopVoiceReply else s)
  | .finalTranscript text =>
    match text with
    | some content =>
      some (if s.voiceConverse && isShown content then s.sendVoiceTurn content else s)
    | none => some s
  | .sessionError message => some { s with voiceError := some (.other message) }
  | .stopVoice => some s.stopVoiceReply
  | .setConverse voiceConverse => some { s with voiceConverse := voiceConverse }
  | .resume turn =>
    match (s.calls turn).await with
    | .prime => some (s.makePlayer turn)
    | .context =>
      some ((s.setPlayer turn { s.players turn with context := true }).setAwait turn .start)
    | .start => some (s.sendHistory turn)
    | .fetch => some (s.setAwait turn .read)
    | .read => some (s.setAwait turn .chatSpeak)
    | .chatSpeak => some (s.finishPlayer turn)
    | .drain player =>
      if (s.players player).drainResolver then none
      else some ((s.setPlayer player (s.players player).releaseContext).setAwait turn .finish)
    | .finish => some ((s.appendReply turn).leave turn)
    | .rejected error => some (s.fail turn error)
    | .returned => none
  | .reject turn error =>
    match (s.calls turn).await with
    | .prime | .context =>
      if error = .abort then none else some (s.setAwait turn (.rejected error))
    | .fetch | .read =>
      if error = .abort ∧ (s.calls turn).signal.all (fun aborter => !s.aborted aborter) then none
      else some (s.setAwait turn (.rejected error))
    | _ => none
  | .receive turn event =>
    match (s.calls turn).await with
    | .read => some (s.onEvent turn event)
    | _ => none
  | .timer player =>
    if (s.players player).startTimer then
      some (s.setPlayer player (s.players player).timeOut)
    else none
  | .ended player audio => some (s.setPlayer player ((s.players player).ended audio))

/-! ## What is asked of a step -/

def Action.turn : Action → Option ℕ
  | .resume turn => some turn
  | .reject turn _ => some turn
  | .receive turn _ => some turn
  | _ => none

/-- A step of a call leaves alone what belongs to other calls. -/
structure Own (turn : ℕ) (s s' : State) : Prop where
  players : ∀ other, other ≠ turn → s'.players other = s.players other
  aborted : ∀ other, other ≠ turn → s'.aborted other = s.aborted other
  player : ∀ other, other ≠ turn → s.voiceReplyPlayer = some other →
    s'.voiceReplyPlayer = some other
  aborter : ∀ other, other ≠ turn → s.voiceReplyAborter = some other →
    s'.voiceReplyAborter = some other
  /-- The flag is the last call's. -/
  speaking : turn + 1 < s.voiceReplyCounter → s'.voiceSpeakingReply = s.voiceSpeakingReply
  signal : ∀ other, (s'.calls turn).signal = some other → other = turn

/-- Every reply stands behind the message that it answers. -/
def Answered (chat : List Message) : Prop :=
  ∀ before m behind, chat = before ++ m :: behind → m.role = .assistant →
    ∃ earlier u, before = earlier ++ [u] ∧ u.role = .user ∧ u.turn = m.turn

structure Holds (s : State) (a : Action) (s' : State) : Prop where
  own : ∀ turn, a.turn = some turn → Own turn s s'
  requests : ∀ turn, (s.calls turn).cut = true →
    s'.requests.filter (fun r => r.1 = turn) = s.requests.filter fun r => r.1 = turn
  /-- The speakers get nothing more. -/
  segments : ∀ turn, (s.calls turn).cut = true →
    (s'.players turn).segments <+: (s.players turn).segments
  silent : ∀ turn, (s'.calls turn).cut = true → (s'.players turn).sources = []
  answered : Answered s'.voiceChat

/-- A turn starts when no earlier call is under way. -/
def Alone (s : State) : Action → Prop
  | .finalTranscript (some content) =>
    (s.voiceConverse && isShown content) = true → ∀ turn, (s.calls turn).await = .returned
  | _ => True

/-! ## The invariant of turns that do not overlap -/

theorem answered_nil : Answered [] := by
  intro before m behind h
  simp at h

variable {chat : List Message} {s s' : State} {turn d : ℕ} {a : Action}

variable {m : Message} {error : Failure}

theorem Answered.ask (h : Answered chat) (hm : m.role = .user) : Answered (chat ++ [m]) := by
  intro before m' behind heq hrole
  rcases List.eq_nil_or_concat behind with rfl | ⟨behind, last, rfl⟩
  · obtain ⟨-, hlast⟩ := List.append_inj' heq rfl
    cases hlast
    rw [hm] at hrole
    cases hrole
  · rw [List.concat_eq_append, ← List.cons_append, ← List.append_assoc] at heq
    exact h before m' behind (List.append_inj' heq rfl).1 hrole

theorem Answered.answer {u : Message} (h : Answered (chat ++ [u])) (hu : u.role = .user)
    (hturn : u.turn = m.turn) : Answered (chat ++ [u] ++ [m]) := by
  intro before m' behind heq hrole
  rcases List.eq_nil_or_concat behind with rfl | ⟨behind, last, rfl⟩
  · obtain ⟨hbefore, hlast⟩ := List.append_inj' heq rfl
    cases hlast
    exact ⟨chat, u, hbefore.symm, hu, hturn⟩
  · rw [List.concat_eq_append, ← List.cons_append, ← List.append_assoc] at heq
    exact h before m' behind (List.append_inj' heq rfl).1 hrole

structure Inv (s : State) : Prop where
  last : ∀ turn, (s.calls turn).await ≠ .returned → turn + 1 = s.voiceReplyCounter
  player : ∀ d, s.voiceReplyPlayer = some d → d + 1 = s.voiceReplyCounter ∧
    (s.calls d).await ≠ .returned ∧ (s.calls d).await ≠ .prime
  aborter : ∀ d, s.voiceReplyAborter = some d → d + 1 = s.voiceReplyCounter
  signal : ∀ turn d, (s.calls turn).signal = some d → d = turn
  settled : ∀ d, (s.players d).Settled
  quiet : ∀ d, s.voiceReplyPlayer ≠ some d → (s.players d).Quiet
  drain : ∀ turn d, (s.calls turn).await = .drain d → d = turn ∧ (s.players d).Draining
  cutAborter : ∀ turn, (s.calls turn).cut = true → (s.calls turn).await ≠ .returned →
    s.voiceReplyAborter = none
  cutQuiet : ∀ turn, (s.calls turn).cut = true → (s.players turn).Quiet
  cutPlayer : ∀ turn, (s.calls turn).cut = true → s.voiceReplyPlayer = some turn →
    (s.calls turn).await = .context ∨ (s.calls turn).await = .start ∨
      ∃ error, (s.calls turn).await = .rejected error
  asked : ∀ turn, (s.calls turn).await ≠ .returned →
    ∃ chat u, s.voiceChat = chat ++ [u] ∧ u.role = .user ∧ u.turn = turn
  answered : Answered s.voiceChat

theorem initial_inv (voiceConverse : Bool) : Inv (initial voiceConverse) where
  last _ h := absurd rfl h
  player _ h := nomatch h
  aborter _ h := nomatch h
  signal _ _ h := nomatch h
  settled _ := Player.settled_new 1
  quiet _ _ := Player.quiet_new 1
  drain _ _ h := nomatch h
  cutAborter _ h := nomatch h
  cutQuiet _ h := nomatch h
  cutPlayer _ h := nomatch h
  asked _ h := absurd rfl h
  answered := answered_nil

theorem players_stopPlayer (s : State) (d : ℕ) : s.stopPlayer.players d =
    if s.voiceReplyPlayer = some d then (s.players d).stop else s.players d := by
  unfold State.stopPlayer
  split
  · next player hplayer =>
    rw [hplayer]
    by_cases hd : d = player
    · subst hd
      rw [if_pos rfl]
      exact Function.update_self _ _ _
    · rw [if_neg fun h => hd (Option.some.inj h).symm]
      exact Function.update_of_ne hd _ _
  · next hplayer => rw [hplayer, if_neg nofun]

theorem players_stopPlayer_quiet (h : Inv s) (d : ℕ) :
    (s.stopPlayer.players d).Quiet ∧ (s.stopPlayer.players d).Settled := by
  rw [players_stopPlayer]
  split
  · exact ⟨Player.stop_quiet (h.settled d), Player.stop_settled (h.settled d)⟩
  · next hother => exact ⟨h.quiet d hother, h.settled d⟩

theorem stopVoiceReply_eq (s : State) :
    s.stopVoiceReply = { s with
      calls := s.markCut.calls, aborted := s.abortReply.aborted, players := s.stopPlayer.players,
      voiceReplyAborter := none, voiceReplyPlayer := none, voiceSpeakingReply := false } := by
  unfold State.stopVoiceReply State.stopPlayer State.abortReply
  cases haborter : s.voiceReplyAborter <;> cases hplayer : s.voiceReplyPlayer <;>
    simp [State.markCut, State.setPlayer, haborter, hplayer]

theorem stopVoiceReply_inv (h : Inv s) : Inv s.stopVoiceReply := by
  have hplayers := players_stopPlayer_quiet h
  rw [stopVoiceReply_eq]
  exact {
    last := h.last
    player := fun _ hd => nomatch hd
    aborter := fun _ hd => nomatch hd
    signal := h.signal
    settled := fun d => (hplayers d).2
    quiet := fun d _ => (hplayers d).1
    drain := fun turn d hd => by
      obtain ⟨hturn, -⟩ := h.drain turn d hd
      exact ⟨hturn, (hplayers d).1.2.1, fun _ => (hplayers d).1.1⟩
    cutAborter := fun _ _ _ => rfl
    cutQuiet := fun turn _ => (hplayers turn).1
    cutPlayer := fun _ _ hd => nomatch hd
    asked := h.asked
    answered := h.answered }

theorem sendVoiceTurn_inv (h : Inv s) (content : String)
    (halone : ∀ turn, (s.calls turn).await = .returned) : Inv (s.sendVoiceTurn content) := by
  have hstop := stopVoiceReply_inv h
  have hidle : ∀ turn, (s.stopVoiceReply.calls turn).await = .returned := by
    rw [stopVoiceReply_eq]
    exact halone
  have hnone : s.stopVoiceReply.voiceReplyPlayer = none := rfl
  unfold State.sendVoiceTurn
  generalize s.stopVoiceReply = s at hstop hidle hnone ⊢
  dsimp only [State.setCall]
  have hcalls : ∀ turn, (update s.calls s.voiceReplyCounter ⟨.prime, "", none, false⟩ turn).await ≠
      .returned → turn = s.voiceReplyCounter := by
    intro turn hturn
    by_contra hne
    rw [Function.update_of_ne hne] at hturn
    exact hturn (hidle turn)
  refine
    { last := fun turn hturn => congrArg (· + 1) (hcalls turn hturn)
      player := fun d hd => absurd (hnone.symm.trans hd) nofun
      aborter := fun d hd => by rw [← Option.some.inj hd]
      signal := fun turn d hd => ?_
      settled := hstop.settled
      quiet := fun d _ => hstop.quiet d (by rw [hnone]; exact nofun)
      drain := fun turn d hd => ?_
      cutAborter := fun turn hcut hturn => ?_
      cutQuiet := fun turn _ => hstop.quiet turn (by rw [hnone]; exact nofun)
      cutPlayer := fun turn _ hd => absurd (hnone.symm.trans hd) nofun
      asked := fun turn hturn => ⟨_, _, rfl, rfl, (hcalls turn hturn).symm⟩
      answered := hstop.answered.ask rfl }
  · dsimp only at hd
    by_cases hne : turn = s.voiceReplyCounter
    · subst hne
      simp at hd
    · rw [Function.update_of_ne hne] at hd
      exact hstop.signal turn d hd
  · have hturn := hcalls turn (by rw [hd]; exact nofun)
    subst hturn
    simp at hd
  · have heq := hcalls turn hturn
    subst heq
    simp at hcut

theorem Inv.unique (h : Inv s) {other : ℕ} (hturn : (s.calls turn).await ≠ .returned)
    (hother : (s.calls other).await ≠ .returned) : turn = other :=
  Nat.succ.inj ((h.last turn hturn).trans (h.last other hother).symm)

theorem leave_eq (s : State) (turn : ℕ) :
    s.leave turn = { s with
      calls := update s.calls turn { s.calls turn with await := .returned },
      players := s.stopPlayer.players, voiceReplyPlayer := none, voiceSpeakingReply := false,
      voiceReplyFinal := true } := by
  unfold State.leave State.stopPlayer
  cases hplayer : s.voiceReplyPlayer <;> rfl

section

variable (h : Inv s) (hlive : (s.calls turn).await ≠ .returned)
include h hlive

theorem leave_inv {error : Option Failure} (hchat : Answered chat) :
    Inv ({ s with voiceChat := chat, voiceError := error }.leave turn) := by
  have hplayers := players_stopPlayer_quiet h
  have hidle : ∀ other, (update s.calls turn { s.calls turn with await := .returned } other).await =
      .returned := by
    intro other
    by_cases hne : other = turn
    · rw [hne, Function.update_self]
    · rw [Function.update_of_ne hne]
      by_contra hother
      exact hne (h.unique hother hlive)
  have hsame : ({ s with voiceChat := chat, voiceError := error } : State).stopPlayer.players =
      s.stopPlayer.players := by
    funext d
    rw [players_stopPlayer, players_stopPlayer]
  rw [leave_eq, hsame]
  refine
    { last := fun other hother => absurd (hidle other) hother
      player := fun _ hd => nomatch hd
      aborter := h.aborter
      signal := fun other d hd => ?_
      settled := fun d => (hplayers d).2
      quiet := fun d _ => (hplayers d).1
      drain := fun other d hd => absurd ((hidle other).symm.trans hd) nofun
      cutAborter := fun other _ hother => absurd (hidle other) hother
      cutQuiet := fun other _ => (hplayers other).1
      cutPlayer := fun _ _ hd => nomatch hd
      asked := fun other hother => absurd (hidle other) hother
      answered := hchat }
  dsimp only at hd
  by_cases hne : other = turn
  · subst hne
    rw [Function.update_self] at hd
    exact h.signal other d hd
  · rw [Function.update_of_ne hne] at hd
    exact h.signal other d hd

theorem Inv.answered_append (text : String) :
    Answered (s.voiceChat ++ [⟨.assistant, text, turn⟩]) := by
  obtain ⟨chat, u, hchat, hu, hturn⟩ := h.asked turn hlive
  have hanswered := h.answered
  rw [hchat] at hanswered ⊢
  exact hanswered.answer hu hturn

theorem appendReply_leave_inv : Inv ((s.appendReply turn).leave turn) := by
  unfold State.appendReply
  split
  · exact leave_inv h hlive (h.answered_append hlive _)
  · exact leave_inv h hlive h.answered

theorem fail_inv (error : Failure) : Inv (s.fail turn error) := by
  unfold State.fail
  split
  · exact appendReply_leave_inv h hlive
  · exact leave_inv h hlive h.answered

theorem setCall_inv {call : Call}
    (hcut : call.cut = (s.calls turn).cut) (hsignal : ∀ d, call.signal = some d → d = turn)
    (hprime : call.await ≠ .prime ∧ call.await ≠ .returned)
    (hdrain : ∀ d, call.await = .drain d → d = turn ∧ (s.players d).Draining)
    (hplayer : call.cut = true → s.voiceReplyPlayer = some turn →
      call.await = .context ∨ call.await = .start ∨ ∃ error, call.await = .rejected error) :
    Inv (s.setCall turn call) := by
  have hself : (s.setCall turn call).calls turn = call := Function.update_self _ _ _
  have hother : ∀ other, other ≠ turn → (s.setCall turn call).calls other = s.calls other :=
    fun other hne => Function.update_of_ne hne _ _
  have hlives : ∀ other, ((s.setCall turn call).calls other).await ≠ .returned →
      (s.calls other).await ≠ .returned := by
    intro other hreturned
    by_cases hne : other = turn
    · rwa [hne]
    · rwa [hother other hne] at hreturned
  have hcuts : ∀ other, ((s.setCall turn call).calls other).cut = true →
      (s.calls other).cut = true := by
    intro other hcutOther
    by_cases hne : other = turn
    · rw [hne, hself] at hcutOther
      rwa [hne, ← hcut]
    · rwa [hother other hne] at hcutOther
  refine
    { last := fun other ho => h.last other (hlives other ho)
      player := fun d hd => ?_
      aborter := h.aborter
      signal := fun other d hd => ?_
      settled := h.settled
      quiet := h.quiet
      drain := fun other d hd => ?_
      cutAborter := fun other hc ho => h.cutAborter other (hcuts other hc) (hlives other ho)
      cutQuiet := fun other hc => h.cutQuiet other (hcuts other hc)
      cutPlayer := fun other hc hd => ?_
      asked := fun other ho => h.asked other (hlives other ho)
      answered := h.answered }
  · obtain ⟨hlast, hreturned, hnotPrime⟩ := h.player d hd
    have heq : d = turn := h.unique hreturned hlive
    subst heq
    rw [hself]
    exact ⟨hlast, hprime.2, hprime.1⟩
  · by_cases hne : other = turn
    · subst hne
      rw [hself] at hd
      exact hsignal d hd
    · rw [hother other hne] at hd
      exact h.signal other d hd
  · by_cases hne : other = turn
    · subst hne
      rw [hself] at hd
      exact hdrain d hd
    · rw [hother other hne] at hd
      exact h.drain other d hd
  · by_cases hne : other = turn
    · subst hne
      rw [hself] at hc ⊢
      exact hplayer hc hd
    · rw [hother other hne] at hc ⊢
      exact h.cutPlayer other hc hd

end

theorem Inv.quiet_of (h : Inv s) (hd : s.voiceReplyPlayer ≠ some d ∨ (s.calls d).cut = true) :
    (s.players d).Quiet :=
  hd.elim (h.quiet d) (h.cutQuiet d)

theorem setPlayer_inv {player : ℕ} {p : Player} (h : Inv s) (hsettled : p.Settled)
    (hquiet : s.voiceReplyPlayer ≠ some player ∨ (s.calls player).cut = true → p.Quiet)
    (hdrain : (s.calls player).await = .drain player → p.Draining) :
    Inv (s.setPlayer player p) := by
  have hself : (s.setPlayer player p).players player = p := Function.update_self _ _ _
  have hother : ∀ d, d ≠ player → (s.setPlayer player p).players d = s.players d :=
    fun d hne => Function.update_of_ne hne _ _
  have hquiets : ∀ d, s.voiceReplyPlayer ≠ some d ∨ (s.calls d).cut = true →
      ((s.setPlayer player p).players d).Quiet := by
    intro d hd
    by_cases hne : d = player
    · subst hne
      rw [hself]
      exact hquiet hd
    · rw [hother d hne]
      exact h.quiet_of hd
  refine
    { last := h.last
      player := h.player
      aborter := h.aborter
      signal := h.signal
      settled := fun d => ?_
      quiet := fun d hd => hquiets d (.inl hd)
      drain := fun turn d hd => ?_
      cutAborter := h.cutAborter
      cutQuiet := fun turn hc => hquiets turn (.inr hc)
      cutPlayer := h.cutPlayer
      asked := h.asked
      answered := h.answered }
  · by_cases hne : d = player
    · rwa [hne, hself]
    · rw [hother d hne]
      exact h.settled d
  · obtain ⟨rfl, hdraining⟩ := h.drain turn d hd
    refine ⟨rfl, ?_⟩
    by_cases hne : d = player
    · subst hne
      rw [hself]
      exact hdrain hd
    · rwa [hother d hne]

theorem Inv.congr (h : Inv s) (hcalls : s'.calls = s.calls) (hplayers : s'.players = s.players)
    (hplayer : s'.voiceReplyPlayer = s.voiceReplyPlayer)
    (haborter : s'.voiceReplyAborter = s.voiceReplyAborter)
    (hcounter : s'.voiceReplyCounter = s.voiceReplyCounter) (hchat : s'.voiceChat = s.voiceChat) :
    Inv s' := by
  obtain ⟨⟩ := h
  constructor
  all_goals simpa only [hcalls, hplayers, hplayer, haborter, hcounter, hchat]

theorem Inv.player_eq (h : Inv s) (hlive : (s.calls turn).await ≠ .returned)
    (hd : s.voiceReplyPlayer = some d) : d = turn :=
  h.unique (h.player d hd).2.1 hlive

theorem Inv.aborter_eq (h : Inv s) (hlive : (s.calls turn).await ≠ .returned)
    (hd : s.voiceReplyAborter = some d) : d = turn :=
  Nat.succ.inj ((h.aborter d hd).trans (h.last turn hlive).symm)

theorem Inv.not_cut (h : Inv s) {await : Await} (hawait : (s.calls turn).await = await)
    (hcontext : await ≠ .context) (hstart : await ≠ .start)
    (hrejected : ∀ error, await ≠ .rejected error) (hd : s.voiceReplyPlayer = some turn) :
    (s.calls turn).cut = false := by
  by_contra hcut
  rw [Bool.not_eq_false] at hcut
  rcases h.cutPlayer turn hcut hd with hc | hs | ⟨error, he⟩
  · exact hcontext (hawait.symm.trans hc)
  · exact hstart (hawait.symm.trans hs)
  · exact hrejected error (hawait.symm.trans he)

theorem setAwait_inv (h : Inv s) (hlive : (s.calls turn).await ≠ .returned) (await : Await)
    (hprime : await ≠ .prime ∧ await ≠ .returned)
    (hdrain : ∀ d, await = .drain d → d = turn ∧ (s.players d).Draining)
    (hplayer : (s.calls turn).cut = true → s.voiceReplyPlayer = some turn →
      await = .context ∨ await = .start ∨ ∃ error, await = .rejected error) :
    Inv (s.setAwait turn await) :=
  setCall_inv h hlive rfl (h.signal turn) hprime hdrain hplayer

@[simp] theorem await_setAwait (s : State) (turn : ℕ) (await : Await) :
    ((s.setAwait turn await).calls turn).await = await := by
  rw [State.setAwait, State.calls_setCall, Function.update_self]

section

variable (h : Inv s)
include h

theorem makePlayer_inv (hawait : (s.calls turn).await = .prime) : Inv (s.makePlayer turn) := by
  have hlive : (s.calls turn).await ≠ .returned := by
    rw [hawait]
    exact nofun
  have hnone : s.voiceReplyPlayer ≠ some turn := fun hd => (h.player turn hd).2.2 hawait
  have hplayer := setPlayer_inv h (Player.settled_new 1) (fun _ => Player.quiet_new 1)
    fun hd => absurd (hawait.symm.trans hd) nofun
  have hcall := setAwait_inv hplayer hlive .context ⟨nofun, nofun⟩ nofun fun _ _ => .inl rfl
  unfold State.makePlayer
  generalize hs' : (s.setPlayer turn (.new 1)).setAwait turn .context = s' at hcall ⊢
  have hvar : s'.voiceReplyPlayer ≠ some turn := by
    rw [← hs']
    exact hnone
  have hcontext : (s'.calls turn).await = .context := by
    rw [← hs']
    exact await_setAwait _ _ _
  have hlive' : (s'.calls turn).await ≠ .returned := by
    rw [hcontext]
    exact nofun
  refine
    { last := hcall.last
      player := fun d hd => ?_
      aborter := hcall.aborter
      signal := hcall.signal
      settled := hcall.settled
      quiet := fun d _ => hcall.quiet d fun hd => ?_
      drain := hcall.drain
      cutAborter := hcall.cutAborter
      cutQuiet := hcall.cutQuiet
      cutPlayer := fun other _ hd => ?_
      asked := hcall.asked
      answered := hcall.answered }
  · cases hd
    rw [hcontext]
    exact ⟨hcall.last turn hlive', nofun, nofun⟩
  · exact hvar (by rw [hd, hcall.player_eq hlive' hd])
  · cases hd
    exact .inl hcontext

theorem sendHistory_inv (hlive : (s.calls turn).await ≠ .returned) : Inv (s.sendHistory turn) := by
  unfold State.sendHistory
  split
  · exact fail_inv h hlive .typeError
  · next aborter haborter =>
    have hsignal : ∀ d, some aborter = some d → d = turn := by
      rintro d ⟨⟩
      exact h.aborter_eq hlive haborter
    have huncut : (s.calls turn).cut = true → False := fun hcut =>
      absurd ((h.cutAborter turn hcut hlive).symm.trans haborter) (by simp)
    dsimp only
    split
    · exact setCall_inv h hlive rfl hsignal ⟨by simp, by simp⟩ (by simp) fun hcut =>
        absurd hcut huncut
    · refine (setCall_inv h hlive rfl hsignal ⟨by simp, by simp⟩ (by simp) fun hcut =>
        absurd hcut huncut : Inv (s.setCall turn { s.calls turn with
          await := .fetch, signal := some aborter })).congr rfl rfl rfl rfl rfl rfl

theorem finishPlayer_inv (hawait : (s.calls turn).await = .chatSpeak) :
    Inv (s.finishPlayer turn) := by
  have hlive : (s.calls turn).await ≠ .returned := by simp [hawait]
  unfold State.finishPlayer
  split
  · next hnone =>
    exact setAwait_inv h hlive .finish ⟨by simp, by simp⟩ (by simp) fun _ hd =>
      absurd (hnone.symm.trans hd) (by simp)
  · next player hplayer =>
    have heq := h.player_eq hlive hplayer
    subst heq
    have huncut := h.not_cut hawait (by simp) (by simp) (by simp) hplayer
    obtain ⟨hsettled, hdraining⟩ := Player.finish_spec (h.settled player)
    dsimp only
    have hset : Inv (s.setPlayer player (s.players player).finish.1) := by
      refine setPlayer_inv h hsettled (fun hd => ?_) fun hd =>
        absurd (hawait.symm.trans hd) (by simp)
      rw [huncut] at hd
      exact hd.elim (absurd hplayer) (by simp)
    refine setAwait_inv hset hlive _ ?_ ?_ fun hcut => absurd (huncut.symm.trans hcut) (by simp)
    · split <;> exact ⟨by simp, by simp⟩
    · intro d hd
      split at hd
      · next hwaits =>
        cases hd
        refine ⟨rfl, ?_⟩
        rw [State.players_setPlayer, Function.update_self]
        exact hdraining hwaits
      · cases hd

theorem onEvent_inv (hawait : (s.calls turn).await = .read) (event : ChatEvent) :
    Inv (s.onEvent turn event) := by
  have hlive : (s.calls turn).await ≠ .returned := by simp [hawait]
  cases event with
  | token text =>
    refine setCall_inv h hlive rfl (h.signal turn) ⟨?_, hlive⟩ (h.drain turn) (h.cutPlayer turn)
    simp [hawait]
  | audio chunk late enough =>
    unfold State.onEvent
    dsimp only
    split
    · exact h
    · next player hplayer =>
      have heq := h.player_eq hlive hplayer
      subst heq
      have huncut := h.not_cut hawait (by simp) (by simp) (by simp) hplayer
      refine setPlayer_inv h (Player.push_settled late enough chunk (h.settled player))
        (fun hd => ?_) fun hd => absurd (hawait.symm.trans hd) (by simp)
      rw [huncut] at hd
      exact hd.elim (absurd hplayer) (by simp)
  | llmDone => exact h.congr rfl rfl rfl rfl rfl rfl
  | error message => exact h.congr rfl rfl rfl rfl rfl rfl
  | other => exact h

theorem resume_inv (hstep : step s (.resume turn) = some s') : Inv s' := by
  unfold step at hstep
  dsimp only at hstep
  have hlive : (s.calls turn).await ≠ .returned := by
    intro hreturned
    rw [hreturned] at hstep
    cases hstep
  cases hawait : (s.calls turn).await with
  | prime =>
    rw [hawait] at hstep
    cases hstep
    exact makePlayer_inv h hawait
  | context =>
    rw [hawait] at hstep
    cases hstep
    have hset : Inv (s.setPlayer turn { s.players turn with context := true }) :=
      setPlayer_inv h ⟨(h.settled turn).1, (h.settled turn).2⟩ (fun hd => h.quiet_of hd)
        fun hd => absurd (hawait.symm.trans hd) nofun
    exact setAwait_inv hset hlive .start ⟨nofun, nofun⟩ nofun fun _ _ => .inr (.inl rfl)
  | start =>
    rw [hawait] at hstep
    cases hstep
    exact sendHistory_inv h hlive
  | fetch =>
    rw [hawait] at hstep
    cases hstep
    refine setAwait_inv h hlive .read ⟨nofun, nofun⟩ nofun fun hcut hd => ?_
    exact absurd ((h.not_cut hawait nofun nofun nofun hd).symm.trans hcut) nofun
  | read =>
    rw [hawait] at hstep
    cases hstep
    refine setAwait_inv h hlive .chatSpeak ⟨nofun, nofun⟩ nofun fun hcut hd => ?_
    exact absurd ((h.not_cut hawait nofun nofun nofun hd).symm.trans hcut) nofun
  | chatSpeak =>
    rw [hawait] at hstep
    cases hstep
    exact finishPlayer_inv h hawait
  | drain player =>
    rw [hawait] at hstep
    dsimp only at hstep
    split at hstep
    · cases hstep
    · next hwoken =>
      cases hstep
      obtain ⟨rfl, hdraining⟩ := h.drain turn player hawait
      rw [Bool.not_eq_true] at hwoken
      have hset : Inv (s.setPlayer player (s.players player).releaseContext) :=
        setPlayer_inv h (Player.releaseContext_settled hdraining hwoken)
          (fun _ => ⟨hdraining.2 hwoken, hdraining.1, hwoken⟩) fun _ => hdraining
      refine setAwait_inv hset hlive .finish ⟨nofun, nofun⟩ nofun fun hcut hd => ?_
      exact absurd ((h.not_cut hawait nofun nofun nofun hd).symm.trans hcut) nofun
  | finish =>
    rw [hawait] at hstep
    cases hstep
    exact appendReply_leave_inv h hlive
  | rejected error =>
    rw [hawait] at hstep
    cases hstep
    exact fail_inv h hlive error
  | returned => exact absurd hawait hlive

theorem reject_inv (hstep : step s (.reject turn error) = some s') : Inv s' := by
  have hlive : (s.calls turn).await ≠ .returned := by
    intro hreturned
    simp only [step, hreturned] at hstep
    cases hstep
  have hrejected : Inv (s.setAwait turn (.rejected error)) :=
    setAwait_inv h hlive _ ⟨nofun, nofun⟩ nofun fun _ _ => .inr (.inr ⟨error, rfl⟩)
  unfold step at hstep
  dsimp only at hstep
  split at hstep
  all_goals first
    | cases hstep
    | split at hstep
      · cases hstep
      · cases hstep
        exact hrejected

theorem step_inv (halone : Alone s a) (hstep : step s a = some s') : Inv s' := by
  cases a with
  | speechStarted =>
    cases hstep
    split
    · exact stopVoiceReply_inv h
    · exact h
  | finalTranscript text =>
    cases text with
    | none =>
      cases hstep
      exact h
    | some content =>
      cases hstep
      split
      · next hstarts => exact sendVoiceTurn_inv h content (halone hstarts)
      · exact h
  | sessionError message =>
    cases hstep
    exact h.congr rfl rfl rfl rfl rfl rfl
  | stopVoice =>
    cases hstep
    exact stopVoiceReply_inv h
  | setConverse voiceConverse =>
    cases hstep
    exact h.congr rfl rfl rfl rfl rfl rfl
  | resume turn => exact resume_inv h hstep
  | reject turn error => exact reject_inv h hstep
  | receive turn event =>
    unfold step at hstep
    dsimp only at hstep
    split at hstep
    · next hawait =>
      cases hstep
      exact onEvent_inv h hawait event
    · cases hstep
  | timer player =>
    unfold step at hstep
    dsimp only at hstep
    split at hstep
    · cases hstep
      exact setPlayer_inv h (Player.timeOut_settled (h.settled player))
        (fun hd => Player.timeOut_quiet (h.quiet_of hd))
        fun hd => Player.timeOut_draining (h.drain player player hd).2
    · cases hstep
  | ended player audio =>
    cases hstep
    exact setPlayer_inv h (Player.ended_settled audio (h.settled player))
      (fun hd => Player.ended_quiet audio (h.quiet_of hd))
      fun hd => Player.ended_draining audio (h.drain player player hd).2

end

theorem reaches_inv {voiceConverse : Bool} (h : Reaches step Alone (initial voiceConverse) s) :
    Inv s :=
  h.invariant (initial_inv voiceConverse) fun _ _ _ => step_inv

/-! ## Steps of turns that do not overlap -/

/-- What a step of the call under way can change. -/
structure Frame (turn : ℕ) (s s' : State) : Prop where
  players : ∀ other, other ≠ turn → s'.players other = s.players other
  aborted : s'.aborted = s.aborted
  aborter : s'.voiceReplyAborter = s.voiceReplyAborter
  requests : s'.requests = s.requests ∨
    (s.calls turn).cut = false ∧ ∃ history, s'.requests = s.requests ++ [(turn, history)]
  segments : (s.calls turn).cut = true → (s'.players turn).segments <+: (s.players turn).segments

theorem Frame.of_eq {turn : ℕ} {s s' : State} (hplayers : s'.players = s.players)
    (haborted : s'.aborted = s.aborted) (haborter : s'.voiceReplyAborter = s.voiceReplyAborter)
    (hrequests : s'.requests = s.requests) : Frame turn s s' where
  players other _ := congrFun hplayers other
  aborted := haborted
  aborter := haborter
  requests := .inl hrequests
  segments _ := by
    rw [hplayers]

theorem Frame.setPlayer {turn : ℕ} {s s' : State} {p : Player}
    (hplayers : s'.players = update s.players turn p) (haborted : s'.aborted = s.aborted)
    (haborter : s'.voiceReplyAborter = s.voiceReplyAborter)
    (hrequests : s'.requests = s.requests)
    (hsegments : (s.calls turn).cut = true → p.segments <+: (s.players turn).segments) :
    Frame turn s s' where
  players other hne := by rw [hplayers, Function.update_of_ne hne]
  aborted := haborted
  aborter := haborter
  requests := .inl hrequests
  segments hcut := by
    rw [hplayers, Function.update_self]
    exact hsegments hcut

theorem segments_stopPlayer (s : State) (d : ℕ) :
    (s.stopPlayer.players d).segments = (s.players d).segments := by
  rw [players_stopPlayer]
  split
  · exact Player.stop_segments _
  · rfl

section

variable (h : Inv s) (hlive : (s.calls turn).await ≠ .returned)
include h hlive

theorem leave_frame (chat : List Message) (error : Option Failure) :
    Frame turn s ({ s with voiceChat := chat, voiceError := error }.leave turn) := by
  rw [leave_eq]
  refine ⟨fun other hne => ?_, rfl, rfl, .inl rfl, fun _ => ?_⟩
  · dsimp only
    rw [players_stopPlayer]
    exact if_neg fun hd => hne (h.player_eq hlive hd)
  · dsimp only
    rw [segments_stopPlayer]

theorem appendReply_leave_frame : Frame turn s ((s.appendReply turn).leave turn) := by
  unfold State.appendReply
  split
  · exact leave_frame h hlive _ _
  · exact leave_frame h hlive s.voiceChat s.voiceError

theorem fail_frame (error : Failure) : Frame turn s (s.fail turn error) := by
  unfold State.fail
  split
  · exact appendReply_leave_frame h hlive
  · exact leave_frame h hlive s.voiceChat _

theorem sendHistory_frame : Frame turn s (s.sendHistory turn) := by
  unfold State.sendHistory
  split
  · exact fail_frame h hlive .typeError
  · next aborter haborter =>
    have huncut : (s.calls turn).cut = false := by
      by_contra hcut
      rw [Bool.not_eq_false] at hcut
      exact absurd ((h.cutAborter turn hcut hlive).symm.trans haborter) (by simp)
    dsimp only
    split
    · exact .of_eq rfl rfl rfl rfl
    · exact ⟨fun _ _ => rfl, rfl, rfl, .inr ⟨huncut, _, rfl⟩, fun _ => List.prefix_rfl⟩

end

theorem finishPlayer_frame (h : Inv s) (hawait : (s.calls turn).await = .chatSpeak) :
    Frame turn s (s.finishPlayer turn) := by
  have hlive : (s.calls turn).await ≠ .returned := by simp [hawait]
  unfold State.finishPlayer
  split
  · exact .of_eq rfl rfl rfl rfl
  · next player hplayer =>
    have heq := h.player_eq hlive hplayer
    subst heq
    exact .setPlayer rfl rfl rfl rfl fun hcut =>
      absurd ((h.not_cut hawait (by simp) (by simp) (by simp) hplayer).symm.trans hcut) (by simp)

theorem onEvent_frame (h : Inv s) (hawait : (s.calls turn).await = .read) (event : ChatEvent) :
    Frame turn s (s.onEvent turn event) := by
  have hlive : (s.calls turn).await ≠ .returned := by simp [hawait]
  cases event with
  | token text => exact .of_eq rfl rfl rfl rfl
  | audio chunk late enough =>
    unfold State.onEvent
    dsimp only
    split
    · exact .of_eq rfl rfl rfl rfl
    · next player hplayer =>
      have heq := h.player_eq hlive hplayer
      subst heq
      exact .setPlayer rfl rfl rfl rfl fun hcut =>
        absurd ((h.not_cut hawait (by simp) (by simp) (by simp) hplayer).symm.trans hcut) (by simp)
  | llmDone => exact .of_eq rfl rfl rfl rfl
  | error message => exact .of_eq rfl rfl rfl rfl
  | other => exact .of_eq rfl rfl rfl rfl

theorem resume_frame (h : Inv s) (hlive : (s.calls turn).await ≠ .returned)
    (hstep : step s (.resume turn) = some s') : Frame turn s s' := by
  unfold step at hstep
  dsimp only at hstep
  cases hawait : (s.calls turn).await with
  | prime =>
    rw [hawait] at hstep
    cases hstep
    exact .setPlayer rfl rfl rfl rfl fun _ => List.nil_prefix
  | context =>
    rw [hawait] at hstep
    cases hstep
    exact .setPlayer rfl rfl rfl rfl fun _ => List.prefix_rfl
  | start =>
    rw [hawait] at hstep
    cases hstep
    exact sendHistory_frame h hlive
  | fetch =>
    rw [hawait] at hstep
    cases hstep
    exact .of_eq rfl rfl rfl rfl
  | read =>
    rw [hawait] at hstep
    cases hstep
    exact .of_eq rfl rfl rfl rfl
  | chatSpeak =>
    rw [hawait] at hstep
    cases hstep
    exact finishPlayer_frame h hawait
  | drain player =>
    rw [hawait] at hstep
    dsimp only at hstep
    split at hstep
    · cases hstep
    · cases hstep
      obtain ⟨rfl, -⟩ := h.drain turn player hawait
      exact .setPlayer rfl rfl rfl rfl fun _ => List.prefix_rfl
  | finish =>
    rw [hawait] at hstep
    cases hstep
    exact appendReply_leave_frame h hlive
  | rejected error =>
    rw [hawait] at hstep
    cases hstep
    exact fail_frame h hlive error
  | returned => exact absurd hawait hlive

theorem reject_frame (hstep : step s (.reject turn error) = some s') : Frame turn s s' := by
  unfold step at hstep
  dsimp only at hstep
  split at hstep
  all_goals first
    | cases hstep
    | split at hstep
      · cases hstep
      · cases hstep
        exact .of_eq rfl rfl rfl rfl

theorem call_frame (h : Inv s) (hturn : a.turn = some turn) (hstep : step s a = some s') :
    (s.calls turn).await ≠ .returned ∧ Frame turn s s' := by
  have hlive : (s.calls turn).await ≠ .returned := by
    intro hreturned
    cases a with
    | resume _ =>
      cases hturn
      simp only [step, hreturned] at hstep
      cases hstep
    | reject _ _ =>
      cases hturn
      simp only [step, hreturned] at hstep
      cases hstep
    | receive _ _ =>
      cases hturn
      simp only [step, hreturned] at hstep
      cases hstep
    | _ => cases hturn
  refine ⟨hlive, ?_⟩
  cases a with
  | resume _ =>
    cases hturn
    exact resume_frame h hlive hstep
  | reject _ _ =>
    cases hturn
    exact reject_frame hstep
  | receive _ event =>
    cases hturn
    unfold step at hstep
    dsimp only at hstep
    split at hstep
    · next hawait =>
      cases hstep
      exact onEvent_frame h hawait event
    · cases hstep
  | _ => cases hturn

theorem own_of_frame {s s' : State} {turn : ℕ} (h : Inv s) (h' : Inv s')
    (hlive : (s.calls turn).await ≠ .returned) (hframe : Frame turn s s') : Own turn s s' where
  players := hframe.players
  aborted other _ := congrFun hframe.aborted other
  player _ hne hother := absurd (h.player_eq hlive hother) hne
  aborter _ _ hother := hframe.aborter.trans hother
  speaking hlt := absurd (h.last turn hlive) hlt.ne
  signal := h'.signal turn

theorem session_frame (h : Inv s) (hturn : a.turn = none) (hstep : step s a = some s') :
    s'.requests = s.requests ∧ ∀ turn, (s.calls turn).cut = true →
        (s'.players turn).segments <+: (s.players turn).segments := by
  have hstop : ∀ turn, (s.stopVoiceReply.players turn).segments <+:
      (s.players turn).segments := by
    intro turn
    rw [stopVoiceReply_eq]
    dsimp only
    rw [segments_stopPlayer]
  have hrequests : s.stopVoiceReply.requests = s.requests := by
    rw [stopVoiceReply_eq]
  have hplayer : ∀ (player : ℕ) (p : Player),
      ((s.calls player).cut = true → p.segments = (s.players player).segments) →
      ∀ turn, (s.calls turn).cut = true →
        ((s.setPlayer player p).players turn).segments <+: (s.players turn).segments := by
    intro player p hp turn hcut
    rw [State.players_setPlayer]
    by_cases hne : turn = player
    · subst hne
      rw [Function.update_self, hp hcut]
    · rw [Function.update_of_ne hne]
  cases a with
  | speechStarted =>
    cases hstep
    split
    · exact ⟨hrequests, fun turn _ => hstop turn⟩
    · exact ⟨rfl, fun _ _ => List.prefix_rfl⟩
  | finalTranscript text =>
    cases text with
    | none =>
      cases hstep
      exact ⟨rfl, fun _ _ => List.prefix_rfl⟩
    | some content =>
      cases hstep
      split
      · exact ⟨hrequests, fun turn _ => hstop turn⟩
      · exact ⟨rfl, fun _ _ => List.prefix_rfl⟩
  | stopVoice =>
    cases hstep
    exact ⟨hrequests, fun turn _ => hstop turn⟩
  | timer player =>
    unfold step at hstep
    dsimp only at hstep
    split at hstep
    · cases hstep
      exact ⟨rfl, hplayer player _ fun hcut =>
        (Player.timeOut_of_pending (h.cutQuiet player hcut).2.1).2.2.1⟩
    · cases hstep
  | ended player audio =>
    cases hstep
    exact ⟨rfl, hplayer player _ fun _ => rfl⟩
  | sessionError message =>
    cases hstep
    exact ⟨rfl, fun _ _ => List.prefix_rfl⟩
  | setConverse voiceConverse =>
    cases hstep
    exact ⟨rfl, fun _ _ => List.prefix_rfl⟩
  | resume turn => cases hturn
  | reject turn error => cases hturn
  | receive turn event => cases hturn

theorem holds_of_alone (h : Inv s) (halone : Alone s a) (hstep : step s a = some s') :
    Holds s a s' := by
  have h' := step_inv h halone hstep
  cases hturn : a.turn with
  | none =>
    obtain ⟨hrequests, hsegments⟩ := session_frame h hturn hstep
    exact ⟨fun turn hother => absurd (hturn.symm.trans hother) nofun,
      fun turn _ => by rw [hrequests], hsegments, fun turn hcut => (h'.cutQuiet turn hcut).1,
      h'.answered⟩
  | some turn =>
    obtain ⟨hlive, hframe⟩ := call_frame h hturn hstep
    refine ⟨fun other hother => ?_, fun other hcut => ?_, fun other hcut => ?_,
      fun other hcut => (h'.cutQuiet other hcut).1, h'.answered⟩
    · cases hturn.symm.trans hother
      exact own_of_frame h h' hlive hframe
    · rcases hframe.requests with hsame | ⟨huncut, history, hsent⟩
      · rw [hsame]
      · have hne : turn ≠ other := by
          rintro rfl
          exact absurd (huncut.symm.trans hcut) nofun
        rw [hsent, List.filter_append, List.filter_cons_of_neg (by simpa using hne),
          List.filter_nil, List.append_nil]
    · by_cases hne : other = turn
      · subst hne
        exact hframe.segments hcut
      · rw [hframe.players other hne]

/-! ## Turns that overlap -/

/-- Only calls go on. -/
def Continues (_ : State) (a : Action) : Prop := a.turn ≠ none

theorem continues_resume (s : State) (turn : ℕ) : Continues s (.resume turn) := nofun

theorem continues_reject (s : State) (turn : ℕ) (error : Failure) :
    Continues s (.reject turn error) := nofun

/-- Calls go on in an order that breaks a step. -/
def Breaks (s : State) : Prop :=
  ∃ t a t', Reaches step Continues s t ∧ Continues t a ∧ step t a = some t' ∧ ¬ Holds t a t'

theorem Breaks.of_step {t : State} (ha : Continues s a) (hstep : step s a = some t) (h : Breaks t) :
    Breaks s := by
  obtain ⟨u, b, u', hreaches, hb, hlast, hnot⟩ := h
  have hfirst : Reaches step Continues s t := .next .start ha hstep
  exact ⟨u, b, u', hfirst.trans hreaches, hb, hlast, hnot⟩

theorem breaks_of_returning (hlater : turn + 1 < s.voiceReplyCounter)
    (hspeaking : s.voiceSpeakingReply = true)
    (hawait : (s.calls turn).await = .finish ∨ ∃ error, (s.calls turn).await = .rejected error) :
    Breaks s := by
  have hstep : ∃ s', step s (.resume turn) = some s' ∧ s'.voiceSpeakingReply = false := by
    rcases hawait with hfinish | ⟨error, hrejected⟩
    · simp only [step, hfinish]
      exact ⟨_, rfl, rfl⟩
    · simp only [step, hrejected]
      exact ⟨_, rfl, rfl⟩
  obtain ⟨s', hstep, hcleared⟩ := hstep
  refine ⟨s, .resume turn, s', .start, continues_resume s turn, hstep, fun hholds => ?_⟩
  have hkept := (hholds.own turn rfl).speaking hlater
  rw [hspeaking, hcleared] at hkept
  cases hkept

theorem breaks_of_waiting (hlater : turn + 1 < s.voiceReplyCounter)
    (hspeaking : s.voiceSpeakingReply = true)
    (hawait : (s.calls turn).await = .prime ∨ (s.calls turn).await = .context ∨
      (s.calls turn).await = .fetch ∨ (s.calls turn).await = .read) : Breaks s := by
  have hstep : step s (.reject turn (.other "")) =
      some (s.setAwait turn (.rejected (.other ""))) := by
    rcases hawait with hawait | hawait | hawait | hawait <;> simp [step, hawait]
  refine .of_step (continues_reject _ _ _) hstep
    (breaks_of_returning hlater hspeaking (.inr ⟨.other "", ?_⟩))
  exact await_setAwait _ _ _

theorem breaks_of_answered (hlater : turn + 1 < s.voiceReplyCounter)
    (hspeaking : s.voiceSpeakingReply = true) (hplayer : s.voiceReplyPlayer = none)
    (hquiet : ∀ d, (s.players d).drainResolver = false)
    (hawait : (s.calls turn).await = .chatSpeak ∨ ∃ d, (s.calls turn).await = .drain d) :
    Breaks s := by
  rcases hawait with hanswered | ⟨d, hdrain⟩
  · have hstep : step s (.resume turn) = some (s.setAwait turn .finish) := by
      simp only [step, hanswered, State.finishPlayer, hplayer]
    exact .of_step (continues_resume s turn) hstep
      (breaks_of_returning hlater hspeaking (.inl (await_setAwait _ _ _)))
  · have hstep : step s (.resume turn) =
        some ((s.setPlayer d (s.players d).releaseContext).setAwait turn .finish) := by
      simp only [step, hdrain, hquiet d, Bool.false_eq_true, if_false]
    exact .of_step (continues_resume s turn) hstep
      (breaks_of_returning hlater hspeaking (.inl (await_setAwait _ _ _)))

theorem breaks_of_started (haborter : s.voiceReplyAborter = some (turn + 1))
    (haborted : s.aborted (turn + 1) = false) (hawait : (s.calls turn).await = .start) :
    Breaks s := by
  have hstep : ∃ s', step s (.resume turn) = some s' ∧
      (s'.calls turn).signal = some (turn + 1) := by
    refine ⟨s.sendHistory turn, by simp only [step, hawait], ?_⟩
    simp [State.sendHistory, haborter, haborted]
  obtain ⟨s', hstep, hsignal⟩ := hstep
  refine ⟨s, .resume turn, s', .start, continues_resume s turn, hstep, fun hholds => ?_⟩
  exact absurd ((hholds.own turn rfl).signal (turn + 1) hsignal) (Nat.succ_ne_self turn)

theorem breaks_of_sendVoiceTurn (h : Inv s) (content : String)
    (hlive : (s.calls turn).await ≠ .returned) : Breaks (s.sendVoiceTurn content) := by
  have hlast := h.last turn hlive
  have hstop := stopVoiceReply_inv h
  have hnone : s.stopVoiceReply.voiceReplyPlayer = none := rfl
  have hcounter : s.stopVoiceReply.voiceReplyCounter = turn + 1 := by
    rw [stopVoiceReply_eq]
    exact hlast.symm
  have hcalls : (s.stopVoiceReply.calls turn).await = (s.calls turn).await := by
    rw [stopVoiceReply_eq]
    rfl
  have hquiet : ∀ d, (s.stopVoiceReply.players d).drainResolver = false :=
    fun d => (hstop.quiet d (by rw [hnone]; exact nofun)).2.2
  rw [← hcalls] at hlive
  unfold State.sendVoiceTurn
  generalize s.stopVoiceReply = s at hnone hcounter hquiet hlive ⊢
  dsimp only
  rw [hcounter]
  generalize hsent : ({ s.setCall (turn + 1) ⟨.prime, "", none, false⟩ with
    voiceChat := s.voiceChat ++ [⟨.user, content, turn + 1⟩]
    voiceReplyCounter := turn + 1 + 1
    voiceSpeakingReply := true
    voiceReplyFinal := false
    voiceReplyAborter := some (turn + 1)
    aborted := update s.aborted (turn + 1) false } : State) = s'
  have hlater : turn + 1 < s'.voiceReplyCounter := by
    rw [← hsent]
    exact Nat.lt_succ_self _
  have hspeaking : s'.voiceSpeakingReply = true := by rw [← hsent]
  have hsame : s'.calls turn = s.calls turn := by
    rw [← hsent]
    exact Function.update_of_ne (Nat.succ_ne_self turn).symm _ _
  have hwoken : ∀ d, (s'.players d).drainResolver = false := by
    rw [← hsent]
    exact hquiet
  have hplayer : s'.voiceReplyPlayer = none := by
    rw [← hsent]
    exact hnone
  rw [← hsame] at hlive
  cases hawait : (s'.calls turn).await with
  | prime => exact breaks_of_waiting hlater hspeaking (.inl hawait)
  | context => exact breaks_of_waiting hlater hspeaking (.inr (.inl hawait))
  | fetch => exact breaks_of_waiting hlater hspeaking (.inr (.inr (.inl hawait)))
  | read => exact breaks_of_waiting hlater hspeaking (.inr (.inr (.inr hawait)))
  | start =>
    refine breaks_of_started ?_ ?_ hawait
    · rw [← hsent]
    · rw [← hsent]
      exact Function.update_self _ _ _
  | chatSpeak => exact breaks_of_answered hlater hspeaking hplayer hwoken (.inl hawait)
  | drain d => exact breaks_of_answered hlater hspeaking hplayer hwoken (.inr ⟨d, hawait⟩)
  | finish => exact breaks_of_returning hlater hspeaking (.inl hawait)
  | rejected error => exact breaks_of_returning hlater hspeaking (.inr ⟨error, hawait⟩)
  | returned => exact absurd hawait hlive

theorem breaks_of_overlap (h : Inv s) (hoverlap : ¬ Alone s a) (hstep : step s a = some s') :
    Breaks s' := by
  cases a with
  | finalTranscript text =>
    cases text with
    | none => exact absurd trivial hoverlap
    | some content =>
      rw [Alone, Classical.not_imp, Classical.not_forall] at hoverlap
      obtain ⟨hstarts, turn, hlive⟩ := hoverlap
      cases hstep
      rw [if_pos hstarts]
      exact breaks_of_sendVoiceTurn h content hlive
  | _ => exact absurd trivial hoverlap

/-! ## The voice view -/

/-- Turns that do not overlap keep to what is their own; the first that starts too early can be
broken by the call that is under way. -/
theorem voiceTurns_hold {voiceConverse : Bool} {s s' : State} {a : Action}
    (h : Reaches step Alone (initial voiceConverse) s) (hstep : step s a = some s') :
    (Alone s a → Holds s a s') ∧ (¬ Alone s a → Breaks s') :=
  ⟨fun halone => holds_of_alone (reaches_inv h) halone hstep,
    fun hoverlap => breaks_of_overlap (reaches_inv h) hoverlap hstep⟩

theorem voiceTurns_hold_first : ∃ s', step (initial true) (.finalTranscript (some "Hi")) = some s' ∧
    (Alone (initial true) (.finalTranscript (some "Hi")) →
      Holds (initial true) (.finalTranscript (some "Hi")) s') ∧
    (¬ Alone (initial true) (.finalTranscript (some "Hi")) → Breaks s') :=
  ⟨_, rfl, voiceTurns_hold .start rfl⟩

/-- The second transcript comes while the first is being answered. -/
def overlapping : List Action :=
  [.speechStarted, .speechStarted, .finalTranscript (some "Hi"), .resume 0, .resume 0, .resume 0,
    .resume 0, .receive 0 (.token "Hello"), .finalTranscript (some "Wait"), .reject 0 .abort]

/-- The abandoned call returns behind the next message and clears the flag of the next turn. -/
theorem voiceTurns_hold_fails :
    ¬ ∀ (voiceConverse : Bool) (s : State) (a : Action) (s' : State),
      Reaches step Always (initial voiceConverse) s → step s a = some s' → Holds s a s' := by
  intro hall
  have hrun : (replay step (fun _ _ => true) (initial true)
      overlapping).any (fun s =>
        (step s (.resume 0)).any fun s' => decide (s'.voiceChat =
          [⟨.user, "Hi", 0⟩, ⟨.user, "Wait", 1⟩, ⟨.assistant, "Hello", 0⟩])) = true := by
    decide
  obtain ⟨s, hreaches, htest⟩ := exists_run _ _ hrun
  obtain ⟨s', hstep, hchat⟩ := (Option.any_eq_true _ _).mp htest
  have hanswered := (hall true s _ s' hreaches hstep).answered
  rw [of_decide_eq_true hchat] at hanswered
  obtain ⟨earlier, u, hbefore, -, hturn⟩ :=
    hanswered ([⟨.user, "Hi", 0⟩] ++ [⟨.user, "Wait", 1⟩]) _ [] rfl rfl
  cases (List.append_inj' hbefore rfl).2
  cases hturn

end FastTts.VoiceTurns
