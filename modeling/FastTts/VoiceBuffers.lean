import FastTts.VoiceFrames

/-!
# The three audio buffers

Preroll, utterance and gap are one recorder over the input stream. `BufferStep` is that recorder by
itself, and every step of the runner is one of its steps or leaves it alone. `begin_utterance` does
not empty the preroll, so the preroll of the next utterance may still hold audio from before the
last one; it cannot when enough audio was captured in between.
-/

namespace FastTts.Voice

variable {F : Type}

/-- The places of the audio loop that matter to the buffers. -/
inductive Phase
  | beginning
  | resuming
  | committing
  | other
  deriving DecidableEq, Repr

structure Buffers (F : Type) where
  phase : Phase
  speaking : Bool
  pendingEnd : Bool
  utteranceId : ℤ
  preroll : List F
  utterance : List F
  gap : List F
  captured : List F
  ends : List (ℤ × ℕ)

namespace Buffers

/-- Where the last committed utterance ended in the input stream. -/
def lastEnd (b : Buffers F) : ℕ := (b.ends.getLast?.map Prod.snd).getD 0

/-- The recorder between two of its own operations, after another block of input. -/
def capture (b : Buffers F) (block : List F) : Buffers F :=
  { b with phase := .other, captured := b.captured ++ block }

end Buffers

inductive BufferStep (limit : ℕ) (b : Buffers F) : Buffers F → Prop
  | idle {block : List F} (hphase : b.phase = .other) (hsp : b.speaking = false) :
      BufferStep limit b { b.capture block with preroll := pushPreroll limit b.preroll block }
  | speech {block : List F} (hphase : b.phase = .other) (hsp : b.speaking = true)
      (hpe : b.pendingEnd = false) :
      BufferStep limit b { b.capture block with utterance := b.utterance ++ block }
  | gap {block : List F} (hphase : b.phase = .other) (hsp : b.speaking = true)
      (hpe : b.pendingEnd = true) :
      BufferStep limit b { b.capture block with gap := b.gap ++ block }
  | begin (hphase : b.phase = .other) (hsp : b.speaking = false) :
      BufferStep limit b { b with
        phase := .beginning
        speaking := true
        pendingEnd := false
        gap := []
        utteranceId := b.utteranceId + 1 }
  | copyPreroll (hphase : b.phase = .beginning) :
      BufferStep limit b { b with phase := .other, utterance := b.preroll }
  | pend (hphase : b.phase = .other) (hsp : b.speaking = true) (hpe : b.pendingEnd = false) :
      BufferStep limit b { b with phase := .other, pendingEnd := true, gap := [] }
  | unpend (hphase : b.phase = .other) (hsp : b.speaking = true) (hpe : b.pendingEnd = true) :
      BufferStep limit b { b with phase := .resuming, pendingEnd := false }
  | resume (hphase : b.phase = .resuming) :
      BufferStep limit b { b with phase := .other, utterance := b.utterance ++ b.gap, gap := [] }
  | commit (hphase : b.phase = .other) (hsp : b.speaking = true) :
      BufferStep limit b { b with
        phase := .committing
        speaking := false
        pendingEnd := false
        gap := []
        ends := b.ends ++ [(b.utteranceId, b.captured.length)] }
  | clear (hphase : b.phase = .committing) :
      BufferStep limit b { b with phase := .other, utterance := [] }

/-! ## Utterances as slices of the input -/

def lastOf {α : Type} (n : ℕ) (xs : List α) : List α := xs.drop (xs.length - n)

section LastOf

variable {α : Type} {n : ℕ}

theorem length_lastOf (n : ℕ) (xs : List α) : (lastOf n xs).length = min n xs.length := by
  rw [lastOf, List.length_drop]
  omega

theorem lastOf_of_length_le {xs : List α} (h : xs.length ≤ n) : lastOf n xs = xs := by
  rw [lastOf, Nat.sub_eq_zero_of_le h, List.drop_zero]

theorem lastOf_lastOf_append (n : ℕ) (xs ys : List α) :
    lastOf n (lastOf n xs ++ ys) = lastOf n (xs ++ ys) := by
  have hleft : xs.length - n + ((lastOf n xs ++ ys).length - n) = (xs ++ ys).length - n := by
    simp only [List.length_append, length_lastOf]
    omega
  have hright : (lastOf n xs ++ ys).length - n - (lastOf n xs).length =
      (xs ++ ys).length - n - xs.length := by
    simp only [List.length_append, length_lastOf]
    omega
  calc lastOf n (lastOf n xs ++ ys)
      = (lastOf n xs).drop ((lastOf n xs ++ ys).length - n) ++
          ys.drop ((lastOf n xs ++ ys).length - n - (lastOf n xs).length) := List.drop_append
    _ = xs.drop ((xs ++ ys).length - n) ++ ys.drop ((xs ++ ys).length - n - xs.length) := by
        rw [hright, ← hleft, lastOf, List.drop_drop]
    _ = lastOf n (xs ++ ys) := List.drop_append.symm

theorem lastOf_append_of_le {xs ys : List α} (h : n ≤ ys.length) :
    lastOf n (xs ++ ys) = lastOf n ys := by
  have hlen : (xs ++ ys).length - n = xs.length + (ys.length - n) := by
    rw [List.length_append]
    omega
  rw [lastOf, hlen, List.drop_length_add_append]
  rfl

theorem lastOf_drop (n e : ℕ) (xs : List α) :
    lastOf n (xs.drop e) = xs.drop (e + (xs.length - e - n)) := by
  rw [lastOf, List.length_drop, List.drop_drop]

end LastOf

def SliceAt {α : Type} (whole : List α) (a : ℕ) (part : List α) : Prop :=
  a ≤ whole.length ∧ part <+: whole.drop a

/-- What holds of the recorder after any of its steps, as long as enough audio is captured between
two utterances. `old` is what the preroll kept from before the last one. -/
structure Recorded (limit : ℕ) (b : Buffers F) : Prop where
  bound : b.lastEnd ≤ b.captured.length
  order : ∀ x ∈ b.ends, x.2 ≤ b.lastEnd
  short : b.preroll.length ≤ limit
  gap : b.pendingEnd = false → b.phase ≠ .resuming → b.gap = []
  idle : b.speaking = false → ∃ old, b.preroll = lastOf limit (old ++ b.captured.drop b.lastEnd) ∧
    (b.ends = [] → old = [])
  beginning : b.phase = .beginning → ∃ a, b.lastEnd ≤ a ∧ a ≤ b.captured.length ∧
    b.preroll = b.captured.drop a
  speaking : b.speaking = true → b.phase ≠ .beginning → ∃ a, b.lastEnd ≤ a ∧
    a ≤ b.captured.length ∧ b.utterance ++ b.gap = b.captured.drop a
  committing : b.phase = .committing → b.speaking = false ∧ ∃ a,
    SliceAt b.captured a b.utterance ∧ ∀ x ∈ b.ends, x.1 < b.utteranceId → x.2 ≤ a

/-- An utterance begins only when it is the first one, or at least `limit` samples after the last. -/
def Buffers.BeginsLate (limit : ℕ) (b : Buffers F) : Prop :=
  b.ends = [] ∨ limit ≤ b.captured.length - b.lastEnd

section RecorderSteps

variable {limit : ℕ} {b b' : Buffers F}

section

variable (hb : Recorded limit b)
include hb

section

variable (block : List F) (hphase : b.phase = .other)
include hphase

theorem recorded_idle (hsp : b.speaking = false) :
    Recorded limit { b.capture block with preroll := pushPreroll limit b.preroll block } := by
  refine ⟨?_, hb.order, ?_, fun hpe _ => hb.gap hpe (by rw [hphase]; simp), fun _ => ?_, ?_, ?_, ?_⟩
  · exact Nat.le_trans hb.bound (by simp [Buffers.capture])
  · exact Nat.le_trans (Nat.le_of_eq (length_lastOf limit _)) (Nat.min_le_left _ _)
  · obtain ⟨old, hpre, hold⟩ := hb.idle hsp
    refine ⟨old, ?_, hold⟩
    change lastOf limit (b.preroll ++ block) =
      lastOf limit (old ++ (b.captured ++ block).drop b.lastEnd)
    rw [hpre, lastOf_lastOf_append, List.append_assoc, List.drop_append_of_le_length hb.bound]
  · intro h
    cases h
  · intro h
    exact absurd (hsp.symm.trans h) Bool.false_ne_true
  · intro h
    cases h

theorem recorded_speech (hsp : b.speaking = true) (hpe : b.pendingEnd = false) :
    Recorded limit { b.capture block with utterance := b.utterance ++ block } := by
  have hgap : b.gap = [] := hb.gap hpe (by rw [hphase]; simp)
  obtain ⟨a, hlo, hhi, hslice⟩ := hb.speaking hsp (by rw [hphase]; simp)
  have hbound : b.captured.length ≤ (b.captured ++ block).length := by simp
  refine ⟨Nat.le_trans hb.bound hbound, hb.order, hb.short, fun _ _ => hgap, ?_, ?_, ?_, ?_⟩
  · intro h
    exact absurd (h.symm.trans hsp) Bool.false_ne_true
  · intro h
    cases h
  · intro _ _
    refine ⟨a, hlo, Nat.le_trans hhi hbound, ?_⟩
    change b.utterance ++ block ++ b.gap = (b.captured ++ block).drop a
    rw [List.drop_append_of_le_length hhi, ← hslice, hgap, List.append_nil, List.append_nil]
  · intro h
    cases h

theorem recorded_gap (hsp : b.speaking = true) (hpe : b.pendingEnd = true) :
    Recorded limit { b.capture block with gap := b.gap ++ block } := by
  obtain ⟨a, hlo, hhi, hslice⟩ := hb.speaking hsp (by rw [hphase]; simp)
  have hbound : b.captured.length ≤ (b.captured ++ block).length := by simp
  refine ⟨Nat.le_trans hb.bound hbound, hb.order, hb.short, ?_, ?_, ?_, ?_, ?_⟩
  · intro h
    exact absurd (h.symm.trans hpe) Bool.false_ne_true
  · intro h
    exact absurd (h.symm.trans hsp) Bool.false_ne_true
  · intro h
    cases h
  · intro _ _
    refine ⟨a, hlo, Nat.le_trans hhi hbound, ?_⟩
    change b.utterance ++ (b.gap ++ block) = (b.captured ++ block).drop a
    rw [List.drop_append_of_le_length hhi, ← hslice, List.append_assoc]
  · intro h
    cases h

end

theorem preroll_of_beginsLate (hsp : b.speaking = false) (hlate : b.BeginsLate limit) :
    ∃ a, b.lastEnd ≤ a ∧ a ≤ b.captured.length ∧ b.preroll = b.captured.drop a := by
  obtain ⟨old, hpre, hold⟩ := hb.idle hsp
  have hnew : lastOf limit (old ++ b.captured.drop b.lastEnd) =
      lastOf limit (b.captured.drop b.lastEnd) := by
    rcases hlate with hfirst | henough
    · rw [hold hfirst, List.nil_append]
    · apply lastOf_append_of_le
      rw [List.length_drop]
      exact henough
  have hbound := hb.bound
  refine ⟨b.lastEnd + (b.captured.length - b.lastEnd - limit), by omega, by omega, ?_⟩
  rw [hpre, hnew, lastOf_drop]

theorem recorded_begin (hsp : b.speaking = false) (hlate : b.BeginsLate limit) :
    Recorded limit { b with
      phase := .beginning
      speaking := true
      pendingEnd := false
      gap := []
      utteranceId := b.utteranceId + 1 } := by
  refine ⟨hb.bound, hb.order, hb.short, fun _ _ => rfl, ?_, fun _ => ?_, ?_, ?_⟩
  · intro h
    cases h
  · obtain ⟨a, ha⟩ := preroll_of_beginsLate hb hsp hlate
    exact ⟨a, ha⟩
  · intro _ h
    exact absurd rfl h
  · intro h
    cases h

theorem recorded_copyPreroll (hphase : b.phase = .beginning)
    (hflags : b.speaking = true ∧ b.pendingEnd = false) :
    Recorded limit { b with phase := .other, utterance := b.preroll } := by
  have hgap : b.gap = [] := hb.gap hflags.2 (by rw [hphase]; simp)
  obtain ⟨a, hlo, hhi, hslice⟩ := hb.beginning hphase
  refine ⟨hb.bound, hb.order, hb.short, fun _ _ => hgap, hb.idle, ?_, fun _ _ => ?_, ?_⟩
  · intro h
    cases h
  · refine ⟨a, hlo, hhi, ?_⟩
    change b.preroll ++ b.gap = b.captured.drop a
    rw [hgap, List.append_nil, hslice]
  · intro h
    cases h

theorem recorded_pend (hphase : b.phase = .other) (hpe : b.pendingEnd = false) :
    Recorded limit { b with phase := .other, pendingEnd := true, gap := [] } := by
  have hgap : b.gap = [] := hb.gap hpe (by rw [hphase]; simp)
  refine ⟨hb.bound, hb.order, hb.short, fun _ _ => rfl, hb.idle, ?_, fun hsp _ => ?_, ?_⟩
  · intro h
    cases h
  · obtain ⟨a, hlo, hhi, hslice⟩ := hb.speaking hsp (by rw [hphase]; simp)
    exact ⟨a, hlo, hhi, hgap ▸ hslice⟩
  · intro h
    cases h

theorem recorded_unpend (hphase : b.phase = .other) :
    Recorded limit { b with phase := .resuming, pendingEnd := false } := by
  refine ⟨hb.bound, hb.order, hb.short, fun _ h => absurd rfl h, hb.idle, ?_, fun hsp _ => ?_, ?_⟩
  · intro h
    cases h
  · exact hb.speaking hsp (by rw [hphase]; simp)
  · intro h
    cases h

theorem recorded_resume (hphase : b.phase = .resuming) :
    Recorded limit { b with phase := .other, utterance := b.utterance ++ b.gap, gap := [] } := by
  refine ⟨hb.bound, hb.order, hb.short, fun _ _ => rfl, hb.idle, ?_, fun hsp _ => ?_, ?_⟩
  · intro h
    cases h
  · obtain ⟨a, hlo, hhi, hslice⟩ := hb.speaking hsp (by rw [hphase]; simp)
    refine ⟨a, hlo, hhi, ?_⟩
    change b.utterance ++ b.gap ++ [] = b.captured.drop a
    rw [List.append_nil, hslice]
  · intro h
    cases h

end

theorem lastEnd_append (ends : List (ℤ × ℕ)) (x : ℤ × ℕ) :
    ((ends ++ [x]).getLast?.map Prod.snd).getD 0 = x.2 := by
  simp

section

variable (hb : Recorded limit b)
include hb

theorem recorded_commit (hphase : b.phase = .other) (hsp : b.speaking = true) :
    Recorded limit { b with
      phase := .committing
      speaking := false
      pendingEnd := false
      gap := []
      ends := b.ends ++ [(b.utteranceId, b.captured.length)] } := by
  have hend := lastEnd_append b.ends (b.utteranceId, b.captured.length)
  refine ⟨?_, ?_, hb.short, fun _ _ => rfl, fun _ => ?_, ?_, ?_, fun _ => ⟨rfl, ?_⟩⟩
  · exact Nat.le_of_eq hend
  · intro x hx
    rw [Buffers.lastEnd, hend]
    rcases List.mem_append.mp hx with hx | hx
    · exact Nat.le_trans (hb.order x hx) hb.bound
    · rw [List.mem_singleton.mp hx]
  · refine ⟨b.preroll, ?_, fun h => absurd h (by simp)⟩
    rw [Buffers.lastEnd, hend, List.drop_length, List.append_nil, lastOf_of_length_le hb.short]
  · intro h
    cases h
  · intro h
    cases h
  · obtain ⟨a, hlo, hhi, hslice⟩ := hb.speaking hsp (by rw [hphase]; simp)
    refine ⟨a, ⟨hhi, ?_⟩, ?_⟩
    · exact ⟨b.gap, hslice⟩
    · intro x hx hlt
      rcases List.mem_append.mp hx with hx | hx
      · exact Nat.le_trans (hb.order x hx) hlo
      · rw [List.mem_singleton.mp hx] at hlt
        exact absurd hlt (Int.lt_irrefl _)

theorem recorded_clear (hphase : b.phase = .committing) :
    Recorded limit { b with phase := .other, utterance := [] } := by
  have hsp := (hb.committing hphase).1
  refine ⟨hb.bound, hb.order, hb.short, fun hpe _ => hb.gap hpe (by rw [hphase]; simp), hb.idle,
    ?_, ?_, ?_⟩
  · intro h
    cases h
  · intro h
    exact absurd (hsp.symm.trans h) Bool.false_ne_true
  · intro h
    cases h

theorem recorded_step (h : BufferStep limit b b')
    (hlate : b'.phase = .beginning → b.BeginsLate limit)
    (hflags : b.phase = .beginning → b.speaking = true ∧ b.pendingEnd = false) :
    Recorded limit b' := by
  cases h with
  | idle hphase hsp => exact recorded_idle hb _ hphase hsp
  | speech hphase hsp hpe => exact recorded_speech hb _ hphase hsp hpe
  | gap hphase hsp hpe => exact recorded_gap hb _ hphase hsp hpe
  | begin hphase hsp => exact recorded_begin hb hsp (hlate rfl)
  | copyPreroll hphase => exact recorded_copyPreroll hb hphase (hflags hphase)
  | pend hphase hsp hpe => exact recorded_pend hb hphase hpe
  | unpend hphase hsp hpe => exact recorded_unpend hb hphase
  | resume hphase => exact recorded_resume hb hphase
  | commit hphase hsp => exact recorded_commit hb hphase hsp
  | clear hphase => exact recorded_clear hb hphase

theorem Recorded.slice (hphase : b.phase ≠ .beginning)
    (hlive : b.speaking = true ∨ b.phase = .committing) :
    ∃ a, SliceAt b.captured a b.utterance ∧ ∀ x ∈ b.ends, x.1 < b.utteranceId → x.2 ≤ a := by
  rcases hlive with hsp | hcommit
  · obtain ⟨a, hlo, hhi, hslice⟩ := hb.speaking hsp hphase
    exact ⟨a, ⟨hhi, ⟨b.gap, hslice⟩⟩, fun x hx _ => Nat.le_trans (hb.order x hx) hlo⟩
  · exact (hb.committing hcommit).2

end

end RecorderSteps

/-! ## The audio loop as a recorder -/

def AudioPc.phase : AudioPc F → Phase
  | .beginLocked _ => .beginning
  | .resumeLocked _ => .resuming
  | .clearDiscarded _ | .awaitIdle _ | .takeCandidate _ | .emitCandidate _ _ _ _
  | .enqueueFinal _ | .awaitFinal _ | .clearUtterance _ => .committing
  | _ => .other

def State.buffers (s : State F) : Buffers F where
  phase := s.loop.pc.phase
  speaking := s.loop.speaking
  pendingEnd := s.loop.pendingEnd
  utteranceId := s.loop.utteranceId
  preroll := s.loop.preroll
  utterance := s.loop.utterance
  gap := s.loop.gapBuffer
  captured := s.history.captured
  ends := s.history.ends

theorem phase_of_moves {s : State F} {pc : AudioPc F} (h : Moves s pc) :
    pc.phase = s.loop.pc.phase := by
  cases h with
  | blockDone hpc => rcases hpc with hpc | hpc | hpc | hpc <;> rw [hpc] <;> rfl
  | leaveIdle hpc | noActivity hpc | ignored hpc | candidateFresh hpc | candidateStale hpc
  | holdOver hpc | partialDue hpc | served hpc | unserved hpc | finalDone hpc | joined hpc =>
    rw [hpc]
    rfl

variable [FloatArith F] {p : TurnParams F} {s s' : State F} {input : AudioInput F}

theorem bufferStep_of_audioStep (hs : s.loop.Shape) (h : AudioStep p s input s') :
    s'.buffers = s.buffers ∨ BufferStep (samplesOfMs p.speechPadMs) s.buffers s'.buffers := by
  have hphase : ∀ pc : AudioPc F, s.loop.pc = pc → s.buffers.phase = pc.phase :=
    fun pc hpc => congrArg AudioPc.phase hpc
  unfold Loop.Shape at hs
  cases h with
  | move hm => exact .inl (by simp [State.buffers, phase_of_moves hm])
  | skip hpc => exact .inl rfl
  | captureIdle hpc hsp => exact .inr (.idle (hphase _ hpc) hsp)
  | captureSpeech hpc hsp hpe => exact .inr (.speech (hphase _ hpc) hsp hpe)
  | captureGap hpc hsp hpe => exact .inr (.gap (hphase _ hpc) hsp hpe)
  | beginUtterance hpc hsp => exact .inr (.begin (hphase _ hpc) hsp)
  | startResume hpc hsp hpe => exact .inr (.unpend (hphase _ hpc) hsp hpe)
  | beginPendingEnd hpc hsp hpe => exact .inr (.pend (hphase _ hpc) hsp hpe)
  | beginLocked hpc => exact .inr (.copyPreroll (hphase _ hpc))
  | resumeLocked hpc => exact .inr (.resume (hphase _ hpc))
  | discard hpc hb | commit hpc =>
    rw [hpc] at hs
    exact .inr (.commit (hphase _ hpc) hs)
  | @clearDiscarded ret hpc | @clearUtterance ret hpc =>
    cases ret <;> exact .inr (.clear (hphase _ hpc))
  | throws hpc =>
    rcases hpc with hpc | hpc <;> exact .inl (by simp [State.buffers, hpc, AudioPc.phase])
  | leaveSpeaking hpc | runaway hpc | beginEmit hpc | enqueueCandidate hpc | schedulePartial hpc
  | enqueuePartial hpc | takeCandidate hpc | emitCandidate hpc | enqueueFinal hpc
  | quitting hpc =>
    refine .inl ?_
    unfold State.buffers
    rw [hpc]
    rfl

theorem buffers_of_workerStep (h : WorkerStep s s') : s'.buffers = s.buffers := by
  have hcaptured : s'.history.captured = s.history.captured := by cases h <;> rfl
  have hends : s'.history.ends = s.history.ends := by cases h <;> rfl
  unfold State.buffers
  rw [workerStep_loop h, hcaptured, hends]

/-- Every utterance but the first begins at least a full preroll after the end of the last one. -/
def BeginsAfterPad (p : TurnParams F) (s : State F) (_ : AudioInput F) : Prop :=
  s.BeginsUtterance → s.buffers.BeginsLate (samplesOfMs p.speechPadMs)

theorem recorded_initial (p : TurnParams F) :
    Recorded (samplesOfMs p.speechPadMs) (initial p).buffers where
  bound := Nat.le_refl _
  order := by intro x h; cases h
  short := Nat.zero_le _
  gap := fun _ _ => rfl
  idle := fun _ => ⟨[], by simp [initial, State.buffers, lastOf], fun _ => rfl⟩
  beginning := by intro h; cases h
  speaking := by intro h; cases h
  committing := by intro h; cases h

structure Recording (p : TurnParams F) (s : State F) : Prop where
  shape : s.loop.Shape
  recorded : Recorded (samplesOfMs p.speechPadMs) s.buffers

omit [FloatArith F] in
theorem begun_of_phase {pc : AudioPc F} (h : pc.phase = .beginning) : pc.begun = false := by
  cases pc <;> first | rfl | cases h

omit [FloatArith F] in
theorem flags_of_phase (hs : s.loop.Shape) (h : s.buffers.phase = .beginning) :
    s.buffers.speaking = true ∧ s.buffers.pendingEnd = false := by
  unfold Loop.Shape at hs
  change s.loop.pc.phase = _ at h
  cases hpc : s.loop.pc with
  | beginLocked rest =>
    rw [hpc] at hs
    exact hs
  | _ =>
    rw [hpc] at h
    cases h

theorem recording_audioStep (hs : Recording p s) (hlate : BeginsAfterPad p s input)
    (h : AudioStep p s input s') : Recording p s' := by
  refine ⟨shape_step hs.shape h, ?_⟩
  rcases bufferStep_of_audioStep hs.shape h with heq | hstep
  · rw [heq]
    exact hs.recorded
  · apply recorded_step hs.recorded hstep
    · intro hphase
      exact hlate (beginsUtterance_of_audioStep h (begun_of_phase hphase))
    · exact flags_of_phase hs.shape

theorem recording_of_reaches
    (h : Reaches (step p) (AudioGuard (BeginsAfterPad p)) (initial p) s) : Recording p s := by
  apply run_invariant h ⟨(core_initial p).shape, recorded_initial p⟩
  · exact fun s now hs => { hs with }
  · exact fun s now input hG => hG
  · exact fun s input s' hs hG ha => recording_audioStep hs hG ha
  · intro s s' hs hw
    refine ⟨?_, ?_⟩
    · rw [workerStep_loop hw]
      exact hs.shape
    · rw [buffers_of_workerStep hw]
      exact hs.recorded

omit [FloatArith F] in
theorem phase_of_live (hl : s.loop.live = true) : s.buffers.phase ≠ .beginning ∧
    (s.buffers.speaking = true ∨ s.buffers.phase = .committing) := by
  unfold Loop.live at hl
  change s.loop.pc.phase ≠ _ ∧ (s.loop.speaking = true ∨ s.loop.pc.phase = _)
  cases hpc : s.loop.pc <;>
    simp_all [AudioPc.live, AudioPc.begun, AudioPc.committing, AudioPc.phase]

/-- Runs in which no utterance begins within a preroll of the last one: the buffer of an utterance
that is open or being committed is a contiguous slice of the input, in capture order, and starts
after the end of every earlier utterance. -/
theorem utterance_is_slice (h : Reaches (step p) (AudioGuard (BeginsAfterPad p)) (initial p) s)
    (hlive : s.loop.live = true) :
    ∃ a, SliceAt s.history.captured a s.loop.utterance ∧
      ∀ x ∈ s.history.ends, x.1 < s.loop.utteranceId → x.2 ≤ a := by
  obtain ⟨hphase, hopen⟩ := phase_of_live hlive
  exact (recording_of_reaches h).recorded.slice hphase hopen

def beginsAfterPadTest (s : State ℚ) (_ : AudioInput ℚ) : Bool :=
  match s.loop.pc with
  | .activities (.speechStart :: _) => s.history.ends.isEmpty
  | _ => true

theorem beginsAfterPad_of_test (s : State ℚ) (input : AudioInput ℚ)
    (h : beginsAfterPadTest s input = true) : BeginsAfterPad (.default ℚ) s input := by
  rintro ⟨rest, hpc, _⟩
  rw [beginsAfterPadTest, hpc] at h
  exact .inl (List.isEmpty_iff.mp h)

def pausedSpeech : List (Action ℚ) :=
  [heardAt 0 silence [.speechStart]] ++ audioSteps 0 5 ++
  [heardAt 0 tone [.speechEnd]] ++ audioSteps 0 5 ++
  [heardAt 0 silence [.speechStart]] ++ audioSteps 0 4

theorem utterance_is_slice_pausedSpeech :
    ∃ (s : State ℚ) (a : ℕ), s.loop.utterance.length = 1536 ∧
      SliceAt s.history.captured a s.loop.utterance := by
  obtain ⟨s, hs, htest⟩ := exists_guarded beginsAfterPad_of_test pausedSpeech
    (fun s => s.loop.live && s.loop.utterance.length == 1536) (by decide +kernel)
  simp only [Bool.and_eq_true, beq_iff_eq] at htest
  obtain ⟨a, hslice, _⟩ := utterance_is_slice hs htest.1
  exact ⟨s, a, htest.2, hslice⟩

/-- The VAD reports speech again right after an utterance was committed. -/
def nextSpeech : List (Action ℚ) :=
  [heardAt 0 silence [.speechStart]] ++ audioSteps 0 5 ++
  [heardAt 0 tone [.speechEnd]] ++ audioSteps 0 5 ++ workerSteps 0 1 ++
  [replies 0 "hello"] ++ workerSteps 0 6 ++
  [heardAt 200000000 silence []] ++ audioSteps 200000000 7 ++
  [heardAt 200000000 tone [.speechStart]] ++ audioSteps 200000000 2

theorem preroll_reaches_behind_last_utterance :
    ∃ s, Runs s ∧ s.loop.live = true ∧
      ¬ ∃ a, SliceAt s.history.captured a s.loop.utterance ∧
        ∀ x ∈ s.history.ends, x.1 < s.loop.utteranceId → x.2 ≤ a := by
  obtain ⟨s, hs, htest⟩ := exists_runs nextSpeech
    (fun s => s.loop.live && s.history.ends.any fun x => decide (x.1 < s.loop.utteranceId) &&
      decide (s.history.captured.length < x.2 + s.loop.utterance.length)) (by decide +kernel)
  simp only [Bool.and_eq_true, List.any_eq_true, decide_eq_true_eq] at htest
  obtain ⟨hlive, x, hx, hlt, hlong⟩ := htest
  refine ⟨s, hs, hlive, ?_⟩
  rintro ⟨a, ⟨hbound, hpre⟩, hend⟩
  have hlen := hpre.length_le
  rw [List.length_drop] at hlen
  have ha := hend x hx hlt
  omega

end FastTts.Voice
