import FastTts.ChatAudio

/-!
# The takes of a short line

The writer's own synthesis of one sentence. A short line is held until its opening sounds like the
character; one that never does is compared as a whole and, if it sounds like somebody else, made
once more. Whatever the syntheses make and however alike they sound, one of the two takes is
written, whole and in order, and nothing of the other.
-/

namespace FastTts.Reply

variable {F : Type}

/-- A buffer in the sink of `synthesize`, with its encoding. -/
structure AudioBuffer (F : Type) where
  samples : List F
  sampleRate : ℤ
  pcm : Bytes
  deriving DecidableEq

def AudioBuffer.input (buffer : AudioBuffer F) : WriterInput F :=
  .audio buffer.samples buffer.sampleRate buffer.pcm

/-- The chunks of a take: buffers that encode to nothing are left out. -/
def chunksOf (buffers : List (AudioBuffer F)) : List Bytes :=
  (buffers.map AudioBuffer.pcm).filter fun pcm => !pcm.isEmpty

variable {verify : Bool} {take : Take} {a : Attempt F} {t : State F} {wrong : Option (WrongTake F)}

theorem Holding.drained {made : List Bytes} {written : List (Take × Bytes)}
    (h : Holding verify a take made written) :
    Holding verify { a with out := [] } take made (written ++ said take a.out) := by
  generalize hout : a.out = out
  induction out generalizing a written with
  | nil =>
    rw [said, List.map_nil, List.append_nil, ← hout]
    exact h
  | cons pcm out ih =>
    have hrest := ih (h.writes hout) rfl
    rwa [List.append_assoc] at hrest

/-- The writer is at `pc` with the last of its sentences. -/
def State.speaking (s : State F) (past : List Heard) (pc : WriterPc F) (h : Heard) : State F :=
  { s with writer := { s.writer with pc := pc, heard := past ++ [h] } }

theorem hear_speaking (s : State F) (past : List Heard) (h : Heard) (pc : WriterPc F)
    (f : Heard → Heard) : (s.speaking past pc h).hear f = s.speaking past pc (f h) := by
  rw [State.hear, State.speaking]
  dsimp only
  rw [onLast_concat]
  rfl

theorem write_speaking (s : State F) (past : List Heard) (h : Heard) (pc : WriterPc F)
    (take : Take) (pcm : Bytes) :
    (s.speaking past pc h).write take pcm =
      s.speaking past pc { h with written := h.written ++ [(take, pcm)] } :=
  hear_speaking s past h pc _

variable [FloatOrder F] {p : Params F}

/-- The sink: one buffer is held, or written with all that was held before it. -/
def sink (p : Params F) (verifyVoice : Bool) (take : Take)
    (state : Attempt F × List (Take × Bytes)) (buffer : AudioBuffer F) :
    Attempt F × List (Take × Bytes) :=
  if buffer.pcm.isEmpty then state
  else
    let a := state.1.hear p verifyVoice buffer.samples buffer.sampleRate buffer.pcm
    ({ a with out := [] }, state.2 ++ said take a.out)

/-- One run of the closure, and what is written during it. The rate of the samples that are held is
not reset between two runs. -/
def synthesize (p : Params F) (verifyVoice : Bool) (take : Take) (heldRate : ℤ)
    (buffers : List (AudioBuffer F)) : Attempt F × List (Take × Bytes) :=
  buffers.foldl (sink p verifyVoice take) (.fresh heldRate, [])

/-- How much a take sounds like the character. -/
def likeThem (p : Params F) (a : Attempt F) : F := p.similarity a.heldSamples a.heldRate

/-- A take that was held to its end and sounds like somebody else. -/
def soundsWrong (p : Params F) (verifyVoice : Bool) (a : Attempt F) : Bool :=
  verifyVoice && !a.voiceCleared && (le (lit 0) (likeThem p a) &&
    lt (likeThem p a) voiceIdentityFloor)

/-- What is written of a sentence whose syntheses make the given buffers. -/
def speakSentence (p : Params F) (verifyVoice : Bool) (first retake : List (AudioBuffer F)) :
    List (Take × Bytes) :=
  let (a, written) := synthesize p verifyVoice .first 24000 first
  if verifyVoice && !a.voiceCleared then
    if le (lit 0) (likeThem p a) && lt (likeThem p a) voiceIdentityFloor then
      let (b, rewritten) := synthesize p verifyVoice .retake a.heldRate retake
      written ++ rewritten ++
        if lt (likeThem p b) (likeThem p a) then said .first a.held else said .retake b.held
    else written ++ said .first a.held
  else written

/-! ## One take -/

/-- What is known of a synthesis at any of its buffers. -/
structure Taken (p : Params F) (verify : Bool) (take : Take) (buffers : List (AudioBuffer F))
    (state : Attempt F × List (Take × Bytes)) : Prop where
  out : state.1.out = []
  holds : Holding verify state.1 take (chunksOf buffers) state.2
  cleared : state.1.voiceCleared = true →
    le voiceIdentityFloor (likeThem p state.1) = true

theorem taken_sink {buffers : List (AudioBuffer F)} {state : Attempt F × List (Take × Bytes)}
    (h : Taken p verify take buffers state) (buffer : AudioBuffer F) :
    Taken p verify take (buffers ++ [buffer]) (sink p verify take state buffer) := by
  have hchunks : chunksOf (buffers ++ [buffer]) =
      chunksOf buffers ++ [buffer.pcm].filter fun pcm => !pcm.isEmpty := by
    rw [chunksOf, List.map_append, List.filter_append]
    rfl
  rw [sink]
  by_cases hempty : buffer.pcm.isEmpty = true
  · rw [if_pos hempty]
    refine ⟨h.out, ?_, h.cleared⟩
    rw [hchunks, List.filter_cons_of_neg (by simpa using hempty), List.filter_nil, List.append_nil]
    exact h.holds
  · rw [if_neg hempty]
    have hb := hear_cases (p := p) verify state.1 buffer.samples buffer.sampleRate buffer.pcm
    have hholds := (h.holds.hears h.out hb).drained
    rw [List.filter_cons_of_pos (by simpa using hempty), List.filter_nil] at hchunks
    rw [← hchunks] at hholds
    refine ⟨rfl, hholds, ?_⟩
    dsimp only
    generalize state.1.hear p verify buffer.samples buffer.sampleRate buffer.pcm = b at hb
    cases hb with
    | passes hpass => exact h.cleared
    | clears samples rate hheld hlike => exact fun _ => hlike
    | holds samples rate hheld => exact nofun

theorem taken_synthesize (verify : Bool) (take : Take) (heldRate : ℤ)
    (buffers : List (AudioBuffer F)) :
    Taken p verify take buffers (synthesize p verify take heldRate buffers) := by
  induction buffers using List.reverseRecOn with
  | nil => exact ⟨rfl, holding_fresh verify heldRate take, nofun⟩
  | append_singleton buffers buffer ih =>
    rw [synthesize, List.foldl_concat]
    exact taken_sink ih buffer

/-- The retake is made, and sounds no worse than the first take. -/
def KeepsRetake (p : Params F) (first retake : List (AudioBuffer F)) : Prop :=
  let a := (synthesize p true .first 24000 first).1
  let b := (synthesize p true .retake a.heldRate retake).1
  soundsWrong p true a = true ∧ lt (likeThem p b) (likeThem p a) = false

instance (first retake : List (AudioBuffer F)) : Decidable (KeepsRetake p first retake) :=
  inferInstanceAs (Decidable (_ ∧ _))

theorem speakSentence_short (first retake : List (AudioBuffer F)) :
    speakSentence p true first retake =
      if KeepsRetake p first retake then said .retake (chunksOf retake)
      else said .first (chunksOf first) := by
  have hfirst := taken_synthesize (p := p) true .first 24000 first
  have hkeeps : KeepsRetake p first retake ↔
      soundsWrong p true (synthesize p true .first 24000 first).1 = true ∧
        lt (likeThem p (synthesize p true .retake
            (synthesize p true .first 24000 first).1.heldRate retake).1)
          (likeThem p (synthesize p true .first 24000 first).1) = false :=
    Iff.rfl
  rw [speakSentence]
  generalize synthesize p true .first 24000 first = taken at hfirst hkeeps
  obtain ⟨a, written⟩ := taken
  have hretake := taken_synthesize (p := p) true .retake a.heldRate retake
  dsimp only at hkeeps ⊢
  generalize synthesize p true .retake a.heldRate retake = retaken at hretake hkeeps
  obtain ⟨b, rewritten⟩ := retaken
  have hall := hfirst.holds.all hfirst.out
  have hall' := hretake.holds.all hretake.out
  have hcleared := hretake.cleared
  have hholds := hfirst.holds
  have hholds' := hretake.holds
  dsimp only at hkeeps hall hall' hcleared hholds hholds' ⊢
  rw [soundsWrong, Bool.and_eq_true] at hkeeps
  rw [Holding] at hholds hholds'
  by_cases hheld : (true && !a.voiceCleared) = true
  · rw [if_pos hheld] at hholds ⊢
    by_cases hwrong : (le (lit 0) (likeThem p a) && lt (likeThem p a) voiceIdentityFloor) = true
    · rw [if_pos hwrong, hholds.1, List.nil_append]
      by_cases hworse : lt (likeThem p b) (likeThem p a) = true
      · -- a retake that was cleared is no worse, so nothing of this one has been written
        let wrong : WrongTake F := ⟨a.held, likeThem p a⟩
        have hfloor : lt wrong.likeThem voiceIdentityFloor = true :=
          (Bool.and_eq_true_iff.mp hwrong).2
        rw [not_cleared_of_lt hfloor hcleared hworse, if_pos (by decide)] at hholds'
        rw [if_pos hworse, if_neg fun h => absurd (hworse.symm.trans (hkeeps.mp h).2) (by simp),
          hholds'.1, hholds.2.2]
        rfl
      · rw [if_neg hworse, if_pos (hkeeps.mpr ⟨⟨hheld, hwrong⟩, by simpa using hworse⟩)]
        exact hall'
    · rw [if_neg hwrong, if_neg fun h => hwrong (hkeeps.mp h).1.2]
      exact hall
  · rw [if_neg hheld] at hholds ⊢
    rw [if_neg fun h => hheld (hkeeps.mp h).1.1]
    have hout : a.out = [] := hfirst.out
    have hwritten := hholds.2
    rwa [hout, said, List.map_nil, List.append_nil] at hwritten

/-! ## The writer's steps -/

/-- The writer goes from one state to another, and meets the inputs on the way. -/
inductive Goes (p : Params F) : State F → List (WriterInput F) → State F → Prop
  | stays (s : State F) : Goes p s [] s
  | goes {s t u : State F} (name : Bytes) {inputs : List (WriterInput F)}
    (hstep : writerStep p s (.go name) = some t) (h : Goes p t inputs u) : Goes p s inputs u
  | meets {s t u : State F} (input : WriterInput F) {inputs : List (WriterInput F)}
    (hstep : writerStep p s input = some t) (h : Goes p t inputs u) : Goes p s (input :: inputs) u

theorem Goes.trans {s u : State F} {a b : List (WriterInput F)} (h : Goes p s a t)
    (h' : Goes p t b u) : Goes p s (a ++ b) u := by
  induction h with
  | stays s => exact h'
  | goes name hstep h ih => exact .goes name hstep (ih h')
  | meets input hstep h ih => exact .meets input hstep (ih h')

variable {s : State F} {past : List Heard} {h : Heard}

theorem goes_out (verify : Bool) (wrong : Option (WrongTake F)) (a : Attempt F) :
    Goes p (s.speaking past (.synthesizing verify wrong a) h) []
      (s.speaking past (.synthesizing verify wrong { a with out := [] })
        { h with written := h.written ++ said (currentTake wrong) a.out }) := by
  generalize hout : a.out = out
  induction out generalizing a h with
  | nil =>
    have hsame : ({ a with out := [] } : Attempt F) = a := by rw [← hout]
    rw [said, List.map_nil, List.append_nil, hsame]
    exact .stays _
  | cons pcm out ih =>
    have hstep : writerStep p (s.speaking past (.synthesizing verify wrong a) h) (.go []) =
        some (s.speaking past (.synthesizing verify wrong { a with out := out })
          { h with written := h.written ++ [(currentTake wrong, pcm)] }) := by
      rw [writerStep, writerGo]
      simp only [State.speaking, hout]
      exact congrArg (fun t : State F => some (t.setWriter _)) (write_speaking s past h _ _ pcm)
    have hrest := ih (h := { h with written := h.written ++ [(currentTake wrong, pcm)] })
      { a with out := out } rfl
    rw [List.append_assoc] at hrest
    exact .goes [] hstep hrest

theorem goes_emitting (take : Take) (held : List Bytes) :
    Goes p (s.speaking past (.emitting take held) h) []
      (s.speaking past .waiting
        { h with written := h.written ++ said take held, complete := true }) := by
  induction held generalizing h with
  | nil =>
    have hstep : writerStep p (s.speaking past (.emitting take []) h) (.go []) =
        some (s.speaking past .waiting { h with complete := true }) :=
      congrArg (fun t : State F => some (t.setWriter .waiting)) (hear_speaking s past h _ _)
    rw [said, List.map_nil, List.append_nil]
    exact .goes [] hstep (.stays _)
  | cons pcm held ih =>
    have hstep : writerStep p (s.speaking past (.emitting take (pcm :: held)) h) (.go []) =
        some (s.speaking past (.emitting take held)
          { h with written := h.written ++ [(take, pcm)] }) :=
      congrArg (fun t : State F => some (t.setWriter _)) (write_speaking s past h _ _ pcm)
    have hrest := ih (h := { h with written := h.written ++ [(take, pcm)] })
    rw [List.append_assoc] at hrest
    exact .goes [] hstep hrest

theorem goes_synthesize (s : State F) (past : List Heard) (h : Heard) (verify : Bool)
    (htake : currentTake wrong = take) (heldRate : ℤ) (buffers : List (AudioBuffer F)) :
    ∃ h' : Heard, Goes p (s.speaking past (.synthesizing verify wrong (.fresh heldRate)) h)
        (buffers.map AudioBuffer.input) (s.speaking past (.synthesizing verify wrong
          (synthesize p verify take heldRate buffers).1) h') ∧
      h'.written = h.written ++ (synthesize p verify take heldRate buffers).2 := by
  subst htake
  induction buffers using List.reverseRecOn with
  | nil => exact ⟨h, .stays _, (List.append_nil _).symm⟩
  | append_singleton buffers buffer ih =>
    obtain ⟨h', hgoes, hwritten⟩ := ih
    have htaken := taken_synthesize (p := p) verify (currentTake wrong) heldRate buffers
    rw [synthesize, List.foldl_concat, ← synthesize]
    generalize synthesize p verify (currentTake wrong) heldRate buffers = state at *
    obtain ⟨a, written⟩ := state
    have hout : a.out = [] := htaken.out
    have hready : ¬ a.out ≠ [] := not_not.mpr hout
    rw [List.map_append, sink]
    by_cases hempty : buffer.pcm.isEmpty = true
    · rw [if_pos hempty]
      have hstep : writerStep p (s.speaking past (.synthesizing verify wrong a) h')
          buffer.input = some (s.speaking past (.synthesizing verify wrong a) h') := by
        change (if a.out ≠ [] then none else if buffer.pcm.isEmpty then some _ else _) = _
        rw [if_neg hready, if_pos hempty]
      exact ⟨h', hgoes.trans (.meets _ hstep (.stays _)), hwritten⟩
    · rw [if_neg hempty]
      dsimp only
      generalize hb : a.hear p verify buffer.samples buffer.sampleRate buffer.pcm = b
      have hstep : writerStep p (s.speaking past (.synthesizing verify wrong a) h')
          buffer.input = some (s.speaking past (.synthesizing verify wrong b)
              (h'.record (currentTake wrong) buffer.pcm)) := by
        change (if a.out ≠ [] then none else if buffer.pcm.isEmpty then some _ else _) = _
        rw [if_neg hready, if_neg hempty, ← hb]
        exact congrArg (fun t : State F => some (t.setWriter _)) (hear_speaking s past h' _ _)
      have hrecord : (h'.record (currentTake wrong) buffer.pcm).written = h'.written := by
        rw [Heard.record]
        split <;> rfl
      refine ⟨_, hgoes.trans (.meets _ hstep (goes_out verify wrong b)), ?_⟩
      dsimp only at hwritten ⊢
      rw [hrecord, hwritten, List.append_assoc]

theorem goes_returns (hout : a.out = []) {inputs : List (WriterInput F)}
    (ht : Goes p (endAttempt p (s.speaking past (.synthesizing verify wrong a) h) verify wrong a)
      inputs t) :
    Goes p (s.speaking past (.synthesizing verify wrong a) h) (.audioEnds :: inputs) t := by
  refine .meets .audioEnds ?_ ht
  change (if a.out ≠ [] then none else some _) = _
  rw [if_neg (not_not.mpr hout)]

theorem goes_retake (s : State F) (past : List Heard) (h : Heard) (verify : Bool)
    (wrong : WrongTake F) (heldRate : ℤ) (retake : List (AudioBuffer F)) : ∃ h' : Heard,
      Goes p (s.speaking past (.synthesizing verify (some wrong) (.fresh heldRate)) h)
        (retake.map AudioBuffer.input ++ [.audioEnds]) (s.speaking past .waiting h') ∧
      h'.complete = true ∧ h'.written =
        h.written ++ (synthesize p verify .retake heldRate retake).2 ++
          if lt (likeThem p (synthesize p verify .retake heldRate retake).1) wrong.likeThem then
            said .first wrong.held
          else said .retake (synthesize p verify .retake heldRate retake).1.held := by
  have htake : currentTake (some wrong) = Take.retake := rfl
  obtain ⟨g, hgoes, hwritten⟩ := goes_synthesize (p := p) s past h verify htake heldRate retake
  have hout := (taken_synthesize (p := p) verify .retake heldRate retake).out
  generalize synthesize p verify .retake heldRate retake = retaken at *
  obtain ⟨b, rewritten⟩ := retaken
  have hends : endAttempt p (s.speaking past (.synthesizing verify (some wrong) b) g) verify
      (some wrong) b = if lt (likeThem p b) wrong.likeThem = true then
        s.speaking past (.emitting .first wrong.held) g
      else s.speaking past (.emitting .retake b.held) g :=
    rfl
  dsimp only at *
  by_cases hworse : lt (likeThem p b) wrong.likeThem = true
  · rw [if_pos hworse] at hends ⊢
    refine ⟨{ g with written := g.written ++ said .first wrong.held, complete := true },
      hgoes.trans (goes_returns hout ?_), rfl, ?_⟩
    · rw [hends]
      exact goes_emitting .first wrong.held
    · dsimp only
      rw [hwritten]
  · rw [if_neg hworse] at hends ⊢
    refine ⟨{ g with written := g.written ++ said .retake b.held, complete := true },
      hgoes.trans (goes_returns hout ?_), rfl, ?_⟩
    · rw [hends]
      exact goes_emitting .retake b.held
    · dsimp only
      rw [hwritten]

/-- What the writer meets while it speaks a sentence. -/
def speaks (p : Params F) (verifyVoice : Bool) (first retake : List (AudioBuffer F)) :
    List (WriterInput F) :=
  first.map AudioBuffer.input ++ .audioEnds ::
    if soundsWrong p verifyVoice (synthesize p verifyVoice .first 24000 first).1 then
      retake.map AudioBuffer.input ++ [.audioEnds]
    else []

/-- A writer that has turned to its own synthesis comes to the end of the sentence, and has written
by then what `speakSentence` says. -/
theorem goes_speakSentence (s : State F) (past : List Heard) (h : Heard) (verify : Bool)
    (first retake : List (AudioBuffer F)) : ∃ h' : Heard,
      Goes p (s.speaking past (.synthesizing verify none (.fresh 24000)) h)
        (speaks p verify first retake) (s.speaking past .waiting h') ∧
      h'.complete = true ∧ h'.written = h.written ++ speakSentence p verify first retake := by
  have htake : currentTake (none : Option (WrongTake F)) = Take.first := rfl
  obtain ⟨g, hgoes, hwritten⟩ := goes_synthesize (p := p) s past h verify htake 24000 first
  have hout := (taken_synthesize (p := p) verify .first 24000 first).out
  rw [speaks, speakSentence]
  generalize synthesize p verify .first 24000 first = taken at *
  obtain ⟨a, written⟩ := taken
  have hends : endAttempt p (s.speaking past (.synthesizing verify none a) g) verify none a =
      if (verify && !a.voiceCleared) = true then
        if (le (lit 0) (likeThem p a) && lt (likeThem p a) voiceIdentityFloor) = true then
          s.speaking past (.synthesizing verify (some ⟨a.held, likeThem p a⟩) (.fresh a.heldRate)) g
        else s.speaking past (.emitting .first a.held) g
      else (s.speaking past (.synthesizing verify none a) g).endSentence :=
    rfl
  dsimp only at *
  have hsounds : soundsWrong p verify a = true ↔ (verify && !a.voiceCleared) = true ∧
      (le (lit 0) (likeThem p a) && lt (likeThem p a) voiceIdentityFloor) = true := by
    rw [soundsWrong, Bool.and_eq_true]
  by_cases hheld : (verify && !a.voiceCleared) = true
  · by_cases hwrong : (le (lit 0) (likeThem p a) && lt (likeThem p a) voiceIdentityFloor) = true
    · obtain ⟨g', hagain, hcomplete, hrewritten⟩ := goes_retake (p := p) s past g verify
        ⟨a.held, likeThem p a⟩ a.heldRate retake
      rw [if_pos hheld, if_pos hwrong] at hends
      rw [if_pos hheld, if_pos hwrong, if_pos (hsounds.mpr ⟨hheld, hwrong⟩)]
      refine ⟨g', hgoes.trans (goes_returns hout ?_), hcomplete, ?_⟩
      · rw [hends]
        exact hagain
      · rw [hrewritten, hwritten]
        simp only [List.append_assoc]
    · rw [if_pos hheld, if_neg hwrong] at hends
      rw [if_pos hheld, if_neg hwrong, if_neg fun h => hwrong (hsounds.mp h).2]
      refine ⟨{ g with written := g.written ++ said .first a.held, complete := true },
        hgoes.trans (goes_returns hout ?_), rfl, ?_⟩
      · rw [hends]
        exact goes_emitting .first a.held
      · dsimp only
        rw [hwritten, List.append_assoc]
  · have hover : (s.speaking past (.synthesizing verify none a) g).endSentence =
        s.speaking past .waiting { g with complete := true } :=
      congrArg (fun t : State F => t.setWriter .waiting) (hear_speaking s past g _ _)
    rw [if_neg hheld, hover] at hends
    rw [if_neg hheld, if_neg fun h => hheld (hsounds.mp h).1]
    refine ⟨{ g with complete := true }, hgoes.trans (goes_returns hout ?_), rfl, hwritten⟩
    rw [hends]
    exact .stays _

end FastTts.Reply
