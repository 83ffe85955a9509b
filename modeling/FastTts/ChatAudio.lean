import FastTts.ChatFirstSentence

/-!
# The audio of a sentence

A sentence is heard from one take: the speculative synthesis, the writer's own one, or its retake.
Chunks that were written cannot be recalled, so this needs that no take is left in the middle: the
writer's takes are written from the moment they are cleared on, and the speculative one must not
fail once the writer has taken a chunk of it.
-/

namespace FastTts.Reply

variable {F : Type}

def Heard.chunks (specTake : List Bytes) (h : Heard) : Take → List Bytes
  | .speculative => specTake
  | .first => h.first
  | .retake => h.retake

def said (take : Take) (chunks : List Bytes) : List (Take × Bytes) := chunks.map (Prod.mk take)

theorem said_take_append_drop (take : Take) (chunks : List Bytes) (n : ℕ) :
    said take (chunks.take n) ++ said take (chunks.drop n) = said take chunks := by
  rw [said, said, ← List.map_append, List.take_append_drop, said]

theorem said_append (take : Take) (a b : List Bytes) :
    said take (a ++ b) = said take a ++ said take b := List.map_append

/-- What was written of the sentence is a part of the take, and all of it in the end. -/
structure Part (s : State F) (h : Heard) (take : Take) : Prop where
  part : h.written <+: said take (h.chunks s.history.specTake take)
  whole : h.complete = true → h.written = said take (h.chunks s.history.specTake take)
  sentence : take = .speculative → s.history.specSentence = some h.sentence
  done : take = .speculative → h.complete = true → s.spec.audio.state = .done

def OneTake (s : State F) (h : Heard) : Prop := ∃ take, Part s h take

/-! ## The speculative take -/

/-- How many chunks of the speculative take the writer has taken so far. -/
def WriterPc.chunksTaken : WriterPc F → ℕ
  | .following _ chunkPos | .relaying _ chunkPos _ _ => chunkPos
  | _ => 0

/-- The speculative synthesis fails, if it does, before the writer has taken a chunk of it. -/
def FailsUntouched (s : State F) : Action F → Prop
  | .synth _ .fails => s.writer.pc.chunksTaken = 0
  | _ => True

structure SynthInv (s : State F) : Prop where
  none : s.spec.audio.state = .none →
    s.spec.audio.chunks = [] ∧ s.history.specTake = [] ∧ s.history.specSentence = none
  running : ∀ k : ℕ, s.synths[k]? = some .running → s.spec.audio.state = .running
  unique : ∀ k l : ℕ, s.synths[k]? = some .running → s.synths[l]? = some .running → k = l
  chunks : s.spec.audio.state = .running ∨ s.spec.audio.state = .done →
    s.spec.audio.chunks = s.history.specTake ∧ ∃ x, s.history.specSentence = some x
  failed : s.spec.audio.state = .failed → s.spec.audio.chunks = []

theorem synthInv_initial : SynthInv (initial : State F) where
  none _ := ⟨rfl, rfl, rfl⟩
  running k h := by cases h
  unique k l h := by cases h
  chunks h := by rcases h with h | h <;> cases h
  failed h := by cases h

/-- What a step means for the speculative take. -/
inductive AudioMoves (s t : State F) : Prop
  | same (hstate : t.spec.audio.state = s.spec.audio.state)
      (htake : t.history.specTake = s.history.specTake)
      (hsentence : t.history.specSentence = s.history.specSentence)
  | claims (hbefore : s.spec.audio.state = .none) (hafter : t.spec.audio.state = .running)
  | chunk (pcm : Bytes) (hbefore : s.spec.audio.state = .running)
      (hafter : t.spec.audio.state = .running)
      (htake : t.history.specTake = s.history.specTake ++ [pcm])
      (hsentence : t.history.specSentence = s.history.specSentence)
  | ends (hbefore : s.spec.audio.state = .running)
      (hafter : t.spec.audio.state = .done ∨
        t.spec.audio.state = .failed ∧ s.writer.pc.chunksTaken = 0)
      (htake : t.history.specTake = s.history.specTake)
      (hsentence : t.history.specSentence = s.history.specSentence)

section Synths

variable {s t : State F} {k : ℕ}

theorem getElem?_setSynth (s : State F) (k i : ℕ) (synth : Synth) :
    (s.setSynth k synth).synths[i]? =
      if k = i then (if k < s.synths.length then some synth else none) else s.synths[i]? :=
  List.getElem?_set

variable {i : ℕ}

theorem running_of_setSynth (synth : Synth) (hne : synth ≠ .running)
    (h : (s.setSynth k synth).synths[i]? = some .running) :
    s.synths[i]? = some .running ∧ i ≠ k := by
  rw [getElem?_setSynth] at h
  split_ifs at h with hki
  · cases h
    exact absurd rfl hne
  · exact ⟨h, fun he => hki he.symm⟩

theorem SynthInv.threads (h : SynthInv s) (haudio : t.spec.audio = s.spec.audio)
    (htake : t.history.specTake = s.history.specTake)
    (hsentence : t.history.specSentence = s.history.specSentence)
    (hrun : ∀ i : ℕ, t.synths[i]? = some .running → s.synths[i]? = some .running) : SynthInv t := by
  refine ⟨?_, ?_, ?_, ?_, ?_⟩
  · rw [haudio, htake, hsentence]
    exact h.none
  · rw [haudio]
    exact fun i hi => h.running i (hrun i hi)
  · exact fun i j hi hj => h.unique i j (hrun i hi) (hrun j hj)
  · rw [haudio, htake, hsentence]
    exact h.chunks
  · rw [haudio]
    exact h.failed

theorem SynthInv.none_runs (h : SynthInv s) (hk : s.synths[k]? = some .running) (i : ℕ) :
    (s.setSynth k .ended).synths[i]? ≠ some .running := by
  intro hi
  obtain ⟨hold, hne⟩ := running_of_setSynth .ended nofun hi
  exact hne (h.unique i k hold hk)

theorem synthInv_synthStep (h : SynthInv s) (hstep : SynthStep s k t) : SynthInv t := by
  have hmoves : ∀ synth : Synth, synth ≠ .running → SynthInv (s.setSynth k synth) :=
    fun synth hne => h.threads rfl rfl rfl fun i hi => (running_of_setSynth synth hne hi).1
  cases hstep with
  | skips sentence hk => exact hmoves .ended nofun
  | wakes sentence name hk hspoken => exact hmoves (.claiming sentence) nofun
  | late sentence hk => exact hmoves .ended nofun
  | empty hk => exact h
  | claims sentence hk hnone =>
    obtain ⟨hchunks, htake, _⟩ := h.none hnone
    have hother : ∀ i : ℕ, (s.setSynth k .running).synths[i]? = some .running → i = k := by
      intro i hi
      rw [getElem?_setSynth] at hi
      split_ifs at hi with hki
      · exact hki.symm
      · exact absurd ((h.running i hi).symm.trans hnone) nofun
    refine ⟨nofun, fun _ _ => rfl, fun i j hi hj => (hother i hi).trans (hother j hj).symm, ?_, nofun⟩
    exact fun _ => ⟨hchunks.trans htake.symm, sentence, rfl⟩
  | chunk pcm hk =>
    have hrun := h.running k hk
    obtain ⟨hchunks, hsentence⟩ := h.chunks (.inl hrun)
    refine ⟨fun he => absurd (hrun.symm.trans he) nofun, h.running, h.unique, ?_,
      fun he => absurd (hrun.symm.trans he) nofun⟩
    exact fun _ => ⟨congrArg (· ++ [pcm]) hchunks, hsentence⟩
  | finishes hk =>
    have hsame := h.chunks (.inl (h.running k hk))
    exact ⟨nofun, fun i hi => absurd hi (h.none_runs hk i), fun i _ hi => absurd hi (h.none_runs hk i),
      fun _ => hsame, nofun⟩
  | fails hk =>
    refine ⟨nofun, fun i hi => absurd hi (h.none_runs hk i),
      fun i _ hi => absurd hi (h.none_runs hk i), ?_, fun _ => rfl⟩
    rintro (he | he) <;> cases he

theorem audioMoves_of_synthStep (h : SynthInv s) (hstep : SynthStep s k t)
    (hfails : t.spec.audio.state = .failed → s.spec.audio.state = .running →
      s.writer.pc.chunksTaken = 0) : AudioMoves s t := by
  cases hstep with
  | claims sentence hk hnone => exact .claims hnone rfl
  | chunk pcm hk => exact .chunk pcm (h.running k hk) (h.running k hk) rfl rfl
  | finishes hk => exact .ends (h.running k hk) (.inl rfl) rfl rfl
  | fails hk => exact .ends (h.running k hk) (.inr ⟨rfl, hfails rfl (h.running k hk)⟩) rfl rfl
  | _ => exact .same rfl rfl rfl

theorem emit_audio (scrubbed : Bytes × Hygiene.StreamScrubber) (result : Option ChatResult)
    (after : WorkerPc) : (emit s scrubbed result after).spec.audio = s.spec.audio := by
  rw [emit]
  split <;> rfl

theorem running_of_spawn {synths : List Synth} {sentence : Bytes}
    (h : (synths ++ [.settling sentence])[i]? = some .running) : synths[i]? = some .running := by
  rcases Nat.lt_or_ge i synths.length with hi | hi
  · rwa [List.getElem?_append_left hi] at h
  · rw [List.getElem?_append_right hi] at h
    have hmem := List.mem_of_getElem? h
    cases List.mem_singleton.mp hmem

theorem workerStep_audio {p : Params F} (hstep : WorkerStep p s t) :
    t.spec.audio = s.spec.audio ∧ t.history.specTake = s.history.specTake ∧
      t.history.specSentence = s.history.specSentence ∧
      ∀ i : ℕ, t.synths[i]? = some .running → s.synths[i]? = some .running := by
  have hemit : ∀ (s : State F) scrubbed result after,
      (emit s scrubbed result after).spec.audio = s.spec.audio ∧
      (emit s scrubbed result after).history.specTake = s.history.specTake ∧
      (emit s scrubbed result after).history.specSentence = s.history.specSentence ∧
      ∀ i : ℕ, (emit s scrubbed result after).synths[i]? = some .running →
        s.synths[i]? = some .running := by
    intro s scrubbed result after
    obtain ⟨hsynths, hhistory, _⟩ := emit_rest (s := s) scrubbed result after
    rw [hhistory, hsynths]
    exact ⟨emit_audio scrubbed result after, rfl, rfl, fun _ hi => hi⟩
  cases hstep with
  | delta text hpc => exact hemit (s.receive text) _ _ _
  | flushes result hpc => exact hemit s _ _ _
  | trigger result hpc =>
    rw [earlyTrigger]
    split
    · split
      · exact ⟨rfl, rfl, rfl, fun _ hi => running_of_spawn hi⟩
      · exact ⟨rfl, rfl, rfl, fun _ hi => hi⟩
    · exact ⟨rfl, rfl, rfl, fun _ hi => hi⟩
  | fallback first hpc => exact ⟨rfl, rfl, rfl, fun _ hi => running_of_spawn hi⟩
  | _ => exact ⟨rfl, rfl, rfl, fun _ hi => hi⟩

theorem fails_of_failed {input : SynthInput} (h : synthStep s k input = some t)
    (hbefore : s.spec.audio.state = .running) (hafter : t.spec.audio.state = .failed) :
    input = .fails := by
  have hkeeps : t.spec.audio.state = s.spec.audio.state → input = .fails := by
    intro hsame
    rw [hsame, hbefore] at hafter
    cases hafter
  unfold synthStep at h
  split at h
  case h_1 => split at h <;> cases h <;> exact hkeeps rfl
  case h_2 =>
    split at h <;> cases h
    · cases hafter
    · exact hkeeps rfl
  case h_3 => split at h <;> cases h <;> exact hkeeps rfl
  case h_4 =>
    cases h
    cases hafter
  case h_5 => rfl
  case h_6 => cases h

theorem Part.moves {h : Heard} {take : Take} (hp : Part s h take) (hs : SynthInv s)
    (hm : AudioMoves s t) : Part t h take := by
  cases hm with
  | same hstate htake hsentence =>
    refine ⟨?_, ?_, ?_, ?_⟩
    · rw [htake]
      exact hp.part
    · rw [htake]
      exact hp.whole
    · rw [hsentence]
      exact hp.sentence
    · rw [hstate]
      exact hp.done
  | claims hbefore hafter =>
    have hown : take ≠ .speculative := by
      intro he
      have hsome := hp.sentence he
      rw [(hs.none hbefore).2.2] at hsome
      cases hsome
    cases take with
    | speculative => exact absurd rfl hown
    | first => exact ⟨hp.part, hp.whole, nofun, nofun⟩
    | retake => exact ⟨hp.part, hp.whole, nofun, nofun⟩
  | chunk pcm hbefore hafter htake hsentence =>
    cases take with
    | speculative =>
      have hopen : h.complete = true → False := by
        intro hc
        exact absurd (hbefore.symm.trans (hp.done rfl hc)) nofun
      refine ⟨?_, fun hc => (hopen hc).elim, ?_, fun _ hc => (hopen hc).elim⟩
      · rw [htake]
        change h.written <+: said .speculative (s.history.specTake ++ [pcm])
        rw [said_append]
        exact hp.part.trans (List.prefix_append _ _)
      · rw [hsentence]
        exact hp.sentence
    | first => exact ⟨hp.part, hp.whole, nofun, nofun⟩
    | retake => exact ⟨hp.part, hp.whole, nofun, nofun⟩
  | ends hbefore hafter htake hsentence =>
    refine ⟨?_, ?_, ?_, ?_⟩
    · rw [htake]
      exact hp.part
    · rw [htake]
      exact hp.whole
    · rw [hsentence]
      exact hp.sentence
    · exact fun he hc => absurd (hbefore.symm.trans (hp.done he hc)) nofun

end Synths

/-! ## The sentence being spoken -/

/-- What the writer holds of a take while it is made: all of it, or nothing any more. -/
def Holding (verify : Bool) (a : Attempt F) (take : Take) (made : List Bytes)
    (written : List (Take × Bytes)) : Prop :=
  if verify && !a.voiceCleared then written = [] ∧ a.out = [] ∧ a.held = made
  else a.held = [] ∧ written ++ said take a.out = said take made

/-- The part of the speculative take up to a cursor. -/
structure Follows (audio : AudioState) (specTake : List Bytes) (chunkPos : ℕ)
    (written : List (Take × Bytes)) : Prop where
  started : audio ≠ .none
  le : chunkPos ≤ specTake.length
  written : written = said .speculative (specTake.take chunkPos)
  failed : audio = .failed → chunkPos = 0

section Moves

variable {s t : State F} {chunkPos : ℕ} {written : List (Take × Bytes)}

theorem Follows.moves (h : Follows s.spec.audio.state s.history.specTake chunkPos written)
    (hm : AudioMoves s t) (htaken : s.writer.pc.chunksTaken = chunkPos) :
    Follows t.spec.audio.state t.history.specTake chunkPos written := by
  cases hm with
  | same hstate htake hsentence =>
    rw [hstate, htake]
    exact h
  | claims hbefore hafter => exact absurd hbefore h.started
  | chunk pcm hbefore hafter htake hsentence =>
    rw [hafter, htake]
    refine ⟨nofun, ?_, ?_, nofun⟩
    · rw [List.length_append]
      exact h.le.trans (Nat.le_add_right _ _)
    · rw [List.take_append_of_le_length h.le]
      exact h.written
  | ends hbefore hafter htake hsentence =>
    rw [htake]
    rcases hafter with hafter | ⟨hafter, hzero⟩ <;> rw [hafter]
    · exact ⟨nofun, h.le, h.written, nofun⟩
    · exact ⟨nofun, h.le, h.written, fun _ => htaken.symm.trans hzero⟩

theorem OneTake.moves {h : Heard} (ho : OneTake s h) (hs : SynthInv s) (hm : AudioMoves s t) :
    OneTake t h := by
  obtain ⟨take, hp⟩ := ho
  exact ⟨take, hp.moves hs hm⟩

theorem holding_fresh (verify : Bool) (rate : ℤ) (take : Take) :
    Holding verify (.fresh rate : Attempt F) take [] [] := by
  rw [Holding]
  split
  · exact ⟨rfl, rfl, rfl⟩
  · exact ⟨rfl, rfl⟩

variable {take : Take} {made : List Bytes}

section

variable {verify : Bool} {a : Attempt F} (h : Holding verify a take made written)
include h

theorem Holding.writes {pcm : Bytes} {out : List Bytes} (hout : a.out = pcm :: out) :
    Holding verify { a with out := out } take made (written ++ [(take, pcm)]) := by
  rw [Holding] at h ⊢
  split at h
  · next hheld =>
    have hnil := h.2.1
    rw [hout] at hnil
    cases hnil
  · next hclear =>
    rw [if_neg hclear]
    refine ⟨h.1, ?_⟩
    rw [List.append_assoc]
    rw [hout] at h
    exact h.2

theorem Holding.all (hout : a.out = []) : written ++ said take a.held = said take made := by
  rw [Holding] at h
  split at h
  · rw [h.1, h.2.2]
    rfl
  · obtain ⟨hheld, hwritten⟩ := h
    rw [hout] at hwritten
    rw [hheld]
    exact hwritten

end

theorem Follows.copies (hs : SynthInv s)
    (h : Follows s.spec.audio.state s.history.specTake chunkPos written) :
    Follows s.spec.audio.state s.history.specTake s.spec.audio.chunks.length
      (written ++ said .speculative
        (if s.spec.audio.state = .failed then [] else s.spec.audio.chunks.drop chunkPos)) ∧
    (s.spec.audio.state = .done → s.spec.audio.chunks.length = s.history.specTake.length) := by
  by_cases hfailed : s.spec.audio.state = .failed
  · rw [if_pos hfailed, hs.failed hfailed]
    refine ⟨⟨h.started, Nat.zero_le _, ?_, fun _ => rfl⟩, fun hdone => ?_⟩
    · rw [h.written, h.failed hfailed]
      rfl
    · rw [hfailed] at hdone
      cases hdone
  · have hmade : s.spec.audio.chunks = s.history.specTake := by
      cases hstate : s.spec.audio.state with
      | none => exact absurd hstate h.started
      | running => exact (hs.chunks (.inl hstate)).1
      | done => exact (hs.chunks (.inr hstate)).1
      | failed => exact absurd hstate hfailed
    rw [if_neg hfailed, hmade]
    refine ⟨⟨h.started, le_rfl, ?_, fun he => absurd he hfailed⟩, fun _ => rfl⟩
    rw [h.written, said_take_append_drop, List.take_length]

theorem Follows.over (h : Follows s.spec.audio.state s.history.specTake chunkPos written)
    (hstopped : s.spec.audio.state ≠ .running)
    (hwhole : s.spec.audio.state = .done → chunkPos = s.history.specTake.length) :
    s.spec.audio.state = .done ∧ written = said .speculative s.history.specTake ∨
      s.spec.audio.state = .failed ∧ written = [] := by
  cases hstate : s.spec.audio.state with
  | none => exact absurd hstate h.started
  | running => exact absurd hstate hstopped
  | done =>
    refine .inl ⟨rfl, ?_⟩
    rw [h.written, hwhole hstate, List.take_length]
  | failed =>
    refine .inr ⟨rfl, ?_⟩
    rw [h.written, h.failed hstate]
    rfl

end Moves

section Writer

variable [FloatOrder F]

def AttemptHolds (p : Params F) (verify : Bool) (wrong : Option (WrongTake F)) (a : Attempt F)
    (h : Heard) : Prop :=
  match wrong with
  | none => h.retake = [] ∧ Holding verify a .first h.first h.written
  | some wrong => verify = true ∧ wrong.held = h.first ∧
    lt wrong.likeThem voiceIdentityFloor = true ∧ Holding true a .retake h.retake h.written ∧
    (a.voiceCleared = true →
      le voiceIdentityFloor (p.similarity a.heldSamples a.heldRate) = true)

def Heard.Untaken (h : Heard) : Prop := h.first = [] ∧ h.retake = []

/-- How the record of a sentence stands while the writer is at `pc`. -/
def PcHolds (p : Params F) (s : State F) (h : Heard) : WriterPc F → Prop
  | .deciding _ => h.Untaken ∧ h.written = []
  | .following _ chunkPos => h.Untaken ∧
    Follows s.spec.audio.state s.history.specTake chunkPos h.written
  | .relaying _ chunkPos chunks finished => h.Untaken ∧
    Follows s.spec.audio.state s.history.specTake chunkPos
      (h.written ++ said .speculative chunks) ∧
    (finished = true → s.spec.audio.state ≠ .running ∧
      (s.spec.audio.state = .done → chunkPos = s.history.specTake.length))
  | .checking _ => h.Untaken ∧
    (s.spec.audio.state = .done ∧ h.written = said .speculative s.history.specTake ∨
      s.spec.audio.state = .failed ∧ h.written = [])
  | .synthesizing verify wrong a => AttemptHolds p verify wrong a h
  | .emitting take held => take ≠ .speculative ∧
    h.written ++ said take held = said take (h.chunks s.history.specTake take)
  | .waiting | .ended | .failed => False

/-- The places that only the first sentence comes to. -/
def WriterPc.opening : WriterPc F → Bool
  | .deciding _ | .following _ _ | .relaying _ _ _ _ | .checking _ => true
  | _ => false

/-- The places inside of a sentence. -/
def WriterPc.speaks : WriterPc F → Bool
  | .waiting | .ended | .failed => false
  | _ => true

inductive WriterHolds (p : Params F) (s : State F) : Prop
  | between (hpc : s.writer.pc = .waiting ∨ s.writer.pc = .ended)
      (hall : ∀ h ∈ s.writer.heard, h.complete = true ∧ OneTake s h)
  | speaking (past : List Heard) (h : Heard) (hheard : s.writer.heard = past ++ [h])
      (hpast : ∀ g ∈ past, g.complete = true ∧ OneTake s g) (hopen : h.complete = false)
      (hfirst : s.writer.pc.opening = true → past = []) (hpc : PcHolds p s h s.writer.pc)
  | failed (hpc : s.writer.pc = .failed) (hall : ∀ h ∈ s.writer.heard, OneTake s h)

variable {p : Params F} {s t : State F}

variable {h : Heard} {verify : Bool} {a : Attempt F} {pcm : Bytes} {wrong : Option (WrongTake F)}
  {past : List Heard}

variable {pc : WriterPc F} {b : Attempt F}

theorem PcHolds.moves (hpc : PcHolds p s h pc) (hm : AudioMoves s t) (hs : s.writer.pc = pc) :
    PcHolds p t h pc := by
  cases pc with
  | waiting => exact hpc
  | ended => exact hpc
  | failed => exact hpc
  | deciding spoken => exact hpc
  | synthesizing verify wrong a => exact hpc
  | emitting take held =>
    cases take with
    | speculative => exact absurd rfl hpc.1
    | first => exact hpc
    | retake => exact hpc
  | following spoken chunkPos =>
    exact ⟨hpc.1, hpc.2.moves hm (by rw [hs]; rfl)⟩
  | relaying spoken chunkPos chunks finished =>
    refine ⟨hpc.1, hpc.2.1.moves hm (by rw [hs]; rfl), ?_⟩
    intro hfin
    obtain ⟨hstopped, hwhole⟩ := hpc.2.2 hfin
    cases hm with
    | same hstate htake hsentence =>
      rw [hstate, htake]
      exact ⟨hstopped, hwhole⟩
    | claims hbefore hafter => exact absurd hbefore hpc.2.1.started
    | chunk pcm hbefore hafter htake hsentence => exact absurd hbefore hstopped
    | ends hbefore hafter htake hsentence => exact absurd hbefore hstopped
  | checking spoken =>
    refine ⟨hpc.1, ?_⟩
    cases hm with
    | same hstate htake hsentence =>
      rw [hstate, htake]
      exact hpc.2
    | claims hbefore hafter =>
      rcases hpc.2 with ⟨he, _⟩ | ⟨he, _⟩ <;> exact absurd (hbefore.symm.trans he) nofun
    | chunk pcm hbefore hafter htake hsentence =>
      rcases hpc.2 with ⟨he, _⟩ | ⟨he, _⟩ <;> exact absurd (hbefore.symm.trans he) nofun
    | ends hbefore hafter htake hsentence =>
      rcases hpc.2 with ⟨he, _⟩ | ⟨he, _⟩ <;> exact absurd (hbefore.symm.trans he) nofun

theorem WriterHolds.moves (h : WriterHolds p s) (hs : SynthInv s) (hm : AudioMoves s t)
    (hpc : t.writer.pc = s.writer.pc) (hheard : t.writer.heard = s.writer.heard) :
    WriterHolds p t := by
  cases h with
  | between hidle hall =>
    refine .between (hpc ▸ hidle) ?_
    rw [hheard]
    exact fun g hg => ⟨(hall g hg).1, (hall g hg).2.moves hs hm⟩
  | speaking past h hlast hpast hopen hfirst hholds =>
    refine .speaking past h (hheard ▸ hlast) ?_ hopen (hpc ▸ hfirst) ?_
    · exact fun g hg => ⟨(hpast g hg).1, (hpast g hg).2.moves hs hm⟩
    · rw [hpc]
      exact hholds.moves hm rfl
  | failed hfailed hall =>
    refine .failed (hpc ▸ hfailed) ?_
    rw [hheard]
    exact fun g hg => (hall g hg).moves hs hm

/-! ## The writer's own takes -/

/-- What the sink does with a chunk: it lets it pass, clears all that was held, or holds it. -/
inductive Hears (p : Params F) (verify : Bool) (a : Attempt F) (pcm : Bytes) : Attempt F → Prop
  | passes (hpass : ¬ (verify && !a.voiceCleared) = true) : Hears p verify a pcm { a with out := [pcm] }
  | clears (samples : List F) (rate : ℤ) (hheld : (verify && !a.voiceCleared) = true)
      (hlike : le voiceIdentityFloor (p.similarity samples rate) = true) :
      Hears p verify a pcm ⟨a.held ++ [pcm], [], samples, rate, true⟩
  | holds (samples : List F) (rate : ℤ) (hheld : (verify && !a.voiceCleared) = true) :
      Hears p verify a pcm ⟨[], a.held ++ [pcm], samples, rate, false⟩

theorem hear_cases (verify : Bool) (a : Attempt F) (samples : List F) (rate : ℤ) (pcm : Bytes) :
    Hears p verify a pcm (a.hear p verify samples rate pcm) := by
  rw [Attempt.hear]
  split
  · next hheld =>
    dsimp only
    generalize (if 0 < rate then rate else a.heldRate) = heldRate
    split
    · next hfits => exact .clears _ _ hheld hfits.2
    · exact .holds _ _ hheld
  · next hpass => exact .passes hpass

theorem Holding.hears {take : Take} {made : List Bytes} {written : List (Take × Bytes)}
    (h : Holding verify a take made written) (hout : a.out = []) (hb : Hears p verify a pcm b) :
    Holding verify b take (made ++ [pcm]) written := by
  rw [Holding] at h
  cases hb with
  | passes hpass =>
    rw [if_neg hpass, hout] at h
    rw [Holding, if_neg hpass]
    refine ⟨h.1, ?_⟩
    have hmade : written = said take made := (List.append_nil written).symm.trans h.2
    rw [said_append, ← hmade]
  | clears samples rate hheld hlike =>
    rw [if_pos hheld] at h
    rw [Holding, if_neg (by rw [Bool.not_true, Bool.and_false]; exact nofun), h.1, h.2.2]
    exact ⟨rfl, rfl⟩
  | holds samples rate hheld =>
    rw [if_pos hheld] at h
    rw [Holding, if_pos (by rw [(Bool.and_eq_true_iff.mp hheld).1]; rfl), h.2.2]
    exact ⟨h.1, rfl, rfl⟩

theorem AttemptHolds.hears (ha : AttemptHolds p verify wrong a h) (hout : a.out = [])
    (hb : Hears p verify a pcm b) :
    AttemptHolds p verify wrong b (h.record (currentTake wrong) pcm) := by
  cases wrong with
  | none => exact ⟨ha.1, ha.2.hears hout hb⟩
  | some wrong =>
    obtain ⟨rfl, hheld, hlike, hholding, hcleared⟩ := ha
    refine ⟨rfl, hheld, hlike, hholding.hears hout hb, ?_⟩
    cases hb with
    | passes hpass => exact hcleared
    | clears samples rate hheld hfits => exact fun _ => hfits
    | holds samples rate hheld => exact nofun

theorem AttemptHolds.writes (ha : AttemptHolds p verify wrong a h) {out : List Bytes}
    (hout : a.out = pcm :: out) : AttemptHolds p verify wrong { a with out := out }
      { h with written := h.written ++ [(currentTake wrong, pcm)] } := by
  cases wrong with
  | none => exact ⟨ha.1, ha.2.writes hout⟩
  | some wrong =>
    obtain ⟨hverify, hheld, hlike, hholding, hcleared⟩ := ha
    exact ⟨hverify, hheld, hlike, hholding.writes hout, hcleared⟩

theorem attemptHolds_fresh (verify : Bool) (rate : ℤ) (huntaken : h.Untaken)
    (hwritten : h.written = []) : AttemptHolds p verify none (.fresh rate) h := by
  refine ⟨huntaken.2, ?_⟩
  rw [huntaken.1, hwritten]
  exact holding_fresh verify rate .first

theorem not_cleared_of_lt {wrong : WrongTake F}
    (hwrong : lt wrong.likeThem voiceIdentityFloor = true)
    (hcleared : a.voiceCleared = true →
      le voiceIdentityFloor (p.similarity a.heldSamples a.heldRate) = true)
    (hlt : lt (p.similarity a.heldSamples a.heldRate) wrong.likeThem = true) :
    a.voiceCleared = false := by
  by_contra hne
  have hle := hcleared (Bool.not_eq_false _ |>.mp hne)
  have hback := FloatOrder.lt_asymm hwrong
  rw [FloatOrder.lt_of_le_of_lt hle hlt] at hback
  cases hback

/-! ## The writer's steps -/

theorem WriterHolds.goesOn (past : List Heard) (hs : SynthInv s) (hm : AudioMoves s t)
    (hpast : ∀ g ∈ past, g.complete = true ∧ OneTake s g) (hheard : t.writer.heard = past ++ [h])
    (hopen : h.complete = false) (hfirst : t.writer.pc.opening = true → past = [])
    (hpc : PcHolds p t h t.writer.pc) : WriterHolds p t :=
  .speaking past h hheard (fun g hg => ⟨(hpast g hg).1, (hpast g hg).2.moves hs hm⟩) hopen hfirst hpc

theorem WriterHolds.over (hs : SynthInv s) (hpast : ∀ g ∈ past, g.complete = true ∧ OneTake s g)
    (hheard : s.writer.heard = past ++ [h]) (take : Take)
    (hwhole : h.written = said take (h.chunks s.history.specTake take))
    (hspec : take = .speculative →
      s.history.specSentence = some h.sentence ∧ s.spec.audio.state = .done) :
    WriterHolds p s.endSentence := by
  have hm : AudioMoves s s.endSentence := .same rfl rfl rfl
  refine .between (.inl rfl) ?_
  change ∀ g ∈ onLast _ s.writer.heard, _
  rw [hheard, onLast_concat]
  intro g hg
  rcases List.mem_append.mp hg with hg | hg
  · exact ⟨(hpast g hg).1, (hpast g hg).2.moves hs hm⟩
  · cases List.mem_singleton.mp hg
    have hsame : ({ h with complete := true } : Heard).chunks s.history.specTake take =
        h.chunks s.history.specTake take := by
      cases take <;> rfl
    refine ⟨rfl, take, ?_, ?_, fun he => (hspec he).1, fun he _ => (hspec he).2⟩
    · change h.written <+: said take (Heard.chunks s.history.specTake _ take)
      rw [hsame]
      exact hwhole ▸ List.prefix_rfl
    · intro _
      change h.written = said take (Heard.chunks s.history.specTake _ take)
      rw [hsame, hwhole]

theorem WriterHolds.synthesizes (hs : SynthInv s)
    (hpast : ∀ g ∈ past, g.complete = true ∧ OneTake s g) (hheard : s.writer.heard = past ++ [h])
    (hopen : h.complete = false) (huntaken : h.Untaken) (hwritten : h.written = [])
    (spoken : Bytes) : WriterHolds p (startSynthesis p s spoken) :=
  .goesOn (s := s) past hs (.same rfl rfl rfl) hpast hheard hopen nofun
    (attemptHolds_fresh (p := p) _ _ huntaken hwritten)

theorem PcHolds.oneTake (hs : SynthInv s) (hpc : PcHolds p s h s.writer.pc)
    (hopen : h.complete = false)
    (hspec : s.writer.pc.opening = true → ∀ x, s.history.specSentence = some x → x = h.sentence) :
    OneTake s h := by
  have hpart : ∀ take : Take, take ≠ .speculative →
      h.written <+: said take (h.chunks s.history.specTake take) → OneTake s h := by
    intro take hne hpart
    exact ⟨take, hpart, fun hc => absurd (hopen.symm.trans hc) nofun,
      fun he => absurd he hne, fun he => absurd he hne⟩
  have hnone : h.written = [] → OneTake s h := by
    intro hwritten
    exact hpart .first nofun (hwritten ▸ List.nil_prefix)
  have hfollow : s.spec.audio.state = .running ∨ s.spec.audio.state = .done →
      s.writer.pc.opening = true → h.written <+: said .speculative s.history.specTake →
      OneTake s h := by
    intro hstate hopening hwritten
    obtain ⟨x, hx⟩ := (hs.chunks hstate).2
    have hsentence := hspec hopening x hx
    refine ⟨.speculative, hwritten, fun hc => absurd (hopen.symm.trans hc) nofun, fun _ => ?_,
      fun _ hc => absurd (hopen.symm.trans hc) nofun⟩
    rw [hx, hsentence]
  have hfollows : ∀ chunkPos more, s.writer.pc.opening = true →
      Follows s.spec.audio.state s.history.specTake chunkPos (h.written ++ more) → OneTake s h := by
    intro chunkPos more hopening hf
    have hupto : h.written <+: said .speculative (s.history.specTake.take chunkPos) :=
      hf.written ▸ List.prefix_append _ _
    cases hstate : s.spec.audio.state with
    | none => exact absurd hstate hf.started
    | running =>
      exact hfollow (.inl hstate) hopening (hupto.trans ((List.take_prefix _ _).map _))
    | done => exact hfollow (.inr hstate) hopening (hupto.trans ((List.take_prefix _ _).map _))
    | failed =>
      rw [hf.failed hstate] at hupto
      exact hnone (List.prefix_nil.mp hupto)
  generalize hat : s.writer.pc = pc at hpc hfollow hfollows
  cases pc with
  | waiting => exact hpc.elim
  | ended => exact hpc.elim
  | failed => exact hpc.elim
  | deciding spoken => exact hnone hpc.2
  | following spoken chunkPos =>
    exact hfollows chunkPos [] rfl (by rw [List.append_nil]; exact hpc.2)
  | relaying spoken chunkPos chunks finished => exact hfollows chunkPos _ rfl hpc.2.1
  | checking spoken =>
    rcases hpc.2 with ⟨hdone, hwritten⟩ | ⟨hfailed, hwritten⟩
    · exact hfollow (.inr hdone) rfl (hwritten ▸ List.prefix_rfl)
    · exact hnone hwritten
  | emitting take held => exact hpart take hpc.1 (hpc.2 ▸ List.prefix_append _ _)
  | synthesizing verify wrong a =>
    have hmaking : ∀ (verify : Bool) (take : Take), take ≠ .speculative →
        Holding verify a take (h.chunks s.history.specTake take) h.written → OneTake s h := by
      intro verify take hne hholding
      rw [Holding] at hholding
      split at hholding
      · exact hnone hholding.1
      · exact hpart take hne (hholding.2 ▸ List.prefix_append _ _)
    cases wrong with
    | none => exact hmaking verify .first nofun hpc.2
    | some wrong => exact hmaking true .retake nofun hpc.2.2.2.1

theorem synthInv_writerStep (h : SynthInv s) (hstep : WriterStep p s t) : SynthInv t := by
  have hsame : t.spec.audio = s.spec.audio → SynthInv t := by
    intro haudio
    have hf := writerFrame_of_step hstep
    refine h.threads haudio (by rw [hf.history]) (by rw [hf.history]) ?_
    rw [hf.synths]
    exact fun _ hi => hi
  cases hstep with
  | claims spoken hpc hnone =>
    obtain ⟨hchunks, htake, hsentence⟩ := h.none hnone
    refine ⟨nofun, ?_, h.unique, ?_, fun _ => hchunks⟩
    · intro k hk
      exact absurd ((h.running k hk).symm.trans hnone) nofun
    · rintro (he | he) <;> cases he
  | sentence text name queue hq hpc hspoken =>
    refine hsame ?_
    rw [speak]
    split <;> rfl
  | returns verify wrong a hpc hout =>
    refine hsame ?_
    rcases endAttempt_cases (p := p) (s := s) verify wrong a with he | ⟨pc, he, _⟩ <;> rw [he] <;> rfl
  | _ => exact hsame rfl

theorem writerHolds_speak (hs : SynthInv s) {queue : List ChatEvent} (text spoken : Bytes)
    (hall : ∀ g ∈ s.writer.heard, g.complete = true ∧ OneTake s g) :
    WriterHolds p (speak p { s with queue := queue } text spoken) := by
  rw [speak]
  split
  · next hempty =>
    have hnil : s.writer.heard = [] := List.isEmpty_iff.mp hempty
    exact .goesOn (s := s) s.writer.heard hs (.same rfl rfl rfl) hall rfl rfl
      (fun _ => hnil) ⟨⟨rfl, rfl⟩, rfl⟩
  · exact .goesOn (s := s) s.writer.heard hs (.same rfl rfl rfl) hall rfl rfl
      (fun hfirst => by cases hfirst)
      (attemptHolds_fresh (p := p) _ _ ⟨rfl, rfl⟩ rfl)

/-- The writer's own synthesis has returned: the sentence is over, or a held take is next. -/
theorem writerHolds_endAttempt (hs : SynthInv s)
    (hpast : ∀ g ∈ past, g.complete = true ∧ OneTake s g) (hheard : s.writer.heard = past ++ [h])
    (hopen : h.complete = false) (ha : AttemptHolds p verify wrong a h) (hout : a.out = []) :
    WriterHolds p (endAttempt p s verify wrong a) := by
  have hemit : ∀ (take : Take) (held : List Bytes), take ≠ .speculative →
      h.written ++ said take held = said take (h.chunks s.history.specTake take) →
      WriterHolds p (s.setWriter (.emitting take held)) := fun take held hne hall =>
    .goesOn (s := s) past hs (.same rfl rfl rfl) hpast hheard hopen
      (fun hfirst => by cases hfirst) ⟨hne, hall⟩
  cases wrong with
  | some wrong =>
    obtain ⟨hverify, hheld, hlike, hholding, hcleared⟩ := ha
    rw [endAttempt]
    split
    · next hlt =>
      have hnot := not_cleared_of_lt hlike hcleared hlt
      rw [Holding, hnot] at hholding
      refine hemit .first wrong.held (by simp) ?_
      rw [hheld, hholding.1]
      rfl
    · exact hemit .retake a.held (by simp) (hholding.all hout)
  | none =>
    obtain ⟨hretake, hholding⟩ := ha
    have hall := hholding.all hout
    rw [endAttempt]
    split
    · next hheld =>
      rw [Holding, if_pos hheld] at hholding
      split
      · next hlow =>
        refine .goesOn (s := s) past hs (.same rfl rfl rfl) hpast hheard hopen
          (fun hfirst => by cases hfirst) ?_
        refine ⟨(Bool.and_eq_true_iff.mp hheld).1, hholding.2.2, (Bool.and_eq_true_iff.mp hlow).2,
          ?_, fun hfresh => by cases hfresh⟩
        rw [hretake, hholding.1]
        exact holding_fresh true _ .retake
      · exact hemit .first a.held (by simp) hall
    · next hclear =>
      rw [Holding, if_neg hclear] at hholding
      rw [hholding.1, said, List.map_nil, List.append_nil] at hall
      exact .over hs hpast hheard .first hall (by simp)

theorem WriterHolds.last (h : WriterHolds p s) (hpc : s.writer.pc = pc)
    (hspeaks : pc.speaks = true) :
    ∃ past g, s.writer.heard = past ++ [g] ∧ (∀ g ∈ past, g.complete = true ∧ OneTake s g) ∧
      g.complete = false ∧ (pc.opening = true → past = []) ∧ PcHolds p s g pc := by
  subst hpc
  cases h with
  | between hpc hall => rcases hpc with hpc | hpc <;> rw [hpc] at hspeaks <;> cases hspeaks
  | speaking past g hheard hpast hopen hfirst hpc => exact ⟨past, g, hheard, hpast, hopen, hfirst, hpc⟩
  | failed hpc hall =>
    rw [hpc] at hspeaks
    cases hspeaks

theorem WriterHolds.idle (h : WriterHolds p s) (hpc : s.writer.pc = .waiting) :
    ∀ g ∈ s.writer.heard, g.complete = true ∧ OneTake s g := by
  cases h with
  | between _ hall => exact hall
  | speaking past g _ _ _ _ hholds =>
    rw [hpc] at hholds
    exact hholds.elim
  | failed hfailed hall => exact absurd (hpc.symm.trans hfailed) nofun

theorem writerHolds_writerStep (h : WriterHolds p s) (hs : SynthInv s) (hf : FrontInv s)
    (hr : ReplayInv s) (hstep : WriterStep p s t) : WriterHolds p t := by
  have hsame : ∀ {t : State F}, t.spec = s.spec → t.history = s.history → AudioMoves s t :=
    fun hspec hhistory => .same (by rw [hspec]) (by rw [hhistory]) (by rw [hhistory])
  have hwrote : ∀ (past : List Heard) (g : Heard) (f : Heard → Heard),
      s.writer.heard = past ++ [g] → (s.hear f).writer.heard = past ++ [f g] := by
    intro past g f hheard
    rw [State.hear, hheard, onLast_concat]
  cases hstep with
  | token text queue hq hpc => exact h.moves hs (hsame rfl rfl) rfl rfl
  | unspoken text name queue hq hpc hempty => exact h.moves hs (hsame rfl rfl) rfl rfl
  | llmDone result queue hq hpc => exact h.moves hs (hsame rfl rfl) rfl rfl
  | silent verify wrong a hpc => exact h
  | ends hpc hq hfin =>
    have hmoves : AudioMoves s { s.setWriter .ended with abort := true } := hsame rfl rfl
    exact .between (.inr rfl) fun g hg => ⟨(h.idle hpc g hg).1, (h.idle hpc g hg).2.moves hs hmoves⟩
  | sentence text name queue hq hpc hspoken => exact writerHolds_speak hs text _ (h.idle hpc)
  | claims spoken hpc hnone =>
    obtain ⟨past, g, hheard, hpast, hopen, hfirst, hholds⟩ := h.last hpc rfl
    rw [hfirst rfl] at hheard
    refine .speaking [] g hheard (List.forall_mem_nil _) hopen (fun hfirst => by cases hfirst) ?_
    exact attemptHolds_fresh (p := p) _ _ hholds.1 hholds.2
  | misses spoken hpc hfailed =>
    obtain ⟨past, g, hheard, hpast, hopen, _, hholds⟩ := h.last hpc rfl
    exact .synthesizes hs hpast hheard hopen hholds.1 hholds.2 spoken
  | follows spoken hpc hstate =>
    obtain ⟨past, g, hheard, hpast, hopen, hfirst, hholds⟩ := h.last hpc rfl
    refine .goesOn (s := s) past hs (hsame rfl rfl) hpast hheard hopen (fun _ => hfirst rfl) ⟨hholds.1, ?_⟩
    refine ⟨?_, Nat.zero_le _, hholds.2, fun _ => rfl⟩
    intro hnone
    rcases hstate with hstate | hstate <;> exact absurd (hstate.symm.trans hnone) (by simp)
  | copies spoken chunkPos hpc =>
    obtain ⟨past, g, hheard, hpast, hopen, hfirst, hholds⟩ := h.last hpc rfl
    obtain ⟨hcopied, hwhole⟩ := hholds.2.copies hs
    refine .goesOn (s := s) past hs (hsame rfl rfl) hpast hheard hopen (fun _ => hfirst rfl) ?_
    exact ⟨hholds.1, hcopied, fun hfin => ⟨of_decide_eq_true hfin, hwhole⟩⟩
  | relays spoken chunkPos pcm chunks finished hpc =>
    obtain ⟨past, g, hheard, hpast, hopen, hfirst, hholds⟩ := h.last hpc rfl
    refine .goesOn (s := s) past hs (hsame rfl rfl) hpast (hwrote past g _ hheard) hopen
      (fun _ => hfirst rfl) ⟨hholds.1, ?_, hholds.2.2⟩
    rw [List.append_assoc]
    exact hholds.2.1
  | relayed spoken chunkPos finished hpc =>
    obtain ⟨past, g, hheard, hpast, hopen, hfirst, hholds⟩ := h.last hpc rfl
    obtain ⟨huntaken, hfollows, hover⟩ := hholds
    rw [said, List.map_nil, List.append_nil] at hfollows
    refine .goesOn (s := s) past hs (hsame rfl rfl) hpast hheard hopen (fun _ => hfirst rfl) ?_
    cases finished with
    | false => exact ⟨huntaken, hfollows⟩
    | true => exact ⟨huntaken, hfollows.over (hover rfl).1 (hover rfl).2⟩
  | served spoken hpc hdone =>
    obtain ⟨past, g, hheard, hpast, hopen, hfirst, hholds⟩ := h.last hpc rfl
    obtain ⟨x, hx⟩ := (hs.chunks (.inr hdone)).2
    have hsentence : x = g.sentence := by
      refine hf.specSentence_eq hr hx ?_
      rw [hheard, hfirst rfl]
      rfl
    rcases hholds.2 with ⟨_, hwritten⟩ | ⟨hfailed, _⟩
    · exact .over hs hpast hheard .speculative hwritten fun _ => ⟨hsentence ▸ hx, hdone⟩
    · exact absurd (hdone.symm.trans hfailed) (by simp)
  | fallsBack spoken hpc hmissed =>
    obtain ⟨past, g, hheard, hpast, hopen, _, hholds⟩ := h.last hpc rfl
    refine .synthesizes hs hpast hheard hopen hholds.1 ?_ spoken
    rcases hholds.2 with ⟨hdone, hwritten⟩ | ⟨_, hwritten⟩
    · have hchunks := hmissed.resolve_right (not_not.mpr hdone)
      rw [hwritten, ← (hs.chunks (.inr hdone)).1, hchunks]
      rfl
    · exact hwritten
  | writes verify wrong a pcm out hpc hout =>
    obtain ⟨past, g, hheard, hpast, hopen, _, hholds⟩ := h.last hpc rfl
    exact .goesOn (s := s) past hs (hsame rfl rfl) hpast (hwrote past g _ hheard) hopen
      (fun hfirst => by cases hfirst)
      (AttemptHolds.writes hholds hout)
  | hears verify wrong a samples rate pcm hpc hout =>
    obtain ⟨past, g, hheard, hpast, hopen, _, hholds⟩ := h.last hpc rfl
    refine .goesOn (s := s) past hs (hsame rfl rfl) hpast (hwrote past g _ hheard) ?_
      (fun hfirst => by cases hfirst)
      (AttemptHolds.hears hholds hout (hear_cases verify a samples rate pcm))
    rw [Heard.record]
    split <;> exact hopen
  | returns verify wrong a hpc hout =>
    obtain ⟨past, g, hheard, hpast, hopen, _, hholds⟩ := h.last hpc rfl
    exact writerHolds_endAttempt hs hpast hheard hopen hholds hout
  | emits take pcm held hpc =>
    obtain ⟨past, g, hheard, hpast, hopen, _, hholds⟩ := h.last hpc rfl
    refine .goesOn (s := s) past hs (hsame rfl rfl) hpast (hwrote past g _ hheard) hopen
      (fun hfirst => by cases hfirst)
      ⟨hholds.1, ?_⟩
    rw [List.append_assoc]
    refine hholds.2.trans ?_
    cases take <;> rfl
  | emitted take hpc =>
    obtain ⟨past, g, hheard, hpast, hopen, _, hholds⟩ := h.last hpc rfl
    refine .over hs hpast hheard take ?_ fun he => absurd he hholds.1
    rw [← hholds.2, said, List.map_nil, List.append_nil]

theorem writerHolds_breakOff (h : WriterHolds p s) (hs : SynthInv s) (hf : FrontInv s)
    (hr : ReplayInv s) : WriterHolds p (breakOff s) := by
  have hm : AudioMoves s (breakOff s) := .same rfl rfl rfl
  refine .failed rfl ?_
  cases h with
  | between hpc hall => exact fun g hg => (hall g hg).2.moves hs hm
  | failed hpc hall => exact fun g hg => (hall g hg).moves hs hm
  | speaking past g hheard hpast hopen hfirst hpc =>
    have hlast : OneTake s g := by
      refine hpc.oneTake hs hopen ?_
      intro hopening x hx
      refine hf.specSentence_eq hr hx ?_
      rw [hheard, hfirst hopening]
      rfl
    change ∀ g ∈ s.writer.heard, _
    rw [hheard]
    intro h hh
    rcases List.mem_append.mp hh with hh | hh
    · exact (hpast h hh).2.moves hs hm
    · cases List.mem_singleton.mp hh
      exact hlast.moves hs hm

/-! ## Runs -/

/-- Everything a run keeps: whose take is heard, and how far. -/
structure AudioInv (p : Params F) (s : State F) : Prop where
  synth : SynthInv s
  front : FrontInv s
  replay : ReplayInv s
  writer : WriterHolds p s

theorem audioInv_initial : AudioInv p (initial : State F) where
  synth := synthInv_initial
  front := frontInv_initial
  replay := replayInv_initial
  writer := .between (.inl rfl) nofun

theorem audioInv_step {a : Action F} (h : AudioInv p s) (hguard : FailsUntouched s a)
    (hstep : step p s a = some t) : AudioInv p t := by
  refine ⟨?_, frontInv_step h.front h.replay hstep, replayInv_step h.replay hstep, ?_⟩
  · cases a with
    | worker input =>
      obtain ⟨haudio, htake, hsentence, hrun⟩ := workerStep_audio (workerStep_cases hstep)
      exact h.synth.threads haudio htake hsentence hrun
    | synth k input => exact synthInv_synthStep h.synth (synthStep_cases hstep)
    | replay =>
      have hf := replayStep_frame hstep
      refine h.synth.threads hf.audio hf.specTake hf.specSentence ?_
      rw [hf.synths]
      exact fun _ hi => hi
    | writer input =>
      rcases writerStep_cases hstep with hw | ⟨_, rfl⟩
      · exact synthInv_writerStep h.synth hw
      · exact h.synth.threads rfl rfl rfl fun _ hi => hi
  · cases a with
    | worker input =>
      have hw := workerStep_cases hstep
      obtain ⟨haudio, htake, hsentence, _⟩ := workerStep_audio hw
      have hwriter : t.writer = s.writer := (workerStep_frame hw).2.2.2.2.1
      exact h.writer.moves h.synth (.same (by rw [haudio]) htake hsentence) (by rw [hwriter])
        (by rw [hwriter])
    | synth k input =>
      have hk := synthStep_cases hstep
      have hwriter : t.writer = s.writer := (synthStep_frame hk).2.2.2.2.2.2.2.1
      refine h.writer.moves h.synth (audioMoves_of_synthStep h.synth hk ?_) (by rw [hwriter])
        (by rw [hwriter])
      intro hafter hbefore
      cases fails_of_failed hstep hbefore hafter
      exact hguard
    | replay =>
      have hf := replayStep_frame hstep
      exact h.writer.moves h.synth (.same (by rw [hf.audio]) hf.specTake hf.specSentence)
        (by rw [hf.writer]) (by rw [hf.writer])
    | writer input =>
      rcases writerStep_cases hstep with hw | ⟨_, rfl⟩
      · exact writerHolds_writerStep h.writer h.synth h.front h.replay hw
      · exact writerHolds_breakOff h.writer h.synth h.front h.replay

theorem audioInv_of_reaches (h : Reaches (step p) FailsUntouched initial s) : AudioInv p s :=
  h.invariant audioInv_initial fun _ _ _ hs hguard hstep => audioInv_step hs hguard hstep

end Writer

/-! ## Two runs -/

def earlyParams : Params ℚ := ⟨true, false, fun _ _ => 0⟩

/-- The first sentence is generated, and its speculative synthesis makes one chunk while the
sentence is replayed to the writer, which takes the chunk. -/
def takesChunk : List (Action ℚ) :=
  [.worker .go, .worker (.delta (bytes "Hi there. And")), .worker .go,
    .synth 0 (.go []), .synth 0 (.go []), .synth 0 (.chunk [1])] ++ replays 4 ++
    [.writer (.go []), .writer (.go []), .writer (.go []), .writer (.go []), .writer (.go [])]

/-- The synthesis ends, and the writer is done with the sentence. -/
def servesTake : List (Action ℚ) :=
  takesChunk ++ [.synth 0 .finishes] ++ List.replicate 4 (.writer (.go []))

/-- The synthesis fails, and the writer speaks the sentence from the start. -/
def speaksTwice : List (Action ℚ) :=
  takesChunk ++ [.synth 0 .fails] ++ List.replicate 4 (.writer (.go [])) ++
    [.writer (.audio [] 24000 [2]), .writer (.go [])]

def failsUntouched (s : State ℚ) : Action ℚ → Bool
  | .synth _ .fails => decide (s.writer.pc.chunksTaken = 0)
  | _ => true

theorem failsUntouched_of_test (s : State ℚ) (a : Action ℚ) (h : failsUntouched s a = true) :
    FailsUntouched s a := by
  cases a with
  | synth k input =>
    cases input with
    | fails =>
      have huntouched : s.writer.pc.chunksTaken = 0 := of_decide_eq_true h
      exact huntouched
    | _ => trivial
  | _ => trivial

end FastTts.Reply
