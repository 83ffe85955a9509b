import FastTts.HfSampler
import FastTts.Lockstep

/-!
# The scratch of the sampler from call to call

Nothing of an earlier call comes through the scratch: the marks of the tokens seen are all older
than the generation of the next call, or are cleared because the generation came round to zero, and
the candidates are used only when they were made in the same call. The call is run in lockstep from
the scratch that is left and from a fresh one.
-/

namespace FastTts.HfSampler

open TorchRandom
open HfSamplerScratch

variable {F D G : Type}

/-- No mark is that of the next generation, or all are cleared before it. -/
def Unmarked (scratch : HfSamplerScratch F D) : Prop :=
  scratch.seenGeneration = 0 ∨ ∀ mark ∈ scratch.seen, mark < scratch.seenGeneration

theorem unmarked_fresh : Unmarked (fresh : HfSamplerScratch F D) :=
  Or.inr (by simp [fresh])

variable (vocabSize : ℕ)

theorem length_seen_resetVocab (scratch : HfSamplerScratch F D) :
    (scratch.resetVocab vocabSize).seen.length = vocabSize := by
  unfold resetVocab
  by_cases hlength : scratch.seen.length = vocabSize
  · by_cases hzero : scratch.seenGeneration = 0
    · simp [hlength, hzero]
    · simp [hlength, hzero, forgetProbabilities]
  · simp [hlength]

theorem scores_resetVocab (scratch : HfSamplerScratch F D) :
    (scratch.resetVocab vocabSize).scores = scratch.scores := by
  unfold resetVocab
  by_cases hlength : scratch.seen.length = vocabSize
  · by_cases hzero : scratch.seenGeneration = 0
    · simp [hlength, hzero, forgetProbabilities]
    · simp [hlength, hzero, forgetProbabilities]
  · simp [hlength, forgetProbabilities]

variable {scratch : HfSamplerScratch F D}

theorem lt_of_mem_resetVocab (h : Unmarked scratch) (vocabSize : ℕ) :
    ∀ mark ∈ (scratch.resetVocab vocabSize).seen,
      mark < (scratch.resetVocab vocabSize).seenGeneration := by
  intro mark hmark
  unfold resetVocab at hmark ⊢
  by_cases hlength : scratch.seen.length = vocabSize
  · by_cases hzero : scratch.seenGeneration = 0
    · simp only [hlength, hzero, ne_eq, not_true_eq_false, if_false, if_true] at hmark ⊢
      rw [List.eq_of_mem_replicate hmark]
      decide
    · simp only [hlength, hzero, ne_eq, not_true_eq_false, if_false] at hmark ⊢
      exact (h.resolve_left hzero) mark hmark
  · simp only [ne_eq, hlength, not_false_eq_true, if_true] at hmark ⊢
    rw [List.eq_of_mem_replicate hmark]
    decide

theorem generation_next (generation : UInt32) :
    generation + 1 = 0 ∨ generation < generation + 1 := by
  have hone : (1 : UInt32).toNat = 1 := rfl
  have hzero : (0 : UInt32).toNat = 0 := rfl
  have hbound := generation.toNat_lt
  rw [UInt32.lt_iff_toNat_lt, ← UInt32.toNat_inj, UInt32.toNat_add, hone, hzero]
  omega

section Penalty

variable (arithmetic : Arithmetic F D)

/-- The score of every token of the history is penalised once. -/
def penalised (scores : List F) (history : List ℤ) (penalty : F) : List F :=
  scores.mapIdx fun i score =>
    if (i : ℤ) ∈ history then penalise arithmetic penalty score else score

def visitsOf (vocabSize : ℕ) (history : List ℤ) : List ℕ :=
  history.filterMap fun token =>
    if token < 0 ∨ (vocabSize : ℤ) ≤ token then none else some token.toNat

theorem mem_visitsOf {vocabSize i : ℕ} {history : List ℤ} :
    i ∈ visitsOf vocabSize history ↔ i < vocabSize ∧ (i : ℤ) ∈ history := by
  rw [visitsOf, List.mem_filterMap]
  constructor
  · rintro ⟨token, hmem, htoken⟩
    by_cases hout : token < 0 ∨ (vocabSize : ℤ) ≤ token
    · rw [if_pos hout] at htoken
      cases htoken
    · rw [if_neg hout] at htoken
      cases htoken
      rw [Int.toNat_of_nonneg (by omega)]
      exact ⟨by omega, hmem⟩
  · rintro ⟨hi, hmem⟩
    exact ⟨i, hmem, by rw [if_neg (by omega), Int.toNat_natCast]⟩

theorem foldl_visitToken (vocabSize : ℕ) (generation : UInt32) (penalty : F) (history : List ℤ)
    (state : List UInt32 × List F) :
    history.foldl (visitToken arithmetic vocabSize generation penalty) state =
      (visitsOf vocabSize history).foldl
        (Stamps.visit generation (penalise arithmetic penalty)) state := by
  induction history generalizing state with
  | nil => rfl
  | cons token history ih =>
    rw [List.foldl_cons, ih, visitToken]
    by_cases hout : token < 0 ∨ (vocabSize : ℤ) ≤ token
    · simp only [visitsOf, List.filterMap_cons, if_pos hout]
    · simp only [visitsOf, List.filterMap_cons, if_neg hout, List.foldl_cons]

theorem scan_history {scratch : HfSamplerScratch F D} (h : Unmarked scratch) (scores : List F)
    (history : List ℤ) (penalty : F) :
    let reset := scratch.resetVocab scores.length
    let visited := history.foldl (visitToken arithmetic scores.length reset.seenGeneration penalty)
      (reset.seen, scores)
    visited.2 = penalised arithmetic scores history penalty ∧
      ∀ mark ∈ visited.1, mark ≤ reset.seenGeneration := by
  intro reset visited
  have hold : ∀ mark ∈ reset.seen, mark < reset.seenGeneration :=
    lt_of_mem_resetVocab h scores.length
  have hlength : reset.seen.length = scores.length := length_seen_resetVocab _ scratch
  have hnew : reset.seenGeneration ∉ reset.seen := fun hmem =>
    UInt32.lt_irrefl _ (hold _ hmem)
  have hvisits : ∀ i ∈ visitsOf scores.length history, i < reset.seen.length := by
    intro i hi
    rw [hlength]
    exact (mem_visitsOf.mp hi).1
  have hscan := Stamps.foldl_visit (penalise arithmetic penalty) scores _ hnew hvisits
  rw [← foldl_visitToken arithmetic scores.length] at hscan
  constructor
  · rw [hscan.items_eq, Stamps.changed, penalised]
    apply List.mapIdx_eq_mapIdx_iff.mpr
    intro i hi
    simp only [mem_visitsOf, hi, true_and]
  · intro mark hmark
    rcases hscan.others mark hmark with rfl | hbefore
    · exact UInt32.le_refl _
    · exact UInt32.le_of_lt (hold mark hbefore)

end Penalty

theorem unmarked_next {generation : UInt32} (hmarks : ∀ mark ∈ scratch.seen, mark ≤ generation)
    (hnext : scratch.seenGeneration = generation + 1) : Unmarked scratch := by
  rw [Unmarked, hnext]
  rcases generation_next generation with hzero | hlt
  · exact Or.inl hzero
  · exact Or.inr fun mark hmark => UInt32.lt_of_le_of_lt (hmarks mark hmark) hlt

/-! ## Two scratches -/

/-- Of two scratches neither has a mark of the next generation. -/
def BothUnmarked (s t : HfSamplerScratch F D) : Prop := Unmarked s ∧ Unmarked t

/-- The scores are the same, and neither has candidates that could be used. -/
structure Unready (s t : HfSamplerScratch F D) : Prop where
  unmarked : BothUnmarked s t
  scores_eq : s.scores = t.scores
  left : s.probabilitiesReady = false
  right : t.probabilitiesReady = false

/-- The scores are the same, and the candidates where they are ready; the scores lie at `a` and
at `b`. -/
structure Matched (a b : ℕ) (s t : HfSamplerScratch F D) : Prop where
  unmarked : BothUnmarked s t
  scores_eq : s.scores = t.scores
  ready_eq : s.probabilitiesReady = t.probabilitiesReady
  candidates_eq : s.probabilitiesReady = true →
    s.probabilitiesScoresData = some a ∧ t.probabilitiesScoresData = some b ∧
      s.probabilitiesScoresSize = t.probabilitiesScoresSize ∧ s.candidates = t.candidates ∧
      s.weights = t.weights

theorem Unready.matched {s t : HfSamplerScratch F D} (h : Unready s t) (a b : ℕ) :
    Matched a b s t where
  unmarked := h.unmarked
  scores_eq := h.scores_eq
  ready_eq := h.left.trans h.right.symm
  candidates_eq := by
    intro hready
    rw [h.left] at hready
    cases hready

section Steps

variable (arithmetic : Arithmetic F D) (library : Library D G) (scores : List F)

theorem applyRepetitionPenalty_lockstep (history : List ℤ) (penalty : F) :
    Lockstep Unready Unready BothUnmarked (applyRepetitionPenalty arithmetic scores history penalty)
      (applyRepetitionPenalty arithmetic scores history penalty) := by
  unfold applyRepetitionPenalty
  apply Lockstep.ite
  · intro _
    exact Lockstep.pure scores fun _ _ h => h
  · intro _
    apply Lockstep.ite
    · intro _
      exact Lockstep.throw _ fun _ _ h => h.unmarked
    · intro _ s t h
      obtain ⟨hs, hsmarks⟩ := scan_history arithmetic h.unmarked.1 scores history penalty
      obtain ⟨ht, htmarks⟩ := scan_history arithmetic h.unmarked.2 scores history penalty
      simp only [hs, ht]
      refine .ok ⟨⟨?_, ?_⟩, ?_, rfl, rfl⟩
      · exact unmarked_next hsmarks rfl
      · exact unmarked_next htmarks rfl
      · simp only [forgetProbabilities, scores_resetVocab, h.scores_eq]

variable {P : HfSamplerScratch F D → HfSamplerScratch F D → Prop}

theorem requireMinTokens_lockstep (h : ∀ s t, P s t → BothUnmarked s t) (minTokensToKeep : ℤ) :
    Lockstep P P BothUnmarked (requireMinTokens minTokensToKeep)
      (requireMinTokens minTokensToKeep) := by
  unfold requireMinTokens
  apply Lockstep.ite
  · intro _
    exact Lockstep.throw _ h
  · intro _
    exact Lockstep.pure () fun _ _ hst => hst

theorem applyTemperature_lockstep (temperature : F) :
    Lockstep Unready Unready (BothUnmarked (F := F) (D := D))
      (applyTemperature arithmetic scores temperature)
      (applyTemperature arithmetic scores temperature) := by
  unfold applyTemperature
  apply Lockstep.ite
  · intro _
    exact Lockstep.throw _ fun _ _ h => h.unmarked
  · intro _
    apply Lockstep.ite
    · intro _
      exact Lockstep.pure scores fun _ _ h => h
    · intro _
      exact Lockstep.pure _ fun _ _ h => h

theorem applyTopK_lockstep (topK minTokensToKeep : ℤ) :
    Lockstep Unready Unready (BothUnmarked (F := F) (D := D))
      (applyTopK arithmetic library scores topK minTokensToKeep)
      (applyTopK arithmetic library scores topK minTokensToKeep) := by
  unfold applyTopK
  apply Lockstep.bind (requireMinTokens_lockstep (fun _ _ h => h.unmarked) minTokensToKeep)
  intro _
  apply Lockstep.ite
  · intro _
    exact Lockstep.pure scores fun _ _ h => h
  · intro _ s t h
    dsimp only
    split_ifs with hany
    · exact .error h.unmarked
    · generalize keepFrom arithmetic scores _ _ = kept
      cases kept with
      | error failure => exact .error h.unmarked
      | ok kept => exact .ok ⟨h.unmarked, h.scores_eq, rfl, rfl⟩

theorem applyTopP_lockstep (a b : ℕ) (topP : F) (minTokensToKeep : ℤ) :
    Lockstep Unready (Matched a b) (BothUnmarked (F := F) (D := D))
      (applyTopP arithmetic scores a topP minTokensToKeep)
      (applyTopP arithmetic scores b topP minTokensToKeep) := by
  unfold applyTopP
  apply Lockstep.bind (requireMinTokens_lockstep (fun _ _ h => h.unmarked) minTokensToKeep)
  intro _
  apply Lockstep.ite
  · intro _
    exact Lockstep.pure scores fun _ _ h => h.matched a b
  · intro _
    apply Lockstep.ite
    · intro _
      exact Lockstep.throw _ fun _ _ h => h.unmarked
    · intro _
      apply Lockstep.ite
      · intro _
        exact Lockstep.pure scores fun _ _ h => h.matched a b
      · intro _ s t h
        dsimp only
        split_ifs with hnone hany hmass
        · refine .ok (Unready.matched ?_ a b)
          exact ⟨h.unmarked, h.scores_eq, h.left, h.right⟩
        · exact .error h.unmarked
        · exact .error h.unmarked
        · exact .ok ⟨h.unmarked, h.scores_eq, rfl, fun _ => ⟨rfl, rfl, rfl, rfl, rfl⟩⟩

theorem onScores_lockstep {Q : HfSamplerScratch F D → HfSamplerScratch F D → Prop}
    {f g : List F → ScratchM F D (List F)}
    (h : ∀ scores, Lockstep P Q BothUnmarked (f scores) (g scores))
    (hscores : ∀ s t, P s t → s.scores = t.scores)
    (hwrite : ∀ s t, Q s t → ∀ scores, Q { s with scores := scores } { t with scores := scores }) :
    Lockstep P Q BothUnmarked (onScores f) (onScores g) := by
  intro s t hst
  have hsame := h s.scores s t hst
  unfold onScores
  rw [← hscores s t hst]
  generalize f s.scores s = r at hsame ⊢
  generalize g s.scores t = r' at hsame ⊢
  cases hsame with
  | ok hnext => exact .ok (hwrite _ _ hnext _)
  | error herror => exact .error herror

variable {s t scratch : HfSamplerScratch F D}

theorem Unready.write (h : Unready s t) (scores : List F) :
    Unready { s with scores := scores } { t with scores := scores } :=
  ⟨h.unmarked, rfl, h.left, h.right⟩

theorem Matched.write {a b : ℕ} (h : Matched a b s t) (scores : List F) :
    Matched a b { s with scores := scores } { t with scores := scores } :=
  ⟨h.unmarked, rfl, h.ready_eq, h.candidates_eq⟩

theorem processScores_lockstep (call : SampleCall F G) (b : ℕ) :
    Lockstep BothUnmarked Unready (BothUnmarked (F := F) (D := D)) (processScores arithmetic call)
      (processScores arithmetic { call with scoresData := b }) := by
  unfold processScores
  apply Lockstep.bind (Q := Unready)
  · apply Lockstep.modify
    intro s t h
    exact ⟨h, rfl, rfl, rfl⟩
  · intro _
    exact onScores_lockstep (fun scores => applyRepetitionPenalty_lockstep arithmetic scores _ _)
      (fun _ _ h => h.scores_eq) fun _ _ h => h.write

variable (call : SampleCall F G)

theorem sampleProcessors_lockstep (b : ℕ) :
    Lockstep Unready (Matched call.scoresData b) (BothUnmarked (F := F) (D := D))
      (sampleProcessors arithmetic library call)
      (sampleProcessors arithmetic library { call with scoresData := b }) := by
  unfold sampleProcessors
  apply Lockstep.bind (Q := Unready)
  · exact onScores_lockstep (fun scores => applyTemperature_lockstep arithmetic scores _)
      (fun _ _ h => h.scores_eq) fun _ _ h => h.write
  · intro _
    apply Lockstep.bind (Q := Unready)
    · exact onScores_lockstep (fun scores => applyTopK_lockstep arithmetic library scores _ _)
        (fun _ _ h => h.scores_eq) fun _ _ h => h.write
    · intro _
      exact onScores_lockstep (fun scores => applyTopP_lockstep arithmetic scores _ b _ _)
        (fun _ _ h => h.scores_eq) fun _ _ h => h.write

/-! ## The choice of a token -/

structure SameCandidates (s t : HfSamplerScratch F D) : Prop where
  unmarked : BothUnmarked s t
  candidates_eq : s.candidates = t.candidates
  weights_eq : s.weights = t.weights

/-- Either scratch would have its candidates used, and they are the same, or neither would. -/
structure Usable (use : Bool) (a b vocabSize : ℕ) (s t : HfSamplerScratch F D) : Prop where
  unmarked : BothUnmarked s t
  match_eq : candidatesMatch use a vocabSize s = candidatesMatch use b vocabSize t
  candidates_eq : candidatesMatch use a vocabSize s = true → SameCandidates s t

theorem usable_unused {s t : HfSamplerScratch F D} (h : BothUnmarked s t) (a b vocabSize : ℕ) :
    Usable false a b vocabSize s t where
  unmarked := h
  match_eq := rfl
  candidates_eq := by
    intro hmatch
    simp [candidatesMatch] at hmatch

theorem Matched.usable {a b : ℕ} {s t : HfSamplerScratch F D} (h : Matched a b s t)
    (vocabSize : ℕ) : Usable true a b vocabSize s t where
  unmarked := h.unmarked
  match_eq := by
    unfold candidatesMatch
    cases hready : s.probabilitiesReady with
    | false =>
      rw [← h.ready_eq, hready]
      rfl
    | true =>
      obtain ⟨hs, ht, hsize, _, _⟩ := h.candidates_eq hready
      rw [← h.ready_eq, hready, hs, ht, hsize]
      simp
  candidates_eq := by
    intro hmatch
    have hready : s.probabilitiesReady = true := by
      simp only [candidatesMatch, Bool.and_eq_true] at hmatch
      exact hmatch.1.1.2
    obtain ⟨_, _, _, hcandidates, hweights⟩ := h.candidates_eq hready
    exact ⟨h.unmarked, hcandidates, hweights⟩

theorem buildCandidates_lockstep (a b : ℕ) (context : Bytes) :
    Lockstep BothUnmarked SameCandidates (BothUnmarked (F := F) (D := D))
      (buildCandidates arithmetic scores a context)
      (buildCandidates arithmetic scores b context) := by
  intro s t h
  unfold buildCandidates
  dsimp only
  split_ifs with hnone hany
  · exact .error h
  · exact .error h
  · exact .ok ⟨h, rfl, rfl⟩

theorem buildUnlessMatching_lockstep (a b : ℕ) (context : Bytes) (use : Bool) :
    Lockstep (Usable use a b scores.length) SameCandidates (BothUnmarked (F := F) (D := D))
      (buildUnlessMatching arithmetic scores a context use)
      (buildUnlessMatching arithmetic scores b context use) := by
  intro s t h
  unfold buildUnlessMatching
  rw [← h.match_eq]
  by_cases hmatch : candidatesMatch use a scores.length s = true
  · rw [if_pos hmatch, if_pos hmatch]
    exact .ok (h.candidates_eq hmatch)
  · rw [if_neg hmatch, if_neg hmatch]
    exact buildCandidates_lockstep arithmetic scores a b context s t h.unmarked

theorem fromScratch_lockstep {A : Type} {f g : HfSamplerScratch F D → Except Failure A}
    (h : ∀ s t, P s t → f s = g t) (hunmarked : ∀ s t, P s t → BothUnmarked s t) :
    Lockstep P BothUnmarked BothUnmarked (fromScratch f) (fromScratch g) := by
  intro s t hst
  unfold fromScratch
  rw [← h s t hst]
  cases f s with
  | ok a => exact .ok (hunmarked s t hst)
  | error failure => exact .error (hunmarked s t hst)

theorem sampleFromProcessedScores_lockstep (a b : ℕ) (fallbackRng : G)
    (torchState : Option HfTorchSamplingState) (context : Bytes) (use : Bool) :
    Lockstep (Usable use a b scores.length) BothUnmarked (BothUnmarked (F := F) (D := D))
      (sampleFromProcessedScores arithmetic library scores a fallbackRng torchState context use)
      (sampleFromProcessedScores arithmetic library scores b fallbackRng torchState context use) :=
    by
  unfold sampleFromProcessedScores
  cases torchState with
  | none =>
    apply Lockstep.bind (Q := SameCandidates)
    · exact (buildCandidates_lockstep arithmetic scores a b context).weaken
        (fun _ _ h => h.unmarked) fun _ _ h => h
    · intro _
      apply fromScratch_lockstep
      · intro s t h
        rw [drawCandidate, drawCandidate, h.candidates_eq, h.weights_eq]
      · exact fun _ _ h => h.unmarked
  | some state =>
    cases hpolicy : state.policy.filter (·.cudaFastPath) with
    | some policy =>
      simp only [hpolicy]
      apply Lockstep.bind (buildUnlessMatching_lockstep arithmetic scores a b context use)
      intro _
      apply fromScratch_lockstep
      · intro s t h
        rw [h.candidates_eq, h.weights_eq]
      · exact fun _ _ h => h.unmarked
    | none =>
      simp only [hpolicy]
      exact fromScratch_lockstep (fun _ _ _ => rfl) fun _ _ h => h.unmarked

theorem sample_lockstep (call : SampleCall F G) (b : ℕ) :
    Lockstep BothUnmarked BothUnmarked (BothUnmarked (F := F) (D := D))
      (sample arithmetic library call)
      (sample arithmetic library { call with scoresData := b }) := by
  unfold sample
  apply Lockstep.ite
  · intro _
    exact Lockstep.throw _ fun _ _ h => h
  · intro _
    apply Lockstep.ite
    · intro _
      apply Lockstep.ite
      · intro _
        exact fromScratch_lockstep (fun _ _ _ => rfl) fun _ _ h => h
      · intro _
        apply Lockstep.bind (Q := Usable false call.logitsData call.logitsData call.logits.length)
        · apply Lockstep.modify
          intro s t h
          apply usable_unused
          exact h
        · intro _
          exact sampleFromProcessedScores_lockstep arithmetic library call.logits _ _ _ _ _ false
    · intro _
      apply Lockstep.bind (processScores_lockstep arithmetic call b)
      intro _
      apply Lockstep.ite
      · intro _
        apply fromScratch_lockstep
        · intro s t h
          rw [h.scores_eq]
        · exact fun _ _ h => h.unmarked
      · intro _
        apply Lockstep.bind (sampleProcessors_lockstep arithmetic library call b)
        intro _ s t h
        have hsame := sampleFromProcessedScores_lockstep arithmetic library s.scores
          call.scoresData b call.fallbackRng call.torchState call.context true s t
          (h.usable s.scores.length)
        rw [h.scores_eq] at hsame
        dsimp only
        rwa [h.scores_eq]

/-- The token or the failure of a call, with the fallback generator after it. -/
def sampled (scratch : HfSamplerScratch F D) : Except Failure ℤ × G :=
  match sample arithmetic library call scratch with
  | .ok (token, fallbackRng) _ => (.ok token, fallbackRng)
  | .error failure _ => (.error failure, call.fallbackRng)

def scratchAfter (scratch : HfSamplerScratch F D) : HfSamplerScratch F D :=
  match sample arithmetic library call scratch with
  | .ok _ after => after
  | .error _ after => after

def sampleAll : List (SampleCall F G) → HfSamplerScratch F D → List (Except Failure ℤ × G)
  | [], _ => []
  | call :: calls, scratch =>
    sampled arithmetic library call scratch ::
      sampleAll calls (scratchAfter arithmetic library call scratch)

theorem sampled_unmarked (b : ℕ) (h : Unmarked scratch) :
    sampled arithmetic library call scratch =
        sampled arithmetic library { call with scoresData := b } fresh ∧
      Unmarked (scratchAfter arithmetic library call scratch) := by
  have hsame := sample_lockstep arithmetic library call b scratch fresh ⟨h, unmarked_fresh⟩
  unfold sampled scratchAfter
  generalize sample arithmetic library call scratch = r at hsame ⊢
  generalize sample arithmetic library { call with scoresData := b } fresh = r' at hsame ⊢
  cases hsame with
  | ok hafter => exact ⟨rfl, hafter.1⟩
  | error hafter => exact ⟨rfl, hafter.1⟩

theorem sampleAll_unmarked (place : SampleCall F G → ℕ) (calls : List (SampleCall F G))
    (h : Unmarked scratch) :
    sampleAll arithmetic library calls scratch = calls.map fun call =>
      sampled arithmetic library { call with scoresData := place call } fresh := by
  induction calls generalizing scratch with
  | nil => rfl
  | cons call calls ih =>
    obtain ⟨hsampled, hafter⟩ := sampled_unmarked arithmetic library call (place call) h
    rw [sampleAll, hsampled, ih hafter, List.map_cons]

/-- Calls that share a scratch give the tokens, the failures and the states of the fallback
generator that each of them would give with a scratch of its own, wherever its scores lie. -/
theorem sampleAll_fresh (place : SampleCall F G → ℕ) (calls : List (SampleCall F G)) :
    sampleAll arithmetic library calls (fresh : HfSamplerScratch F D) = calls.map fun call =>
      sampled arithmetic library { call with scoresData := place call } fresh :=
  sampleAll_unmarked arithmetic library place calls unmarked_fresh

end Steps

end FastTts.HfSampler
