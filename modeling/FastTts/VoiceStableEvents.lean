import FastTts.VoiceCommitment

/-!
# When the tracker says that its prefix grew

The flag that `update` returns is computed on the number of committed tokens, and what is shown is
respelled only where the prefix is long enough. Tokens that are committed while it is too short are
shown by a later update, which says that nothing grew.
-/

namespace FastTts.Voice.StableTracker

/-- The update says that the prefix grew exactly if it shows more tokens. -/
def Reports (t : StableTracker) (hypothesis : Bytes) : Prop :=
  (t.update hypothesis).2 = true ↔
    (words t.stable).length < (words (t.update hypothesis).1.stable).length

instance (t : StableTracker) (hypothesis : Bytes) : Decidable (t.Reports hypothesis) :=
  inferInstanceAs (Decidable (_ ↔ _))

/-- Where an update spells the prefix and commits no further token, the tokens that were committed
before are all shown already. -/
def ShownBefore (t : StableTracker) (hypothesis : Bytes) : Prop :=
  t.Respells hypothesis → t.agreed hypothesis = t.committedTokens →
    (words t.stable).length = t.committedTokens

def ReportsAll (t : StableTracker) : List Bytes → Prop
  | [] => True
  | hypothesis :: hypotheses =>
    t.Reports hypothesis ∧ ((t.update hypothesis).1).ReportsAll hypotheses

def ShownBeforeAll (t : StableTracker) : List Bytes → Prop
  | [] => True
  | hypothesis :: hypotheses =>
    t.ShownBefore hypothesis ∧ ((t.update hypothesis).1).ShownBeforeAll hypotheses

variable {t : StableTracker}

theorem committedTokens_le_agreed (t : StableTracker) (hypothesis : Bytes) :
    t.committedTokens ≤ t.agreed hypothesis := by
  rw [agreed]
  split_ifs
  · exact le_max_left ..
  · exact le_rfl

theorem length_words_of_respells {hypothesis : Bytes} (h : t.Respells hypothesis) :
    (words (t.update hypothesis).1.stable).length = t.agreed hypothesis := by
  rw [words_stable_of_respells h, List.length_take, words, List.length_map]
  exact Nat.min_eq_left h.2.1

theorem update_grew (t : StableTracker) (hypothesis : Bytes) :
    (t.update hypothesis).2 = true ↔
      t.Respells hypothesis ∧ t.committedTokens < t.agreed hypothesis := by
  rw [update_eq]
  by_cases hrespells : t.Respells hypothesis
  · rw [if_pos hrespells]
    simp [hrespells]
  · rw [if_neg hrespells]
    split_ifs <;> simp [hrespells]

def Shows (t : StableTracker) : Prop := (words t.stable).length ≤ t.committedTokens

theorem shows_new (params : StabilityParams) : (new params).Shows := Nat.le_refl 0

theorem Shows.update (h : t.Shows) (hypothesis : Bytes) : (t.update hypothesis).1.Shows := by
  rw [Shows, update_committedTokens]
  by_cases hrespells : t.Respells hypothesis
  · exact (length_words_of_respells hrespells).le
  · rw [stable_of_not_respells hrespells]
    exact h.trans (committedTokens_le_agreed t hypothesis)

theorem Shows.reports_iff (h : t.Shows) (hypothesis : Bytes) :
    t.Reports hypothesis ↔ t.ShownBefore hypothesis := by
  have hcommitted := committedTokens_le_agreed t hypothesis
  have hshown : (words t.stable).length ≤ t.committedTokens := h
  rw [Reports, ShownBefore, update_grew]
  by_cases hrespells : t.Respells hypothesis
  · rw [length_words_of_respells hrespells]
    simp only [hrespells, true_and, true_implies]
    omega
  · rw [stable_of_not_respells hrespells]
    simp [hrespells]

theorem Shows.reports_run_iff (h : t.Shows) (hypotheses : List Bytes) :
    t.ReportsAll hypotheses ↔ t.ShownBeforeAll hypotheses := by
  induction hypotheses generalizing t with
  | nil => exact Iff.rfl
  | cons hypothesis hypotheses ih =>
    rw [ReportsAll, ShownBeforeAll, h.reports_iff hypothesis, ih (h.update hypothesis)]

/-- The flag of every update of a run is right exactly if no update shows tokens that an earlier one
has committed. -/
theorem reportsAll_iff (params : StabilityParams) (earlier hypotheses : List Bytes) :
    ((new params).feed earlier).reset.ReportsAll hypotheses ↔
      ((new params).feed earlier).reset.ShownBeforeAll hypotheses := by
  rw [reset_feed_new]
  exact (shows_new params).reports_run_iff hypotheses

/-- A prefix of one character is committed unseen, and shown later without a word about it. -/
theorem reportsAll_fails : ¬ ((new {}).feed []).reset.ReportsAll
    [bytes "I", bytes "I", bytes "I, too"] := by
  rintro ⟨_, _, hreports, _⟩
  exact absurd hreports (by decide)

end FastTts.Voice.StableTracker
