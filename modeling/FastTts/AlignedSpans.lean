import FastTts.TimestampRepair

/-!
# Spans of aligned words

The times of `fix_timestamp` do not fall and agree with the predicted ones on a longest choice of
them. The spans that `parse_timestamps` makes of them are in order and not empty, whatever the times
are, as long as the samples fit in an `int64_t`.
-/

namespace FastTts.ForcedAligner

open FloatFormat JsonText LongestChain Subtitles

/-! ## Longest choices -/

/-- A choice of indices, in order, at which the times do not fall. -/
def NondecreasingAt (data : List ℤ) (indices : List ℕ) : Prop :=
  indices.Pairwise (fun i j => i < j ∧ valueAt data i ≤ valueAt data j) ∧
    ∀ i ∈ indices, i < data.length

def LongestAt (data : List ℤ) (indices : List ℕ) : Prop :=
  NondecreasingAt data indices ∧
    ∀ others, NondecreasingAt data others → others.length ≤ indices.length

variable {data : List ℤ}

theorem nondecreasingAt_iff {indices : List ℕ} :
    NondecreasingAt data indices ↔
      Descends (valueAt data) indices.reverse ∧ ∀ i ∈ indices, i < data.length := by
  rw [NondecreasingAt, Descends, List.pairwise_reverse]

theorem longestAt_normalIndices : LongestAt data (normalIndices data).reverse := by
  constructor
  · rw [nondecreasingAt_iff, List.reverse_reverse]
    exact ⟨descends_longest _ _, fun i hi => lt_of_mem_longest _ (List.mem_reverse.mp hi)⟩
  · intro others hothers
    obtain ⟨hdescends, hlt⟩ := nondecreasingAt_iff.mp hothers
    rw [List.length_reverse, ← (List.length_reverse : others.reverse.length = others.length)]
    exact length_le_longest _ hdescends fun i hi => hlt i (List.mem_reverse.mp hi)

section

variable {top : ℤ} (hwithin : ∀ x ∈ data, 0 ≤ x ∧ x ≤ top) (htop : top ≤ 2 ^ 53)
  (hlength : data.length ≤ 2 ^ 53)
include hwithin htop hlength

theorem repairable_normalIndices : Repairable data (normalIndices data) top := by
  refine ⟨fun i hi => lt_of_mem_longest _ hi, ?_, ?_, hwithin, htop, hlength⟩
  · intro i hi j hj hij
    obtain ⟨a, ha, rfl⟩ := List.mem_iff_getElem.mp hi
    obtain ⟨b, hb, rfl⟩ := List.mem_iff_getElem.mp hj
    have hdescends := List.pairwise_iff_getElem.mp (descends_longest (valueAt data) data.length)
    obtain hab | rfl | hba := lt_trichotomy a b
    · exact absurd (hdescends a b ha hb hab).1 hij.not_gt
    · exact le_rfl
    · exact (hdescends b a hb ha hba).2
  · intro hne hnone
    have hone : Descends (valueAt data) [0] := List.pairwise_singleton _ _
    have hbound := length_le_longest (valueAt data) hone (n := data.length) (by
      simpa using List.length_pos_of_ne_nil hne)
    rw [normalIndices] at hnone
    simp [hnone] at hbound

theorem fixTimestamp_spec :
    ∃ fixed, fixTimestamp data = .ok fixed ∧ fixed.length = data.length ∧
      fixed.Pairwise (· ≤ ·) ∧ (∀ x ∈ fixed, 0 ≤ x ∧ x ≤ top) ∧
      ∃ kept, LongestAt data kept ∧ ∀ i ∈ kept, valueAt fixed i = valueAt data i := by
  have hdata := repairable_normalIndices hwithin htop hlength
  obtain ⟨fixed, hfixed, hfilled, heq⟩ := fixFrom_filled hdata (Nat.le_add_left _ _) filledTo_nil
  refine ⟨fixed, hfixed, heq, hfilled.sorted, hfilled.within, _, longestAt_normalIndices, ?_⟩
  intro i hi
  have hnormal := List.mem_reverse.mp hi
  exact hfilled.kept i hnormal (by
    rw [heq]
    exact hdata.inside i hnormal)

end

/-! ## Samples -/

theorem samplePosition_mono {ms top sampleRate last : ℤ} (hms : 0 ≤ ms) (h : ms ≤ top)
    (hrate : 0 ≤ sampleRate) (hlast : samplePosition top sampleRate = .ok last) :
    ∃ position, samplePosition ms sampleRate = .ok position ∧ 0 ≤ position ∧ position ≤ last := by
  have hrate' : (0 : ℚ) ≤ sampleRate := by exact_mod_cast hrate
  have hms' : (0 : ℚ) ≤ ms := by exact_mod_cast hms
  have hproduct := mul_nonneg (scaled_nonneg (F := binary64) hms') hrate'
  have hquotient := div_nonneg (scaled_nonneg (F := binary64) hproduct)
    (by norm_num : (0 : ℚ) ≤ 1000)
  have hle : double (double (double ms * sampleRate) / 1000) ≤
      double (double (double top * sampleRate) / 1000) := by
    apply scaled_mono hquotient
    apply div_le_div_of_nonneg_right _ (by norm_num)
    apply scaled_mono hproduct
    apply mul_le_mul_of_nonneg_right _ hrate'
    exact scaled_mono hms' (by exact_mod_cast h)
  have hpos : 0 ≤ double (double (double ms * sampleRate) / 1000) := scaled_nonneg hquotient
  have hfloor := Int.floor_mono (add_le_add_left hle (1 / 2))
  have hzero : 0 ≤ ⌊double (double (double ms * sampleRate) / 1000) + 1 / 2⌋ :=
    Int.floor_nonneg.mpr (by linarith)
  rw [samplePosition, llround, if_pos (hpos.trans hle), int64] at hlast
  split_ifs at hlast with hfits
  obtain rfl := Except.ok.inj hlast
  refine ⟨_, ?_, hzero, hfloor⟩
  rw [samplePosition, llround, if_pos hpos]
  exact int64_ok hzero (by omega)

/-! ## Spans -/

theorem start_lt_repairedStop {start minEnd : ℤ} (rest : List WordTimestamp) (h : start < minEnd) :
    start < repairedStop start minEnd rest ∧ repairedStop start minEnd rest ≤ minEnd := by
  unfold repairedStop
  cases rest with
  | nil => exact ⟨h, le_rfl⟩
  | cons next rest =>
      dsimp only
      split_ifs <;> omega

theorem spanStop_ok {minSpan bound : ℤ} (hmin : 1 ≤ minSpan) (start stop : ℤ)
    (rest : List WordTimestamp) (hstart : 0 ≤ start ∧ start ≤ bound ∧ stop ≤ bound)
    (hroom : bound + minSpan < 2 ^ 63) :
    ∃ repaired, spanStop minSpan start stop rest = .ok repaired ∧ start < repaired ∧
      repaired ≤ bound + minSpan := by
  unfold spanStop
  split_ifs with hempty
  · obtain ⟨hlow, hhigh⟩ := start_lt_repairedStop rest (by omega : start < start + minSpan)
    rw [int64_ok (by omega) (by omega)]
    exact ⟨_, rfl, hlow, by omega⟩
  · exact ⟨_, rfl, by omega, by omega⟩

theorem repairSpans_ok {minSpan last : ℤ} (hmin : 1 ≤ minSpan) {spans : List WordTimestamp}
    (hspans : ∀ t ∈ spans, t.span.start ≤ last ∧ t.span.stop ≤ last) {previousEnd bound : ℤ}
    (hprevious : 0 ≤ previousEnd ∧ previousEnd ≤ bound) (hlast : last ≤ bound)
    (hroom : bound + spans.length * minSpan < 2 ^ 63) :
    ∃ out, repairSpans minSpan previousEnd spans = .ok out ∧ out.map (·.word) = spans.map (·.word) ∧
      (∀ t ∈ out, previousEnd ≤ t.span.start ∧ t.span.start < t.span.stop) ∧
      out.Pairwise fun a b => a.span.stop ≤ b.span.start := by
  induction spans generalizing previousEnd bound with
  | nil => exact ⟨[], rfl, rfl, by simp, List.Pairwise.nil⟩
  | cons timestamp rest ih =>
      obtain ⟨⟨hstart, hstop⟩, hrest⟩ := List.forall_mem_cons.mp hspans
      rw [List.length_cons] at hroom
      have hrepeat : ((rest.length + 1 : ℕ) : ℤ) * minSpan = rest.length * minSpan + minSpan := by
        push_cast
        ring
      have hnonneg : 0 ≤ (rest.length : ℤ) * minSpan := by positivity
      obtain ⟨stop, hok, hlt, hbound⟩ := spanStop_ok hmin
        (max timestamp.span.start previousEnd) timestamp.span.stop rest
        (⟨by omega, by omega, by omega⟩ : _ ∧ _ ≤ bound ∧ _ ≤ bound) (by omega)
      obtain ⟨out, hout, hwords, hordered, hpairwise⟩ := ih hrest
        (by omega : 0 ≤ stop ∧ stop ≤ bound + minSpan) (by omega) (by omega)
      refine ⟨⟨⟨max timestamp.span.start previousEnd, stop⟩, timestamp.word⟩ :: out, ?_, ?_, ?_, ?_⟩
      · unfold repairSpans
        simp only [hok, bind, Except.bind, hout]
        rfl
      · rw [List.map_cons, List.map_cons, hwords]
      · rintro t ht
        obtain rfl | ht := List.mem_cons.mp ht
        · exact ⟨le_max_right _ _, hlt⟩
        · obtain ⟨hle, hlt'⟩ := hordered t ht
          exact ⟨by omega, hlt'⟩
      · exact List.pairwise_cons.mpr ⟨fun t ht => (hordered t ht).1, hpairwise⟩


section Words

variable {segmentMs sampleRate top last : ℤ} {ids times : List ℤ}

theorem mapM_timestampMs (hids : ∀ id ∈ ids, 0 ≤ id) (hsegment : 0 < segmentMs)
    (htop : ∀ id ∈ ids, id * segmentMs ≤ top) (hexact : top ≤ 2 ^ 53) :
    ids.mapM (timestampMs segmentMs) = .ok (ids.map (· * segmentMs)) := by
  apply mapM_ok
  intro id hid
  have hpos := mul_nonneg (hids id hid) hsegment.le
  have hle := htop id hid
  rw [timestampMs, if_neg (hids id hid).not_gt, int64_ok hpos (by omega)]

theorem mapM_wordSpan (hrate : 0 ≤ sampleRate) (hlast : samplePosition top sampleRate = .ok last)
    (htimes : ∀ x ∈ times, 0 ≤ x ∧ x ≤ top) {words : List Bytes}
    (hlength : times.length = words.length * 2) :
    ∃ spans, words.zipIdx.mapM (wordSpan sampleRate times) = .ok spans ∧
      spans.map (·.word) = words ∧ ∀ t ∈ spans, t.span.start ≤ last ∧ t.span.stop ≤ last := by
  have hposition : ∀ i < times.length, ∃ position,
      samplePosition (valueAt times i) sampleRate = .ok position ∧ position ≤ last := by
    intro i hi
    obtain ⟨hzero, hle⟩ := htimes _ (valueAt_mem hi)
    obtain ⟨position, hok, -, hbound⟩ := samplePosition_mono hzero hle hrate hlast
    exact ⟨position, hok, hbound⟩
  choose! position hok hbound using hposition
  refine ⟨words.zipIdx.map fun entry =>
      ⟨⟨position (entry.2 * 2), position (entry.2 * 2 + 1)⟩, entry.1⟩, mapM_ok ?_, ?_, ?_⟩
  · intro entry hentry
    have hlt := List.snd_lt_of_mem_zipIdx hentry
    rw [wordSpan, hok _ (by omega), hok _ (by omega)]
    rfl
  · rw [List.map_map]
    exact List.zipIdx_map_fst 0 words
  · intro t ht
    obtain ⟨entry, hentry, rfl⟩ := List.mem_map.mp ht
    have hlt := List.snd_lt_of_mem_zipIdx hentry
    exact ⟨hbound _ (by omega), hbound _ (by omega)⟩

end Words

end FastTts.ForcedAligner
