import FastTts.TextChunks

/-!
# Where chunks end

The default and the Japanese splitter look for the last sentence break in what the budget has room
for, and only where that window has none for the last clause break. That nothing was found and that
the break is at the end of the window look the same to them: a chunk whose window ends with a
sentence ends at a clause of that window instead, if there is one.
-/

namespace FastTts.TextBreaks

open Ranges Utf8Spans TextChunks

/-- A chunk that is cut: what the text has left, in units, from its first one on; how many units the
budget has room for; how many the chunk takes. -/
structure Cut (α : Type) where
  rest : List α
  window : ℕ
  stop : ℕ
  deriving DecidableEq, Repr

variable {α : Type}

/-- A break behind a unit of the window, the first one apart. -/
def BreakAt (isBreak : α → Bool) (items : List α) (window i : ℕ) : Prop :=
  1 ≤ i ∧ i < window ∧ items[i]?.any isBreak = true

/-- Where the text goes on behind the window, the chunk ends with the last sentence of the window,
and with a clause only if no sentence ends in the window. -/
structure Cut.Right (isSentenceEnd isClauseEnd : α → Bool) (cut : Cut α) : Prop where
  sentence : cut.window < cut.rest.length → ∀ i, BreakAt isSentenceEnd cut.rest cut.window i →
    (∀ j, BreakAt isSentenceEnd cut.rest cut.window j → j ≤ i) → cut.stop = i + 1
  clause : cut.window < cut.rest.length → cut.stop < cut.window →
    cut.rest[cut.stop - 1]?.any isClauseEnd = true →
    ∀ i, ¬ BreakAt isSentenceEnd cut.rest cut.window i

/-- The window ends with a sentence, and a clause ends in it. -/
def Cut.Clashes (isSentenceEnd isClauseEnd : α → Bool) (cut : Cut α) : Prop :=
  cut.window < cut.rest.length ∧ BreakAt isSentenceEnd cut.rest cut.window (cut.window - 1) ∧
    ∃ i, BreakAt isClauseEnd cut.rest cut.window i

instance (isBreak : α → Bool) (items : List α) (window i : ℕ) :
    Decidable (BreakAt isBreak items window i) :=
  inferInstanceAs (Decidable (_ ∧ _))

instance (isSentenceEnd isClauseEnd : α → Bool) (cut : Cut α) :
    Decidable (cut.Clashes isSentenceEnd isClauseEnd) :=
  decidable_of_iff (cut.window < cut.rest.length ∧
      BreakAt isSentenceEnd cut.rest cut.window (cut.window - 1) ∧
      ∃ i < cut.window, BreakAt isClauseEnd cut.rest cut.window i) <| by
    refine and_congr_right' (and_congr_right' (exists_congr fun i => ?_))
    exact and_iff_right_of_imp fun h => h.2.1

/-! ## One cut -/

section Search

variable {isSentenceEnd isClauseEnd : α → Bool} {items : List α} {window : ℕ}

theorem breakEnd_spec (isBreak : α → Bool) (items : List α) (window : ℕ) :
    (∃ i, BreakAt isBreak items window i ∧ breakEnd isBreak items window = i + 1 ∧
        ∀ j, BreakAt isBreak items window j → j ≤ i) ∨
      (∀ i, ¬ BreakAt isBreak items window i) ∧ breakEnd isBreak items window = window := by
  unfold breakEnd BreakAt
  cases hfound : findLast (fun i => decide (1 ≤ i) && items[i]?.any isBreak) window with
  | none =>
    right
    refine ⟨fun i hbreak => ?_, rfl⟩
    obtain ⟨hfirst, hlast, hholds⟩ := hbreak
    have hnone := findLast_none hfound hlast
    simp [hfirst, hholds] at hnone
  | some i =>
    left
    have hholds := findLast_holds hfound
    simp only [Bool.and_eq_true, decide_eq_true_eq] at hholds
    refine ⟨i, ⟨hholds.1, findLast_lt hfound, hholds.2⟩, rfl, fun j hbreak => ?_⟩
    obtain ⟨hfirst, hlast, hbreak⟩ := hbreak
    by_contra hlater
    have hnone := findLast_max hfound (not_le.mp hlater) hlast
    simp [hfirst, hbreak] at hnone

section

variable (hdisjoint : ∀ item ∈ items, isSentenceEnd item = true → isClauseEnd item = false)
include hdisjoint

theorem not_clause_of_sentence {i : ℕ}
    (hsentence : items[i]?.any isSentenceEnd = true) : ¬ items[i]?.any isClauseEnd = true := by
  cases hitem : items[i]? with
  | none => simp
  | some item =>
    rw [hitem] at hsentence
    simp [hdisjoint item (List.mem_of_getElem? hitem) hsentence]

/-- The search is right unless the last sentence break is at the end of the window and a clause
break comes before it. -/
theorem chunkEnd_right_iff :
    Cut.Right isSentenceEnd isClauseEnd
        ⟨items, window, chunkEnd isSentenceEnd isClauseEnd items window⟩ ↔
      ¬ Cut.Clashes isSentenceEnd isClauseEnd
        ⟨items, window, chunkEnd isSentenceEnd isClauseEnd items window⟩ := by
  obtain ⟨i, hsentence, hend, hlast⟩ | ⟨hnone, -⟩ := breakEnd_spec isSentenceEnd items window
  · by_cases hedge : i + 1 = window
    · have hstop : chunkEnd isSentenceEnd isClauseEnd items window =
          breakEnd isClauseEnd items window := if_pos (hend.trans hedge)
      rw [hstop]
      obtain ⟨j, hclause, hstop, -⟩ | ⟨hnone, hstop⟩ := breakEnd_spec isClauseEnd items window
      · have hne : j ≠ i := by
          rintro rfl
          exact not_clause_of_sentence hdisjoint hsentence.2.2 hclause.2.2
        constructor
        · rintro ⟨hright, -⟩ ⟨hmore, -, -⟩
          have hwrong := hright hmore i hsentence hlast
          simp only at hwrong
          omega
        · intro hclear
          have hwhole : ¬ window < items.length := fun hmore =>
            hclear ⟨hmore, by simpa [← hedge] using hsentence, j, hclause⟩
          exact ⟨fun hmore => absurd hmore hwhole, fun hmore => absurd hmore hwhole⟩
      · refine iff_of_true ⟨fun _ k hk hkmax => ?_, fun _ hlt => ?_⟩ ?_
        · have hki := hkmax i hsentence
          have hik := hlast k hk
          simp only
          omega
        · exact absurd hlt (by simp only; omega)
        · rintro ⟨-, -, k, hk⟩
          exact hnone k hk
    · have hstop : chunkEnd isSentenceEnd isClauseEnd items window = i + 1 := by
        rw [chunkEnd, if_neg (by omega), hend]
      rw [hstop]
      refine iff_of_true ⟨fun _ k hk hkmax => ?_, fun _ _ hclause => ?_⟩ ?_
      · have hki := hkmax i hsentence
        have hik := hlast k hk
        simp only
        omega
      · exact absurd hclause (not_clause_of_sentence hdisjoint hsentence.2.2)
      · rintro ⟨-, hedge', -⟩
        have hle := hlast _ hedge'
        have hlt := hsentence.2.1
        simp only at hle
        omega
  · refine iff_of_true ⟨fun _ i hi => absurd hi (hnone i), fun _ _ _ => hnone⟩ ?_
    rintro ⟨-, hedge, -⟩
    exact hnone _ hedge

end

theorem cut_right_iff {cut : Cut α}
    (hdisjoint : ∀ item ∈ cut.rest, isSentenceEnd item = true → isClauseEnd item = false)
    (hstop : cut.window < cut.rest.length →
      cut.stop = chunkEnd isSentenceEnd isClauseEnd cut.rest cut.window) :
    cut.Right isSentenceEnd isClauseEnd ↔ ¬ cut.Clashes isSentenceEnd isClauseEnd := by
  by_cases hmore : cut.window < cut.rest.length
  · obtain ⟨rest, window, stop⟩ := cut
    have hend : stop = chunkEnd isSentenceEnd isClauseEnd rest window := hstop hmore
    subst hend
    exact chunkEnd_right_iff hdisjoint
  · exact iff_of_true ⟨fun h => absurd h hmore, fun h => absurd h hmore⟩ fun h => hmore h.1

theorem chunkEnd_one (items : List α) : chunkEnd isSentenceEnd isClauseEnd items 1 = 1 := by
  simp [chunkEnd, breakEnd, findLast]

theorem breakEnd_pos {isBreak : α → Bool} (hwindow : 0 < window) :
    0 < breakEnd isBreak items window := by
  obtain ⟨i, -, hend, -⟩ | ⟨-, hend⟩ := breakEnd_spec isBreak items window
  · omega
  · omega

theorem chunkEnd_pos (hwindow : 0 < window) :
    0 < chunkEnd isSentenceEnd isClauseEnd items window := by
  unfold chunkEnd
  split
  · exact breakEnd_pos hwindow
  · exact breakEnd_pos hwindow

end Search

theorem not_clause_of_isSentenceBreak {token : Bytes} (h : isSentenceBreak token = true) :
    isClauseBreak token = false := by
  simp only [isSentenceBreak, Bool.or_eq_true, beq_iff_eq] at h
  rcases h with ((((rfl | rfl) | rfl) | rfl) | rfl) | rfl <;> decide

/-! ## The cuts of a text -/

def Cut.units (cut : Cut α) : List α := cut.rest.take cut.stop

/-- The text as it is if it is in the budget, and its chunks if not. -/
def shownChunks (budget : ℕ) (items : List Bytes) (chunks : List Bytes) : List Bytes :=
  if items.isEmpty then []
  else if items.length ≤ budget then [items.flatten]
  else chunks.filter fun chunk => !chunk.isEmpty

variable {budget : ℤ} {spans : List Bytes}

theorem onTrimmed_shown {split : Bytes → ℕ → Except String (List Bytes)} (hbudget : 0 < budget)
    (chunks : List Bytes → List Bytes) (hspans : ∀ cp ∈ spans, IsSpan cp)
    (hsplit : ∀ items, (∀ cp ∈ items, IsSpan cp) → split items.flatten budget.toNat =
      .ok (if items.length ≤ budget.toNat then [items.flatten]
        else (chunks items).filter fun chunk => !chunk.isEmpty)) :
    onTrimmed split spans.flatten budget = .ok (shownChunks budget.toNat (trim isAsciiSpace spans)
      (chunks (trim isAsciiSpace spans))) := by
  rw [onTrimmed, if_neg (Int.not_le.mpr hbudget), shownChunks]
  by_cases htrim : trim isAsciiSpace spans = []
  · rw [if_pos ((isEmpty_trimmed hspans).mpr htrim), if_pos (List.isEmpty_iff.mpr htrim)]
  · rw [if_neg fun h => htrim ((isEmpty_trimmed hspans).mp h),
      if_neg fun h => htrim (List.isEmpty_iff.mp h), trimmed_flatten hspans,
      hsplit _ (trim_isSpan hspans)]

/-- The words that the budget has room for, at least one. -/
def defaultWindow (budget : ℕ) (words : List WordRange) : ℕ :=
  max 1 (fitting (fun ws => rangeCodepoints (ws.map WordRange.range)) budget words)

def defaultCuts (budget : ℕ) (items : List Bytes) : List (Cut WordRange) :=
  if items.length ≤ budget then []
  else (starts (defaultChunkEnd budget) (splitWordRanges items)).map fun rest =>
    ⟨rest, defaultWindow budget rest, defaultChunkEnd budget rest⟩

/-- What is left of the code points at the start of each chunk. -/
def japaneseStarts (budget : ℕ) (spans : List Bytes) : List (List Bytes) :=
  match _hspans : spans.dropWhile isAsciiSpace with
  | [] => []
  | first :: rest =>
    (first :: rest) ::
      japaneseStarts budget (rest.drop (japaneseChunkEnd budget (first :: rest) - 1))
termination_by spans.length
decreasing_by
  have hskip := (List.dropWhile_suffix isAsciiSpace (l := spans)).length_le
  rw [_hspans, List.length_cons] at hskip
  rw [List.length_drop]
  omega

def japaneseCuts (budget : ℕ) (items : List Bytes) : List (Cut Bytes) :=
  if items.length ≤ budget then []
  else (japaneseStarts budget items).map fun rest =>
    ⟨rest, min rest.length budget, japaneseChunkEnd budget rest⟩

/-! ### The default splitter -/

theorem splitWordRangesFrom_disjoint (pos : ℕ) (spans : List Bytes) :
    ∀ word ∈ splitWordRangesFrom pos spans, word.sentenceBreak = true →
      word.clauseBreak = false := by
  fun_induction splitWordRangesFrom pos spans with
  | case1 => exact fun word hword => absurd hword List.not_mem_nil
  | case2 pos spans first tail hspans wordStart word last ih =>
    exact List.forall_mem_cons.mpr ⟨not_clause_of_isSentenceBreak, ih⟩

theorem defaultChunkEnd_eq {budget : ℕ} {words : List WordRange}
    (hmore : defaultWindow budget words < words.length) :
    defaultChunkEnd budget words = chunkEnd WordRange.sentenceBreak WordRange.clauseBreak words
        (defaultWindow budget words) := by
  unfold defaultWindow at hmore ⊢
  rw [defaultChunkEnd]
  by_cases hone : 1 < max 1
      (fitting (fun ws => rangeCodepoints (ws.map WordRange.range)) budget words)
  · rw [if_pos ⟨hmore, hone⟩]
  · have hwindow : max 1
        (fitting (fun ws => rangeCodepoints (ws.map WordRange.range)) budget words) =
        1 := by omega
    rw [if_neg fun h => hone h.2, hwindow, chunkEnd_one]

theorem defaultChunkEnd_pos (budget : ℕ) (words : List WordRange) :
    0 < defaultChunkEnd budget words := by
  rw [defaultChunkEnd]
  split
  · exact chunkEnd_pos (by omega)
  · omega

theorem defaultCuts_right_iff (budget : ℕ) (items : List Bytes) :
    (∀ cut ∈ defaultCuts budget items, cut.Right WordRange.sentenceBreak WordRange.clauseBreak) ↔
      ∀ cut ∈ defaultCuts budget items,
        ¬ cut.Clashes WordRange.sentenceBreak WordRange.clauseBreak := by
  refine forall₂_congr fun cut hcut => ?_
  unfold defaultCuts at hcut
  split at hcut
  · cases hcut
  · obtain ⟨rest, hrest, rfl⟩ := List.mem_map.mp hcut
    refine cut_right_iff (fun word hword => ?_) defaultChunkEnd_eq
    exact splitWordRangesFrom_disjoint 0 items word
      ((suffix_of_mem_starts _ rest hrest).subset hword)

theorem splitTextChunksDefault_cuts (hbudget : 0 < budget) (hspans : ∀ cp ∈ spans, IsSpan cp) :
    splitTextChunksDefault spans.flatten budget =
      .ok (shownChunks budget.toNat (trim isAsciiSpace spans)
        ((defaultCuts budget.toNat (trim isAsciiSpace spans)).map fun cut =>
          joinRanges (trim isAsciiSpace spans) (cut.units.map WordRange.range))) := by
  unfold splitTextChunksDefault
  apply onTrimmed_shown hbudget (fun items => (defaultCuts budget.toNat items).map fun cut =>
    joinRanges items (cut.units.map WordRange.range)) hspans
  intro items hitems
  rw [splitUtf8Spans_flatten hitems]
  simp only [bind, Except.bind, pure, Except.pure]
  split
  · rfl
  · next hlong =>
    rw [defaultCuts, if_neg hlong, List.map_map,
      packed_eq_map_starts fun _ _ => defaultChunkEnd_pos budget.toNat _, List.map_map]
    rfl

/-! ### The Japanese splitter -/

theorem japaneseChunkEnd_pos {budget : ℕ} (hbudget : 0 < budget) (first : Bytes)
    (rest : List Bytes) : 0 < japaneseChunkEnd budget (first :: rest) := by
  have hwindow : 0 < min (first :: rest).length budget := lt_min (Nat.succ_pos _) hbudget
  unfold japaneseChunkEnd
  dsimp only
  split
  · exact chunkEnd_pos hwindow
  · exact hwindow

theorem japaneseChunks_eq_map_starts {budget : ℕ} (hbudget : 0 < budget) (spans : List Bytes) :
    japaneseChunks budget spans =
      (japaneseStarts budget spans).map fun rest => rest.take (japaneseChunkEnd budget rest) := by
  fun_induction japaneseChunks budget spans with
  | case1 spans hspans =>
    rw [japaneseStarts]
    split
    · rfl
    · next first rest hsome => rw [hspans] at hsome; cases hsome
  | case2 spans first rest hspans more ih =>
    have htake : (first :: rest).take (japaneseChunkEnd budget (first :: rest)) =
        first :: rest.take more := List.take_cons (japaneseChunkEnd_pos hbudget first rest)
    rw [japaneseStarts]
    split
    · next hnone => rw [hspans] at hnone; cases hnone
    · next other tail hsome =>
      rw [hspans] at hsome
      cases hsome
      rw [List.map_cons, htake, ih]

theorem japaneseCuts_right_iff (budget : ℕ) (items : List Bytes) :
    (∀ cut ∈ japaneseCuts budget items, cut.Right isSentenceBreak isClauseBreak) ↔
      ∀ cut ∈ japaneseCuts budget items, ¬ cut.Clashes isSentenceBreak isClauseBreak := by
  refine forall₂_congr fun cut hcut => ?_
  unfold japaneseCuts at hcut
  split at hcut
  · cases hcut
  · obtain ⟨rest, -, rfl⟩ := List.mem_map.mp hcut
    exact cut_right_iff (fun _ _ => not_clause_of_isSentenceBreak) fun hmore => if_pos hmore

theorem splitTextChunksJapanese_cuts (hbudget : 0 < budget) (hspans : ∀ cp ∈ spans, IsSpan cp) :
    splitTextChunksJapanese spans.flatten budget =
      .ok (shownChunks budget.toNat (trim isAsciiSpace spans)
        ((japaneseCuts budget.toNat (trim isAsciiSpace spans)).map fun cut =>
          trimmed cut.units.flatten)) := by
  unfold splitTextChunksJapanese
  apply onTrimmed_shown hbudget (fun items => (japaneseCuts budget.toNat items).map fun cut =>
    trimmed cut.units.flatten) hspans
  intro items hitems
  rw [splitUtf8Spans_flatten hitems]
  simp only [bind, Except.bind, pure, Except.pure]
  split
  · rfl
  · next hlong =>
    rw [japaneseCuts, if_neg hlong, List.map_map,
      japaneseChunks_eq_map_starts (Int.lt_toNat.mpr hbudget), List.map_map]
    rfl

/-! ### Both -/

/-- In both splitters the chunks are those of the cuts, and all of them end where they should
exactly if no window ends with a sentence while a clause ends in it. -/
theorem splitTextChunks_right_iff (spans : List Bytes) (budget : ℤ)
    (hspans : ∀ cp ∈ spans, IsCodepoint cp) (hbudget : 0 < budget) :
    (splitTextChunks spans.flatten budget .default =
        .ok (shownChunks budget.toNat (trim isAsciiSpace spans)
          ((defaultCuts budget.toNat (trim isAsciiSpace spans)).map fun cut =>
            joinRanges (trim isAsciiSpace spans) (cut.units.map WordRange.range))) ∧
      ((∀ cut ∈ defaultCuts budget.toNat (trim isAsciiSpace spans),
          cut.Right WordRange.sentenceBreak WordRange.clauseBreak) ↔
        ∀ cut ∈ defaultCuts budget.toNat (trim isAsciiSpace spans),
          ¬ cut.Clashes WordRange.sentenceBreak WordRange.clauseBreak)) ∧
    splitTextChunks spans.flatten budget .japanese =
        .ok (shownChunks budget.toNat (trim isAsciiSpace spans)
          ((japaneseCuts budget.toNat (trim isAsciiSpace spans)).map fun cut =>
            trimmed cut.units.flatten)) ∧
      ((∀ cut ∈ japaneseCuts budget.toNat (trim isAsciiSpace spans),
          cut.Right isSentenceBreak isClauseBreak) ↔
        ∀ cut ∈ japaneseCuts budget.toNat (trim isAsciiSpace spans),
          ¬ cut.Clashes isSentenceBreak isClauseBreak) := by
  have hspan : ∀ cp ∈ spans, IsSpan cp := fun cp hcp => (hspans cp hcp).isSpan
  exact ⟨⟨splitTextChunksDefault_cuts hbudget hspan, defaultCuts_right_iff _ _⟩,
    splitTextChunksJapanese_cuts hbudget hspan, japaneseCuts_right_iff _ _⟩

/-- Four code points, of which three are in the budget. -/
theorem splitTextChunks_right_four :
    splitTextChunks (bytes "a。bc") 3 .japanese = .ok [bytes "a。", bytes "bc"] ∧
      ∀ cut ∈ japaneseCuts 3 (trim isAsciiSpace [bytes "a", bytes "。", bytes "b", bytes "c"]),
        cut.Right isSentenceBreak isClauseBreak := by
  have hiff := splitTextChunks_right_iff [bytes "a", bytes "。", bytes "b", bytes "c"] 3 (by
    simp only [List.forall_mem_cons]
    exact ⟨⟨'a', by decide⟩, ⟨'。', by decide⟩, ⟨'b', by decide⟩, ⟨'c', by decide⟩,
      fun cp hcp => absurd hcp List.not_mem_nil⟩) (by decide)
  exact ⟨by decide +kernel, hiff.2.2.mpr (by decide +kernel)⟩

/-- The window `a,b.` ends with a sentence, but the chunk ends at the comma; so does the chunk of
the window `x a, b.`. -/
theorem splitTextChunks_ends_at_clause :
    splitTextChunks (bytes "a,b.c") 4 .japanese = .ok [bytes "a,", bytes "b.c"] ∧
      splitTextChunks (bytes "x a, b. c") 7 .default = .ok [bytes "x a,", bytes "b. c"] ∧
      ¬ ∀ cut ∈ japaneseCuts 4 [bytes "a", bytes ",", bytes "b", bytes ".", bytes "c"],
        cut.Right isSentenceBreak isClauseBreak := by
  refine ⟨by decide +kernel, by decide +kernel, ?_⟩
  rw [japaneseCuts_right_iff]
  decide +kernel

end FastTts.TextBreaks
