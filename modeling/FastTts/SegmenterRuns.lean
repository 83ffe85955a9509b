import FastTts.Segmenter
import FastTts.Utf8Text

/-!
# Runs of the segmenter

What holds in every round of the segmenter. Every rule but the limit cuts a text between two
characters; the limit is a number of bytes. And a sentence end is never contradicted by the bytes
behind it, so that it does not matter in which deltas a text arrives.
-/

namespace FastTts.SentenceSegmenter

open Utf8Spans

/-! ## Rounds -/

/-- A round of `take_ready` that begins with the segmenter `t`. -/
inductive Rounds : SentenceSegmenter → SentenceSegmenter → Prop
  | here (s : SentenceSegmenter) : Rounds s s
  | later {s t : SentenceSegmenter} {cut : ℕ} (hcut : s.cut = some cut)
      (h : Rounds (s.takeOne cut).2 t) : Rounds s t

/-- A round that begins with `t` while the deltas are fed. -/
inductive Visits : SentenceSegmenter → List Bytes → SentenceSegmenter → Prop
  | here {s t : SentenceSegmenter} {delta : Bytes} {deltas : List Bytes}
      (h : Rounds { s with pending := s.pending ++ delta } t) : Visits s (delta :: deltas) t
  | later {s t : SentenceSegmenter} {delta : Bytes} {deltas : List Bytes}
      (h : Visits (s.feed delta).2 deltas t) : Visits s (delta :: deltas) t

/-! ## Cuts between characters -/

def clauseRule (s : SentenceSegmenter) : Option ℕ :=
  if !s.firstSegmentEmitted ∧ s.options.firstSegmentMinChars ≤ s.pending.length then
    clauseCut s.pending else none

/-- Before the first segment a word will do as well. -/
def wordRule (s : SentenceSegmenter) : Option ℕ :=
  if !s.firstSegmentEmitted ∧ s.options.firstSegmentWordCutChars ≤ s.pending.length then
    wordCut s.pending else none

def limitRule (s : SentenceSegmenter) : Option ℕ :=
  if s.options.maxSegmentChars ≤ s.pending.length then
    some (forcedCut s.options.maxSegmentChars s.pending) else none

theorem cut_eq (s : SentenceSegmenter) :
    s.cut = (sentenceCut s.pending).or (s.clauseRule.or (s.wordRule.or s.limitRule)) := by
  rw [SentenceSegmenter.cut]
  simp only [Option.orElse_eq_orElse, Option.orElse_eq_or]
  rfl

/-- No rule but the limit finds a place to cut. -/
structure RunsOn (s : SentenceSegmenter) : Prop where
  sentence : sentenceCut s.pending = none
  clause : s.clauseRule = none
  word : s.wordRule = none

variable {s last : SentenceSegmenter} {cut index : ℕ} {ch : UInt8} {text : Bytes}
  {segments deltas : List Bytes}

theorem cut_of_runsOn (h : s.RunsOn) : s.cut = s.limitRule := by
  rw [cut_eq, h.sentence, h.clause, h.word, Option.none_or, Option.none_or, Option.none_or]

theorem cut_cases (h : s.cut = some cut) :
    sentenceCut s.pending = some cut ∨ clauseCut s.pending = some cut ∨
      wordCut s.pending = some cut ∨
      s.RunsOn ∧ cut = forcedCut s.options.maxSegmentChars s.pending := by
  rw [cut_eq] at h
  rcases Option.or_eq_some_iff.mp h with h | ⟨hsentence, h⟩
  · exact .inl h
  rcases Option.or_eq_some_iff.mp h with h | ⟨hclause, h⟩
  · rw [clauseRule] at h
    split at h
    · exact .inr (.inl h)
    · cases h
  rcases Option.or_eq_some_iff.mp h with h | ⟨hword, h⟩
  · rw [wordRule] at h
    split at h
    · exact .inr (.inr (.inl h))
    · cases h
  · rw [limitRule] at h
    split at h
    · exact .inr (.inr (.inr ⟨⟨hsentence, hclause, hword⟩, (Option.some.inj h).symm⟩))
    · cases h

theorem ascii_of_closesAfter (h : closesAfter ch = true) : ch ≤ 0x7F := by
  revert ch
  apply forall_byte
  decide +kernel

theorem ascii_of_isAsciiBreak (h : isAsciiBreak ch = true) : ch ≤ 0x7F := by
  revert ch
  apply forall_byte
  decide +kernel

theorem codepoint_cjkEnders : ∀ ender ∈ cjkEnders, IsCodepoint ender ∧ ender.length = 3 := by
  simp only [cjkEnders, List.forall_mem_cons, List.not_mem_nil, false_implies, implies_true,
    and_true]
  exact ⟨⟨⟨'。', by decide⟩, rfl⟩, ⟨⟨'！', by decide⟩, rfl⟩, ⟨⟨'？', by decide⟩, rfl⟩,
    ⟨⟨'；', by decide⟩, rfl⟩, ⟨'…', by decide⟩, rfl⟩

theorem codepoint_cjkBreaks : ∀ mark ∈ cjkBreaks, IsCodepoint mark ∧ mark.length = 3 := by
  simp only [cjkBreaks, List.forall_mem_cons, List.not_mem_nil, false_implies, implies_true,
    and_true]
  exact ⟨⟨⟨'、', by decide⟩, rfl⟩, ⟨'，', by decide⟩, rfl⟩

theorem sentenceEndLength_cases (h : 0 < sentenceEndLength text index) :
    (∃ ch run after rest, isEnder ch = true ∧ (∀ b ∈ run, isEnder b = true) ∧
        closesAfter after = true ∧ text.drop index = ch :: (run ++ after :: rest) ∧
        sentenceEndLength text index = run.length + 1) ∨
      (text[index]? = some 0x0A ∧ sentenceEndLength text index = 1) ∨
      ∃ ender ∈ cjkEnders, isAt text index ender = true ∧ sentenceEndLength text index = 3 := by
  rw [sentenceEndLength] at h ⊢
  cases hdrop : text.drop index with
  | nil => simp [hdrop] at h
  | cons ch rest =>
    rw [hdrop] at h
    dsimp only at h ⊢
    split_ifs at h ⊢ with hender hline hcjk
    · have hsplit := List.takeWhile_append_dropWhile (p := isEnder) (l := rest)
      have hbehind : (rest.takeWhile isEnder ++ rest.dropWhile isEnder).drop
          (rest.takeWhile isEnder).length = rest.dropWhile isEnder := List.drop_left
      rw [hsplit] at hbehind
      rw [hbehind] at h ⊢
      cases hafter : rest.dropWhile isEnder with
      | nil => simp [hafter] at h
      | cons after more =>
        rw [hafter] at h
        dsimp only at h ⊢
        split_ifs at h ⊢ with hcloses
        refine .inl ⟨ch, rest.takeWhile isEnder, after, more, hender,
          fun b hb => List.mem_takeWhile_imp hb, hcloses, ?_, rfl⟩
        · rw [← hafter, hsplit]
        · exact absurd h (Nat.lt_irrefl 0)
    · refine .inr (.inl ⟨?_, rfl⟩)
      rw [← List.head?_drop, hdrop, List.head?_cons, beq_iff_eq.mp hline]
    · obtain ⟨ender, hmem, hat⟩ := List.any_eq_true.mp hcjk
      exact .inr (.inr ⟨ender, hmem, hat, rfl⟩)
    · exact absurd h (Nat.lt_irrefl 0)

theorem sentenceCut_boundary (htext : IsUtf8 text) (h : sentenceCut text = some cut) :
    IsBoundary text cut := by
  obtain ⟨index, hindex, rfl⟩ := Option.map_eq_some_iff.mp h
  have hpos : 0 < sentenceEndLength text index := by simpa using List.find?_some hindex
  rcases sentenceEndLength_cases hpos with
    ⟨ch, run, after, rest, -, -, hcloses, hdrop, hlength⟩ | ⟨hline, hlength⟩ |
      ⟨ender, hender, hat, hlength⟩
  · have hafter : text[index + (run.length + 1)]? = some after := by
      rw [← List.getElem?_drop, hdrop, List.getElem?_cons_succ,
        List.getElem?_append_right le_rfl, Nat.sub_self, List.getElem?_cons_zero]
    rw [hlength]
    exact (htext.isBoundary_ascii hafter (ascii_of_closesAfter hcloses)).1
  · rw [hlength]
    exact (htext.isBoundary_ascii hline (by decide)).2
  · obtain ⟨hcp, hthree⟩ := codepoint_cjkEnders ender hender
    rw [hlength, ← hthree]
    exact (htext.isBoundary_isAt hcp hat).2

theorem clauseCut_boundary (htext : IsUtf8 text) (h : clauseCut text = some cut) :
    IsBoundary text cut := by
  obtain ⟨index, hindex, rfl⟩ := Option.map_eq_some_iff.mp h
  have hbreak := findLast_holds hindex
  rw [Bool.and_eq_true, isClauseBreak] at hbreak
  replace hbreak := hbreak.2
  cases hdrop : text.drop index with
  | nil =>
    rw [hdrop] at hbreak
    cases hbreak
  | cons ch rest =>
    rw [hdrop] at hbreak
    dsimp only at hbreak
    have hch : text[index]? = some ch := by rw [← List.head?_drop, hdrop, List.head?_cons]
    have hget : text.getD index 0 = ch := by
      rw [List.getD_eq_getElem?_getD, hch, Option.getD_some]
    rw [hget]
    split_ifs at hbreak ⊢ with hascii
    · exact (htext.isBoundary_ascii hch (ascii_of_isAsciiBreak hascii)).2
    · obtain ⟨mark, hmark, hat⟩ := List.any_eq_true.mp hbreak
      obtain ⟨hcp, hthree⟩ := codepoint_cjkBreaks mark hmark
      rw [← hthree]
      exact (htext.isBoundary_isAt hcp hat).2

theorem space_boundary (htext : IsUtf8 text) {bound space : ℕ}
    (h : rfindByte text 0x20 bound = some space) : IsBoundary text space :=
  (htext.isBoundary_ascii (rfindByte_spec h).1 (by decide)).1

theorem wordCut_boundary (htext : IsUtf8 text) (h : wordCut text = some cut) :
    IsBoundary text cut :=
  space_boundary htext (Option.filter_eq_some_iff.mp h).1

theorem forcedCut_cases (limit : ℕ) (text : Bytes) :
    rfindByte text 0x20 (limit + 1) = some (forcedCut limit text) ∨
      forcedCut limit text = limit ∧ ∀ i, 0 < i → i ≤ limit → text[i]? ≠ some 0x20 := by
  have hbound : ∀ {i : ℕ}, i ≤ limit → text[i]? = some 0x20 → i < min (limit + 1) text.length := by
    intro i hi hspace
    have hlt := (List.getElem?_eq_some_iff.mp hspace).1
    omega
  rw [forcedCut]
  cases hfind : rfindByte text 0x20 (limit + 1) with
  | none =>
    refine .inr ⟨rfl, fun i _ hi hspace => ?_⟩
    have hnone := findLast_none hfind (hbound hi hspace)
    exact absurd hspace (of_decide_eq_false hnone)
  | some space =>
    by_cases hpos : 0 < space
    · rw [Option.filter_some, if_pos (decide_eq_true hpos)]
      exact .inl rfl
    · rw [Option.filter_some, if_neg (by simpa using hpos)]
      refine .inr ⟨rfl, fun i hi hle hspace => ?_⟩
      have hlast := findLast_max hfind (by omega) (hbound hle hspace)
      exact absurd hspace (of_decide_eq_false hlast)

/-- No rule finds a place to cut up to the limit, and the limit lies inside a character. -/
structure CutsInside (s : SentenceSegmenter) : Prop extends RunsOn s where
  space : ∀ i, 0 < i → i ≤ s.options.maxSegmentChars → s.pending[i]? ≠ some 0x20
  inside : ∃ ch ∈ s.pending[s.options.maxSegmentChars]?, isUtf8Continuation ch = true

theorem cut_boundary (hs : IsUtf8 s.pending) (hcut : s.cut = some cut) (hinside : ¬ s.CutsInside) :
    IsBoundary s.pending cut := by
  rcases cut_cases hcut with hsentence | hclause | hword | ⟨hruns, rfl⟩
  · exact sentenceCut_boundary hs hsentence
  · exact clauseCut_boundary hs hclause
  · exact wordCut_boundary hs hword
  · rcases forcedCut_cases s.options.maxSegmentChars s.pending with hspace | ⟨hlimit, hnone⟩
    · exact space_boundary hs hspace
    · have hlong : s.options.maxSegmentChars ≤ s.pending.length := by
        rw [cut_of_runsOn hruns, limitRule] at hcut
        split at hcut
        · assumption
        · cases hcut
      rw [hlimit]
      refine hs.isBoundary hlong fun ch hch => ?_
      by_contra hcontinuation
      rw [Bool.not_eq_false] at hcontinuation
      exact hinside ⟨hruns, hnone, ch, hch, hcontinuation⟩

theorem CutsInside.cut_eq (h : s.CutsInside) : s.cut = some s.options.maxSegmentChars := by
  obtain ⟨ch, hch, -⟩ := h.inside
  have hlt := (List.getElem?_eq_some_iff.mp hch).1
  rw [cut_of_runsOn h.toRunsOn, limitRule, if_pos hlt.le]
  rcases forcedCut_cases s.options.maxSegmentChars s.pending with hspace | ⟨hlimit, -⟩
  · obtain ⟨hat, hle⟩ := rfindByte_spec hspace
    have hpos := forcedCut_pos s.options.maxSegmentChars_pos s.pending
    exact absurd hat (h.space _ hpos (Nat.le_of_lt_succ hle))
  · rw [hlimit]

theorem mem_takeOne {segment : Bytes} (h : segment ∈ (s.takeOne cut).1) :
    segment = trimmed (s.pending.take cut) := by
  rw [takeOne] at h
  split at h
  · exact absurd h List.not_mem_nil
  · exact List.mem_singleton.mp h

theorem CutsInside.segment (h : s.CutsInside) (hs : IsUtf8 s.pending) :
    ∃ segment ∈ (s.takeOne s.options.maxSegmentChars).1, ¬ IsUtf8 segment := by
  obtain ⟨ch, hch, hcontinuation⟩ := h.inside
  have htake := hs.take_of_continuation hch hcontinuation
  rw [← isUtf8_trimmed] at htake
  refine ⟨_, ?_, htake⟩
  rw [takeOne, if_neg]
  · exact List.mem_singleton_self _
  · intro hempty
    rw [List.isEmpty_iff.mp hempty] at htake
    exact htake .nil

/-! ## Segments of characters -/

theorem takeOne_utf8 (hs : IsUtf8 s.pending) (hcut : s.cut = some cut) (hinside : ¬ s.CutsInside) :
    (∀ segment ∈ (s.takeOne cut).1, IsUtf8 segment) ∧ IsUtf8 (s.takeOne cut).2.pending := by
  have hboundary := cut_boundary hs hcut hinside
  refine ⟨fun segment hsegment => ?_, ?_⟩
  · rw [mem_takeOne hsegment]
    exact hboundary.take.trimmed
  · rw [takeOne_pending]
    exact hboundary.drop

theorem Takes.utf8_iff (h : Takes s segments last) (hs : IsUtf8 s.pending) :
    ((∀ segment ∈ segments, IsUtf8 segment) ↔ ∀ t, Rounds s t → ¬ t.CutsInside) ∧
      ((∀ segment ∈ segments, IsUtf8 segment) → IsUtf8 last.pending) := by
  induction h with
  | @done s hcut =>
    refine ⟨iff_of_true (fun segment h => absurd h List.not_mem_nil) fun t ht hinside => ?_,
      fun _ => hs⟩
    cases ht with
    | here =>
      rw [hinside.cut_eq] at hcut
      cases hcut
    | later hcut' _ =>
      rw [hcut] at hcut'
      cases hcut'
  | @round s last cut segments hcut rest ih =>
    by_cases hinside : s.CutsInside
    · have hbad : ¬ ∀ segment ∈ (s.takeOne cut).1 ++ segments, IsUtf8 segment := by
        obtain rfl := Option.some.inj (hinside.cut_eq.symm.trans hcut)
        obtain ⟨segment, hsegment, hutf8⟩ := hinside.segment hs
        exact fun hall => hutf8 (hall segment (List.mem_append_left _ hsegment))
      exact ⟨iff_of_false hbad fun hall => hall s (.here s) hinside, fun hall => absurd hall hbad⟩
    · obtain ⟨hfirst, hpending⟩ := takeOne_utf8 hs hcut hinside
      obtain ⟨hiff, hlast⟩ := ih hpending
      have hsplit : (∀ segment ∈ (s.takeOne cut).1 ++ segments, IsUtf8 segment) ↔
          ∀ segment ∈ segments, IsUtf8 segment := by
        rw [List.forall_mem_append]
        exact and_iff_right hfirst
      rw [hsplit]
      refine ⟨hiff.trans ⟨fun hall t ht => ?_, fun hall t ht => hall t (.later hcut ht)⟩, hlast⟩
      cases ht with
      | here => exact hinside
      | later hcut' h =>
        obtain rfl := Option.some.inj (hcut.symm.trans hcut')
        exact hall t h

theorem feedAll_utf8_iff (hs : IsUtf8 s.pending) (hdeltas : ∀ delta ∈ deltas, IsUtf8 delta) :
    ((∀ segment ∈ (s.feedAll deltas).1, IsUtf8 segment) ↔ ∀ t, Visits s deltas t → ¬ t.CutsInside) ∧
      ((∀ segment ∈ (s.feedAll deltas).1, IsUtf8 segment) →
        IsUtf8 (s.feedAll deltas).2.pending) := by
  induction deltas generalizing s with
  | nil =>
    refine ⟨iff_of_true (fun segment h => absurd h List.not_mem_nil) fun t ht => ?_, fun _ => hs⟩
    cases ht
  | cons delta deltas ih =>
    obtain ⟨hdelta, hdeltas⟩ := List.forall_mem_cons.mp hdeltas
    obtain ⟨hiff, hpending⟩ := (takes_feed s delta).utf8_iff (hs.append hdelta)
    have hvisits : (∀ t, Visits s (delta :: deltas) t → ¬ t.CutsInside) ↔
        (∀ t, Rounds { s with pending := s.pending ++ delta } t → ¬ t.CutsInside) ∧
          ∀ t, Visits (s.feed delta).2 deltas t → ¬ t.CutsInside := by
      refine ⟨fun hall => ⟨fun t ht => hall t (.here ht), fun t ht => hall t (.later ht)⟩, ?_⟩
      rintro ⟨hhere, hlater⟩ t (ht | ht)
      · exact hhere t ht
      · exact hlater t ht
    rw [hvisits, feedAll, ← hiff]
    dsimp only
    rw [List.forall_mem_append]
    by_cases hfirst : ∀ segment ∈ (s.feed delta).1, IsUtf8 segment
    · obtain ⟨hrest, hlast⟩ := ih (hpending hfirst) hdeltas
      exact ⟨and_congr_right fun _ => hrest, fun hall => hlast hall.2⟩
    · exact ⟨iff_of_false (fun hall => hfirst hall.1) fun hall => hfirst hall.1,
        fun hall => absurd hall.1 hfirst⟩

/-- The segments of a text that arrives in whole characters are UTF-8 unless a cut at the limit
falls inside a character. -/
theorem segments_utf8_iff (options : SegmenterOptions) {deltas : List Bytes}
    (hdeltas : ∀ delta ∈ deltas, IsUtf8 delta) :
    (∀ segment ∈ ((new options).feedAll deltas).1 ++ [((new options).feedAll deltas).2.flush.1],
        IsUtf8 segment) ↔
      ∀ s, Visits (new options) deltas s → ¬ s.CutsInside := by
  obtain ⟨hiff, hpending⟩ := feedAll_utf8_iff (s := new options) .nil hdeltas
  rw [List.forall_mem_append, List.forall_mem_singleton, flush, isUtf8_trimmed, ← hiff]
  exact and_iff_left_of_imp hpending

def chatOptions : SegmenterOptions := ⟨24, 48, 300, longest_pos⟩

/-- A greeting in two deltas. -/
theorem segments_utf8_greeting :
    (∀ segment ∈ ((new chatOptions).feedAll [bytes "Hi", bytes "! 你好。"]).1 ++
        [((new chatOptions).feedAll [bytes "Hi", bytes "! 你好。"]).2.flush.1], IsUtf8 segment) ↔
      ∀ s, Visits (new chatOptions) [bytes "Hi", bytes "! 你好。"] s → ¬ s.CutsInside :=
  segments_utf8_iff chatOptions (by simp [isUtf8_bytes])

/-- A limit of four bytes falls inside the second ideograph. -/
theorem segments_utf8_fails : ¬ ∀ (options : SegmenterOptions) (deltas : List Bytes),
    (∀ delta ∈ deltas, IsUtf8 delta) →
      ∀ segment ∈ ((new options).feedAll deltas).1 ++ [((new options).feedAll deltas).2.flush.1],
        IsUtf8 segment := by
  intro h
  have hall := h ⟨24, 48, 4, by decide⟩ [encode ['好', '好']]
    (List.forall_mem_singleton.mpr (isUtf8_encode _))
  have hsegments : ((new ⟨24, 48, 4, by decide⟩).feedAll [encode ['好', '好']]).1 =
      [(encode ['好', '好']).take 4] := by decide
  have hcut : (encode ['好', '好'])[4]? = some 0xA5 := by decide
  rw [hsegments] at hall
  exact (isUtf8_encode _).take_of_continuation hcut (by decide) (hall _ List.mem_cons_self)

/-! ## Deltas -/

theorem not_isEnder_of_closesAfter (h : closesAfter ch = true) : isEnder ch = false := by
  revert ch
  apply forall_byte
  decide +kernel

theorem sentenceEndLength_run {run rest : Bytes} {after : UInt8}
    (hdrop : text.drop index = ch :: (run ++ after :: rest)) (hch : isEnder ch = true)
    (hrun : ∀ b ∈ run, isEnder b = true) (hafter : closesAfter after = true) :
    sentenceEndLength text index = run.length + 1 := by
  have htake : (run ++ after :: rest).takeWhile isEnder = run := by
    rw [List.takeWhile_append_of_pos hrun, List.takeWhile_cons_of_neg, List.append_nil]
    rw [not_isEnder_of_closesAfter hafter]
    exact Bool.false_ne_true
  rw [sentenceEndLength, hdrop]
  dsimp only
  rw [if_pos hch, htake, List.drop_left]
  exact if_pos hafter

theorem sentenceEndLength_line (h : text[index]? = some 0x0A) :
    sentenceEndLength text index = 1 := by
  rw [← List.head?_drop] at h
  rw [sentenceEndLength]
  cases hdrop : text.drop index with
  | nil =>
    rw [hdrop] at h
    cases h
  | cons ch rest =>
    rw [hdrop, List.head?_cons, Option.some.injEq] at h
    rw [h]
    rfl

theorem cjkEnders_bytes : ∀ ender ∈ cjkEnders, ∀ b ∈ ender, isEnder b = false ∧ b ≠ 0x0A := by
  decide +kernel

theorem sentenceEndLength_cjk {ender : Bytes} (hender : ender ∈ cjkEnders)
    (hat : isAt text index ender = true) : sentenceEndLength text index = 3 := by
  have hany : cjkEnders.any (isAt text index) = true := List.any_eq_true.mpr ⟨ender, hender, hat⟩
  obtain ⟨rest, hrest⟩ := List.isPrefixOf_iff_prefix.mp hat
  have hbytes := cjkEnders_bytes ender hender
  have hlength := (codepoint_cjkEnders ender hender).2
  cases ender with
  | nil => cases hlength
  | cons ch tail =>
    obtain ⟨hnot, hline⟩ := hbytes ch List.mem_cons_self
    rw [sentenceEndLength, ← hrest, List.cons_append]
    dsimp only
    rw [if_neg (by rw [hnot]; exact Bool.false_ne_true), if_neg (by simpa using hline), if_pos hany]

theorem isAt_append {needle : Bytes} (h : isAt text index needle = true) (hneedle : needle ≠ [])
    (behind : Bytes) : isAt (text ++ behind) index needle = true := by
  obtain ⟨rest, hrest⟩ := List.isPrefixOf_iff_prefix.mp h
  have hle : index ≤ text.length := by
    by_contra hlong
    rw [List.drop_eq_nil_of_le (by omega), List.append_eq_nil_iff] at hrest
    exact hneedle hrest.1
  refine List.isPrefixOf_iff_prefix.mpr ⟨rest ++ behind, ?_⟩
  rw [List.drop_append_of_le_length hle, ← hrest, List.append_assoc]

section

variable (h : 0 < sentenceEndLength text index)
include h

theorem sentenceEndLength_append (behind : Bytes) :
    sentenceEndLength (text ++ behind) index = sentenceEndLength text index := by
  rcases sentenceEndLength_cases h with
    ⟨ch, run, after, rest, hch, hrun, hcloses, hdrop, hlength⟩ | ⟨hline, hlength⟩ |
      ⟨ender, hender, hat, hlength⟩
  · have hle : index ≤ text.length := by
      by_contra hlong
      rw [List.drop_eq_nil_of_le (by omega)] at hdrop
      cases hdrop
    have hlonger : (text ++ behind).drop index = ch :: (run ++ after :: (rest ++ behind)) := by
      rw [List.drop_append_of_le_length hle, hdrop, List.cons_append, List.append_assoc,
        List.cons_append]
    rw [hlength]
    exact sentenceEndLength_run hlonger hch hrun hcloses
  · rw [hlength]
    refine sentenceEndLength_line ?_
    rw [List.getElem?_append_left (List.getElem?_eq_some_iff.mp hline).1, hline]
  · rw [hlength]
    have hne := (codepoint_cjkEnders ender hender).1.isSpan.ne_nil
    exact sentenceEndLength_cjk hender (isAt_append hat hne behind)

theorem exists_not_isEnder : ∃ b ∈ text.drop index, isEnder b = false := by
  rcases sentenceEndLength_cases h with
    ⟨ch, run, after, rest, -, -, hcloses, hdrop, -⟩ | ⟨hline, -⟩ | ⟨ender, hender, hat, -⟩
  · refine ⟨after, ?_, not_isEnder_of_closesAfter hcloses⟩
    rw [hdrop]
    simp
  · rw [← List.head?_drop] at hline
    exact ⟨0x0A, List.mem_of_mem_head? hline, by decide⟩
  · obtain ⟨rest, hrest⟩ := List.isPrefixOf_iff_prefix.mp hat
    have hbytes := cjkEnders_bytes ender hender
    have hlength := (codepoint_cjkEnders ender hender).2
    cases ender with
    | nil => cases hlength
    | cons ch tail =>
      refine ⟨ch, ?_, (hbytes ch List.mem_cons_self).1⟩
      rw [← hrest]
      simp

theorem sentenceEnd_lt : index < text.length := by
  obtain ⟨b, hb, -⟩ := exists_not_isEnder h
  have hpos := List.length_pos_of_mem hb
  rw [List.length_drop] at hpos
  omega

end

theorem sentenceEndLength_earlier {earlier : ℕ} (hlt : earlier < index)
    (hindex : 0 < sentenceEndLength text index) (hearlier : sentenceEndLength text earlier = 0)
    (behind : Bytes) : sentenceEndLength (text ++ behind) earlier = 0 := by
  have hlength := sentenceEnd_lt hindex
  have hdrop : (text ++ behind).drop earlier = text.drop earlier ++ behind :=
    List.drop_append_of_le_length (by omega)
  have hsub : ∀ b ∈ text.drop index, b ∈ text.drop earlier := by
    intro b hb
    rw [show index = earlier + (index - earlier) by omega, ← List.drop_drop] at hb
    exact List.mem_of_mem_drop hb
  by_contra hpos
  rcases sentenceEndLength_cases (Nat.pos_of_ne_zero hpos) with
    ⟨ch, run, after, rest, hch, hrun, hcloses, hrest, -⟩ | ⟨hline, -⟩ | ⟨ender, hender, hat, -⟩
  · -- a run of enders up to the end of the text leaves no room for the later sentence end
    have hgrowing : ¬ ∀ b ∈ text.drop earlier, b ∈ ch :: run := by
      intro hall
      obtain ⟨b, hb, hnot⟩ := exists_not_isEnder hindex
      rcases List.mem_cons.mp (hall b (hsub b hb)) with rfl | hmem
      · rw [hch] at hnot
        cases hnot
      · rw [hrun b hmem] at hnot
        cases hnot
    rw [hdrop, ← List.cons_append] at hrest
    rcases List.append_eq_append_iff.mp hrest with ⟨more, hmore, -⟩ | ⟨more, hmore, hafter⟩
    · exact hgrowing fun b hb => hmore ▸ List.mem_append_left _ hb
    · cases more with
      | nil =>
        rw [List.append_nil] at hmore
        exact hgrowing fun b hb => hmore ▸ hb
      | cons next more =>
        rw [List.cons_append, List.cons.injEq] at hafter
        rw [← hafter.1, List.cons_append] at hmore
        rw [sentenceEndLength_run hmore hch hrun hcloses] at hearlier
        omega
  · rw [List.getElem?_append_left (by omega)] at hline
    rw [sentenceEndLength_line hline] at hearlier
    omega
  · -- a character that the text ends in does not hold a sentence end
    obtain ⟨rest, hrest⟩ := List.isPrefixOf_iff_prefix.mp hat
    rw [hdrop] at hrest
    rcases List.append_eq_append_iff.mp hrest with ⟨more, hmore, -⟩ | ⟨more, hmore, -⟩
    · have hhere : isAt text earlier ender = true :=
        List.isPrefixOf_iff_prefix.mpr ⟨more, hmore.symm⟩
      rw [sentenceEndLength_cjk hender hhere] at hearlier
      omega
    · have hbytes := cjkEnders_bytes ender hender
      have hthree := (codepoint_cjkEnders ender hender).2
      have hin : ∀ b ∈ text.drop index, b ∈ ender := fun b hb =>
        hmore ▸ List.mem_append_left _ (hsub b hb)
      rcases sentenceEndLength_cases hindex with
        ⟨ch, run, after, rest, hch, -, -, hrest, -⟩ | ⟨hline, -⟩ | ⟨other, hother, hat, -⟩
      · have hnot := (hbytes ch (hin ch (by rw [hrest]; simp))).1
        rw [hch] at hnot
        cases hnot
      · rw [← List.head?_drop] at hline
        exact (hbytes 0x0A (hin 0x0A (List.mem_of_mem_head? hline))).2 rfl
      · obtain ⟨rest, hrest⟩ := List.isPrefixOf_iff_prefix.mp hat
        have hlong := congrArg List.length hrest
        have hshort := congrArg List.length hmore
        rw [List.length_append, List.length_drop, (codepoint_cjkEnders other hother).2] at hlong
        rw [List.length_append, List.length_drop, hthree] at hshort
        omega

theorem sentenceCut_append (h : sentenceCut text = some cut) (behind : Bytes) :
    sentenceCut (text ++ behind) = some cut := by
  obtain ⟨index, hindex, rfl⟩ := Option.map_eq_some_iff.mp h
  obtain ⟨hpos, hmem, hfirst⟩ := List.find?_range_eq_some.mp hindex
  rw [decide_eq_true_eq] at hpos
  have hsame := sentenceEndLength_append hpos behind
  refine Option.map_eq_some_iff.mpr ⟨index, List.find?_range_eq_some.mpr ⟨?_, ?_, ?_⟩, ?_⟩
  · rw [hsame]
    exact decide_eq_true hpos
  · rw [List.mem_range] at hmem ⊢
    rw [List.length_append]
    omega
  · intro j hj
    have hnone : sentenceEndLength text j = 0 := by simpa using hfirst j hj
    rw [sentenceEndLength_earlier hj hpos hnone]
    rfl
  · rw [hsame]

theorem sentenceCut_le (h : sentenceCut text = some cut) : cut ≤ text.length := by
  obtain ⟨index, hindex, rfl⟩ := Option.map_eq_some_iff.mp h
  have hpos : 0 < sentenceEndLength text index := by simpa using List.find?_some hindex
  have hlt := sentenceEnd_lt hpos
  rcases sentenceEndLength_cases hpos with
    ⟨ch, run, after, rest, -, -, -, hdrop, hlength⟩ | ⟨-, hlength⟩ | ⟨ender, hender, hat, hlength⟩
  · have hdrop := congrArg List.length hdrop
    rw [List.length_drop, List.length_cons, List.length_append, List.length_cons] at hdrop
    omega
  · omega
  · obtain ⟨rest, hrest⟩ := List.isPrefixOf_iff_prefix.mp hat
    have hlong := congrArg List.length hrest
    rw [List.length_append, List.length_drop, (codepoint_cjkEnders ender hender).2] at hlong
    omega

/-- No text without a sentence end reaches the limit while the deltas are fed. -/
def StaysShort (s : SentenceSegmenter) (deltas : List Bytes) : Prop :=
  ∀ t, Visits s deltas t → sentenceCut t.pending = none →
    t.pending.length < s.options.maxSegmentChars

theorem cut_of_emitted (hemitted : s.firstSegmentEmitted = true)
    (hshort : sentenceCut s.pending = none → s.pending.length < s.options.maxSegmentChars) :
    s.cut = sentenceCut s.pending := by
  have hclause : s.clauseRule = none := by simp [clauseRule, hemitted]
  have hword : s.wordRule = none := by simp [wordRule, hemitted]
  rw [cut_eq, hclause, hword, Option.none_or, Option.none_or]
  cases hsentence : sentenceCut s.pending with
  | none =>
    have hlt := hshort hsentence
    rw [Option.none_or, limitRule, if_neg (by omega)]
  | some cut => rfl

theorem takeOne_emitted (h : s.firstSegmentEmitted = true) (cut : ℕ) :
    (s.takeOne cut).2.firstSegmentEmitted = true := by
  rw [takeOne]
  split
  · exact h
  · rfl

theorem Takes.emitted (h : Takes s segments last) (hemitted : s.firstSegmentEmitted = true) :
    last.firstSegmentEmitted = true := by
  induction h with
  | done hcut => exact hemitted
  | round hcut rest ih => exact ih (takeOne_emitted hemitted _)

theorem takeOne_append (hle : cut ≤ s.pending.length) (behind : Bytes) :
    takeOne { s with pending := s.pending ++ behind } cut =
      ((s.takeOne cut).1, { (s.takeOne cut).2 with
        pending := (s.takeOne cut).2.pending ++ behind }) := by
  rw [takeOne, takeOne]
  dsimp only
  rw [List.take_append_of_le_length hle, List.drop_append_of_le_length hle]
  split <;> rfl

theorem Takes.append (h : Takes s segments last) (hemitted : s.firstSegmentEmitted = true)
    (hshort : ∀ t, Rounds s t → sentenceCut t.pending = none →
      t.pending.length < s.options.maxSegmentChars) {behind : Bytes} {more : List Bytes}
    {final : SentenceSegmenter}
    (hmore : Takes { last with pending := last.pending ++ behind } more final) :
    Takes { s with pending := s.pending ++ behind } (segments ++ more) final := by
  induction h with
  | done hcut => exact hmore
  | @round s last cut segments hcut rest ih =>
    have hsentence := cut_of_emitted hemitted (hshort s (.here s))
    rw [hcut] at hsentence
    have happend := takeOne_append (sentenceCut_le hsentence.symm) behind
    have hcut' : SentenceSegmenter.cut { s with pending := s.pending ++ behind } = some cut := by
      rw [SentenceSegmenter.cut_eq]
      dsimp only
      rw [sentenceCut_append hsentence.symm, Option.some_or]
    have hlater := ih (takeOne_emitted hemitted cut) (fun t ht hnone => by
      rw [takeOne_options]
      exact hshort t (.later hcut ht) hnone) hmore
    have hround := Takes.round hcut' (by rw [happend]; exact hlater)
    rwa [happend, ← List.append_assoc] at hround

theorem Takes.unique {last' : SentenceSegmenter} {segments' : List Bytes}
    (h : Takes s segments last) (h' : Takes s segments' last') :
    segments = segments' ∧ last = last' := by
  induction h generalizing segments' with
  | done hcut =>
    cases h' with
    | done _ => exact ⟨rfl, rfl⟩
    | round hcut' _ =>
      rw [hcut] at hcut'
      cases hcut'
  | round hcut rest ih =>
    cases h' with
    | done hcut' =>
      rw [hcut'] at hcut
      cases hcut
    | round hcut' rest' =>
      obtain rfl := Option.some.inj (hcut.symm.trans hcut')
      obtain ⟨rfl, rfl⟩ := ih rest'
      exact ⟨rfl, rfl⟩

theorem feed_eq_of_takes {delta : Bytes}
    (h : Takes { s with pending := s.pending ++ delta } segments last) :
    s.feed delta = (segments, last) := by
  obtain ⟨hsegments, hlast⟩ := (takes_feed s delta).unique h
  exact Prod.ext hsegments hlast

theorem feedAll_eq_feed (hemitted : s.firstSegmentEmitted = true) (hdone : s.cut = none)
    (hshort : s.StaysShort deltas) : s.feedAll deltas = s.feed deltas.flatten := by
  induction deltas generalizing s with
  | nil =>
    refine (feed_eq_of_takes ?_).symm
    rw [List.flatten_nil, List.append_nil]
    exact .done hdone
  | cons delta deltas ih =>
    have htakes := takes_feed s delta
    have hrest := ih (htakes.emitted hemitted) htakes.cut_none fun t ht hnone => by
      rw [htakes.options_eq]
      exact hshort t (.later ht) hnone
    have hlater := takes_feed (s.feed delta).2 deltas.flatten
    rw [← hrest] at hlater
    refine (feed_eq_of_takes ?_).symm
    rw [List.flatten_cons]
    have hall := htakes.append hemitted (fun t ht hnone => hshort t (.here ht) hnone) hlater
    simpa only [List.append_assoc] using hall

theorem feedAll_done (h : s.cut = none) (deltas : List Bytes) :
    (s.feedAll deltas).2.cut = none := by
  induction deltas generalizing s with
  | nil => exact h
  | cons delta deltas ih => exact ih (feed_done s delta)

/-- Once the first segment is out, the segments of a text do not depend on the deltas it arrives
in. -/
theorem segments_of_deltas (options : SegmenterOptions) (earlier deltas : List Bytes)
    (hemitted : ((new options).feedAll earlier).2.firstSegmentEmitted = true)
    (hshort : ((new options).feedAll earlier).2.StaysShort deltas) :
    (((new options).feedAll earlier).2.feedAll deltas).1 ++
        [(((new options).feedAll earlier).2.feedAll deltas).2.flush.1] =
      (((new options).feedAll earlier).2.feed deltas.flatten).1 ++
        [(((new options).feedAll earlier).2.feed deltas.flatten).2.flush.1] := by
  have hdone : ((new options).feedAll earlier).2.cut = none :=
    feedAll_done (cut_of_empty rfl) earlier
  rw [feedAll_eq_feed hemitted hdone hshort]

theorem Rounds.length_le {t : SentenceSegmenter} (h : Rounds s t) :
    t.pending.length ≤ s.pending.length := by
  induction h with
  | here s => exact le_rfl
  | @later s t cut hcut h ih =>
    rw [takeOne_pending, List.length_drop] at ih
    omega

theorem Takes.length_le (h : Takes s segments last) : last.pending.length ≤ s.pending.length := by
  induction h with
  | done hcut => exact le_rfl
  | @round s last cut segments hcut rest ih =>
    rw [takeOne_pending, List.length_drop] at ih
    omega

theorem Visits.length_le {t : SentenceSegmenter} (h : Visits s deltas t) :
    t.pending.length ≤ s.pending.length + deltas.flatten.length := by
  induction h with
  | here h =>
    have hle := h.length_le
    dsimp only at hle
    rw [List.length_append] at hle
    rw [List.flatten_cons, List.length_append]
    omega
  | @later s t delta deltas h ih =>
    have hle := (takes_feed s delta).length_le
    dsimp only at hle
    rw [List.length_append] at hle
    rw [List.flatten_cons, List.length_append]
    omega

theorem staysShort_of_length
    (h : s.pending.length + deltas.flatten.length < s.options.maxSegmentChars) :
    s.StaysShort deltas :=
  fun _ ht _ => lt_of_le_of_lt ht.length_le h

/-- Three sentences that are cut in the middle of a number and of a run of enders. -/
theorem segments_of_deltas_pi :
    let s := ((new chatOptions).feedAll [bytes "Well. "]).2
    (s.feedAll [bytes "Pi is 3.", bytes "14. Re", bytes "ally?", bytes "! Yes"]).1 ++
        [(s.feedAll [bytes "Pi is 3.", bytes "14. Re", bytes "ally?", bytes "! Yes"]).2.flush.1] =
      (s.feed (bytes "Pi is 3.14. Really?! Yes")).1 ++
        [(s.feed (bytes "Pi is 3.14. Really?! Yes")).2.flush.1] :=
  segments_of_deltas chatOptions [bytes "Well. "]
    [bytes "Pi is 3.", bytes "14. Re", bytes "ally?", bytes "! Yes"] (by decide)
    (staysShort_of_length (by decide))

end FastTts.SentenceSegmenter
