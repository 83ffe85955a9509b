import FastTts.Bytes

/-!
# The sentence segmenter

`SentenceSegmenter` cuts the stream of reply text into what is spoken in one piece: whole
sentences, and before the first of them a clause or a few words. Each cut is at least one byte
long, so `take_ready` stops; its loop is run with the length of the pending text as fuel, which is
enough.
-/

namespace FastTts

/-- The source's options all have a positive `max_segment_chars`; with zero its loop would cut empty
segments for ever. -/
structure SegmenterOptions where
  firstSegmentMinChars : ℕ
  firstSegmentWordCutChars : ℕ
  maxSegmentChars : ℕ
  maxSegmentChars_pos : 0 < maxSegmentChars
  deriving DecidableEq

theorem longest_pos : 0 < 300 := by decide

structure SentenceSegmenter where
  options : SegmenterOptions
  pending : Bytes
  firstSegmentEmitted : Bool
  deriving DecidableEq

namespace SentenceSegmenter

def new (options : SegmenterOptions) : SentenceSegmenter := ⟨options, [], false⟩

def isEnder (ch : UInt8) : Bool := ch == 0x2E || ch == 0x21 || ch == 0x3F

/-- A space, a quote, a closing parenthesis or an asterisk may follow a sentence. -/
def closesAfter (ch : UInt8) : Bool :=
  isSpace ch || ch == 0x22 || ch == 0x27 || ch == 0x29 || ch == 0x2A

/-- 。 ！ ？ ； … -/
def cjkEnders : List Bytes :=
  [[0xE3, 0x80, 0x82], [0xEF, 0xBC, 0x81], [0xEF, 0xBC, 0x9F], [0xEF, 0xBC, 0x9B],
    [0xE2, 0x80, 0xA6]]

/-- The length of the sentence end at `index`, and `0` where no sentence ends. -/
def sentenceEndLength (text : Bytes) (index : ℕ) : ℕ :=
  match text.drop index with
  | [] => 0
  | ch :: rest =>
    if isEnder ch then
      -- A run that reaches the end of the text may still grow.
      let run := rest.takeWhile isEnder
      match rest.drop run.length with
      | [] => 0
      | after :: _ => if closesAfter after then run.length + 1 else 0
    else if ch == 0x0A then 1
    else if cjkEnders.any (isAt text index) then 3
    else 0

def isAsciiBreak (ch : UInt8) : Bool := ch == 0x2C || ch == 0x3B || ch == 0x3A

/-- 、 and ， -/
def cjkBreaks : List Bytes := [[0xE3, 0x80, 0x81], [0xEF, 0xBC, 0x8C]]

def isClauseBreak (text : Bytes) (index : ℕ) : Bool :=
  match text.drop index with
  | [] => false
  | ch :: rest =>
    if isAsciiBreak ch then rest.head?.all isSpace else cjkBreaks.any (isAt text index)

def minClauseChars : ℕ := 14

def sentenceCut (text : Bytes) : Option ℕ :=
  ((List.range text.length).find? fun index => decide (0 < sentenceEndLength text index)).map
    fun index => index + sentenceEndLength text index

/-- The end of the longest clause that is long enough. -/
def clauseCut (text : Bytes) : Option ℕ :=
  (findLast (fun index => decide (minClauseChars ≤ index) && isClauseBreak text index)
    text.length).map fun index => index + if isAsciiBreak (text.getD index 0) then 1 else 3

def wordCut (text : Bytes) : Option ℕ :=
  (rfindByte text 0x20 text.length).filter fun space => decide (minClauseChars ≤ space)

/-- A run-on is split at the last space up to the limit, or at the limit. -/
def forcedCut (limit : ℕ) (text : Bytes) : ℕ :=
  ((rfindByte text 0x20 (limit + 1)).filter fun space => decide (0 < space)).getD limit

def cut (s : SentenceSegmenter) : Option ℕ :=
  let opening := !s.firstSegmentEmitted
  sentenceCut s.pending
    <|> (if opening ∧ s.options.firstSegmentMinChars ≤ s.pending.length then
      clauseCut s.pending else none)
    <|> (if opening ∧ s.options.firstSegmentWordCutChars ≤ s.pending.length then
      wordCut s.pending else none)
    <|> (if s.options.maxSegmentChars ≤ s.pending.length then
      some (forcedCut s.options.maxSegmentChars s.pending) else none)

/-- One round of the loop: what is cut off, and the segmenter afterwards. -/
def takeOne (s : SentenceSegmenter) (cut : ℕ) : List Bytes × SentenceSegmenter :=
  let segment := trimmed (s.pending.take cut)
  if segment.isEmpty then ([], { s with pending := s.pending.drop cut })
  else ([segment], { s with pending := s.pending.drop cut, firstSegmentEmitted := true })

def takeReadyLoop : ℕ → SentenceSegmenter → List Bytes × SentenceSegmenter
  | 0, s => ([], s)
  | fuel + 1, s =>
    match s.cut with
    | none => ([], s)
    | some cut =>
      let next := takeReadyLoop fuel (s.takeOne cut).2
      ((s.takeOne cut).1 ++ next.1, next.2)

def takeReady (s : SentenceSegmenter) : List Bytes × SentenceSegmenter :=
  takeReadyLoop s.pending.length s

def feed (s : SentenceSegmenter) (delta : Bytes) : List Bytes × SentenceSegmenter :=
  takeReady { s with pending := s.pending ++ delta }

def flush (s : SentenceSegmenter) : Bytes × SentenceSegmenter :=
  (trimmed s.pending, { s with pending := [] })

/-! ## The loop stops -/

variable {text : Bytes} {cut : ℕ}

theorem sentenceCut_pos (h : sentenceCut text = some cut) : 0 < cut := by
  obtain ⟨index, hindex, rfl⟩ := Option.map_eq_some_iff.mp h
  have hlen := List.find?_some hindex
  simp only [decide_eq_true_eq] at hlen
  omega

theorem clauseCut_pos (h : clauseCut text = some cut) : 0 < cut := by
  obtain ⟨index, _, rfl⟩ := Option.map_eq_some_iff.mp h
  split <;> omega

theorem wordCut_pos (h : wordCut text = some cut) : 0 < cut := by
  have hmin := of_decide_eq_true (Option.filter_eq_some_iff.mp h).2
  rw [minClauseChars] at hmin
  omega

theorem forcedCut_pos {limit : ℕ} (hlimit : 0 < limit) (text : Bytes) :
    0 < forcedCut limit text := by
  rw [forcedCut]
  cases h : (rfindByte text 0x20 (limit + 1)).filter fun space => decide (0 < space) with
  | none => exact hlimit
  | some space => exact of_decide_eq_true (Option.filter_eq_some_iff.mp h).2

theorem cut_pos {s : SentenceSegmenter} (h : s.cut = some cut) : 0 < cut := by
  rw [SentenceSegmenter.cut] at h
  simp only [Option.orElse_eq_orElse, Option.orElse_eq_or, Option.or_eq_some_iff] at h
  rcases h with h | ⟨_, h | ⟨_, h | ⟨_, h⟩⟩⟩
  · exact sentenceCut_pos h
  · split at h
    · exact clauseCut_pos h
    · cases h
  · split at h
    · exact wordCut_pos h
    · cases h
  · split at h
    · cases h
      exact forcedCut_pos s.options.maxSegmentChars_pos s.pending
    · cases h

theorem cut_of_empty {s : SentenceSegmenter} (h : s.pending = []) : s.cut = none := by
  have hmax := s.options.maxSegmentChars_pos
  simp [SentenceSegmenter.cut, h, sentenceCut, clauseCut, wordCut, rfindByte, findLast]
  omega

theorem takeOne_pending (s : SentenceSegmenter) (cut : ℕ) :
    (s.takeOne cut).2.pending = s.pending.drop cut := by
  rw [takeOne]
  split <;> rfl

theorem takeReadyLoop_done (fuel : ℕ) (s : SentenceSegmenter) (h : s.pending.length ≤ fuel) :
    (takeReadyLoop fuel s).2.cut = none := by
  induction fuel generalizing s with
  | zero => exact cut_of_empty (List.eq_nil_of_length_eq_zero (Nat.le_zero.mp h))
  | succ fuel ih =>
    rw [takeReadyLoop]
    cases hcut : s.cut with
    | none => exact hcut
    | some cut =>
      have hpos := cut_pos hcut
      refine ih _ ?_
      rw [takeOne_pending, List.length_drop]
      omega

theorem feed_done (s : SentenceSegmenter) (delta : Bytes) : (s.feed delta).2.cut = none :=
  takeReadyLoop_done _ _ le_rfl

/-! ## Coverage -/

def inked (text : Bytes) : Bytes := text.filter fun ch => !isSpace ch

theorem inked_append (a b : Bytes) : inked (a ++ b) = inked a ++ inked b :=
  List.filter_append a b

theorem inked_eq_nil (h : ∀ ch ∈ text, isSpace ch = true) : inked text = [] := by
  rw [inked, List.filter_eq_nil_iff]
  intro ch hch
  simp [h ch hch]

theorem inked_trimmed (text : Bytes) : inked (trimmed text) = inked text := by
  have hright : ∀ l : Bytes, inked (l.rdropWhile isSpace) = inked l := by
    intro l
    have hspaces : inked (l.rtakeWhile isSpace) = [] :=
      inked_eq_nil fun ch hch => List.mem_rtakeWhile_imp hch
    have hsplit := inked_append (l.rdropWhile isSpace) (l.rtakeWhile isSpace)
    rw [List.rdropWhile_append_rtakeWhile, hspaces, List.append_nil] at hsplit
    exact hsplit.symm
  have hspaces : inked (text.takeWhile isSpace) = [] :=
    inked_eq_nil fun ch hch => List.mem_takeWhile_imp hch
  have hsplit := inked_append (text.takeWhile isSpace) (text.dropWhile isSpace)
  rw [List.takeWhile_append_dropWhile, hspaces, List.nil_append] at hsplit
  rw [trimmed, hright, hsplit]

/-- The rounds of `take_ready` until no rule cuts any more. -/
inductive Takes : SentenceSegmenter → List Bytes → SentenceSegmenter → Prop
  | done {s : SentenceSegmenter} (hcut : s.cut = none) : Takes s [] s
  | round {s last : SentenceSegmenter} {cut : ℕ} {segments : List Bytes} (hcut : s.cut = some cut)
      (rest : Takes (s.takeOne cut).2 segments last) : Takes s ((s.takeOne cut).1 ++ segments) last

theorem takes_loop (fuel : ℕ) (s : SentenceSegmenter) (h : s.pending.length ≤ fuel) :
    Takes s (takeReadyLoop fuel s).1 (takeReadyLoop fuel s).2 := by
  induction fuel generalizing s with
  | zero => exact .done (cut_of_empty (List.eq_nil_of_length_eq_zero (Nat.le_zero.mp h)))
  | succ fuel ih =>
    rw [takeReadyLoop]
    cases hcut : s.cut with
    | none => exact .done hcut
    | some cut =>
      have hpos := cut_pos hcut
      refine .round hcut (ih _ ?_)
      rw [takeOne_pending, List.length_drop]
      omega

section

variable (s : SentenceSegmenter) (cut : ℕ)

theorem inked_takeOne :
    inked (s.takeOne cut).1.flatten ++ inked (s.takeOne cut).2.pending = inked s.pending := by
  have hsegment : inked (s.takeOne cut).1.flatten = inked (s.pending.take cut) := by
    rw [← inked_trimmed (s.pending.take cut), takeOne]
    split
    · next hempty =>
      rw [List.isEmpty_iff.mp hempty]
      rfl
    · rw [List.flatten_singleton]
  rw [hsegment, takeOne_pending, ← inked_append, List.take_append_drop]

theorem takeOne_nonempty : ∀ segment ∈ (s.takeOne cut).1, segment ≠ [] := by
  intro segment hsegment
  rw [takeOne] at hsegment
  split at hsegment
  · exact absurd hsegment List.not_mem_nil
  · next hempty =>
    rw [List.mem_singleton.mp hsegment]
    exact fun h => hempty (List.isEmpty_iff.mpr h)

theorem takeOne_options : (s.takeOne cut).2.options = s.options := by
  rw [takeOne]
  split <;> rfl

end

theorem length_of_cut_none {s : SentenceSegmenter} (h : s.cut = none) :
    s.pending.length < s.options.maxSegmentChars := by
  by_contra hlong
  rw [SentenceSegmenter.cut] at h
  simp only [Option.orElse_eq_orElse, Option.orElse_eq_or, Option.or_eq_none_iff] at h
  obtain ⟨-, -, -, hforced⟩ := h
  rw [if_pos (Nat.le_of_not_lt hlong)] at hforced
  cases hforced

namespace Takes

variable {s last : SentenceSegmenter} {segments : List Bytes} (h : Takes s segments last)
include h

theorem inked_eq : inked segments.flatten ++ inked last.pending = inked s.pending := by
  induction h with
  | done hcut => rfl
  | @round s last cut segments hcut rest ih =>
    rw [List.flatten_append, inked_append, List.append_assoc, ih, inked_takeOne]

theorem nonempty : ∀ segment ∈ segments, segment ≠ [] := by
  induction h with
  | done hcut => exact fun segment hsegment => absurd hsegment List.not_mem_nil
  | round hcut rest ih =>
    intro segment hsegment
    rcases List.mem_append.mp hsegment with hfirst | hrest
    · exact takeOne_nonempty _ _ segment hfirst
    · exact ih segment hrest

theorem options_eq : last.options = s.options := by
  induction h with
  | done hcut => rfl
  | round hcut rest ih => rw [ih, takeOne_options]

theorem cut_none : last.cut = none := by
  induction h with
  | done hcut => exact hcut
  | round hcut rest ih => exact ih

end Takes

/-- All deltas of a reply: what is emitted, and the segmenter after them. -/
def feedAll (s : SentenceSegmenter) : List Bytes → List Bytes × SentenceSegmenter
  | [] => ([], s)
  | delta :: deltas =>
    let next := feedAll (s.feed delta).2 deltas
    ((s.feed delta).1 ++ next.1, next.2)

section

variable (s : SentenceSegmenter)

theorem takes_feed (delta : Bytes) :
    Takes { s with pending := s.pending ++ delta } (s.feed delta).1 (s.feed delta).2 :=
  takes_loop _ _ le_rfl

theorem feedAll_inked (deltas : List Bytes) :
    inked (s.feedAll deltas).1.flatten ++ inked (s.feedAll deltas).2.pending =
      inked s.pending ++ inked deltas.flatten := by
  induction deltas generalizing s with
  | nil => exact (List.append_nil _).symm
  | cons delta deltas ih =>
    have hfeed := (takes_feed s delta).inked_eq
    rw [inked_append] at hfeed
    rw [feedAll, List.flatten_append, inked_append, List.append_assoc, ih, ← List.append_assoc,
      hfeed, List.flatten_cons, inked_append, List.append_assoc]

theorem feedAll_nonempty (deltas : List Bytes) :
    ∀ segment ∈ (s.feedAll deltas).1, segment ≠ [] := by
  induction deltas generalizing s with
  | nil => exact fun segment hsegment => absurd hsegment List.not_mem_nil
  | cons delta deltas ih =>
    intro segment hsegment
    rcases List.mem_append.mp hsegment with hfirst | hrest
    · exact (takes_feed s delta).nonempty segment hfirst
    · exact ih _ segment hrest

theorem feed_pending_lt (delta : Bytes) :
    (s.feed delta).2.pending.length < s.options.maxSegmentChars := by
  have h := takes_feed s delta
  have hlt := length_of_cut_none h.cut_none
  rwa [h.options_eq] at hlt

theorem feedAll_options (deltas : List Bytes) : (s.feedAll deltas).2.options = s.options := by
  induction deltas generalizing s with
  | nil => rfl
  | cons delta deltas ih => exact (ih _).trans (takes_feed s delta).options_eq

end

/-- Every call of `feed` stops below the limit, and the segments with the flushed rest are the text
of the deltas. -/
theorem segments_cover (options : SegmenterOptions) (deltas : List Bytes) :
    inked (((new options).feedAll deltas).1 ++ [((new options).feedAll deltas).2.flush.1]).flatten =
        inked deltas.flatten ∧
      (∀ segment ∈ ((new options).feedAll deltas).1, segment ≠ []) ∧
      ∀ delta, Takes
          { ((new options).feedAll deltas).2 with
            pending := ((new options).feedAll deltas).2.pending ++ delta }
          (((new options).feedAll deltas).2.feed delta).1
          (((new options).feedAll deltas).2.feed delta).2 ∧
        (((new options).feedAll deltas).2.feed delta).2.pending.length < options.maxSegmentChars := by
  refine ⟨?_, feedAll_nonempty _ deltas, fun delta => ⟨takes_feed _ delta, ?_⟩⟩
  · have hall := feedAll_inked (new options) deltas
    rw [List.flatten_append, inked_append, List.flatten_singleton, flush, inked_trimmed, hall]
    rfl
  · have hlt := feed_pending_lt ((new options).feedAll deltas).2 delta
    rwa [feedAll_options] at hlt

end SentenceSegmenter

/-! ## Speech -/

def endsWithSentenceTerminal (text : Bytes) : Bool :=
  let text := text.rdropWhile SentenceSegmenter.closesAfter
  match text.getLast? with
  | none => false
  | some last => SentenceSegmenter.isEnder last ||
      [[0xE3, 0x80, 0x82], [0xEF, 0xBC, 0x81], [0xEF, 0xBC, 0x9F], [0xE2, 0x80, 0xA6]].any
        fun ender : Bytes => ender.isSuffixOf text

def isMarkup (ch : UInt8) : Bool := ch == 0x2A || ch == 0x23 || ch == 0x60

/-- What is spoken of a text, and whether it ends inside `*...*`. `skip` counts the bytes of a
pictograph that are still to be dropped. -/
def stripLoop : ℕ → Bool → Bytes → Bytes × Bool
  | _, inAction, [] => ([], inAction)
  | skip + 1, inAction, _ :: rest => stripLoop skip inAction rest
  | 0, inAction, ch :: rest =>
    if ch == 0x2A then stripLoop 0 (!inAction) rest
    else if inAction then stripLoop 0 inAction rest
    else if ch == 0x23 || ch == 0x60 then stripLoop 0 inAction rest
    else if 0xF0 ≤ ch then stripLoop 3 inAction rest
    else match rest with
      | second :: _ :: _ =>
        if ch == 0xE2 && 0x98 ≤ second && second ≤ 0x9E || ch == 0xEF && second == 0xB8 then
          stripLoop 2 inAction rest
        else (ch :: (stripLoop 0 inAction rest).1, (stripLoop 0 inAction rest).2)
      | _ => (ch :: (stripLoop 0 inAction rest).1, (stripLoop 0 inAction rest).2)

/-- An unbalanced asterisk must not silence half of the text. -/
def stripSpeechMarkup (text : Bytes) : Bytes :=
  let (out, inAction) := stripLoop 0 false text
  let kept := text.filter fun ch => !isMarkup ch
  trimmed (if inAction && decide (out.length * 2 < kept.length) then kept else out)

end FastTts
