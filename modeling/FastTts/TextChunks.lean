import FastTts.Utf8Spans

/-!
# Text chunks

`split_text_chunks` in its four modes. The splitters work on the code points of the trimmed text, so
a substring is a slice of them, flattened; the byte offsets that the source keeps beside the
positions say the same and are left out. A range of units is here the list of these units.
-/

namespace FastTts.TextChunks

open Ranges Utf8Spans

structure WordRange where
  spanStart : ℕ
  spanEnd : ℕ
  sentenceBreak : Bool
  clauseBreak : Bool

structure TextUnit where
  spanStart : ℕ
  spanEnd : ℕ
  tag : Bool
  sentenceBreak : Bool

def WordRange.range (word : WordRange) : ℕ × ℕ := (word.spanStart, word.spanEnd)

def TextUnit.range (unit : TextUnit) : ℕ × ℕ := (unit.spanStart, unit.spanEnd)

def isAsciiSpace : Bytes → Bool
  | [ch] => isSpace ch
  | _ => false

variable (token : Bytes)

def isAsciiLineBreak : Bool := token == bytes "\n" || token == bytes "\r"

def isHorizontalAsciiSpace : Bool :=
  token == bytes " " || token == bytes "\t" || token == bytes "\x0c" || token == bytes "\x0b"

def isSentenceBreak : Bool :=
  token == bytes "." || token == bytes "!" || token == bytes "?" ||
    token == bytes "。" || token == bytes "！" || token == bytes "？"

def isClauseBreak : Bool :=
  token == bytes "," || token == bytes ";" || token == bytes ":" ||
    token == bytes "，" || token == bytes "、" || token == bytes "；" || token == bytes "："

def isTagOpen : Bool := token == bytes "[" || token == bytes "<"

def isTagClose (token opening : Bytes) : Bool :=
  (opening == bytes "[" && token == bytes "]") || (opening == bytes "<" && token == bytes ">")

/-! ## Words and units -/

/-- The words of the code points from position `pos` on. -/
def splitWordRangesFrom (pos : ℕ) (spans : List Bytes) : List WordRange :=
  match _hspans : spans.dropWhile isAsciiSpace with
  | [] => []
  | first :: tail =>
    let wordStart := pos + (spans.takeWhile isAsciiSpace).length
    let word := first :: tail.takeWhile fun cp => !isAsciiSpace cp
    let last := word.getLast (List.cons_ne_nil _ _)
    ⟨wordStart, wordStart + word.length, isSentenceBreak last, isClauseBreak last⟩ ::
      splitWordRangesFrom (wordStart + word.length) (tail.dropWhile fun cp => !isAsciiSpace cp)
termination_by spans.length
decreasing_by
  have hskip := (List.dropWhile_suffix isAsciiSpace (l := spans)).length_le
  have hword := (List.dropWhile_suffix (fun cp => !isAsciiSpace cp) (l := tail)).length_le
  rw [_hspans, List.length_cons] at hskip
  omega

def splitWordRanges (spans : List Bytes) : List WordRange := splitWordRangesFrom 0 spans

/-- What follows `previous` in its word: a tag and the end of a sentence end it too. -/
def wordTail (previous : Bytes) : List Bytes → List Bytes
  | [] => []
  | cp :: rest =>
    if isAsciiSpace cp || isTagOpen cp || isSentenceBreak previous then [] else cp :: wordTail cp rest

/-- What follows the first code point of a unit, and whether the unit is a tag. A tag that is never
closed is a word. -/
def unitTail (first : Bytes) (rest : List Bytes) : List Bytes × Bool :=
  if isTagOpen first then
    match rest.dropWhile fun cp => !isTagClose cp first with
    | close :: _ => ((rest.takeWhile fun cp => !isTagClose cp first) ++ [close], true)
    | [] => (rest.takeWhile fun cp => !isAsciiSpace cp && !isTagOpen cp, false)
  else (wordTail first rest, false)

def splitTagAwareUnitsFrom (pos : ℕ) (spans : List Bytes) : List TextUnit :=
  match _hspans : spans.dropWhile isAsciiSpace with
  | [] => []
  | first :: rest =>
    let unitStart := pos + (spans.takeWhile isAsciiSpace).length
    let unit := first :: (unitTail first rest).1
    let last := unit.getLast (List.cons_ne_nil _ _)
    let tag := (unitTail first rest).2
    ⟨unitStart, unitStart + unit.length, tag, !tag && isSentenceBreak last⟩ ::
      splitTagAwareUnitsFrom (unitStart + unit.length) (rest.drop (unitTail first rest).1.length)
termination_by spans.length
decreasing_by
  have hskip := (List.dropWhile_suffix isAsciiSpace (l := spans)).length_le
  rw [_hspans, List.length_cons] at hskip
  rw [List.length_drop]
  omega

def splitTagAwareUnits (spans : List Bytes) : List TextUnit := splitTagAwareUnitsFrom 0 spans

/-! ## The four splitters -/

/-- The code points from the start of the first range to the end of the last. -/
def rangeCodepoints (ranges : List (ℕ × ℕ)) : ℕ := (joined ranges).2 - (joined ranges).1

def joinRanges (spans : List Bytes) (ranges : List (ℕ × ℕ)) : Bytes :=
  trimmed (slice spans (joined ranges)).flatten

/-- The end behind the last break up to `hardEnd`, the first item apart. -/
def breakEnd {α : Type} (isBreak : α → Bool) (items : List α) (hardEnd : ℕ) : ℕ :=
  ((findLast (fun i => decide (1 ≤ i) && items[i]?.any isBreak) hardEnd).map (· + 1)).getD hardEnd

def chunkEnd {α : Type} (isSentenceEnd isClauseEnd : α → Bool) (items : List α) (hardEnd : ℕ) : ℕ :=
  if breakEnd isSentenceEnd items hardEnd = hardEnd then breakEnd isClauseEnd items hardEnd
  else breakEnd isSentenceEnd items hardEnd

/-- What the splitters do first. -/
def onTrimmed (split : Bytes → ℕ → Except String (List Bytes)) (text : Bytes)
    (codepointBudget : ℤ) : Except String (List Bytes) :=
  if codepointBudget ≤ 0 then .error "text chunk budget must be positive"
  else if (trimmed text).isEmpty then .ok []
  else split (trimmed text) codepointBudget.toNat

/-- The words of the chunk that starts with the first. -/
def defaultChunkEnd (budget : ℕ) (words : List WordRange) : ℕ :=
  let hardEnd := max 1 (fitting (fun ws => rangeCodepoints (ws.map WordRange.range)) budget words)
  if hardEnd < words.length ∧ 1 < hardEnd then
    chunkEnd WordRange.sentenceBreak WordRange.clauseBreak words hardEnd
  else hardEnd

def splitTextChunksDefault : Bytes → ℤ → Except String (List Bytes) :=
  onTrimmed fun text budget => do
    let spans ← splitUtf8Spans text "text chunk"
    if spans.length ≤ budget then
      return [text]
    let chunks := (packed (defaultChunkEnd budget) (splitWordRanges spans)).map fun words =>
      joinRanges spans (words.map WordRange.range)
    return chunks.filter fun chunk => !chunk.isEmpty

def unitRangeCodepoints (units : List TextUnit) : ℕ := rangeCodepoints (units.map TextUnit.range)

def appendPieceChunks (budget : ℕ) (sentence : List TextUnit) : List (List TextUnit) :=
  packed (fun units => max 1 (fitting unitRangeCodepoints budget units)) sentence

/-- The units of each chunk. A sentence above the budget is cut, the others are taken together as
long as they fit. -/
def sentenceChunks (budget : ℕ) : List (List TextUnit) → List (List TextUnit)
  | [] => []
  | sentence :: rest =>
    if budget < unitRangeCodepoints sentence then
      appendPieceChunks budget sentence ++ sentenceChunks budget rest
    else
      let more := fitting (fun ss => unitRangeCodepoints ss.flatten) budget (sentence :: rest) - 1
      (sentence :: rest.take more).flatten :: sentenceChunks budget (rest.drop more)
termination_by sentences => sentences.length
decreasing_by
  · exact Nat.lt_succ_self _
  · rw [List.length_drop, List.length_cons]
    omega

def splitTagAwareBody (text : Bytes) (budget : ℕ) : Except String (List Bytes) := do
  let spans ← splitUtf8Spans text "tag-aware text chunk"
  if spans.length ≤ budget then
    return [text]
  let sentences := splitAfter (fun unit _ => unit.sentenceBreak) [] (splitTagAwareUnits spans)
  let chunks := (sentenceChunks budget sentences).map fun units =>
    joinRanges spans (units.map TextUnit.range)
  return chunks.filter fun chunk => !chunk.isEmpty

/-- A parenthetical that the text starts with, and the text behind it. -/
def splitLeadingParentheticalControl (text : Bytes) : Option (Bytes × Bytes) :=
  if text.head? ≠ some 0x28 then none
  else
    let close := text.idxOf 0x29
    if text.length ≤ close + 1 then none
    else
      let control := trimmed (text.take (close + 1))
      let body := trimmed (text.drop (close + 1))
      if control.isEmpty || body.isEmpty then none else some (control, body)

def splitTextChunksTagAware : Bytes → ℤ → Except String (List Bytes) :=
  onTrimmed fun text budget =>
    match splitLeadingParentheticalControl text with
    | none => splitTagAwareBody text budget
    | some (control, body) => do
      let controlCodepoints ← utf8CodepointCount control "tag-aware leading text chunk tag"
      let chunks ← splitTagAwareBody body (max 1 (budget - controlCodepoints - 1))
      return chunks.map fun chunk => control ++ bytes " " ++ chunk

def japaneseChunkEnd (budget : ℕ) (spans : List Bytes) : ℕ :=
  let hardEnd := min spans.length budget
  if hardEnd < spans.length then chunkEnd isSentenceBreak isClauseBreak spans hardEnd else hardEnd

def japaneseChunks (budget : ℕ) (spans : List Bytes) : List (List Bytes) :=
  match _hspans : spans.dropWhile isAsciiSpace with
  | [] => []
  | first :: rest =>
    let more := japaneseChunkEnd budget (first :: rest) - 1
    (first :: rest.take more) :: japaneseChunks budget (rest.drop more)
termination_by spans.length
decreasing_by
  have hskip := (List.dropWhile_suffix isAsciiSpace (l := spans)).length_le
  rw [_hspans, List.length_cons] at hskip
  rw [List.length_drop]
  omega

def splitTextChunksJapanese : Bytes → ℤ → Except String (List Bytes) :=
  onTrimmed fun text budget => do
    let spans ← splitUtf8Spans text "Japanese text chunk"
    if spans.length ≤ budget then
      return [text]
    let chunks := (japaneseChunks budget spans).map fun chunk => trimmed chunk.flatten
    return chunks.filter fun chunk => !chunk.isEmpty

def appendEndlineChunk (chunk : Bytes) (budget : ℕ) : Except String (List Bytes) := do
  if chunk.isEmpty then
    return []
  let codepoints ← utf8CodepointCount chunk "endline text chunk"
  if codepoints ≤ budget then
    return [chunk]
  splitTextChunksJapanese chunk budget

def followedByLineEnd (rest : List Bytes) : Bool :=
  match rest.dropWhile isHorizontalAsciiSpace with
  | [] => true
  | next :: _ => isAsciiLineBreak next

def splitTextChunksEndline : Bytes → ℤ → Except String (List Bytes) :=
  onTrimmed fun text budget => do
    let spans ← splitUtf8Spans text "endline text chunk"
    let lines := splitAfter (fun cp rest => isSentenceBreak cp && followedByLineEnd rest) [] spans
    let chunks ← lines.mapM fun line => appendEndlineChunk (trimmed line.flatten) budget
    return chunks.flatten

inductive TextChunkMode
  | default
  | tagAware
  | japanese
  | endline
  deriving DecidableEq

def splitTextChunks (text : Bytes) (codepointBudget : ℤ) :
    TextChunkMode → Except String (List Bytes)
  | .tagAware => splitTextChunksTagAware text codepointBudget
  | .japanese => splitTextChunksJapanese text codepointBudget
  | .endline => splitTextChunksEndline text codepointBudget
  | .default => splitTextChunksDefault text codepointBudget

/-! ## Code points and bytes -/

variable {cp : Bytes} {spans piece : List Bytes} {α : Type} {budget : ℤ}

variable {b : UInt8} {first : Bytes} {single : List Bytes → Prop}

theorem isAsciiSpace_of_mem (h : IsSpan cp) (hb : b ∈ cp) : isSpace b = isAsciiSpace cp := by
  have hascii : ∀ b : UInt8, isSpace b = true → b ≤ 0x7F := forall_byte (by decide +kernel)
  cases hspace : isSpace b with
  | true =>
    rw [h.eq_singleton hb (hascii b hspace)]
    exact hspace.symm
  | false =>
    match cp, hb with
    | [ch], hb =>
      rw [← List.mem_singleton.mp hb]
      exact hspace.symm
    | _ :: _ :: _, _ => rfl

theorem trimmed_flatten (h : ∀ cp ∈ spans, IsSpan cp) :
    trimmed spans.flatten = (trim isAsciiSpace spans).flatten :=
  trim_flatten fun cp hcp => ⟨(h cp hcp).ne_nil, fun _ => isAsciiSpace_of_mem (h cp hcp)⟩

theorem flatten_eq_nil (h : ∀ cp ∈ spans, IsSpan cp) : spans.flatten = [] ↔ spans = [] := by
  rw [List.flatten_eq_nil_iff]
  constructor
  · intro hnil
    rw [List.eq_nil_iff_forall_not_mem]
    exact fun cp hcp => (h cp hcp).ne_nil (hnil cp hcp)
  · rintro rfl
    exact fun cp hcp => absurd hcp List.not_mem_nil

theorem filter_chunks {pieces : List (List Bytes)} (hne : ∀ piece ∈ pieces, piece ≠ [])
    (hspan : ∀ piece ∈ pieces, ∀ cp ∈ piece, IsSpan cp) :
    ((pieces.map List.flatten).filter fun chunk => !chunk.isEmpty) = pieces.map List.flatten := by
  rw [List.filter_eq_self]
  intro chunk hchunk
  obtain ⟨piece, hpiece, rfl⟩ := List.mem_map.mp hchunk
  rw [Bool.not_eq_true', List.isEmpty_eq_false_iff]
  exact fun hnil => hne piece hpiece ((flatten_eq_nil (hspan piece hpiece)).mp hnil)

/-! ## Words and units are ranges of the code points -/

theorem not_blank_of_dropWhile {p : Bytes → Bool} {tail : List Bytes}
    (h : spans.dropWhile p = first :: tail) : p first = false := by
  have hne : spans.dropWhile p ≠ [] := by
    rw [h]
    exact List.cons_ne_nil _ _
  have hhead := List.head_dropWhile_not p hne
  simpa only [h, List.head_cons, Bool.not_eq_true] using hhead

def IsWord (piece : List Bytes) : Prop := piece ≠ [] ∧ ∀ cp ∈ piece, isAsciiSpace cp = false

theorem splitWordRangesFrom_covers (pos : ℕ) (rest : List Bytes) (h : spans.drop pos = rest) :
    Covers isAsciiSpace spans pos ((splitWordRangesFrom pos rest).map WordRange.range) ∧
      ∀ word ∈ splitWordRangesFrom pos rest, IsWord (slice spans word.range) := by
  fun_induction splitWordRangesFrom pos rest with
  | case1 pos rest hrest =>
    refine ⟨.done ?_, fun word hword => absurd hword List.not_mem_nil⟩
    rw [h]
    exact List.dropWhile_eq_nil_iff.mp hrest
  | case2 pos rest first tail hrest wordStart word last ih =>
    have hsplit : spans.drop pos = rest.takeWhile isAsciiSpace ++
        (word ++ tail.dropWhile fun cp => !isAsciiSpace cp) := by
      rw [h, List.cons_append, List.takeWhile_append_dropWhile, ← hrest,
        List.takeWhile_append_dropWhile]
    obtain ⟨-, hslice, hbehind⟩ := slice_of_drop hsplit
    obtain ⟨hcovers, hwords⟩ := ih hbehind
    refine ⟨.next hsplit (fun cp hcp => List.mem_takeWhile_imp hcp) (List.cons_ne_nil _ _) hcovers,
      List.forall_mem_cons.mpr ⟨?_, hwords⟩⟩
    change IsWord (slice spans (wordStart, wordStart + word.length))
    rw [hslice]
    refine ⟨List.cons_ne_nil _ _, List.forall_mem_cons.mpr ⟨?_, fun cp hcp => ?_⟩⟩
    · exact not_blank_of_dropWhile hrest
    · have hholds := List.mem_takeWhile_imp hcp
      rwa [Bool.not_eq_true'] at hholds

/-! ### Tag-aware units -/

def IsTag : List Bytes → Prop
  | [] => False
  | opening :: rest => isTagOpen opening = true ∧ ∃ inner close, rest = inner ++ [close] ∧
    (∀ cp ∈ inner, isTagClose cp opening = false) ∧ isTagClose close opening = true

/-- A word that no tag and no sentence end cuts. -/
def IsTagWord : List Bytes → Prop
  | [] => False
  | first :: rest => IsWord (first :: rest) ∧ (∀ cp ∈ rest, isTagOpen cp = false) ∧
    (isTagOpen first = false → ∀ cp ∈ (first :: rest).dropLast, isSentenceBreak cp = false)

theorem wordTail_spec (previous : Bytes) (rest : List Bytes) :
    wordTail previous rest <+: rest ∧
      (∀ cp ∈ wordTail previous rest, isAsciiSpace cp = false ∧ isTagOpen cp = false) ∧
      ∀ cp ∈ (previous :: wordTail previous rest).dropLast, isSentenceBreak cp = false := by
  fun_induction wordTail previous rest with
  | case1 previous => simp
  | case2 previous cp rest hstop => simp
  | case3 previous cp rest hgo ih =>
    obtain ⟨hpart, hword, hbreak⟩ := ih
    simp only [Bool.or_eq_true, not_or, Bool.not_eq_true] at hgo
    refine ⟨(List.prefix_cons_inj cp).mpr hpart, List.forall_mem_cons.mpr ⟨hgo.1, hword⟩, ?_⟩
    rw [List.dropLast_cons_of_ne_nil (List.cons_ne_nil _ _)]
    exact List.forall_mem_cons.mpr ⟨hgo.2, hbreak⟩

theorem unitTail_spec (rest : List Bytes) (hfirst : isAsciiSpace first = false) :
    (unitTail first rest).1 <+: rest ∧
      (IsTag (first :: (unitTail first rest).1) ∨ IsTagWord (first :: (unitTail first rest).1)) := by
  rw [unitTail]
  by_cases hopen : isTagOpen first = true
  · rw [if_pos hopen]
    split
    · next close behind hclose =>
      refine ⟨⟨behind, ?_⟩, .inl ⟨hopen, _, close, rfl, fun cp hcp => ?_, ?_⟩⟩
      · rw [List.append_assoc, List.singleton_append, ← hclose, List.takeWhile_append_dropWhile]
      · have hholds := List.mem_takeWhile_imp hcp
        rwa [Bool.not_eq_true'] at hholds
      · exact (Bool.not_eq_false' _).mp (not_blank_of_dropWhile hclose)
    · refine ⟨List.takeWhile_prefix _, .inr ⟨⟨List.cons_ne_nil _ _, ?_⟩, ?_, ?_⟩⟩
      · refine List.forall_mem_cons.mpr ⟨hfirst, fun cp hcp => ?_⟩
        have hholds := List.mem_takeWhile_imp hcp
        simp only [Bool.and_eq_true, Bool.not_eq_true'] at hholds
        exact hholds.1
      · intro cp hcp
        have hholds := List.mem_takeWhile_imp hcp
        simp only [Bool.and_eq_true, Bool.not_eq_true'] at hholds
        exact hholds.2
      · exact fun hnot => absurd hopen (Bool.eq_false_iff.mp hnot)
  · rw [if_neg hopen]
    obtain ⟨hpart, hword, hbreak⟩ := wordTail_spec first rest
    refine ⟨hpart, .inr ⟨⟨List.cons_ne_nil _ _, ?_⟩, fun cp hcp => (hword cp hcp).2,
      fun _ => hbreak⟩⟩
    exact List.forall_mem_cons.mpr ⟨hfirst, fun cp hcp => (hword cp hcp).1⟩

theorem splitTagAwareUnitsFrom_covers (pos : ℕ) (rest : List Bytes) (h : spans.drop pos = rest) :
    Covers isAsciiSpace spans pos ((splitTagAwareUnitsFrom pos rest).map TextUnit.range) ∧
      ∀ unit ∈ splitTagAwareUnitsFrom pos rest,
        IsTag (slice spans unit.range) ∨ IsTagWord (slice spans unit.range) := by
  fun_induction splitTagAwareUnitsFrom pos rest with
  | case1 pos rest hrest =>
    refine ⟨.done ?_, fun unit hunit => absurd hunit List.not_mem_nil⟩
    rw [h]
    exact List.dropWhile_eq_nil_iff.mp hrest
  | case2 pos rest first tail hrest unitStart unit last tag ih =>
    obtain ⟨hpart, hunit⟩ := unitTail_spec tail (not_blank_of_dropWhile hrest)
    have htail : (unitTail first tail).1 ++ tail.drop (unitTail first tail).1.length = tail :=
      (List.prefix_append_drop hpart).symm
    have hsplit : spans.drop pos = rest.takeWhile isAsciiSpace ++
        (unit ++ tail.drop (unitTail first tail).1.length) := by
      rw [h, List.cons_append, htail, ← hrest, List.takeWhile_append_dropWhile]
    obtain ⟨-, hslice, hbehind⟩ := slice_of_drop hsplit
    obtain ⟨hcovers, hunits⟩ := ih hbehind
    refine ⟨.next hsplit (fun cp hcp => List.mem_takeWhile_imp hcp) (List.cons_ne_nil _ _) hcovers,
      List.forall_mem_cons.mpr ⟨?_, hunits⟩⟩
    change IsTag (slice spans (unitStart, unitStart + unit.length)) ∨
      IsTagWord (slice spans (unitStart, unitStart + unit.length))
    rw [hslice]
    exact hunit

/-! ## Chunks of words and of units -/

/-- It begins and ends with something else than a blank. -/
def Solid (piece : List Bytes) : Prop :=
  (∃ cp ∈ piece, isAsciiSpace cp = false) ∧ trim isAsciiSpace piece = piece

theorem IsWord.solid (h : IsWord piece) : Solid piece := by
  obtain ⟨hne, hword⟩ := h
  refine ⟨⟨piece.head hne, List.head_mem hne, hword _ (List.head_mem hne)⟩, trim_eq_self ?_ ?_⟩
  · exact fun cp hcp => hword cp (List.mem_of_mem_head? hcp)
  · exact fun cp hcp => hword cp (List.mem_of_mem_getLast? hcp)

theorem not_blank_of_isTagOpen (h : isTagOpen cp = true) : isAsciiSpace cp = false := by
  rw [isTagOpen, Bool.or_eq_true, beq_iff_eq, beq_iff_eq] at h
  rcases h with rfl | rfl <;> decide

theorem not_blank_of_isTagClose {opening : Bytes} (h : isTagClose cp opening = true) :
    isAsciiSpace cp = false := by
  simp only [isTagClose, Bool.or_eq_true, Bool.and_eq_true, beq_iff_eq] at h
  rcases h with ⟨-, rfl⟩ | ⟨-, rfl⟩ <;> decide

theorem IsTag.solid (h : IsTag piece) : Solid piece := by
  cases piece with
  | nil => exact absurd h id
  | cons opening rest =>
    obtain ⟨hopen, inner, close, rfl, -, hclose⟩ := h
    have hfirst := not_blank_of_isTagOpen hopen
    refine ⟨⟨opening, List.mem_cons_self, hfirst⟩, trim_eq_self ?_ ?_⟩
    · rintro cp ⟨⟩
      exact hfirst
    · intro cp hcp
      rw [← List.cons_append, List.getLast?_concat] at hcp
      cases hcp
      exact not_blank_of_isTagClose hclose

theorem IsTagWord.isWord (h : IsTagWord piece) : IsWord piece := by
  cases piece with
  | nil => exact absurd h id
  | cons first rest => exact h.1

theorem joinRanges_keeps {range : α → ℕ × ℕ} {groups : List (List α)} {budget : ℕ}
    (hspans : ∀ cp ∈ spans, IsSpan cp) (hne : ∀ g ∈ groups, g ≠ [])
    (hcovers : Covers isAsciiSpace spans 0 (groups.flatten.map range))
    (hsingle : ∀ x ∈ groups.flatten, single (slice spans (range x)))
    (hsolid : ∀ piece, single piece → Solid piece)
    (hfit : ∀ g ∈ groups, (∃ x, g = [x]) ∨ rangeCodepoints (g.map range) ≤ budget) :
    ∃ pieces, ((groups.map fun g => joinRanges spans (g.map range)).filter
        fun chunk => !chunk.isEmpty) = pieces.map List.flatten ∧
      Kept isAsciiSpace single budget spans pieces := by
  have hflatten : (groups.map (List.map range)).flatten = groups.flatten.map range :=
    List.map_flatten.symm
  have hunit : ∀ r ∈ (groups.map (List.map range)).flatten, single (slice spans r) := by
    rw [hflatten]
    exact List.forall_mem_map.mpr hsingle
  have hkept : Kept isAsciiSpace single budget (spans.drop 0) ((groups.map (List.map range)).map
      fun g => trim isAsciiSpace (slice spans (joined g))) := by
    refine Covers.kept ?_ (fun r hr => (hsolid _ (hunit r hr)).1) (fun r hr => ?_) ?_ ?_
    · refine List.forall_mem_map.mpr fun g hg => ?_
      rw [Ne, List.map_eq_nil_iff]
      exact hne g hg
    · rw [(hsolid _ (hunit r hr)).2]
      exact hunit r hr
    · refine List.forall_mem_map.mpr fun g hg => ?_
      rcases hfit g hg with ⟨x, rfl⟩ | hbudget
      · exact .inl ⟨range x, rfl⟩
      · exact .inr hbudget
    · rwa [hflatten]
  rw [List.drop_zero, List.map_map] at hkept
  refine ⟨_, ?_, hkept⟩
  rw [← filter_chunks hkept.ne_nil fun piece hpiece cp hcp =>
    hspans cp (hkept.subset piece hpiece cp hcp), List.map_map]
  congr 1
  refine List.map_congr_left fun g _ => ?_
  exact trimmed_flatten fun cp hcp => hspans cp (slice_subset spans _ cp hcp)

theorem breakEnd_le (isBreak : α → Bool) (items : List α) (hardEnd : ℕ) :
    breakEnd isBreak items hardEnd ≤ hardEnd := by
  rw [breakEnd]
  cases hfound : findLast (fun i => decide (1 ≤ i) && items[i]?.any isBreak) hardEnd with
  | none => exact le_rfl
  | some i => exact findLast_lt hfound

theorem chunkEnd_le (isSentenceEnd isClauseEnd : α → Bool) (items : List α) (hardEnd : ℕ) :
    chunkEnd isSentenceEnd isClauseEnd items hardEnd ≤ hardEnd := by
  rw [chunkEnd]
  split
  · exact breakEnd_le _ _ _
  · exact breakEnd_le _ _ _

theorem defaultChunkEnd_le (budget : ℕ) (words : List WordRange) :
    defaultChunkEnd budget words ≤
      max 1 (fitting (fun ws => rangeCodepoints (ws.map WordRange.range)) budget words) := by
  rw [defaultChunkEnd]
  split
  · exact chunkEnd_le _ _ _ _
  · exact le_rfl

theorem splitWordRanges_keeps (hspans : ∀ cp ∈ spans, IsSpan cp) (budget : ℕ) :
    ∃ pieces, (((packed (defaultChunkEnd budget) (splitWordRanges spans)).map fun words =>
        joinRanges spans (words.map WordRange.range)).filter fun chunk => !chunk.isEmpty) =
          pieces.map List.flatten ∧ Kept isAsciiSpace IsWord budget spans pieces := by
  obtain ⟨hcovers, hwords⟩ := splitWordRangesFrom_covers 0 spans (List.drop_zero (l := spans))
  rw [← splitWordRanges, ← flatten_packed (defaultChunkEnd budget) (splitWordRanges spans)]
    at hcovers hwords
  refine joinRanges_keeps hspans (forall_packed (fun _ _ => List.cons_ne_nil _ _) _) hcovers hwords
    (fun _ => IsWord.solid) (forall_packed (fun word rest => ?_) _)
  exact (single_or_fits (defaultChunkEnd_le budget (word :: rest))).imp_left fun h => ⟨word, h⟩

theorem sentenceChunks_spec (budget : ℕ) {sentences : List (List TextUnit)}
    (hne : ∀ sentence ∈ sentences, sentence ≠ []) :
    (sentenceChunks budget sentences).flatten = sentences.flatten ∧
      ∀ units ∈ sentenceChunks budget sentences,
        units ≠ [] ∧ ((∃ unit, units = [unit]) ∨ unitRangeCodepoints units ≤ budget) := by
  fun_induction sentenceChunks budget sentences with
  | case1 => exact ⟨rfl, fun units hunits => absurd hunits List.not_mem_nil⟩
  | case2 sentence rest hlong ih =>
    obtain ⟨hflatten, hrest⟩ := ih fun s hs => hne s (List.mem_cons_of_mem _ hs)
    have hpieces : (appendPieceChunks budget sentence).flatten = sentence := flatten_packed _ _
    refine ⟨?_, List.forall_mem_append.mpr ⟨?_, hrest⟩⟩
    · rw [List.flatten_append, hpieces, hflatten, List.flatten_cons]
    · refine forall_packed (fun unit units => ⟨List.cons_ne_nil _ _, ?_⟩) sentence
      have hsize := le_refl (max 1 (fitting unitRangeCodepoints budget (unit :: units)))
      exact (single_or_fits hsize).imp_left fun h => ⟨unit, h⟩
  | case3 sentence rest hshort more ih =>
    obtain ⟨hflatten, hrest⟩ := ih fun s hs => hne s (List.mem_cons_of_mem _
      (List.mem_of_mem_drop hs))
    refine ⟨?_, List.forall_mem_cons.mpr ⟨⟨?_, .inr ?_⟩, hrest⟩⟩
    · rw [List.flatten_cons, hflatten, ← List.flatten_append, List.cons_append,
        List.take_append_drop]
    · rw [List.flatten_cons]
      exact List.append_ne_nil_of_left_ne_nil (hne sentence List.mem_cons_self) _
    · have hsize := le_max_right 1
        (fitting (fun ss => unitRangeCodepoints ss.flatten) budget (sentence :: rest))
      rcases single_or_fits hsize with hone | hfits
      · change unitRangeCodepoints (sentence :: rest.take (_ - 1)).flatten ≤ budget
        rw [hone, List.flatten_singleton]
        exact Nat.le_of_not_lt hshort
      · exact hfits

theorem splitTagAwareUnits_keeps (hspans : ∀ cp ∈ spans, IsSpan cp) (budget : ℕ) :
    ∃ pieces, (((sentenceChunks budget (splitAfter (fun unit _ => unit.sentenceBreak) []
        (splitTagAwareUnits spans))).map fun units =>
          joinRanges spans (units.map TextUnit.range)).filter fun chunk => !chunk.isEmpty) =
            pieces.map List.flatten ∧
      Kept isAsciiSpace (fun piece => IsTag piece ∨ IsTagWord piece) budget spans pieces := by
  obtain ⟨hcovers, hunits⟩ :=
    splitTagAwareUnitsFrom_covers 0 spans (List.drop_zero (l := spans))
  obtain ⟨hflatten, hgroups⟩ := sentenceChunks_spec budget
    (ne_nil_of_mem_splitAfter (fun unit _ => unit.sentenceBreak) [] (splitTagAwareUnits spans))
  rw [flatten_splitAfter, List.nil_append] at hflatten
  rw [← splitTagAwareUnits, ← hflatten] at hcovers hunits
  refine joinRanges_keeps hspans (fun g hg => (hgroups g hg).1) hcovers hunits ?_
    fun g hg => (hgroups g hg).2
  rintro piece (htag | hword)
  · exact htag.solid
  · exact hword.isWord.solid

/-! ## Chunks of code points and of lines -/

theorem japaneseChunkEnd_le (budget : ℕ) (spans : List Bytes) :
    japaneseChunkEnd budget spans ≤ budget := by
  rw [japaneseChunkEnd]
  split
  · exact (chunkEnd_le _ _ _ _).trans (min_le_right _ _)
  · exact min_le_right _ _

theorem japaneseChunks_keeps {budget : ℕ} (hbudget : 0 < budget) (spans : List Bytes) :
    Kept isAsciiSpace (fun _ => False) budget spans
      ((japaneseChunks budget spans).map (trim isAsciiSpace)) := by
  fun_induction japaneseChunks budget spans with
  | case1 spans hspans => exact .none (List.dropWhile_eq_nil_iff.mp hspans)
  | case2 spans first rest hspans more ih =>
    have hblank : Kept isAsciiSpace (fun _ => False) budget (spans.takeWhile isAsciiSpace) [] :=
      .none fun cp hcp => List.mem_takeWhile_imp hcp
    have hpiece : Kept isAsciiSpace (fun _ => False) budget (first :: rest.take more)
        [trim isAsciiSpace (first :: rest.take more)] := by
      refine .piece ?_ fun hlong => ?_
      · exact trim_ne_nil ⟨first, List.mem_cons_self, not_blank_of_dropWhile hspans⟩
      · have hle : (trim isAsciiSpace (first :: rest.take more)).length ≤
            (first :: rest.take more).length := length_trim_le _
        have hend := japaneseChunkEnd_le budget (first :: rest)
        rw [List.length_cons, List.length_take] at hle
        omega
    have happend := hblank.append (hpiece.append ih)
    rwa [List.cons_append, List.take_append_drop, ← hspans, List.takeWhile_append_dropWhile]
      at happend

theorem japaneseChunks_subset (budget : ℕ) (spans : List Bytes) :
    ∀ chunk ∈ japaneseChunks budget spans, ∀ cp ∈ chunk, cp ∈ spans := by
  fun_induction japaneseChunks budget spans with
  | case1 spans hspans => exact fun chunk hchunk => absurd hchunk List.not_mem_nil
  | case2 spans first rest hspans more ih =>
    have hrest : ∀ cp ∈ first :: rest, cp ∈ spans := by
      rw [← hspans]
      exact fun cp hcp => (List.dropWhile_suffix isAsciiSpace).subset hcp
    refine List.forall_mem_cons.mpr ⟨?_, fun chunk hchunk cp hcp => ?_⟩
    · refine List.forall_mem_cons.mpr ⟨hrest first List.mem_cons_self, fun cp hcp => ?_⟩
      exact hrest cp (List.mem_cons_of_mem _ (List.mem_of_mem_take hcp))
    · exact hrest cp (List.mem_cons_of_mem _ (List.mem_of_mem_drop (ih chunk hchunk cp hcp)))

/-- What a splitter keeps of every text. -/
def Keeps (split : Bytes → ℕ → Except String (List Bytes)) (single : List Bytes → Prop)
    (budget : ℕ) : Prop :=
  ∀ spans, (∀ cp ∈ spans, IsSpan cp) → (∃ cp ∈ spans, isAsciiSpace cp = false) →
    ∃ pieces, split spans.flatten budget = .ok (pieces.map List.flatten) ∧
      Kept isAsciiSpace single budget spans pieces

theorem trim_isSpan (hspans : ∀ cp ∈ spans, IsSpan cp) :
    ∀ cp ∈ trim isAsciiSpace spans, IsSpan cp :=
  fun cp hcp => hspans cp (trim_subset spans cp hcp)

theorem isEmpty_trimmed (hspans : ∀ cp ∈ spans, IsSpan cp) :
    (trimmed spans.flatten).isEmpty = true ↔ trim isAsciiSpace spans = [] := by
  rw [List.isEmpty_iff, trimmed_flatten hspans, flatten_eq_nil (trim_isSpan hspans)]

theorem onTrimmed_congr {split split' : Bytes → ℕ → Except String (List Bytes)} {text : Bytes}
    (h : split (trimmed text) budget.toNat = split' (trimmed text) budget.toNat) :
    onTrimmed split text budget = onTrimmed split' text budget := by
  rw [onTrimmed, onTrimmed, h]

theorem onTrimmed_keeps {split : Bytes → ℕ → Except String (List Bytes)} (hbudget : 0 < budget)
    (hsplit : Keeps split single budget.toNat) (hspans : ∀ cp ∈ spans, IsSpan cp) :
    ∃ pieces, onTrimmed split spans.flatten budget = .ok (pieces.map List.flatten) ∧
      Kept isAsciiSpace single budget.toNat spans pieces := by
  rw [onTrimmed, if_neg (Int.not_le.mpr hbudget)]
  by_cases htrim : trim isAsciiSpace spans = []
  · rw [if_pos ((isEmpty_trimmed hspans).mpr htrim)]
    exact ⟨[], rfl, .none (blank_of_trim_eq_nil htrim)⟩
  · rw [if_neg fun h => htrim ((isEmpty_trimmed hspans).mp h), trimmed_flatten hspans]
    obtain ⟨pieces, hresult, hkept⟩ := hsplit _ (trim_isSpan hspans) (shown_of_trim htrim)
    exact ⟨pieces, hresult, hkept.of_trim⟩

theorem splitTextChunksDefault_keeps (hbudget : 0 < budget) (hspans : ∀ cp ∈ spans, IsSpan cp) :
    ∃ pieces, splitTextChunksDefault spans.flatten budget = .ok (pieces.map List.flatten) ∧
      Kept isAsciiSpace IsWord budget.toNat spans pieces := by
  refine onTrimmed_keeps hbudget (fun spans hspans hshown => ?_) hspans
  dsimp only
  rw [splitUtf8Spans_flatten hspans]
  dsimp only [bind, Except.bind]
  split
  · next hlen => exact ⟨[spans], rfl, .whole hshown hlen⟩
  · obtain ⟨pieces, hchunks, hkept⟩ := splitWordRanges_keeps hspans budget.toNat
    rw [hchunks]
    exact ⟨pieces, rfl, hkept⟩

theorem splitTagAwareBody_keeps (budget : ℕ) :
    Keeps splitTagAwareBody (fun piece => IsTag piece ∨ IsTagWord piece) budget := by
  intro spans hspans hshown
  rw [splitTagAwareBody, splitUtf8Spans_flatten hspans]
  dsimp only [bind, Except.bind]
  split
  · next hlen => exact ⟨[spans], rfl, .whole hshown hlen⟩
  · obtain ⟨pieces, hchunks, hkept⟩ := splitTagAwareUnits_keeps hspans budget
    rw [hchunks]
    exact ⟨pieces, rfl, hkept⟩

theorem splitTextChunksJapanese_keeps (hbudget : 0 < budget) (hspans : ∀ cp ∈ spans, IsSpan cp) :
    ∃ pieces, splitTextChunksJapanese spans.flatten budget = .ok (pieces.map List.flatten) ∧
      Kept isAsciiSpace (fun _ => False) budget.toNat spans pieces := by
  refine onTrimmed_keeps hbudget (fun spans hspans hshown => ?_) hspans
  dsimp only
  rw [splitUtf8Spans_flatten hspans]
  dsimp only [bind, Except.bind]
  split
  · next hlen => exact ⟨[spans], rfl, .whole hshown hlen⟩
  · have hkept := japaneseChunks_keeps (Int.lt_toNat.mpr hbudget) spans
    refine ⟨_, congrArg Except.ok ?_, hkept⟩
    rw [← filter_chunks hkept.ne_nil fun piece hpiece cp hcp =>
      hspans cp (hkept.subset piece hpiece cp hcp), List.map_map]
    congr 1
    refine List.map_congr_left fun chunk hchunk => ?_
    exact trimmed_flatten fun cp hcp => hspans cp (japaneseChunks_subset _ _ chunk hchunk cp hcp)

theorem appendEndlineChunk_keeps {budget : ℕ} (hbudget : 0 < budget) {line : List Bytes}
    (hline : ∀ cp ∈ line, IsSpan cp) :
    ∃ pieces, appendEndlineChunk (trimmed line.flatten) budget = .ok (pieces.map List.flatten) ∧
      Kept isAsciiSpace (fun _ => False) budget line pieces := by
  have hspans := trim_isSpan hline
  rw [appendEndlineChunk]
  by_cases htrim : trim isAsciiSpace line = []
  · rw [if_pos ((isEmpty_trimmed hline).mpr htrim)]
    exact ⟨[], rfl, .none (blank_of_trim_eq_nil htrim)⟩
  · rw [if_neg fun h => htrim ((isEmpty_trimmed hline).mp h), trimmed_flatten hline,
      utf8CodepointCount_flatten hspans]
    dsimp only [bind, Except.bind]
    split
    · next hlen => exact ⟨[_], rfl, .piece htrim fun hlong => absurd hlong hlen.not_gt⟩
    · obtain ⟨pieces, hresult, hkept⟩ :=
        splitTextChunksJapanese_keeps (Int.natCast_pos.mpr hbudget) hspans
      exact ⟨pieces, hresult, hkept.of_trim⟩

theorem endlineChunks_keeps {budget : ℕ} (hbudget : 0 < budget) {lines : List (List Bytes)}
    (hlines : ∀ line ∈ lines, ∀ cp ∈ line, IsSpan cp) :
    ∃ chunks pieces, (lines.mapM fun line => appendEndlineChunk (trimmed line.flatten) budget) =
        .ok chunks ∧ chunks.flatten = pieces.map List.flatten ∧
      Kept isAsciiSpace (fun _ => False) budget lines.flatten pieces := by
  induction lines with
  | nil => exact ⟨[], [], rfl, rfl, .none fun cp hcp => absurd hcp List.not_mem_nil⟩
  | cons line lines ih =>
    obtain ⟨chunks, rest, hmap, hflatten, hrest⟩ :=
      ih fun l hl => hlines l (List.mem_cons_of_mem _ hl)
    obtain ⟨pieces, hline, hkept⟩ :=
      appendEndlineChunk_keeps hbudget (hlines line List.mem_cons_self)
    refine ⟨pieces.map List.flatten :: chunks, pieces ++ rest, ?_, ?_, hkept.append hrest⟩
    · rw [List.mapM_cons, hline, hmap]
      rfl
    · rw [List.flatten_cons, hflatten, List.map_append]

theorem splitTextChunksEndline_keeps (hbudget : 0 < budget) (hspans : ∀ cp ∈ spans, IsSpan cp) :
    ∃ pieces, splitTextChunksEndline spans.flatten budget = .ok (pieces.map List.flatten) ∧
      Kept isAsciiSpace (fun _ => False) budget.toNat spans pieces := by
  refine onTrimmed_keeps hbudget (fun spans hspans _ => ?_) hspans
  dsimp only
  rw [splitUtf8Spans_flatten hspans]
  dsimp only [bind, Except.bind]
  generalize hends : splitAfter _ [] spans = lines
  have hlines : lines.flatten = spans := by
    rw [← hends, flatten_splitAfter, List.nil_append]
  have hspan : ∀ line ∈ lines, ∀ cp ∈ line, IsSpan cp :=
    fun line hline cp hcp => hspans cp (hlines ▸ List.mem_flatten_of_mem hline hcp)
  obtain ⟨chunks, pieces, hmap, hflatten, hkept⟩ :=
    endlineChunks_keeps (Int.lt_toNat.mpr hbudget) hspan
  rw [hlines] at hkept
  refine ⟨pieces, ?_, hkept⟩
  rw [hmap, ← hflatten]
  rfl

/-! ## The leading parenthetical -/

/-- The text is a parenthetical, up to its first closing parenthesis, and a body. -/
def HasControl (spans control body : List Bytes) : Prop :=
  ∃ inner, bytes ")" ∉ inner ∧ control = bytes "(" :: (inner ++ [bytes ")"]) ∧
    trim isAsciiSpace spans = control ++ body ∧ body ≠ []

theorem not_mem_flatten (hspans : ∀ cp ∈ spans, IsSpan cp) (hascii : b ≤ 0x7F) (h : [b] ∉ spans) :
    b ∉ spans.flatten := by
  intro hb
  obtain ⟨cp, hcp, hb⟩ := List.mem_flatten.mp hb
  rw [(hspans cp hcp).eq_singleton hb hascii] at hcp
  exact h hcp

theorem control_text {inner body : List Bytes}
    (hspan : ∀ cp ∈ bytes "(" :: (inner ++ [bytes ")"]) ++ body, IsSpan cp)
    (hinner : bytes ")" ∉ inner) :
    (bytes "(" :: (inner ++ [bytes ")"]) ++ body).flatten =
        (0x28 :: (inner.flatten ++ [0x29])) ++ body.flatten ∧
      (bytes "(" :: (inner ++ [bytes ")"]) ++ body).flatten.idxOf 0x29 =
        inner.flatten.length + 1 := by
  have htext : (bytes "(" :: (inner ++ [bytes ")"]) ++ body).flatten =
      (0x28 :: (inner.flatten ++ [0x29])) ++ body.flatten := by
    rw [List.flatten_append, List.flatten_cons, List.flatten_append, List.flatten_singleton]
    rfl
  have hnot : (0x29 : UInt8) ∉ inner.flatten :=
    not_mem_flatten (fun cp hcp => hspan cp
      (List.mem_append_left _ (List.mem_cons_of_mem _ (List.mem_append_left _ hcp))))
      (by decide) hinner
  refine ⟨htext, ?_⟩
  rw [htext, List.cons_append, List.append_assoc, List.idxOf_cons_ne _ (by decide),
    List.idxOf_append_of_notMem hnot]
  rfl

theorem HasControl.split {control body : List Bytes} (hspans : ∀ cp ∈ spans, IsSpan cp)
    (h : HasControl spans control body) :
    trim isAsciiSpace body ≠ [] ∧
      splitLeadingParentheticalControl (trim isAsciiSpace spans).flatten =
        some (control.flatten, (trim isAsciiSpace body).flatten) := by
  obtain ⟨inner, hinner, rfl, htrim, hbody⟩ := h
  have hspan := trim_isSpan hspans
  rw [htrim] at hspan
  have hbodySpan : ∀ cp ∈ body, IsSpan cp := fun cp hcp => hspan cp (List.mem_append_right _ hcp)
  have hlast : trim isAsciiSpace body ≠ [] := by
    have hne : trim isAsciiSpace spans ≠ [] := by
      rw [htrim]
      exact List.append_ne_nil_of_right_ne_nil _ hbody
    refine trim_ne_nil ⟨body.getLast hbody, List.getLast_mem hbody, ?_⟩
    have hshown := List.rdropWhile_last_not isAsciiSpace _ hne
    change ¬ isAsciiSpace ((trim isAsciiSpace spans).getLast hne) = true at hshown
    simp only [htrim, List.getLast_append_of_right_ne_nil _ _ hbody] at hshown
    exact (Bool.not_eq_true _).mp hshown
  refine ⟨hlast, ?_⟩
  obtain ⟨htext, hclose⟩ := control_text hspan hinner
  have hlength : (0x28 :: (inner.flatten ++ [0x29])).length = inner.flatten.length + 1 + 1 := by
    rw [List.length_cons, List.length_append, List.length_singleton]
  have hbodyLength : 0 < body.flatten.length :=
    List.length_pos_of_ne_nil fun hnil => hbody ((flatten_eq_nil hbodySpan).mp hnil)
  rw [htrim, splitLeadingParentheticalControl, if_neg (by rw [htext]; exact fun hne => hne rfl),
    hclose, if_neg (by rw [htext, List.length_append, hlength]; omega), htext, ← hlength, List.take_left,
    List.drop_left, trimmed_of_ends (by decide) (by decide), trimmed_flatten hbodySpan]
  have hshown : (trim isAsciiSpace body).flatten.isEmpty = false := by
    rw [List.isEmpty_eq_false_iff]
    exact fun hnil => hlast ((flatten_eq_nil (trim_isSpan hbodySpan)).mp hnil)
  have hflatten : 0x28 :: (inner.flatten ++ [0x29]) =
      (bytes "(" :: (inner ++ [bytes ")"])).flatten := by
    rw [List.flatten_cons, List.flatten_append, List.flatten_singleton]
    rfl
  dsimp only
  rw [hshown, hflatten]
  exact if_neg (by rw [← hflatten]; exact Bool.false_ne_true)

theorem split_of_not_control (hspans : ∀ cp ∈ spans, IsSpan cp)
    (h : ∀ control body, ¬ HasControl spans control body) :
    splitLeadingParentheticalControl (trim isAsciiSpace spans).flatten = none := by
  have hspan := trim_isSpan hspans
  rw [splitLeadingParentheticalControl]
  by_cases hhead : (trim isAsciiSpace spans).flatten.head? ≠ some 0x28
  · rw [if_pos hhead]
  · rw [if_neg hhead]
    refine if_pos ?_
    rw [not_not] at hhead
    cases htrim : trim isAsciiSpace spans with
    | nil => exact Nat.zero_le _
    | cons first rest =>
      rw [htrim] at hspan hhead
      have hfirst : first = bytes "(" := by
        have hone := hspan first List.mem_cons_self
        cases first with
        | nil => exact absurd hone id
        | cons ch tail =>
          cases hhead
          exact hone.eq_singleton List.mem_cons_self (by decide)
      subst hfirst
      have hrestSpan : ∀ cp ∈ rest, IsSpan cp := fun cp hcp => hspan cp (List.mem_cons_of_mem _ hcp)
      by_cases hclose : bytes ")" ∈ rest
      · obtain ⟨inner, body, rfl, hinner⟩ := List.eq_append_cons_of_mem hclose
        have hsplit : bytes "(" :: (inner ++ bytes ")" :: body) =
            bytes "(" :: (inner ++ [bytes ")"]) ++ body := by
          rw [List.cons_append, List.append_assoc, List.singleton_append]
        have hbody : body = [] := by
          by_contra hbody
          exact h _ body ⟨inner, hinner, rfl, htrim.trans hsplit, hbody⟩
        rw [hsplit] at hspan ⊢
        obtain ⟨htext, hindex⟩ := control_text hspan hinner
        rw [hindex, htext, hbody, List.flatten_nil, List.append_nil, List.length_cons,
          List.length_append, List.length_singleton]
      · have hnot : (0x29 : UInt8) ∉ (bytes "(" :: rest).flatten := by
          refine not_mem_flatten hspan (by decide) ?_
          rw [List.mem_cons, not_or]
          exact ⟨by decide, hclose⟩
        rw [List.idxOf_eq_length hnot]
        exact Nat.le_succ _

/-! ## All modes -/

/-- What may be longer than the budget. -/
def Unbreakable : TextChunkMode → List Bytes → Prop
  | .default, piece => IsWord piece
  | .tagAware, piece => IsTag piece ∨ IsTagWord piece
  | .japanese, _ => False
  | .endline, _ => False

/-- The chunks are the pieces of the body with `lead` in front of each. -/
structure Chunking (mode : TextChunkMode) (budget : ℤ) (spans lead body : List Bytes)
    (pieces : List (List Bytes)) : Prop where
  repeated : (mode = .tagAware ∧ ∃ control, HasControl spans control body ∧
      lead = control ++ [bytes " "]) ∨
    ((mode = .tagAware → ∀ control body, ¬ HasControl spans control body) ∧
      lead = [] ∧ body = spans)
  shown : ∀ piece ∈ pieces, ∃ cp ∈ piece, isAsciiSpace cp = false
  valid : ∀ piece ∈ pieces, ∀ cp ∈ lead ++ piece, IsCodepoint cp
  content : pieces.flatten.filter (fun cp => !isAsciiSpace cp) =
    body.filter fun cp => !isAsciiSpace cp
  long : ∀ piece ∈ pieces, budget < (lead ++ piece).length → Unbreakable mode piece

theorem chunking_of_kept {mode : TextChunkMode} {budget : ℤ} {spans : List Bytes}
    {pieces : List (List Bytes)} (hbudget : 0 < budget) (hspans : ∀ cp ∈ spans, IsCodepoint cp)
    (hplain : mode = .tagAware → ∀ control body, ¬ HasControl spans control body)
    (hkept : Kept isAsciiSpace (Unbreakable mode) budget.toNat spans pieces) :
    Chunking mode budget spans [] spans pieces where
  repeated := .inr ⟨hplain, rfl, rfl⟩
  shown := hkept.shown
  valid piece hpiece cp hcp := hspans cp (hkept.subset piece hpiece cp hcp)
  content := hkept.content
  long piece hpiece hlong := hkept.long piece hpiece (by
    rw [List.nil_append] at hlong
    omega)

theorem unbreakable_of_length_le_one (hlen : piece.length ≤ 1)
    (hshown : ∃ cp ∈ piece, isAsciiSpace cp = false) : Unbreakable .tagAware piece := by
  obtain ⟨cp, hcp, hblank⟩ := hshown
  obtain ⟨first, rfl⟩ := List.length_eq_one_iff.mp
    (le_antisymm hlen (List.length_pos_of_mem hcp))
  rw [List.mem_singleton.mp hcp] at hblank
  refine .inr ⟨⟨List.cons_ne_nil _ _, List.forall_mem_singleton.mpr hblank⟩, ?_, fun _ => ?_⟩
  · exact fun cp hcp => absurd hcp List.not_mem_nil
  · exact fun cp hcp => absurd hcp List.not_mem_nil

theorem chunking_of_control {budget : ℤ} {spans control body : List Bytes}
    {pieces : List (List Bytes)} (hspans : ∀ cp ∈ spans, IsCodepoint cp)
    (hcontrol : HasControl spans control body)
    (hkept : Kept isAsciiSpace (Unbreakable .tagAware)
      (max 1 (budget.toNat - control.length - 1)) body pieces) :
    Chunking .tagAware budget spans (control ++ [bytes " "]) body pieces where
  repeated := .inl ⟨rfl, control, hcontrol, rfl⟩
  shown := hkept.shown
  valid piece hpiece cp hcp := by
    obtain ⟨inner, -, -, htrim, -⟩ := hcontrol
    have hmem : ∀ cp ∈ control ++ body, cp ∈ spans := by
      rw [← htrim]
      exact fun cp hcp => trim_subset spans cp hcp
    rcases List.mem_append.mp hcp with hlead | hpart
    · rcases List.mem_append.mp hlead with hpart | hblank
      · exact hspans cp (hmem cp (List.mem_append_left _ hpart))
      · rw [List.mem_singleton.mp hblank]
        exact ⟨' ', by decide⟩
    · exact hspans cp (hmem cp (List.mem_append_right _ (hkept.subset piece hpiece cp hpart)))
  content := hkept.content
  long piece hpiece hlong := by
    by_cases hone : piece.length ≤ 1
    · exact unbreakable_of_length_le_one hone (hkept.shown piece hpiece)
    · refine hkept.long piece hpiece ?_
      rw [List.length_append, List.length_append, List.length_singleton] at hlong
      omega

theorem splitTextChunksTagAware_keeps (hbudget : 0 < budget)
    (hspans : ∀ cp ∈ spans, IsCodepoint cp) :
    ∃ lead body pieces, splitTextChunksTagAware spans.flatten budget =
        .ok (pieces.map fun piece => (lead ++ piece).flatten) ∧
      Chunking .tagAware budget spans lead body pieces := by
  have hspan : ∀ cp ∈ spans, IsSpan cp := fun cp hcp => (hspans cp hcp).isSpan
  by_cases hcontrol : ∃ control body, HasControl spans control body
  · obtain ⟨control, body, hcontrol⟩ := hcontrol
    obtain ⟨hbody, hsplit⟩ := hcontrol.split hspan
    obtain ⟨inner, -, -, htrim, -⟩ := id hcontrol
    have hpart := trim_isSpan hspan
    have hshown : ¬ (trimmed spans.flatten).isEmpty = true := by
      rw [isEmpty_trimmed hspan, htrim]
      exact fun hnil => hbody (by rw [(List.append_eq_nil_iff.mp hnil).2]; rfl)
    rw [htrim] at hpart
    have hcontrolSpan : ∀ cp ∈ control, IsSpan cp := fun cp hcp =>
      hpart cp (List.mem_append_left _ hcp)
    have hbodySpan : ∀ cp ∈ body, IsSpan cp := fun cp hcp =>
      hpart cp (List.mem_append_right _ hcp)
    obtain ⟨pieces, hresult, hkept⟩ := splitTagAwareBody_keeps
      (max 1 (budget.toNat - control.length - 1)) (trim isAsciiSpace body)
      (trim_isSpan hbodySpan) (shown_of_trim hbody)
    refine ⟨control ++ [bytes " "], body, pieces, ?_,
      chunking_of_control hspans hcontrol hkept.of_trim⟩
    rw [splitTextChunksTagAware, onTrimmed, if_neg (Int.not_le.mpr hbudget), if_neg hshown,
      trimmed_flatten hspan, hsplit]
    dsimp only
    rw [utf8CodepointCount_flatten hcontrolSpan]
    dsimp only [bind, Except.bind]
    rw [hresult]
    dsimp only [pure, Except.pure]
    rw [List.map_map]
    congr 1
    refine List.map_congr_left fun piece _ => ?_
    simp
  · have hplain : ∀ control body, ¬ HasControl spans control body :=
      fun control body h => hcontrol ⟨control, body, h⟩
    obtain ⟨pieces, hresult, hkept⟩ :=
      onTrimmed_keeps hbudget (splitTagAwareBody_keeps budget.toNat) hspan
    refine ⟨[], spans, pieces, ?_, chunking_of_kept hbudget hspans (fun _ => hplain) hkept⟩
    rw [splitTextChunksTagAware, onTrimmed_congr, hresult]
    · rfl
    · rw [trimmed_flatten hspan, split_of_not_control hspan hplain]

/-- Every text in UTF-8 is split, in every mode and for every positive budget. -/
theorem splitTextChunks_keeps {spans : List Bytes} {budget : ℤ} (mode : TextChunkMode)
    (hspans : ∀ cp ∈ spans, IsCodepoint cp) (hbudget : 0 < budget) :
    ∃ lead body pieces, splitTextChunks spans.flatten budget mode =
        .ok (pieces.map fun piece => (lead ++ piece).flatten) ∧
      Chunking mode budget spans lead body pieces := by
  have hspan : ∀ cp ∈ spans, IsSpan cp := fun cp hcp => (hspans cp hcp).isSpan
  cases mode with
  | tagAware => exact splitTextChunksTagAware_keeps hbudget hspans
  | default =>
    obtain ⟨pieces, hresult, hkept⟩ := splitTextChunksDefault_keeps hbudget hspan
    exact ⟨[], spans, pieces, hresult, chunking_of_kept hbudget hspans (fun h => nomatch h) hkept⟩
  | japanese =>
    obtain ⟨pieces, hresult, hkept⟩ := splitTextChunksJapanese_keeps hbudget hspan
    exact ⟨[], spans, pieces, hresult, chunking_of_kept hbudget hspans (fun h => nomatch h) hkept⟩
  | endline =>
    obtain ⟨pieces, hresult, hkept⟩ := splitTextChunksEndline_keeps hbudget hspan
    exact ⟨[], spans, pieces, hresult, chunking_of_kept hbudget hspans (fun h => nomatch h) hkept⟩

theorem splitTextChunks_keeps_hi :
    ∃ lead body pieces, splitTextChunks [bytes "h", bytes "i", bytes " ", bytes "。"].flatten 2
        .tagAware = .ok (pieces.map fun piece => (lead ++ piece).flatten) ∧
      Chunking .tagAware 2 [bytes "h", bytes "i", bytes " ", bytes "。"] lead body pieces := by
  refine splitTextChunks_keeps .tagAware ?_ (by decide)
  simp only [List.forall_mem_cons]
  exact ⟨⟨'h', by decide⟩, ⟨'i', by decide⟩, ⟨' ', by decide⟩, ⟨'。', by decide⟩,
    fun cp hcp => absurd hcp List.not_mem_nil⟩

end FastTts.TextChunks
