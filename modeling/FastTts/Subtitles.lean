import FastTts.VadChunks

/-!
# Blocks of subtitles

`build_subtitle_blocks` goes over the words of a transcript and closes a block where the gap to the
next word, the time the block would last or the lines it would take are too much. Only the starts of
the words are in order, but a block ends where its last word ends: a word that lasts longer than the
ones behind it is not inside the time of its block.
-/

namespace FastTts.Subtitles

open VadChunks (TimeSpan)

structure WordTimestamp where
  span : TimeSpan
  word : Bytes
  deriving DecidableEq, Repr

/-- The arithmetic of `double` that the options need. -/
structure Seconds (D : Type) where
  /-- `> 0.0` -/
  positive : D → Bool
  /-- `< 0.0` -/
  negative : D → Bool
  /-- The product with an `int`. -/
  times : D → ℤ → D
  llround : D → ℤ

/-- The lines are counted with an `int`. -/
structure SubtitleFormatOptions (D : Type) where
  sampleRate : ℤ
  maxCharsPerLine : ℤ
  maxLines : ℤ
  maxBlockSeconds : D
  maxGapSeconds : D
  maxLines_int : maxLines < 2 ^ 31

structure SubtitleBlock where
  index : ℤ
  span : TimeSpan
  lines : List Bytes
  deriving DecidableEq, Repr

/-- How the formatter does not come back: an exception, or a sum that `int` has no room for. -/
inductive Failure
  | thrown (exception : Exception)
  | overflow
  deriving DecidableEq, Repr

/-- `static_cast<int>` of a size. -/
def toInt (size : ℕ) : ℤ := (size : ℤ).bmod (2 ^ 32)

variable {D : Type} (seconds : Seconds D) (options : SubtitleFormatOptions D)

def validateOptions : Except Failure Unit :=
  if options.sampleRate ≤ 0 then
    .error (.thrown (bytes "subtitle formatter requires a positive sample_rate"))
  else if options.maxCharsPerLine ≤ 0 then
    .error (.thrown (bytes "subtitle formatter requires max_chars_per_line > 0"))
  else if options.maxLines ≤ 0 then
    .error (.thrown (bytes "subtitle formatter requires max_lines > 0"))
  else if !seconds.positive options.maxBlockSeconds then
    .error (.thrown (bytes "subtitle formatter requires max_block_seconds > 0"))
  else if seconds.negative options.maxGapSeconds then
    .error (.thrown (bytes "subtitle formatter requires max_gap_seconds >= 0"))
  else .ok ()

def validateWord (word : WordTimestamp) (previousStart : ℤ) : Except Failure Unit :=
  if word.word.isEmpty then
    .error (.thrown (bytes "subtitle formatter received an empty word"))
  else if word.word.contains 0x0A || word.word.contains 0x0D then
    .error (.thrown (bytes "subtitle formatter received a word containing a newline"))
  else if word.span.start < 0 ∨ word.span.stop < 0 then
    .error (.thrown (bytes "subtitle formatter received a negative timestamp"))
  else if word.span.stop < word.span.start then
    .error (.thrown (bytes "subtitle formatter received an invalid timestamp span"))
  else if word.span.start < previousStart then
    .error (.thrown (bytes "subtitle formatter requires sorted word timestamps"))
  else .ok ()

def secondsToSamples (duration : D) : ℤ :=
  seconds.llround (seconds.times duration options.sampleRate)

def maxBlockSamples : ℤ := secondsToSamples seconds options options.maxBlockSeconds

def maxGapSamples : ℤ := secondsToSamples seconds options options.maxGapSeconds

/-- The loop of `wrap_words`, with the line that is being filled. -/
def wrapFrom (maxCharsPerLine : ℕ) (line : Bytes) : List Bytes → List Bytes
  | [] => if line.isEmpty then [] else [line]
  | word :: words =>
    if line.isEmpty then wrapFrom maxCharsPerLine word words
    else if line.length + 1 + word.length ≤ maxCharsPerLine then
      wrapFrom maxCharsPerLine (line ++ 0x20 :: word) words
    else line :: wrapFrom maxCharsPerLine word words

def wrapWords (words : List WordTimestamp) : List Bytes :=
  wrapFrom options.maxCharsPerLine.toNat [] (words.map WordTimestamp.word)

def wouldExceedTextLimit (words : List WordTimestamp) : Bool :=
  decide (options.maxLines < toInt (wrapWords options words).length)

/-- What ends the block of the word `first` and the words `inner` behind it in front of a word. -/
def breaksBefore (first : WordTimestamp) (inner : List WordTimestamp) (word : WordTimestamp) :
    Bool :=
  decide (maxGapSamples seconds options < word.span.start - (inner.getLastD first).span.stop) ||
  decide (maxBlockSamples seconds options < word.span.stop - first.span.start) ||
  wouldExceedTextLimit options (first :: inner ++ [word])

/-- The block of these words behind `blocks` others. -/
def closeBlock (blocks : ℕ) (first : WordTimestamp) (inner : List WordTimestamp) :
    Except Failure SubtitleBlock :=
  if toInt blocks = 2 ^ 31 - 1 then .error .overflow
  else .ok
    { index := toInt blocks + 1
      span := ⟨first.span.start, (inner.getLastD first).span.stop⟩
      lines := wrapWords options (first :: inner) }

/-- The loop, behind the words of the block that is not closed yet. -/
def blocksFrom (blocks : ℕ) (previousStart : ℤ) (first : WordTimestamp)
    (inner : List WordTimestamp) :
    List WordTimestamp → Except Failure (List SubtitleBlock)
  | [] => do
    let block ← closeBlock options blocks first inner
    return [block]
  | word :: words => do
    validateWord word previousStart
    if breaksBefore seconds options first inner word then
      let block ← closeBlock options blocks first inner
      let others ← blocksFrom (blocks + 1) word.span.start word [] words
      return block :: others
    else blocksFrom blocks word.span.start first (inner ++ [word]) words

def buildSubtitleBlocks (words : List WordTimestamp) : Except Failure (List SubtitleBlock) := do
  validateOptions seconds options
  match words with
  | [] => return []
  | word :: words => do
    validateWord word 0
    blocksFrom seconds options 0 word.span.start word [] words

/-! ## What the blocks are to be -/

/-- The words that `validate_word` accepts one behind the other. -/
def Accepted (previousStart : ℤ) : List WordTimestamp → Prop
  | [] => True
  | word :: words => validateWord word previousStart = .ok () ∧ Accepted word.span.start words

instance decidableAccepted : ∀ (previousStart : ℤ) (words : List WordTimestamp),
    Decidable (Accepted previousStart words)
  | _, [] => isTrue trivial
  | previousStart, word :: words =>
    @instDecidableAnd (validateWord word previousStart = .ok ()) (Accepted word.span.start words) _
      (decidableAccepted word.span.start words)

def joined (words : List Bytes) : Bytes := [0x20].intercalate words

/-- The lines hold the words, in order. Only a line of one word may be too long. -/
def Lines (maxCharsPerLine : ℕ) (words lines : List Bytes) : Prop :=
  ∃ groups : List (List Bytes), groups.flatten = words ∧ lines = groups.map joined ∧
    ∀ group ∈ groups, group ≠ [] ∧ (2 ≤ group.length → (joined group).length ≤ maxCharsPerLine)

/-- The words stay within the limits as they follow each other. -/
def Gaps (words : List WordTimestamp) : Prop :=
  words.IsChain fun a b => b.span.start - a.span.stop ≤ maxGapSamples seconds options

/-- The block of these words behind `blocks` others. -/
structure Right (blocks : ℕ) (part : List WordTimestamp) (block : SubtitleBlock) : Prop where
  nonempty : part ≠ []
  index : block.index = blocks + 1
  lines : Lines options.maxCharsPerLine.toNat (part.map WordTimestamp.word) block.lines
  maxLines : 2 ≤ part.length → (block.lines.length : ℤ) ≤ options.maxLines
  duration : 2 ≤ part.length → block.span.stop - block.span.start ≤ maxBlockSamples seconds options
  gaps : Gaps seconds options part
  span : ∀ word ∈ part, block.span.start ≤ word.span.start ∧ word.span.stop ≤ block.span.stop

/-- The blocks of these parts of the words, numbered from `blocks + 1` on. -/
def RightFrom : ℕ → List (List WordTimestamp) → List SubtitleBlock → Prop
  | _, [], [] => True
  | blocks, part :: parts, block :: others =>
    Right seconds options blocks part block ∧ RightFrom (blocks + 1) parts others
  | _, _, _ => False

/-- The words come in blocks, each of which is right. -/
def RightBlocks (words : List WordTimestamp) (blocks : List SubtitleBlock) : Prop :=
  ∃ parts : List (List WordTimestamp), parts.flatten = words ∧
    RightFrom seconds options 0 parts blocks

/-- No word of the block ends after its last word, and `int` has a number for the block. -/
def Closes (blocks : ℕ) (first : WordTimestamp) (inner : List WordTimestamp) : Prop :=
  blocks < 2 ^ 31 - 1 ∧ ∀ word ∈ first :: inner, word.span.stop ≤ (inner.getLastD first).span.stop

instance decidableCloses (blocks : ℕ) (first : WordTimestamp) (inner : List WordTimestamp) :
    Decidable (Closes blocks first inner) :=
  inferInstanceAs (Decidable (_ ∧ ∀ word ∈ first :: inner, _))

/-- Wherever a block is closed it ends with its last word, and wherever a word is added `int` has
room for the number of lines. -/
def Clean (blocks : ℕ) (first : WordTimestamp) (inner : List WordTimestamp) :
    List WordTimestamp → Prop
  | [] => Closes blocks first inner
  | word :: words =>
    if breaksBefore seconds options first inner word then
      Closes blocks first inner ∧ Clean (blocks + 1) word [] words
    else (wrapWords options (first :: inner ++ [word])).length < 2 ^ 31 ∧
      Clean blocks first (inner ++ [word]) words

instance decidableClean : ∀ (blocks : ℕ) (first : WordTimestamp) (inner words : List WordTimestamp),
    Decidable (Clean seconds options blocks first inner words)
  | blocks, first, inner, [] => decidableCloses blocks first inner
  | blocks, first, inner, word :: words =>
    have := decidableClean (blocks + 1) word [] words
    have := decidableClean blocks first (inner ++ [word]) words
    inferInstanceAs (Decidable (if breaksBefore seconds options first inner word then
      Closes blocks first inner ∧ Clean seconds options (blocks + 1) word [] words
    else (wrapWords options (first :: inner ++ [word])).length < 2 ^ 31 ∧
      Clean seconds options blocks first (inner ++ [word]) words))

/-- `Clean` from the first word on. -/
def CleanWords : List WordTimestamp → Prop
  | [] => True
  | word :: words => Clean seconds options 0 word [] words

/-- The words of the blocks that the loop makes. -/
def partsFrom (first : WordTimestamp) (inner : List WordTimestamp) :
    List WordTimestamp → List (List WordTimestamp)
  | [] => [first :: inner]
  | word :: words =>
    if breaksBefore seconds options first inner word then
      (first :: inner) :: partsFrom word [] words
    else partsFrom first (inner ++ [word]) words

/-! ## Lines -/

theorem joined_cons {words : List Bytes} (hwords : words ≠ []) (word : Bytes) :
    joined (word :: words) = word ++ 0x20 :: joined words := by
  rw [joined, List.intercalate_cons_of_ne_nil hwords, List.append_assoc, List.singleton_append]
  rfl

@[simp] theorem joined_singleton (word : Bytes) : joined [word] = word := List.intercalate_singleton

theorem joined_append {words : List Bytes} (hwords : words ≠ []) (word : Bytes) :
    joined (words ++ [word]) = joined words ++ 0x20 :: word := by
  induction words with
  | nil => exact absurd rfl hwords
  | cons first words ih =>
    by_cases hlast : words = []
    · subst hlast
      rw [List.singleton_append, joined_cons (by simp), joined_singleton, joined_singleton]
    · rw [List.cons_append, joined_cons (by simp), ih hlast, joined_cons hlast, List.append_assoc,
        List.cons_append]

theorem joined_length {words : List Bytes} (hwords : words ≠ []) :
    (joined words).length + 1 = (words.map fun word => word.length + 1).sum := by
  induction words with
  | nil => exact absurd rfl hwords
  | cons first words ih =>
    by_cases hlast : words = []
    · simp [hlast]
    · have hrest := ih hlast
      rw [joined_cons hlast, List.map_cons, List.sum_cons, ← hrest]
      simp only [List.length_append, List.length_cons]
      omega

theorem Lines.length_sum {maxCharsPerLine : ℕ} {words lines : List Bytes}
    (h : Lines maxCharsPerLine words lines) :
    (lines.map fun line => line.length + 1).sum = (words.map fun word => word.length + 1).sum := by
  obtain ⟨groups, hwords, hlines, hgroups⟩ := h
  subst hwords hlines
  induction groups with
  | nil => rfl
  | cons group groups ih =>
    have hgroup := joined_length (hgroups group List.mem_cons_self).1
    have hrest := ih fun other hother => hgroups other (List.mem_cons_of_mem group hother)
    simp only [List.map_cons, List.sum_cons, List.flatten_cons, List.map_append, List.sum_append]
    rw [hgroup, hrest]

theorem wrapFrom_lines (maxCharsPerLine : ℕ) {words : List Bytes}
    (hwords : ∀ word ∈ words, word ≠ []) (group : List Bytes) (hempty : joined group ≠ [])
    (hfits : 2 ≤ group.length → (joined group).length ≤ maxCharsPerLine) :
    Lines maxCharsPerLine (group ++ words) (wrapFrom maxCharsPerLine (joined group) words) := by
  have hgroup : group ≠ [] := by
    rintro rfl
    exact hempty rfl
  induction words generalizing group with
  | nil =>
    refine ⟨[group], by simp, ?_, ?_⟩
    · rw [wrapFrom, if_neg (by simpa using hempty), List.map_singleton]
    · intro other hother
      rw [List.mem_singleton.mp hother]
      exact ⟨hgroup, hfits⟩
  | cons word words ih =>
    have hrest : ∀ other ∈ words, other ≠ [] := fun other hother =>
      hwords other (List.mem_cons_of_mem word hother)
    rw [wrapFrom, if_neg (by simpa using hempty)]
    split_ifs with hroom
    · have hline := joined_append hgroup word
      have hlength : (joined (group ++ [word])).length ≤ maxCharsPerLine := by
        rw [hline, List.length_append, List.length_cons]
        omega
      have hlines := ih hrest (group ++ [word]) (by simp [hline]) (fun _ => hlength) (by simp)
      rwa [hline, List.append_assoc] at hlines
    · have hword : word ≠ [] := hwords word List.mem_cons_self
      obtain ⟨groups, hflatten, hlines, hgroups⟩ :=
        ih hrest [word] (by simpa using hword) (by simp) (by simp)
      rw [joined_singleton] at hlines
      refine ⟨group :: groups, ?_, ?_, ?_⟩
      · rw [List.flatten_cons, hflatten, List.singleton_append]
      · rw [List.map_cons, ← hlines]
      · intro other hother
        rcases List.mem_cons.mp hother with rfl | hother
        · exact ⟨hgroup, hfits⟩
        · exact hgroups other hother

variable {seconds options}

variable {first word : WordTimestamp} {inner words : List WordTimestamp} {previousStart : ℤ}
  {blocks : ℕ} {made : List SubtitleBlock} {parts : List (List WordTimestamp)}

theorem wrapWords_lines (hwords : ∀ word ∈ first :: inner, word.word ≠ []) :
    Lines options.maxCharsPerLine.toNat ((first :: inner).map WordTimestamp.word)
      (wrapWords options (first :: inner)) := by
  have hfirst : first.word ≠ [] := hwords first List.mem_cons_self
  have hinner : ∀ word ∈ inner.map WordTimestamp.word, word ≠ [] := by
    intro word hword
    obtain ⟨timestamp, htimestamp, rfl⟩ := List.mem_map.mp hword
    exact hwords timestamp (List.mem_cons_of_mem first htimestamp)
  have hlines := wrapFrom_lines options.maxCharsPerLine.toNat hinner [first.word]
    (by simpa using hfirst) (by simp)
  simpa [wrapWords, wrapFrom] using hlines

theorem wrapFrom_length_le (maxCharsPerLine : ℕ) (words more : List Bytes) (line : Bytes) :
    (wrapFrom maxCharsPerLine line words).length ≤
      (wrapFrom maxCharsPerLine line (words ++ more)).length := by
  induction words generalizing line with
  | nil =>
    have hline : ∀ (more : List Bytes) (line : Bytes), line ≠ [] →
        1 ≤ (wrapFrom maxCharsPerLine line more).length := by
      intro more
      induction more with
      | nil => intro line hline; simp [wrapFrom, hline]
      | cons word more ih =>
        intro line hline
        rw [wrapFrom, if_neg (by simpa using hline)]
        split_ifs with hroom
        · exact ih _ (by simp)
        · simp
    rw [List.nil_append, wrapFrom]
    split_ifs with hempty
    · simp
    · exact hline more line (by simpa using hempty)
  | cons word words ih =>
    rw [List.cons_append, wrapFrom, wrapFrom]
    split_ifs with hempty hroom
    · exact ih word
    · exact ih _
    · simpa using ih word

variable {more : List WordTimestamp} {block : SubtitleBlock}

variable (options) in
theorem wrapWords_length_le (h : words <+: more) :
    (wrapWords options words).length ≤ (wrapWords options more).length := by
  obtain ⟨rest, rfl⟩ := h
  rw [wrapWords, wrapWords, List.map_append]
  exact wrapFrom_length_le _ _ _ _

/-! ## One block -/

theorem toInt_eq {size : ℕ} (hsize : size < 2 ^ 31) : toInt size = size :=
  Int.bmod_eq_of_le (by omega) (by omega)

theorem toInt_lt (size : ℕ) : toInt size < 2 ^ 31 := Int.bmod_lt (by decide)

theorem validateWord_ok (h : validateWord word previousStart = .ok ()) :
    word.word ≠ [] ∧ word.span.start ≤ word.span.stop ∧ previousStart ≤ word.span.start := by
  unfold validateWord at h
  split_ifs at h with hempty hnewline hnegative hspan hsorted
  exact ⟨by simpa using hempty, by omega, by omega⟩

/-- The words of the block that is not closed, the last of which starts at `previousStart`. -/
structure Kept (seconds : Seconds D) (options : SubtitleFormatOptions D) (previousStart : ℤ)
    (first : WordTimestamp) (inner : List WordTimestamp) : Prop where
  filled : ∀ word ∈ first :: inner, word.word ≠ []
  started : first.span.start ≤ previousStart
  starts : ∀ word ∈ first :: inner, first.span.start ≤ word.span.start
  maxLines : inner ≠ [] → ((wrapWords options (first :: inner)).length : ℤ) ≤ options.maxLines
  duration : inner ≠ [] →
    (inner.getLastD first).span.stop - first.span.start ≤ maxBlockSamples seconds options
  gaps : Gaps seconds options (first :: inner)

theorem kept_first (h : validateWord word previousStart = .ok ()) :
    Kept seconds options word.span.start word [] where
  filled := by simpa using (validateWord_ok h).1
  started := le_rfl
  starts := by simp
  maxLines := by simp
  duration := by simp
  gaps := List.isChain_singleton word

theorem breaksBefore_eq_false (h : ¬ breaksBefore seconds options first inner word = true) :
    word.span.start - (inner.getLastD first).span.stop ≤ maxGapSamples seconds options ∧
      word.span.stop - first.span.start ≤ maxBlockSamples seconds options ∧
      toInt (wrapWords options (first :: inner ++ [word])).length ≤ options.maxLines := by
  simp only [breaksBefore, wouldExceedTextLimit, Bool.or_eq_true, decide_eq_true_eq, not_or,
    not_lt] at h
  exact ⟨h.1.1, h.1.2, h.2⟩

theorem Kept.add (hkept : Kept seconds options previousStart first inner)
    (hword : validateWord word previousStart = .ok ())
    (hbreak : ¬ breaksBefore seconds options first inner word = true)
    (hlines : (wrapWords options (first :: inner ++ [word])).length < 2 ^ 31) :
    Kept seconds options word.span.start first (inner ++ [word]) := by
  obtain ⟨hempty, -, hsorted⟩ := validateWord_ok hword
  obtain ⟨hgap, hduration, hlimit⟩ := breaksBefore_eq_false hbreak
  have hstarted : first.span.start ≤ word.span.start := le_trans hkept.started hsorted
  have hmem : ∀ other ∈ first :: (inner ++ [word]), other ∈ first :: inner ∨ other = word := by
    intro other hother
    simpa [or_assoc] using hother
  refine ⟨?_, hstarted, ?_, ?_, ?_, ?_⟩
  · intro other hother
    rcases hmem other hother with hold | rfl
    · exact hkept.filled other hold
    · exact hempty
  · intro other hother
    rcases hmem other hother with hold | rfl
    · exact hkept.starts other hold
    · exact hstarted
  · intro _
    rwa [toInt_eq hlines] at hlimit
  · intro _
    simpa using hduration
  · have hchain : Gaps seconds options ((first :: inner) ++ [word]) := by
      refine List.isChain_append.mpr ⟨hkept.gaps, List.isChain_singleton word, ?_⟩
      intro a ha b hb
      rw [List.getLast?_cons, ← List.getLastD_eq_getLast?, Option.mem_some_iff] at ha
      rw [List.head?_cons, Option.mem_some_iff] at hb
      subst ha hb
      exact hgap
    exact hchain

theorem closeBlock_ok (h : closeBlock options blocks first inner = .ok block) :
    toInt blocks ≠ 2 ^ 31 - 1 ∧ block =
      { index := toInt blocks + 1
        span := ⟨first.span.start, (inner.getLastD first).span.stop⟩
        lines := wrapWords options (first :: inner) } := by
  unfold closeBlock at h
  split_ifs at h with hoverflow
  exact ⟨hoverflow, (Except.ok.inj h).symm⟩

variable (options) in
theorem Closes.closeBlock (h : Closes blocks first inner) :
    ∃ block, closeBlock options blocks first inner = .ok block := by
  have hint := toInt_eq (show blocks < 2 ^ 31 by have := h.1; omega)
  have hroom : toInt blocks ≠ 2 ^ 31 - 1 := by
    have := h.1
    omega
  exact ⟨_, if_neg hroom⟩

theorem Kept.right_iff (hkept : Kept seconds options previousStart first inner)
    (h : closeBlock options blocks first inner = .ok block) :
    Right seconds options blocks (first :: inner) block ↔ Closes blocks first inner := by
  obtain ⟨hoverflow, rfl⟩ := closeBlock_ok h
  have hseveral : 2 ≤ (first :: inner).length → inner ≠ [] := by
    rintro hlength rfl
    exact absurd hlength (by simp)
  constructor
  · intro hright
    have hindex : toInt blocks = blocks := by
      have := hright.index
      simpa using this
    have hint := toInt_lt blocks
    exact ⟨by omega, fun word hword => (hright.span word hword).2⟩
  · rintro ⟨hblocks, hstops⟩
    have hint := toInt_eq (show blocks < 2 ^ 31 by omega)
    refine ⟨by simp, by simp [hint], wrapWords_lines hkept.filled, ?_, ?_, hkept.gaps, ?_⟩
    · exact fun hlength => hkept.maxLines (hseveral hlength)
    · exact fun hlength => hkept.duration (hseveral hlength)
    · exact fun word hword => ⟨hkept.starts word hword, hstops word hword⟩

/-! ## All blocks -/

variable (seconds options) in
theorem partsFrom_flatten (words : List WordTimestamp) (first : WordTimestamp)
    (inner : List WordTimestamp) :
    (partsFrom seconds options first inner words).flatten = first :: inner ++ words := by
  induction words generalizing first inner with
  | nil => simp [partsFrom]
  | cons word words ih =>
    rw [partsFrom]
    split_ifs with hbreak
    · rw [List.flatten_cons, ih]
      rfl
    · rw [ih]
      simp

variable (seconds options) in
theorem partsFrom_prefix (words : List WordTimestamp) (first : WordTimestamp)
    (inner : List WordTimestamp) : ∃ part parts,
      partsFrom seconds options first inner words = part :: parts ∧ first :: inner <+: part := by
  induction words generalizing first inner with
  | nil => exact ⟨first :: inner, [], rfl, List.prefix_rfl⟩
  | cons word words ih =>
    rw [partsFrom]
    split_ifs with hbreak
    · exact ⟨first :: inner, _, rfl, List.prefix_rfl⟩
    · obtain ⟨part, parts, hparts, hprefix⟩ := ih first (inner ++ [word])
      exact ⟨part, parts, hparts, (List.prefix_append (first :: inner) [word]).trans hprefix⟩

theorem blocksFrom_break (hbreak : breaksBefore seconds options first inner word = true) :
    blocksFrom seconds options blocks previousStart first inner (word :: words) = .ok made ↔
      validateWord word previousStart = .ok () ∧ ∃ block others,
        closeBlock options blocks first inner = .ok block ∧
        blocksFrom seconds options (blocks + 1) word.span.start word [] words = .ok others ∧
        made = block :: others := by
  rw [blocksFrom]
  cases hword : validateWord word previousStart with
  | error failure => simp [bind, Except.bind]
  | ok accepted =>
    cases hclose : closeBlock options blocks first inner with
    | error failure => simp [bind, Except.bind, hbreak]
    | ok block =>
      cases hothers : blocksFrom seconds options (blocks + 1) word.span.start word [] words with
      | error failure => simp [bind, Except.bind, hbreak]
      | ok others => simp [bind, Except.bind, pure, Except.pure, hbreak, eq_comm]

theorem blocksFrom_add (hbreak : ¬ breaksBefore seconds options first inner word = true) :
    blocksFrom seconds options blocks previousStart first inner (word :: words) = .ok made ↔
      validateWord word previousStart = .ok () ∧
        blocksFrom seconds options blocks word.span.start first (inner ++ [word]) words =
          .ok made := by
  rw [blocksFrom]
  cases hword : validateWord word previousStart with
  | error failure => simp [bind, Except.bind]
  | ok accepted => simp [bind, Except.bind, hbreak]

theorem blocksFrom_nil :
    blocksFrom seconds options blocks previousStart first inner [] = .ok made ↔
      ∃ block, closeBlock options blocks first inner = .ok block ∧ made = [block] := by
  rw [blocksFrom]
  cases hclose : closeBlock options blocks first inner with
  | error failure => simp [bind, Except.bind]
  | ok block => simp [bind, Except.bind, pure, Except.pure, eq_comm]

theorem blocksFrom_lines
    (h : blocksFrom seconds options blocks previousStart first inner words = .ok made) :
    List.Forall₂ (fun part block => part ≠ [] ∧ block.lines = wrapWords options part)
      (partsFrom seconds options first inner words) made := by
  induction words generalizing blocks previousStart first inner made with
  | nil =>
    obtain ⟨block, hclose, rfl⟩ := blocksFrom_nil.mp h
    have hlines : block.lines = wrapWords options (first :: inner) := by
      rw [(closeBlock_ok hclose).2]
    exact .cons ⟨by simp, hlines⟩ .nil
  | cons word words ih =>
    rw [partsFrom]
    split_ifs with hbreak
    · obtain ⟨-, block, others, hclose, hothers, rfl⟩ := (blocksFrom_break hbreak).mp h
      have hlines : block.lines = wrapWords options (first :: inner) := by
        rw [(closeBlock_ok hclose).2]
      exact .cons ⟨by simp, hlines⟩ (ih hothers)
    · exact ih ((blocksFrom_add hbreak).mp h).2

theorem not_right_of_lines (hlines : 2 ^ 31 ≤ (wrapWords options (first :: inner ++ [word])).length)
    (h : blocksFrom seconds options blocks previousStart first (inner ++ [word]) words = .ok made) :
    ¬ RightFrom seconds options blocks (partsFrom seconds options first (inner ++ [word]) words)
      made := by
  have hmade := blocksFrom_lines h
  obtain ⟨part, parts, hparts, hprefix⟩ :=
    partsFrom_prefix seconds options words first (inner ++ [word])
  rw [hparts] at hmade ⊢
  cases hmade with
  | cons hblock hothers =>
    intro hright
    have hlength : 2 ≤ part.length := le_trans (by simp) hprefix.length_le
    have hmax := hright.1.maxLines hlength
    have hcount := wrapWords_length_le options hprefix
    rw [hblock.2] at hmax
    have hint := options.maxLines_int
    rw [List.cons_append] at hlines
    omega

theorem blocksFrom_right_iff (hkept : Kept seconds options previousStart first inner)
    (haccepted : Accepted previousStart words) :
    (∃ made, blocksFrom seconds options blocks previousStart first inner words = .ok made ∧
      RightFrom seconds options blocks (partsFrom seconds options first inner words) made) ↔
      Clean seconds options blocks first inner words := by
  induction words generalizing blocks previousStart first inner with
  | nil =>
    rw [Clean, partsFrom]
    constructor
    · rintro ⟨made, hmade, hright⟩
      obtain ⟨block, hclose, rfl⟩ := blocksFrom_nil.mp hmade
      exact (hkept.right_iff hclose).mp hright.1
    · intro hcloses
      obtain ⟨block, hclose⟩ := hcloses.closeBlock options
      exact ⟨[block], blocksFrom_nil.mpr ⟨block, hclose, rfl⟩,
        (hkept.right_iff hclose).mpr hcloses, trivial⟩
  | cons word words ih =>
    obtain ⟨hword, hwords⟩ := haccepted
    rw [Clean, partsFrom]
    split_ifs with hbreak
    · rw [← ih (kept_first hword) hwords]
      constructor
      · rintro ⟨made, hmade, hright⟩
        obtain ⟨-, block, others, hclose, hothers, rfl⟩ := (blocksFrom_break hbreak).mp hmade
        exact ⟨(hkept.right_iff hclose).mp hright.1, others, hothers, hright.2⟩
      · rintro ⟨hcloses, others, hothers, hright⟩
        obtain ⟨block, hclose⟩ := hcloses.closeBlock options
        exact ⟨block :: others,
          (blocksFrom_break hbreak).mpr ⟨hword, block, others, hclose, hothers, rfl⟩,
          (hkept.right_iff hclose).mpr hcloses, hright⟩
    · by_cases hlines : (wrapWords options (first :: inner ++ [word])).length < 2 ^ 31
      · rw [← ih (hkept.add hword hbreak hlines) hwords]
        constructor
        · rintro ⟨made, hmade, hright⟩
          exact ⟨hlines, made, ((blocksFrom_add hbreak).mp hmade).2, hright⟩
        · rintro ⟨-, made, hmade, hright⟩
          exact ⟨made, (blocksFrom_add hbreak).mpr ⟨hword, hmade⟩, hright⟩
      · refine iff_of_false ?_ fun hclean => hlines hclean.1
        rintro ⟨made, hmade, hright⟩
        exact not_right_of_lines (not_lt.mp hlines) ((blocksFrom_add hbreak).mp hmade).2 hright

/-! ## The parts are given by the lines -/

variable (options) in
def LinesOf (parts : List (List WordTimestamp)) (blocks : List SubtitleBlock) : Prop :=
  List.Forall₂ (fun part block =>
    Lines options.maxCharsPerLine.toNat (part.map WordTimestamp.word) block.lines) parts blocks

theorem RightFrom.linesOf {number : ℕ} {blocks : List SubtitleBlock}
    (h : RightFrom seconds options number parts blocks) : LinesOf options parts blocks := by
  induction parts generalizing number blocks with
  | nil =>
    cases blocks with
    | nil => exact .nil
    | cons block blocks => exact h.elim
  | cons part parts ih =>
    cases blocks with
    | nil => exact h.elim
    | cons block blocks => exact .cons h.1.lines (ih h.2)

theorem linesOf_of_wrapWords {blocks : List SubtitleBlock}
    (h : List.Forall₂ (fun part block => part ≠ [] ∧ block.lines = wrapWords options part)
      parts blocks) (hfilled : ∀ word ∈ parts.flatten, word.word ≠ []) :
    LinesOf options parts blocks := by
  induction h with
  | nil => exact .nil
  | @cons part block parts blocks hblock hblocks ih =>
    rw [List.flatten_cons] at hfilled
    refine .cons ?_ (ih fun word hword => hfilled word (List.mem_append_right part hword))
    obtain ⟨hpart, hlines⟩ := hblock
    rw [hlines]
    cases part with
    | nil => exact absurd rfl hpart
    | cons first inner =>
      exact wrapWords_lines fun word hword => hfilled word (List.mem_append_left _ hword)

theorem eq_nil_of_sum
    (h : (((words ++ more).map WordTimestamp.word).map fun word => word.length + 1).sum =
      ((words.map WordTimestamp.word).map fun word => word.length + 1).sum) : more = [] := by
  cases more with
  | nil => rfl
  | cons word more =>
    simp only [List.map_append, List.map_cons, List.sum_append, List.sum_cons] at h
    omega

theorem LinesOf.parts_eq {others : List (List WordTimestamp)} {blocks : List SubtitleBlock}
    (h : LinesOf options parts blocks) (hothers : LinesOf options others blocks)
    (hflatten : parts.flatten = others.flatten) : parts = others := by
  induction blocks generalizing parts others with
  | nil =>
    rw [List.forall₂_nil_right_iff.mp h, List.forall₂_nil_right_iff.mp hothers]
  | cons block blocks ih =>
    obtain ⟨part, rest, hpart, hrest, rfl⟩ := List.forall₂_cons_right_iff.mp h
    obtain ⟨other, rest', hother, hrest', rfl⟩ := List.forall₂_cons_right_iff.mp hothers
    have hsum := hpart.length_sum.symm.trans hother.length_sum
    rw [List.flatten_cons, List.flatten_cons] at hflatten
    have hequal : part = other := by
      rcases List.append_eq_append_iff.mp hflatten with ⟨more, rfl, -⟩ | ⟨more, rfl, -⟩
      · rw [eq_nil_of_sum hsum.symm, List.append_nil]
      · rw [eq_nil_of_sum hsum, List.append_nil]
    subst hequal
    rw [ih hrest hrest' (List.append_cancel_left hflatten)]

theorem Accepted.filled (h : Accepted previousStart words) : ∀ word ∈ words, word.word ≠ [] := by
  induction words generalizing previousStart with
  | nil => simp
  | cons word words ih =>
    intro other hother
    rcases List.mem_cons.mp hother with rfl | hother
    · exact (validateWord_ok h.1).1
    · exact ih h.2 other hother

theorem buildSubtitleBlocks_cons (hoptions : validateOptions seconds options = .ok ())
    (hword : validateWord word 0 = .ok ()) :
    buildSubtitleBlocks seconds options (word :: words) =
      blocksFrom seconds options 0 word.span.start word [] words := by
  simp [buildSubtitleBlocks, hoptions, hword, bind, Except.bind]

/-- The words come in right blocks exactly where no block has a word that ends after its last. -/
theorem buildSubtitleBlocks_right_iff (seconds : Seconds D) (options : SubtitleFormatOptions D)
    (words : List WordTimestamp) (hoptions : validateOptions seconds options = .ok ())
    (hwords : Accepted 0 words) :
    (∃ blocks, buildSubtitleBlocks seconds options words = .ok blocks ∧
      RightBlocks seconds options words blocks) ↔ CleanWords seconds options words := by
  cases words with
  | nil =>
    refine iff_of_true ⟨[], ?_, [], rfl, trivial⟩ trivial
    simp [buildSubtitleBlocks, hoptions, bind, Except.bind, pure, Except.pure]
  | cons word words =>
    have hflatten := partsFrom_flatten seconds options words word []
    rw [buildSubtitleBlocks_cons hoptions hwords.1, CleanWords,
      ← blocksFrom_right_iff (kept_first hwords.1) hwords.2]
    constructor
    · rintro ⟨blocks, hblocks, parts, hparts, hright⟩
      refine ⟨blocks, hblocks, ?_⟩
      have hmade := linesOf_of_wrapWords (blocksFrom_lines hblocks)
        (by rw [hflatten]; exact hwords.filled)
      have hequal := hright.linesOf.parts_eq hmade (hparts.trans hflatten.symm)
      rwa [hequal] at hright
    · rintro ⟨blocks, hblocks, hright⟩
      exact ⟨blocks, hblocks, _, hflatten, hright⟩

def wholeSeconds : Seconds ℤ where
  positive x := decide (0 < x)
  negative x := decide (x < 0)
  times x rate := x * rate
  llround x := x

def twoWords (stop : ℤ) : List WordTimestamp :=
  [⟨⟨0, stop⟩, bytes "hello"⟩, ⟨⟨10, 20⟩, bytes "yes"⟩]

theorem two_lt_int : (2 : ℤ) < 2 ^ 31 := by decide

def shortLines : SubtitleFormatOptions ℤ where
  sampleRate := 1000
  maxCharsPerLine := 10
  maxLines := 2
  maxBlockSeconds := 6
  maxGapSeconds := 1
  maxLines_int := two_lt_int

theorem buildSubtitleBlocks_right_two : ∃ blocks,
    buildSubtitleBlocks wholeSeconds shortLines (twoWords 20) = .ok blocks ∧
      RightBlocks wholeSeconds shortLines (twoWords 20) blocks :=
  (buildSubtitleBlocks_right_iff wholeSeconds shortLines (twoWords 20) (by decide) (by decide)).mpr
    (by unfold CleanWords twoWords; decide)

theorem buildSubtitleBlocks_ends_early :
    validateOptions wholeSeconds shortLines = .ok () ∧ Accepted 0 (twoWords 100) ∧
      buildSubtitleBlocks wholeSeconds shortLines (twoWords 100) =
        .ok [⟨1, ⟨0, 20⟩, [bytes "hello yes"]⟩] ∧
      ¬ ∃ blocks, buildSubtitleBlocks wholeSeconds shortLines (twoWords 100) = .ok blocks ∧
        RightBlocks wholeSeconds shortLines (twoWords 100) blocks := by
  have hmade : buildSubtitleBlocks wholeSeconds shortLines (twoWords 100) =
    .ok [⟨1, ⟨0, 20⟩, [bytes "hello yes"]⟩] := by decide
  refine ⟨by decide, by decide, hmade, ?_⟩
  rintro ⟨blocks, hblocks, parts, hparts, hright⟩
  rw [hmade] at hblocks
  cases hblocks
  cases parts with
  | nil => exact hright.elim
  | cons part parts =>
    cases parts with
    | nil =>
      rw [List.flatten_singleton] at hparts
      have hspan := (hright.1.span ⟨⟨0, 100⟩, bytes "hello"⟩ (by simp [hparts, twoWords])).2
      simp at hspan
    | cons other parts => exact hright.2.elim

/-! ## Words whose ends are in order -/

end FastTts.Subtitles
