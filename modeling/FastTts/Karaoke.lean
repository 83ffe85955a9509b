import Mathlib
import FastTts.Backtracking
import FastTts.JsText

/-!
# Syllables of a caption

`tokenizeCaption` cuts a caption at white space, a token with CJK characters at its scripts, and
each word into syllables: letter runs by vowel groups, with all other characters behind the syllable that
comes before them. Nothing but the white space is lost.
-/

namespace FastTts.Karaoke

open Backtracking JsText

/-- What the regular expressions take from Unicode: the unit that stands for all cases of a unit,
and whether a code point is a letter or a number. -/
structure UnicodeTables where
  canonicalize : UInt16 → UInt16
  speakable : Units → Bool

/-- A class without regard to case: one of its members stands for the same unit. -/
def inRangesIgnoringCase (tables : UnicodeTables) (ranges : Ranges) (unit : UInt16) : Bool :=
  ranges.any fun range => (List.range' range.1 (range.2 + 1 - range.1)).any fun member =>
    tables.canonicalize (UInt16.ofNat member) == tables.canonicalize unit

def isCjk : UInt16 → Bool :=
  inRanges [(0x2E80, 0x9FFF), (0xAC00, 0xD7AF), (0xF900, 0xFAFF), (0xFF66, 0xFF9F)]

structure CaptionSyllable where
  text : Units
  weight : ℚ

structure CaptionWord where
  text : Units
  syllables : List CaptionSyllable
  weight : ℚ
  offset : ℕ

/-- `String.prototype.match` with a global expression; no match gives an empty list. -/
def allMatches (p : Pattern UInt16) (text : Units) : List Units :=
  (hits p text).1.map fun hit => hit.2.taken

/-- `String.prototype.split` at an expression that takes something. -/
def splitAt (p : Pattern UInt16) (text : Units) : List Units :=
  (hits p text).1.map Prod.fst ++ [(hits p text).2]

def test (p : Pattern UInt16) (text : Units) : Bool := (search p text).isSome

/-- The strings that `for (const char of text)` goes through. -/
def codePoints : Units → List Units
  | [] => []
  | [unit] => [[unit]]
  | high :: low :: rest =>
    if inRanges [(0xD800, 0xDBFF)] high && inRanges [(0xDC00, 0xDFFF)] low then
      [high, low] :: codePoints rest
    else [high] :: codePoints (low :: rest)

def addToLast : List Units → Units → List Units
  | [], _ => []
  | [last], text => [last ++ text]
  | item :: next :: items, text => item :: addToLast (next :: items) text

variable (tables : UnicodeTables)

/-! ## Syllables -/

def isVowel : UInt16 → Bool :=
  inRangesIgnoringCase tables
    [(0x61, 0x61), (0x65, 0x65), (0x69, 0x69), (0x6F, 0x6F), (0x75, 0x75), (0x79, 0x79)]

def isLetter : UInt16 → Bool :=
  inRangesIgnoringCase tables [(0x61, 0x7A), (0xC0, 0x24F), (0x370, 0x3FF), (0x400, 0x4FF)]

def notVowel (unit : UInt16) : Bool := !isVowel tables unit

def notLetter (unit : UInt16) : Bool := !isLetter tables unit

def letterRuns : Pattern UInt16 := .alt (.plus (isLetter tables)) (.plus (notLetter tables))

def vowelGroup : Pattern UInt16 :=
  .seq (.many (notVowel tables)) (.seq (.plus (isVowel tables)) (.opt (.alt
    (.seq (.many (notVowel tables)) .atEnd)
    (.seq (.one (notVowel tables)) (.ahead (.one (notVowel tables)))))))

def isSilentE (piece : Units) : Bool :=
  (matchAt (.seq (.run (notVowel tables) 0 (some 1))
    (.seq (.one (inRangesIgnoringCase tables [(0x65, 0x65)])) .atEnd)) piece).isSome

def syllabifyRun (run : Units) : List Units :=
  let pieces := allMatches (vowelGroup tables) run
  match pieces.getLast? with
  | none => [run]
  | some tail =>
    if 1 < pieces.length ∧ isSilentE tables tail = true then addToLast pieces.dropLast tail
    else pieces

/-- One chunk of a token behind the syllables so far. -/
def addChunk (out : List Units) (chunk : Units) : List Units :=
  if chunk.any (isLetter tables) then out ++ syllabifyRun tables chunk
  else if out.isEmpty then [chunk]
  else addToLast out chunk

variable (token : Units)

def syllabify : List Units :=
  let chunks := allMatches (letterRuns tables) token
  (if chunks.isEmpty then [token] else chunks).foldl (addChunk tables) []

/-! ## Words -/

variable (text : Units)

def syllableWeight : ℚ :=
  max 1 ((codePoints text).countP tables.speakable : ℚ)

def closing : Pattern UInt16 :=
  .many (inRanges [(0x22, 0x22), (0x27, 0x27), (0x29, 0x29), (0x5D, 0x5D), (0x201D, 0x201D),
    (0x2019, 0x2019)])

def fullStop : Pattern UInt16 :=
  .seq (.one (inRanges [(0x2E, 0x2E), (0x21, 0x21), (0x3F, 0x3F), (0x2026, 0x2026),
    (0x3002, 0x3002), (0xFF01, 0xFF01), (0xFF1F, 0xFF1F)])) (.seq closing .atEnd)

def halfStop : Pattern UInt16 :=
  .seq (.one (inRanges [(0x2C, 0x2C), (0x3B, 0x3B), (0x3A, 0x3A), (0x3001, 0x3001),
    (0xFF0C, 0xFF0C), (0xFF1B, 0xFF1B), (0xFF1A, 0xFF1A), (0x2014, 0x2014), (0x2D, 0x2D)]))
    (.seq closing .atEnd)

/-- The pause of the mark at the end of a word. -/
def pauseWeight : ℚ :=
  if test fullStop token then 28 / 10 else if test halfStop token then 11 / 10 else 0

def addPause (pause : ℚ) : List CaptionSyllable → List CaptionSyllable
  | [] => []
  | [last] => [{ last with weight := last.weight + pause }]
  | syllable :: next :: rest => syllable :: addPause pause (next :: rest)

variable (offset : ℕ)

def buildWord : CaptionWord :=
  let syllables := addPause (pauseWeight token)
    ((syllabify tables token).map fun text => ⟨text, syllableWeight tables text⟩)
  ⟨token, syllables, (syllables.map CaptionSyllable.weight).sum, offset⟩

/-- One code point of a token: the parts so far, and the characters since the last CJK one. -/
def cutScript (state : List Units × Units) (char : Units) : List Units × Units :=
  if char.any isCjk then
    ((if state.2.isEmpty then state.1 else state.1 ++ [state.2]) ++ [char], [])
  else (state.1, state.2 ++ char)

def scriptParts : List Units :=
  let state := (codePoints token).foldl cutScript ([], [])
  if state.2.isEmpty then state.1 else state.1 ++ [state.2]

/-- A part without a speakable character goes to the unit before it. -/
def mergePart (merged : List Units) (part : Units) : List Units :=
  if !merged.isEmpty && !(codePoints part).any tables.speakable && !part.any isCjk then
    addToLast merged part
  else merged ++ [part]

def splitCjk : List Units := (scriptParts token).foldl (mergePart tables) []

def rawPieces (raw : Units) : List Units :=
  if raw.isEmpty then [] else if raw.any isCjk then splitCjk tables raw else [raw]

def buildWords (offset : ℕ) : List Units → List CaptionWord
  | [] => []
  | piece :: pieces =>
    buildWord tables piece offset ::
      buildWords (offset + (buildWord tables piece offset).syllables.length) pieces

def tokenizeCaption : List CaptionWord :=
  buildWords tables 0 ((splitAt (.plus JsText.isSpace) text).flatMap (rawPieces tables))

/-! ## Pieces that make up a text -/

omit tables in
theorem flatten_codePoints : (codePoints text).flatten = text := by
  fun_induction codePoints text with
  | case1 => rfl
  | case2 unit => rfl
  | case3 high low rest hpair ih => rw [List.flatten_cons, ih]; rfl
  | case4 high low rest hpair ih => rw [List.flatten_cons, ih]; rfl

omit tables in
theorem flatten_addToLast {items : List Units} (h : items ≠ []) (text : Units) :
    (addToLast items text).flatten = items.flatten ++ text ∧ addToLast items text ≠ [] := by
  fun_induction addToLast items text with
  | case1 text => exact absurd rfl h
  | case2 last text => simp
  | case3 item next items text ih =>
    obtain ⟨hflatten, -⟩ := ih (List.cons_ne_nil _ _)
    exact ⟨by simp [hflatten], List.cons_ne_nil _ _⟩

/-! ## Vowel groups -/

theorem eats_vowelGroup : Eats (vowelGroup tables) := by
  intro text way hway
  obtain ⟨first, -, second, hsecond, rfl⟩ := mem_ways_seq.mp hway
  obtain ⟨vowels, hvowels, tail, -, rfl⟩ := mem_ways_seq.mp hsecond
  have hne := eats_plus (isVowel tables) _ vowels hvowels
  simp [Way.andThen, hne]

theorem eats_letterRuns : Eats (letterRuns tables) := by
  intro text way hway
  rw [letterRuns, ways, List.mem_append, List.mem_map, List.mem_map] at hway
  rcases hway with ⟨inner, hinner, rfl⟩ | ⟨inner, hinner, rfl⟩
  · exact eats_plus (isLetter tables) text inner hinner
  · exact eats_plus (notLetter tables) text inner hinner

def Voiced : Prop := text = [] ∨ ∃ unit ∈ text, isVowel tables unit = true

/-- The consonants that belong to a vowel group: those up to the end, or the first of two. -/
def consonants : Pattern UInt16 :=
  .alt (.seq (.many (notVowel tables)) .atEnd)
    (.seq (.one (notVowel tables)) (.ahead (.one (notVowel tables))))

theorem voiced_consonants {rest : Units} {tail : Way UInt16}
    (h : matchAt (.opt (consonants tables)) rest = some tail) : Voiced tables tail.rest := by
  by_cases hvoiced : ∃ unit ∈ rest, isVowel tables unit = true
  · obtain ⟨vowel, hmem, hvowel⟩ := hvoiced
    rcases mem_ways_opt.mp (matchAt_mem h) with hinner | rfl
    · rw [consonants, ways, List.mem_append, List.mem_map, List.mem_map] at hinner
      rcases hinner with ⟨inner, hinner, rfl⟩ | ⟨inner, hinner, rfl⟩
      · obtain ⟨first, -, second, hsecond, rfl⟩ := mem_ways_seq.mp hinner
        rw [ways] at hsecond
        split_ifs at hsecond with hend
        · rw [List.mem_singleton.mp hsecond]
          exact .inl (List.isEmpty_iff.mp hend)
        · simp at hsecond
      · obtain ⟨first, hfirst, second, hsecond, rfl⟩ := mem_ways_seq.mp hinner
        obtain ⟨hall, -, hconsonants, -⟩ := mem_ways_run hfirst
        have hsame : second.rest = first.rest := by
          rw [ways] at hsecond
          split at hsecond
          · simp at hsecond
          · rw [List.mem_singleton.mp hsecond]
        refine .inr ⟨vowel, ?_, hvowel⟩
        change vowel ∈ second.rest
        rw [← hall, List.mem_append] at hmem
        rw [hsame]
        refine hmem.resolve_left fun htaken => ?_
        have hnot := hconsonants vowel htaken
        rw [notVowel, hvowel] at hnot
        cases hnot
    · exact .inr ⟨vowel, hmem, hvowel⟩
  · have hall : ∀ unit ∈ rest, notVowel tables unit = true := fun unit hunit => by
      by_contra hvowel
      exact hvoiced ⟨unit, hunit, by simpa [notVowel] using hvowel⟩
    have htake : rest.takeWhile (notVowel tables) = rest := List.takeWhile_eq_self_iff.mpr hall
    have hdrop : rest.dropWhile (notVowel tables) = [] := List.dropWhile_eq_nil_iff.mpr hall
    have hend : matchAt .atEnd (rest.dropWhile (notVowel tables)) = some ⟨[], [], []⟩ := by
      rw [hdrop]
      rfl
    have hrun : matchAt (.many (notVowel tables)) rest = some ⟨rest.takeWhile (notVowel tables), [],
        rest.dropWhile (notVowel tables)⟩ := matchAt_run (Nat.zero_le _)
    obtain ⟨way, hway, -, hrest⟩ := matchAt_alt_left
      (q := .seq (.one (notVowel tables)) (.ahead (.one (notVowel tables))))
      (matchAt_seq hrun hend)
    rw [consonants, matchAt_opt_some hway] at h
    rw [← Option.some.inj h]
    exact .inl hrest

theorem matchAt_vowelGroup {text : Units} (h : Voiced tables text) (hne : text ≠ []) :
    ∃ way, matchAt (vowelGroup tables) text = some way ∧ Voiced tables way.rest := by
  obtain ⟨vowel, hmem, hvowel⟩ := h.resolve_left hne
  have hopening : matchAt (.many (notVowel tables)) text =
      some ⟨text.takeWhile (notVowel tables), [], text.dropWhile (notVowel tables)⟩ :=
    matchAt_run (Nat.zero_le _)
  set behind := text.dropWhile (notVowel tables) with hbehind
  have hvowels : ∃ rest, matchAt (.plus (isVowel tables)) behind =
      some ⟨behind.takeWhile (isVowel tables), [], rest⟩ := by
    cases hcase : behind with
    | nil =>
      rw [hbehind, List.dropWhile_eq_nil_iff] at hcase
      have hnot := hcase vowel hmem
      rw [notVowel, hvowel] at hnot
      exact nomatch hnot
    | cons first rest =>
      have hfirst : notVowel tables first = false := by
        have hhead := List.head?_dropWhile_not (notVowel tables) text
        rw [← hbehind, hcase] at hhead
        simpa using hhead
      exact ⟨_, matchAt_plus_cons (by simpa [notVowel] using hfirst) rest⟩
  obtain ⟨rest, hvowels⟩ := hvowels
  obtain ⟨tail, htail⟩ := matchAt_opt (consonants tables) rest
  have hvoiced : Voiced tables tail.rest := voiced_consonants tables htail
  exact ⟨_, matchAt_seq hopening (matchAt_seq hvowels htail), hvoiced⟩

theorem flatten_vowelGroups {run : Units} (h : allMatches (vowelGroup tables) run ≠ []) :
    (allMatches (vowelGroup tables) run).flatten = run := by
  have hhits := hits_hits (eats_vowelGroup tables) run
  refine hhits.cover (P := Voiced tables) (fun text => matchAt_vowelGroup tables) ?_
  by_contra hsilent
  refine h ?_
  have hnone : search (vowelGroup tables) run = none := by
    cases hfound : search (vowelGroup tables) run with
    | none => rfl
    | some found =>
      obtain ⟨before, way⟩ := found
      obtain ⟨hall, hmatch⟩ := search_some hfound
      obtain ⟨first, -, second, hsecond, htaken⟩ := mem_ways_seq.mp (matchAt_mem hmatch)
      obtain ⟨vowels, hvowels, tail, -, rfl⟩ := mem_ways_seq.mp hsecond
      obtain ⟨vowel, others, hvowel⟩ := List.exists_cons_of_ne_nil
        (eats_plus (isVowel tables) _ vowels hvowels)
      have hmem : vowel ∈ run := by
        rw [← hall, ← htaken]
        simp [Way.andThen, hvowel]
      refine absurd (.inr ⟨vowel, hmem, ?_⟩) hsilent
      exact (mem_ways_run hvowels).2.2.1 vowel (by simp [hvowel])
  rw [allMatches, hits_of_search_none hnone]
  rfl

theorem flatten_letterRuns : (allMatches (letterRuns tables) token).flatten = token := by
  refine (hits_hits (eats_letterRuns tables) token).cover (P := fun _ => True) ?_ trivial
  rintro text - hne
  cases text with
  | nil => exact absurd rfl hne
  | cons unit text =>
    cases hletter : isLetter tables unit with
    | true =>
      obtain ⟨way, hway, -⟩ := matchAt_alt_left (q := .plus (notLetter tables))
        (matchAt_plus_cons hletter text)
      exact ⟨way, hway, trivial⟩
    | false =>
      have hnone : matchAt (.plus (isLetter tables)) (unit :: text) = none := by
        rw [matchAt_eq_none, List.eq_nil_iff_forall_not_mem]
        intro way hway
        obtain ⟨hall, -, hletters, hleast, -⟩ := mem_ways_run hway
        obtain ⟨first, others, hfirst⟩ :=
          List.exists_cons_of_ne_nil (List.length_pos_iff.mp hleast)
        rw [hfirst, List.cons_append] at hall
        have hyes := hletters first (by simp [hfirst])
        rw [(List.cons.inj hall).1, hletter] at hyes
        exact nomatch hyes
      have hother : notLetter tables unit = true := by simp [notLetter, hletter]
      obtain ⟨way, hway, -⟩ := matchAt_alt_right hnone
        (matchAt_plus_cons hother text)
      exact ⟨way, hway, trivial⟩

/-! ## Nothing is lost -/

theorem flatten_syllabifyRun (run : Units) :
    (syllabifyRun tables run).flatten = run ∧ syllabifyRun tables run ≠ [] := by
  unfold syllabifyRun
  dsimp only
  cases hlast : (allMatches (vowelGroup tables) run).getLast? with
  | none => exact ⟨List.flatten_singleton, List.cons_ne_nil _ _⟩
  | some tail =>
    have hne : allMatches (vowelGroup tables) run ≠ [] := by
      rintro hnil
      rw [hnil] at hlast
      exact nomatch hlast
    have hall := flatten_vowelGroups tables hne
    dsimp only
    split_ifs with hmerge
    · have hsplit := List.dropLast_append_getLast? tail hlast
      have hbefore : (allMatches (vowelGroup tables) run).dropLast ≠ [] := by
        intro hnil
        have hlength := congrArg List.length hnil
        rw [List.length_dropLast, List.length_nil] at hlength
        omega
      obtain ⟨hflatten, hkept⟩ := flatten_addToLast hbefore tail
      refine ⟨?_, hkept⟩
      rw [hflatten, ← List.flatten_singleton (l := tail), ← List.flatten_append, hsplit, hall]
    · exact ⟨hall, hne⟩

theorem flatten_addChunk (out : List Units) (chunk : Units) :
    (addChunk tables out chunk).flatten = out.flatten ++ chunk ∧
      addChunk tables out chunk ≠ [] := by
  unfold addChunk
  split_ifs with hletters hempty
  · obtain ⟨hflatten, hne⟩ := flatten_syllabifyRun tables chunk
    exact ⟨by rw [List.flatten_append, hflatten], List.append_ne_nil_of_right_ne_nil _ hne⟩
  · rw [List.isEmpty_iff.mp hempty]
    exact ⟨by simp, List.cons_ne_nil _ _⟩
  · exact flatten_addToLast (by simpa using hempty) chunk

theorem flatten_addChunks (chunks out : List Units) :
    (chunks.foldl (addChunk tables) out).flatten = out.flatten ++ chunks.flatten ∧
      (out ≠ [] ∨ chunks ≠ [] → chunks.foldl (addChunk tables) out ≠ []) := by
  induction chunks generalizing out with
  | nil => simp
  | cons chunk chunks ih =>
    obtain ⟨hflatten, hne⟩ := flatten_addChunk tables out chunk
    obtain ⟨hall, hkept⟩ := ih (addChunk tables out chunk)
    refine ⟨?_, fun _ => hkept (.inl hne)⟩
    rw [List.foldl_cons, hall, hflatten, List.flatten_cons, List.append_assoc]

theorem flatten_syllabify :
    (syllabify tables token).flatten = token ∧ syllabify tables token ≠ [] := by
  unfold syllabify
  dsimp only
  split_ifs with hnone
  · obtain ⟨hall, hne⟩ := flatten_addChunks tables [token] []
    exact ⟨by rw [hall]; simp, hne (.inr (List.cons_ne_nil _ _))⟩
  · obtain ⟨hall, hne⟩ := flatten_addChunks tables (allMatches (letterRuns tables) token) []
    exact ⟨by rw [hall, flatten_letterRuns]; rfl, hne (.inr (by simpa using hnone))⟩

omit tables in
theorem flatten_pushed (parts : List Units) (latin : Units) :
    (if latin.isEmpty then parts else parts ++ [latin]).flatten = parts.flatten ++ latin := by
  split_ifs with hempty
  · rw [List.isEmpty_iff.mp hempty, List.append_nil]
  · rw [List.flatten_append, List.flatten_singleton]

omit tables in
theorem flatten_cutScripts (chars : List Units) (state : List Units × Units) :
    (chars.foldl cutScript state).1.flatten ++ (chars.foldl cutScript state).2 =
      state.1.flatten ++ state.2 ++ chars.flatten := by
  induction chars generalizing state with
  | nil => simp
  | cons char chars ih =>
    rw [List.foldl_cons, ih, List.flatten_cons, ← List.append_assoc]
    congr 1
    unfold cutScript
    by_cases hcjk : char.any isCjk = true
    · rw [if_pos hcjk, List.flatten_append, flatten_pushed, List.flatten_singleton, List.append_nil]
    · rw [if_neg hcjk]
      exact (List.append_assoc _ _ _).symm

omit tables in
theorem flatten_scriptParts : (scriptParts token).flatten = token := by
  have hcut := flatten_cutScripts (codePoints token) ([], [])
  rw [flatten_codePoints] at hcut
  unfold scriptParts
  dsimp only
  rw [flatten_pushed, hcut]
  rfl

theorem flatten_mergeParts (parts merged : List Units) :
    (parts.foldl (mergePart tables) merged).flatten = merged.flatten ++ parts.flatten := by
  induction parts generalizing merged with
  | nil => simp
  | cons part parts ih =>
    rw [List.foldl_cons, ih, List.flatten_cons, ← List.append_assoc]
    congr 1
    unfold mergePart
    split_ifs with hmute
    · refine (flatten_addToLast (fun hnil => ?_) part).1
      rw [hnil] at hmute
      exact nomatch hmute
    · rw [List.flatten_append, List.flatten_singleton]

theorem flatten_rawPieces (raw : Units) : (rawPieces tables raw).flatten = raw := by
  unfold rawPieces
  split_ifs with hempty hcjk
  · rw [List.isEmpty_iff.mp hempty]
    rfl
  · rw [splitCjk, flatten_mergeParts, flatten_scriptParts]
    rfl
  · exact List.flatten_singleton

theorem flatten_pieces (raws : List Units) :
    (raws.flatMap (rawPieces tables)).flatten = raws.flatten := by
  induction raws with
  | nil => rfl
  | cons raw raws ih =>
    rw [List.flatMap_cons, List.flatten_append, ih, flatten_rawPieces, List.flatten_cons]

omit tables in
theorem flatten_splitAt_space :
    (splitAt (.plus JsText.isSpace) text).flatten =
      text.filter fun unit => !JsText.isSpace unit := by
  rw [splitAt, List.flatten_append, List.flatten_singleton]
  exact (hits_hits (eats_plus JsText.isSpace) text).flatten_gaps

omit tables in
theorem texts_addPause (pause : ℚ) (syllables : List CaptionSyllable) :
    (addPause pause syllables).map CaptionSyllable.text = syllables.map CaptionSyllable.text := by
  fun_induction addPause pause syllables with
  | case1 => rfl
  | case2 last => rfl
  | case3 syllable next rest ih => rw [List.map_cons, ih]; rfl

theorem texts_buildWord :
    (buildWord tables token offset).syllables.map CaptionSyllable.text =
      syllabify tables token := by
  unfold buildWord
  dsimp only
  rw [texts_addPause, List.map_map]
  exact List.map_id _

def CaptionWord.spoken (word : CaptionWord) : Units := word.syllables.flatMap CaptionSyllable.text

theorem spoken_buildWord :
    (buildWord tables token offset).spoken = token ∧
      (buildWord tables token offset).syllables ≠ [] := by
  obtain ⟨hflatten, hne⟩ := flatten_syllabify tables token
  have htexts := texts_buildWord tables token offset
  refine ⟨?_, fun hnil => hne ?_⟩
  · rw [CaptionWord.spoken, List.flatMap_def, htexts, hflatten]
  · rw [← htexts, hnil]
    rfl

/-- Words that keep a text, when they come behind some syllables: the syllables make up the text and
each word, and the offsets count them. -/
structure Keeps (words : List CaptionWord) : Prop where
  all_spoken : words.flatMap CaptionWord.spoken = text
  each_spoken : ∀ word ∈ words, word.text = word.spoken ∧ word.syllables ≠ []
  offset_eq : ∀ (before behind : List CaptionWord) (word : CaptionWord),
    words = before ++ word :: behind →
      word.offset = offset + (before.map fun word => word.syllables.length).sum

theorem keeps_buildWords (pieces : List Units) :
    Keeps pieces.flatten offset (buildWords tables offset pieces) := by
  induction pieces generalizing offset with
  | nil => exact ⟨rfl, nofun, fun before behind word h => by simp [buildWords] at h⟩
  | cons piece pieces ih =>
    obtain ⟨hspoken, hne⟩ := spoken_buildWord tables piece offset
    set word := buildWord tables piece offset with hword
    obtain ⟨htext, hwords, hoffsets⟩ := ih (offset + word.syllables.length)
    rw [buildWords, ← hword]
    refine ⟨?_, fun other hother => ?_, fun before behind other hsplit => ?_⟩
    · rw [List.flatMap_cons, htext, hspoken, List.flatten_cons]
    · rcases List.mem_cons.mp hother with rfl | hrest
      · exact ⟨hspoken.symm, hne⟩
      · exact hwords other hrest
    · cases before with
      | nil =>
        obtain ⟨rfl, -⟩ := List.cons.inj hsplit
        simp [hword, buildWord]
      | cons first before =>
        obtain ⟨rfl, hrest⟩ := List.cons.inj hsplit
        rw [hoffsets before behind other hrest, List.map_cons, List.sum_cons, Nat.add_assoc]

theorem tokenizeCaption_keeps (text : Units) :
    Keeps (text.filter fun unit => !JsText.isSpace unit) 0 (tokenizeCaption tables text) := by
  have hkeeps := keeps_buildWords tables 0
    ((splitAt (.plus JsText.isSpace) text).flatMap (rawPieces tables))
  rwa [flatten_pieces, flatten_splitAt_space] at hkeeps

end FastTts.Karaoke
