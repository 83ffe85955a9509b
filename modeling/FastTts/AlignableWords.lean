import FastTts.Json
import FastTts.Utf8Text

/-!
# Words to align

`tokenize_alignable_words` cuts a text into the words that the forced aligner times. It keeps
letters, digits and apostrophes; an ideograph is a word of its own.
-/

namespace FastTts.AlignableWords

open Utf8Spans

structure Utf8Char where
  codepoint : UInt32
  text : Bytes
  deriving DecidableEq, Repr

/-- How many bytes a lead byte announces, and its own bits of the code point. -/
def leadByte (ch : UInt8) : Option (ℕ × UInt32) :=
  if ch &&& 0x80 = 0 then some (1, ch.toUInt32)
  else if ch &&& 0xE0 = 0xC0 then some (2, (ch &&& 0x1F).toUInt32)
  else if ch &&& 0xF0 = 0xE0 then some (3, (ch &&& 0x0F).toUInt32)
  else if ch &&& 0xF8 = 0xF0 then some (4, (ch &&& 0x07).toUInt32)
  else none

variable (codepoint : UInt32)

def appendTail (tail : UInt8) : UInt32 :=
  (codepoint <<< 6) ||| (tail &&& 0x3F).toUInt32

def utf8Chars : Bytes → Except Exception (List Utf8Char)
  | [] => .ok []
  | ch :: rest =>
    match leadByte ch with
    | none => .error (bytes "Qwen3 forced aligner encountered invalid UTF-8")
    | some (len, codepoint) =>
      if rest.length + 1 < len then
        .error (bytes "Qwen3 forced aligner encountered truncated UTF-8")
      else if (rest.take (len - 1)).all isUtf8Continuation then
        (utf8Chars (rest.drop (len - 1))).map
          (⟨(rest.take (len - 1)).foldl appendTail codepoint, ch :: rest.take (len - 1)⟩ :: ·)
      else
        .error (bytes "Qwen3 forced aligner encountered invalid UTF-8 continuation byte")
termination_by text => text.length
decreasing_by
  rw [List.length_drop, List.length_cons]
  omega

def isCjk : Bool :=
  (0x4E00 ≤ codepoint && codepoint ≤ 0x9FFF) ||
    (0x3400 ≤ codepoint && codepoint ≤ 0x4DBF) ||
    (0x20000 ≤ codepoint && codepoint ≤ 0x2A6DF) ||
    (0x2A700 ≤ codepoint && codepoint ≤ 0x2B73F) ||
    (0x2B740 ≤ codepoint && codepoint ≤ 0x2B81F) ||
    (0x2B820 ≤ codepoint && codepoint ≤ 0x2CEAF) ||
    (0xF900 ≤ codepoint && codepoint ≤ 0xFAFF)

def isAsciiAlnum : Bool :=
  (0x41 ≤ codepoint && codepoint ≤ 0x5A) ||
    (0x61 ≤ codepoint && codepoint ≤ 0x7A) ||
    (0x30 ≤ codepoint && codepoint ≤ 0x39)

def isKeptNonAsciiLetterOrNumber : Bool :=
  (0x00C0 ≤ codepoint && codepoint ≤ 0x02AF) ||
    (0x0370 ≤ codepoint && codepoint ≤ 0x03FF) ||
    (0x0400 ≤ codepoint && codepoint ≤ 0x052F) ||
    (0x0E00 ≤ codepoint && codepoint ≤ 0x0E7F) ||
    (0x3040 ≤ codepoint && codepoint ≤ 0x30FF) ||
    (0xAC00 ≤ codepoint && codepoint ≤ 0xD7AF)

def isKeptChar : Bool :=
  codepoint == 0x27 || isAsciiAlnum codepoint || isCjk codepoint ||
    isKeptNonAsciiLetterOrNumber codepoint

def cleanToken (token : Bytes) : Except Exception Bytes := do
  let chars ← utf8Chars token
  .ok ((chars.filter fun ch => isKeptChar ch.codepoint).flatMap Utf8Char.text)

variable (state : List Bytes × Bytes)

/-- The words so far and the one that is open. -/
def splitStep (ch : Utf8Char) : List Bytes × Bytes :=
  if isCjk ch.codepoint then
    (state.1 ++ (if state.2.isEmpty then [] else [state.2]) ++ [ch.text], [])
  else (state.1, state.2 ++ ch.text)

def splitSegmentWithChinese (segment : Bytes) : Except Exception (List Bytes) := do
  let chars ← utf8Chars segment
  let (out, buffer) := chars.foldl splitStep ([], [])
  .ok (out ++ if buffer.isEmpty then [] else [buffer])

def flushSegment (words : List Bytes) (segment : Bytes) : Except Exception (List Bytes) := do
  if segment.isEmpty then .ok words
  else
    let cleaned ← cleanToken segment
    if cleaned.isEmpty then .ok words
    else
      let split ← splitSegmentWithChinese cleaned
      .ok (words ++ split)

def isSeparator : Bool :=
  codepoint == 0x20 || codepoint == 0x09 || codepoint == 0x0A || codepoint == 0x0D

def spaceStep (ch : Utf8Char) : Except Exception (List Bytes × Bytes) :=
  if isSeparator ch.codepoint then (flushSegment state.1 state.2).map (·, [])
  else .ok (state.1, state.2 ++ ch.text)

def tokenizeSpaceLanguage (text : Bytes) : Except Exception (List Bytes) := do
  let chars ← utf8Chars text
  let (words, segment) ← chars.foldlM spaceStep ([], [])
  flushSegment words segment

def flushLatin (words : List Bytes) (latin : Bytes) : Except Exception (List Bytes) := do
  if latin.isEmpty then .ok words
  else
    let cleaned ← cleanToken latin
    .ok (words ++ if cleaned.isEmpty then [] else [cleaned])

def mixedStep (ch : Utf8Char) : Except Exception (List Bytes × Bytes) :=
  if isCjk ch.codepoint then (flushLatin state.1 state.2).map fun words => (words ++ [ch.text], [])
  else if isKeptChar ch.codepoint then .ok (state.1, state.2 ++ ch.text)
  else (flushLatin state.1 state.2).map (·, [])

def tokenizeChineseMixed (text : Bytes) : Except Exception (List Bytes) := do
  let chars ← utf8Chars text
  let (words, latin) ← chars.foldlM mixedStep ([], [])
  flushLatin words latin

def lowerAscii (value : Bytes) : Bytes :=
  value.map fun ch => if 0x41 ≤ ch ∧ ch ≤ 0x5A then ch + (0x61 - 0x41) else ch

def tokenizeAlignableWords (text language : Bytes) : Except Exception (List Bytes) :=
  let normalizedLanguage := lowerAscii language
  if normalizedLanguage = bytes "chinese" ∨ normalizedLanguage = bytes "cantonese" then
    tokenizeChineseMixed text
  else tokenizeSpaceLanguage text

/-! ## Characters -/

variable (b : UInt8) (c : Char)

/-- The lead bytes of the four lengths, and the bytes that follow. -/
theorem encoded_byte : (b ≤ 0x7F → leadByte b = some (1, b.toUInt32)) ∧
    leadByte (b &&& 0x1F ||| 0xC0) = some (2, (b &&& 0x1F).toUInt32) ∧
    leadByte (b &&& 0x0F ||| 0xE0) = some (3, (b &&& 0x0F).toUInt32) ∧
    leadByte (b &&& 0x07 ||| 0xF0) = some (4, (b &&& 0x07).toUInt32) ∧
    (b &&& 0x3F ||| 0x80) &&& 0x3F = b &&& 0x3F := by
  revert b
  exact forall_byte (by decide +kernel)

theorem toNat_appendTail (h : codepoint.toNat < 2 ^ 26) :
    (appendTail codepoint (b &&& 0x3F ||| 0x80)).toNat =
      codepoint.toNat * 64 + b.toNat % 64 := by
  have hbits := (encoded_byte b).2.2.2.2
  have htail : (b &&& 0x3F).toNat = b.toNat % 64 := by
    rw [UInt8.toNat_and]
    exact Nat.and_two_pow_sub_one_eq_mod b.toNat 6
  have hshift : (codepoint <<< 6).toNat = codepoint.toNat * 64 := by
    rw [UInt32.toNat_shiftLeft, Nat.shiftLeft_eq]
    change codepoint.toNat * 2 ^ 6 % 2 ^ 32 = _
    omega
  unfold appendTail
  rw [hbits, UInt32.toNat_or, UInt8.toNat_toUInt32, htail, hshift, Nat.mul_comm]
  have hlt : b.toNat % 64 < 2 ^ 6 := Nat.mod_lt _ (by decide)
  exact (Nat.two_pow_add_eq_or_of_lt hlt codepoint.toNat).symm

/-- The character as the scan has it. -/
def ofChar (c : Char) : Utf8Char := ⟨c.val, String.utf8EncodeChar c⟩

theorem toNat_shifted (v : UInt32) {k : ℕ} (hk : k < 32) :
    (v >>> UInt32.ofNat k).toUInt8.toNat = v.toNat / 2 ^ k % 256 := by
  have hshift : (UInt32.ofNat k).toNat % 32 = k := by
    rw [UInt32.toNat_ofNat']
    omega
  rw [UInt32.toNat_toUInt8, UInt32.toNat_shiftRight, hshift, Nat.shiftRight_eq_div_pow]

theorem toNat_lead (b mask : UInt8) (k : ℕ) (hmask : mask.toNat = 2 ^ k - 1) :
    (b &&& mask).toUInt32.toNat = b.toNat % 2 ^ k := by
  rw [UInt8.toNat_toUInt32, UInt8.toNat_and, hmask, Nat.and_two_pow_sub_one_eq_mod]

theorem leadByte_encode :
    ∃ lead tails payload, String.utf8EncodeChar c = lead :: tails ∧
      leadByte lead = some (tails.length + 1, payload) ∧
      tails.all isUtf8Continuation = true ∧ tails.foldl appendTail payload = c.val := by
  have hsize : c.utf8Size = 1 ∨ c.utf8Size = 2 ∨ c.utf8Size = 3 ∨ c.utf8Size = 4 := by
    have hpos := c.utf8Size_pos
    have hle := c.utf8Size_le_four
    omega
  have h0 : c.val.toUInt8.toNat = c.val.toNat % 256 := UInt32.toNat_toUInt8 _
  have h6 : (c.val >>> 6).toUInt8.toNat = c.val.toNat / 64 % 256 :=
    toNat_shifted c.val (by decide)
  have h12 : (c.val >>> 12).toUInt8.toNat = c.val.toNat / 4096 % 256 :=
    toNat_shifted c.val (by decide)
  have h18 : (c.val >>> 18).toUInt8.toNat = c.val.toNat / 262144 % 256 :=
    toNat_shifted c.val (by decide)
  rcases hsize with h | h | h | h
  · rw [String.utf8EncodeChar_eq_singleton h]
    rw [Char.utf8Size_eq_one_iff, UInt32.le_iff_toNat_le] at h
    have hbound : c.val.toNat ≤ 127 := h
    refine ⟨c.val.toUInt8, [], c.val.toUInt8.toUInt32, rfl, (encoded_byte _).1 ?_, rfl, ?_⟩
    · rw [UInt8.le_iff_toNat_le, h0]
      exact (Nat.mod_le _ _).trans h
    · apply UInt32.toNat_inj.mp
      rw [List.foldl_nil, UInt8.toNat_toUInt32, h0]
      omega
  · rw [String.utf8EncodeChar_eq_cons_cons h]
    obtain ⟨-, hbound⟩ := Char.utf8Size_eq_two_iff.mp h
    have hbound : c.val.toNat ≤ 0x7FF := UInt32.le_iff_toNat_le.mp hbound
    have hlead := toNat_lead (c.val >>> 6).toUInt8 0x1F 5 rfl
    refine ⟨_, _, _, rfl, (encoded_byte _).2.1, by simp [continuation], ?_⟩
    apply UInt32.toNat_inj.mp
    rw [List.foldl_cons, List.foldl_nil, toNat_appendTail _ _ (by omega), hlead, h0, h6]
    omega
  · rw [String.utf8EncodeChar_eq_cons_cons_cons h]
    obtain ⟨-, hbound⟩ := Char.utf8Size_eq_three_iff.mp h
    have hbound : c.val.toNat ≤ 0xFFFF := UInt32.le_iff_toNat_le.mp hbound
    have hlead := toNat_lead (c.val >>> 12).toUInt8 0x0F 4 rfl
    have hsecond := toNat_appendTail ((c.val >>> 12).toUInt8 &&& 0x0F).toUInt32
      (c.val >>> 6).toUInt8 (by omega)
    refine ⟨_, _, _, rfl, (encoded_byte _).2.2.1, by simp [continuation], ?_⟩
    apply UInt32.toNat_inj.mp
    rw [List.foldl_cons, List.foldl_cons, List.foldl_nil, toNat_appendTail _ _ (by omega), hsecond,
      hlead, h0, h6, h12]
    omega
  · rw [String.utf8EncodeChar_eq_cons_cons_cons_cons h]
    have hbound : c.val.toNat < 0x110000 := by
      rcases c.valid with hvalid | hvalid
      · exact hvalid.trans (by decide)
      · exact hvalid.2
    have hlead := toNat_lead (c.val >>> 18).toUInt8 0x07 3 rfl
    have hsecond := toNat_appendTail ((c.val >>> 18).toUInt8 &&& 0x07).toUInt32
      (c.val >>> 12).toUInt8 (by omega)
    have hthird := toNat_appendTail (appendTail ((c.val >>> 18).toUInt8 &&& 0x07).toUInt32
      ((c.val >>> 12).toUInt8 &&& 0x3F ||| 0x80)) (c.val >>> 6).toUInt8 (by omega)
    refine ⟨_, _, _, rfl, (encoded_byte _).2.2.2.1, by simp [continuation], ?_⟩
    apply UInt32.toNat_inj.mp
    rw [List.foldl_cons, List.foldl_cons, List.foldl_cons, List.foldl_nil,
      toNat_appendTail _ _ (by omega), hthird, hsecond, hlead, h0, h6, h12, h18]
    omega

theorem utf8Chars_cons (rest : Bytes) :
    utf8Chars (String.utf8EncodeChar c ++ rest) = (utf8Chars rest).map (ofChar c :: ·) := by
  obtain ⟨lead, tails, payload, hencode, hlead, htails, hpayload⟩ := leadByte_encode c
  rw [hencode, List.cons_append, utf8Chars, hlead]
  simp only [Nat.add_sub_cancel, List.take_left', List.drop_left', htails, hpayload, if_true]
  rw [if_neg (by rw [List.length_append]; omega), ofChar, hencode]

variable (chars : List Char)

theorem utf8Chars_encode : utf8Chars (encode chars) = .ok (chars.map ofChar) := by
  induction chars with
  | nil => rw [encode_nil, utf8Chars]; rfl
  | cons c chars ih => rw [encode_cons, utf8Chars_cons, ih]; rfl

theorem encode_eq_nil {chars : List Char} : encode chars = [] ↔ chars = [] := by
  cases chars with
  | nil => simp
  | cons c chars =>
    obtain ⟨lead, tails, -, hencode, -⟩ := leadByte_encode c
    simp [hencode]

theorem isEmpty_encode : (encode chars).isEmpty = chars.isEmpty := by
  rw [Bool.eq_iff_iff, List.isEmpty_iff, List.isEmpty_iff, encode_eq_nil]

def kept : List Char := chars.filter fun c => isKeptChar c.val

theorem cleanToken_encode : cleanToken (encode chars) = .ok (encode (kept chars)) := by
  unfold cleanToken
  rw [utf8Chars_encode]
  change Except.ok _ = _
  rw [List.filter_map, List.flatMap_map, List.flatMap_def]
  rfl

/-! ## Words -/

/-- The characters, cut into words: an ideograph is a word of its own. -/
structure Splits (words : List Bytes) : Prop where
  cut : ∃ parts : List (List Char), words = parts.map encode ∧ parts.flatten = chars ∧
    (∀ part ∈ parts, part ≠ []) ∧
    ∀ part ∈ parts, ∀ c ∈ part, isCjk c.val = true → part = [c]

theorem splits_nil : Splits [] [] := ⟨[], by simp⟩

variable {words : List Bytes} {done : List Char}

theorem Splits.append {a b : List Char} {words' : List Bytes} (h : Splits a words)
    (h' : Splits b words') : Splits (a ++ b) (words ++ words') := by
  obtain ⟨parts, rfl, rfl, hne, hcjk⟩ := h
  obtain ⟨parts', rfl, rfl, hne', hcjk'⟩ := h'
  refine ⟨parts ++ parts', by simp, by simp, ?_, ?_⟩
  · exact List.forall_mem_append.mpr ⟨hne, hne'⟩
  · exact List.forall_mem_append.mpr ⟨hcjk, hcjk'⟩

theorem splits_ideograph : Splits [c] [String.utf8EncodeChar c] :=
  ⟨[[c]], by simp⟩

theorem splits_open {chars : List Char} (h : ∀ c ∈ chars, isCjk c.val = false) :
    Splits chars (if (encode chars).isEmpty then [] else [encode chars]) := by
  rw [isEmpty_encode]
  cases chars with
  | nil => exact splits_nil
  | cons c chars =>
    refine ⟨[c :: chars], by simp, by simp, by simp, ?_⟩
    intro part hpart d hd hcjk
    obtain rfl := List.mem_singleton.mp hpart
    rw [h d hd] at hcjk
    contradiction

theorem foldl_splitStep {out : List Bytes} (hout : Splits done out) (buffer : List Char)
    (hbuffer : ∀ c ∈ buffer, isCjk c.val = false) (chars : List Char) :
    ∃ out' buffer', (chars.map ofChar).foldl splitStep (out, encode buffer) = (out', buffer') ∧
      Splits (done ++ buffer ++ chars) (out' ++ if buffer'.isEmpty then [] else [buffer']) := by
  induction chars generalizing done buffer out with
  | nil => exact ⟨_, _, rfl, by simpa using hout.append (splits_open hbuffer)⟩
  | cons c chars ih =>
    rw [List.map_cons, List.foldl_cons]
    cases hcjk : isCjk c.val
    · have hstep : splitStep (out, encode buffer) (ofChar c) = (out, encode (buffer ++ [c])) := by
        simp [splitStep, ofChar, hcjk]
      obtain ⟨out', buffer', hfold, hsplits⟩ := ih hout (buffer ++ [c]) (by
        simpa [or_imp, forall_and, hcjk] using hbuffer)
      exact ⟨out', buffer', by rw [hstep, hfold], by simpa using hsplits⟩
    · have hstep : splitStep (out, encode buffer) (ofChar c) =
          (out ++ (if (encode buffer).isEmpty then [] else [encode buffer]) ++
            [String.utf8EncodeChar c], encode []) := by
        simp [splitStep, ofChar, hcjk]
      obtain ⟨out', buffer', hfold, hsplits⟩ := ih
        ((hout.append (splits_open hbuffer)).append (splits_ideograph c)) [] (by simp)
      exact ⟨out', buffer', by rw [hstep, hfold], by simpa using hsplits⟩

theorem splitSegmentWithChinese_encode :
    ∃ words, splitSegmentWithChinese (encode chars) = .ok words ∧ Splits chars words := by
  obtain ⟨out, buffer, hfold, hsplits⟩ := foldl_splitStep splits_nil [] (by simp) chars
  refine ⟨out ++ if buffer.isEmpty then [] else [buffer], ?_, by simpa using hsplits⟩
  unfold splitSegmentWithChinese
  rw [utf8Chars_encode]
  change (let (out, buffer) := (chars.map ofChar).foldl splitStep ([], encode [])
    Except.ok (out ++ if buffer.isEmpty then [] else [buffer])) = _
  rw [hfold]

theorem flushSegment_encode (hwords : Splits done words) (segment : List Char) :
    ∃ words', flushSegment words (encode segment) = .ok words' ∧
      Splits (done ++ kept segment) words' := by
  unfold flushSegment
  rw [isEmpty_encode]
  split_ifs with hempty
  · rw [List.isEmpty_iff.mp hempty]
    exact ⟨words, rfl, by simpa [kept] using hwords⟩
  · rw [cleanToken_encode]
    change ∃ words', (if (encode (kept segment)).isEmpty then Except.ok words else do
      let split ← splitSegmentWithChinese (encode (kept segment))
      Except.ok (words ++ split)) = .ok words' ∧ _
    rw [isEmpty_encode]
    split_ifs with hcleaned
    · exact ⟨words, rfl, by simpa [List.isEmpty_iff.mp hcleaned] using hwords⟩
    · obtain ⟨split, hsplit, hsplits⟩ := splitSegmentWithChinese_encode (kept segment)
      rw [hsplit]
      exact ⟨words ++ split, rfl, hwords.append hsplits⟩

theorem kept_append (a b : List Char) : kept (a ++ b) = kept a ++ kept b :=
  List.filter_append ..

theorem not_kept_of_separator {codepoint : UInt32} (h : isSeparator codepoint = true) :
    isKeptChar codepoint = false := by
  simp only [isSeparator, Bool.or_eq_true, beq_iff_eq] at h
  rcases h with ((rfl | rfl) | rfl) | rfl <;> decide

theorem foldlM_spaceStep (hwords : Splits done words) (segment chars : List Char) :
    ∃ done' words' segment',
      (chars.map ofChar).foldlM spaceStep (words, encode segment) = .ok (words', encode segment') ∧
        Splits done' words' ∧ done' ++ kept segment' = done ++ kept (segment ++ chars) := by
  induction chars generalizing done words segment with
  | nil => exact ⟨done, words, segment, rfl, hwords, by simp⟩
  | cons c chars ih =>
    rw [List.map_cons, List.foldlM_cons]
    cases hseparator : isSeparator c.val
    · have hstep : spaceStep (words, encode segment) (ofChar c) =
          .ok (words, encode (segment ++ [c])) := by
        simp [spaceStep, ofChar, hseparator]
      obtain ⟨done', words', segment', hfold, hsplits, hdone⟩ := ih hwords (segment ++ [c])
      exact ⟨done', words', segment', by rw [hstep]; exact hfold, hsplits, by simpa using hdone⟩
    · obtain ⟨flushed, hflush, hflushed⟩ := flushSegment_encode hwords segment
      have hstep : spaceStep (words, encode segment) (ofChar c) = .ok (flushed, encode []) := by
        simp [spaceStep, ofChar, hseparator, hflush, Except.map]
      have hdropped : kept [c] = [] := by simp [kept, not_kept_of_separator hseparator]
      obtain ⟨done', words', segment', hfold, hsplits, hdone⟩ := ih hflushed []
      refine ⟨done', words', segment', by rw [hstep]; exact hfold, hsplits, ?_⟩
      rw [hdone, ← List.singleton_append, kept_append, kept_append, kept_append, hdropped]
      simp [kept]

theorem tokenizeSpaceLanguage_encode :
    ∃ words, tokenizeSpaceLanguage (encode chars) = .ok words ∧ Splits (kept chars) words := by
  obtain ⟨done, words, segment, hfold, hsplits, hdone⟩ := foldlM_spaceStep splits_nil [] chars
  obtain ⟨flushed, hflush, hflushed⟩ := flushSegment_encode hsplits segment
  rw [hdone] at hflushed
  refine ⟨flushed, ?_, by simpa using hflushed⟩
  unfold tokenizeSpaceLanguage
  rw [utf8Chars_encode]
  change ((chars.map ofChar).foldlM spaceStep ([], encode [])).bind
    (fun state => flushSegment state.1 state.2) = _
  rw [hfold]
  exact hflush

/-- The characters that a word of the mixed language is gathered from. -/
def Gathered (latin : List Char) : Prop :=
  ∀ c ∈ latin, isCjk c.val = false ∧ isKeptChar c.val = true

theorem flushLatin_encode {latin : List Char} (hwords : Splits done words)
    (hlatin : Gathered latin) :
    ∃ words', flushLatin words (encode latin) = .ok words' ∧ Splits (done ++ latin) words' := by
  have hsplits := hwords.append (splits_open fun c hc => (hlatin c hc).1)
  have hkept : kept latin = latin := List.filter_eq_self.mpr fun c hc => (hlatin c hc).2
  unfold flushLatin
  rw [cleanToken_encode, hkept]
  split_ifs with hempty
  · exact ⟨words, rfl, by simpa [hempty] using hsplits⟩
  · exact ⟨_, rfl, hsplits⟩

theorem foldlM_mixedStep (hwords : Splits done words) (latin : List Char) (hlatin : Gathered latin)
    (chars : List Char) :
    ∃ done' words' latin',
      (chars.map ofChar).foldlM mixedStep (words, encode latin) = .ok (words', encode latin') ∧
        Splits done' words' ∧ Gathered latin' ∧ done' ++ latin' = done ++ latin ++ kept chars := by
  induction chars generalizing done words latin with
  | nil => exact ⟨done, words, latin, rfl, hwords, hlatin, by simp [kept]⟩
  | cons c chars ih =>
    have hnone : Gathered [] := by simp [Gathered]
    obtain ⟨flushed, hflush, hflushed⟩ := flushLatin_encode hwords hlatin
    rw [List.map_cons, List.foldlM_cons, ← List.singleton_append, kept_append]
    cases hcjk : isCjk c.val
    · cases hkept : isKeptChar c.val
      · have hstep : mixedStep (words, encode latin) (ofChar c) = .ok (flushed, encode []) := by
          simp [mixedStep, ofChar, hcjk, hkept, hflush, Except.map]
        obtain ⟨done', words', latin', hfold, hsplits, hgathered, hdone⟩ := ih hflushed [] hnone
        refine ⟨done', words', latin', by rw [hstep]; exact hfold, hsplits, hgathered, ?_⟩
        simpa [kept, hkept] using hdone
      · have hstep : mixedStep (words, encode latin) (ofChar c) =
            .ok (words, encode (latin ++ [c])) := by
          simp [mixedStep, ofChar, hcjk, hkept]
        have hlonger : Gathered (latin ++ [c]) :=
          List.forall_mem_append.mpr ⟨hlatin, by simp [hcjk, hkept]⟩
        obtain ⟨done', words', latin', hfold, hsplits, hgathered, hdone⟩ := ih hwords (latin ++ [c]) hlonger
        refine ⟨done', words', latin', by rw [hstep]; exact hfold, hsplits, hgathered, ?_⟩
        simpa [kept, hkept] using hdone
    · have hkept : isKeptChar c.val = true := by simp [isKeptChar, hcjk]
      have hstep : mixedStep (words, encode latin) (ofChar c) =
          .ok (flushed ++ [String.utf8EncodeChar c], encode []) := by
        simp [mixedStep, ofChar, hcjk, hflush, Except.map]
      obtain ⟨done', words', latin', hfold, hsplits, hgathered, hdone⟩ :=
        ih (hflushed.append (splits_ideograph c)) [] hnone
      refine ⟨done', words', latin', by rw [hstep]; exact hfold, hsplits, hgathered, ?_⟩
      simpa [kept, hkept] using hdone

theorem tokenizeChineseMixed_encode :
    ∃ words, tokenizeChineseMixed (encode chars) = .ok words ∧ Splits (kept chars) words := by
  obtain ⟨done, words, latin, hfold, hsplits, hgathered, hdone⟩ :=
    foldlM_mixedStep splits_nil [] (by simp [Gathered]) chars
  obtain ⟨flushed, hflush, hflushed⟩ := flushLatin_encode hsplits hgathered
  rw [hdone] at hflushed
  refine ⟨flushed, ?_, by simpa using hflushed⟩
  unfold tokenizeChineseMixed
  rw [utf8Chars_encode]
  change ((chars.map ofChar).foldlM mixedStep ([], encode [])).bind
    (fun state => flushLatin state.1 state.2) = _
  rw [hfold]
  exact hflush

/-- Whatever the language, the words are the kept characters of the text, cut up. -/
theorem tokenizeAlignableWords_splits (chars : List Char) (language : Bytes) :
    ∃ words, tokenizeAlignableWords (encode chars) language = .ok words ∧
      (∀ word ∈ words, word ≠ []) ∧ words.flatten = encode (kept chars) ∧
      Splits (kept chars) words := by
  obtain ⟨words, hwords, hsplits⟩ : ∃ words,
      tokenizeAlignableWords (encode chars) language = .ok words ∧ Splits (kept chars) words := by
    unfold tokenizeAlignableWords
    simp only
    split_ifs
    · exact tokenizeChineseMixed_encode chars
    · exact tokenizeSpaceLanguage_encode chars
  refine ⟨words, hwords, ?_, ?_, hsplits⟩
  · obtain ⟨parts, rfl, -, hne, -⟩ := hsplits
    intro word hword
    obtain ⟨part, hpart, rfl⟩ := List.mem_map.mp hword
    exact fun hnil => hne part hpart (encode_eq_nil.mp hnil)
  · obtain ⟨parts, rfl, hparts, -, -⟩ := hsplits
    rw [← hparts]
    simp only [encode, List.map_flatten, List.flatten_flatten, List.map_map]
    rfl

end FastTts.AlignableWords
