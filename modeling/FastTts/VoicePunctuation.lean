import FastTts.VoiceCommitment
import FastTts.Utf8Text
import Mathlib

/-!
# Tokens and punctuation

The tokenizer scans bytes. Over the characters of a text it is a small machine: white space ends a
word, an ideograph is a token of its own, CJK and fullwidth marks end a word as well, ASCII marks
are passed over, and every other character is part of the word. So the tokens end at characters, and
punctuation behind a word counts only where it keeps two words apart or is taken for a letter.
-/

namespace FastTts.Voice

open Utf8Spans (encode IsBoundary IsUtf8 forall_byte)

/-! ## The tokenizer over characters -/

inductive Kind
  | space
  | mark
  | word
  | ideograph
  | wide
  deriving DecidableEq

/-- What a character is to the tokenizer. -/
def kind (c : Char) : Kind :=
  if c.toNat < 0x80 then
    if isSpace c.toUInt8 then .space
    else if isAlnum c.toUInt8 || c.toUInt8 == 0x27 then .word
    else .mark
  else if 0x3000 ≤ c.toNat ∧ c.toNat < 0x3040 then .wide
  else if 0x3040 ≤ c.toNat ∧ c.toNat < 0xA000 then .ideograph
  else if 0xF000 ≤ c.toNat ∧ c.toNat < 0x10000 then .wide
  else .word

/-- A character as part of a word. -/
def normalizedChar (c : Char) : Bytes :=
  if c.toNat < 0x80 then [toLower c.toUInt8] else String.utf8EncodeChar c

variable (current : Bytes)

def flushWord : List Bytes := if current = [] then [] else [current]

/-- The words of a text, `current` being the word that is read. -/
def wordsFrom (current : Bytes) : List Char → List Bytes
  | [] => flushWord current
  | c :: chars =>
    match kind c with
    | .space | .wide => flushWord current ++ wordsFrom [] chars
    | .mark => wordsFrom current chars
    | .word => wordsFrom (current ++ normalizedChar c) chars
    | .ideograph => flushWord current ++ String.utf8EncodeChar c :: wordsFrom [] chars

theorem flushToken_words (rawEnd : ℕ) :
    (flushToken [] current rawEnd).map Token.normalized = flushWord current := by
  rw [flushToken, flushWord]
  split_ifs <;> rfl

variable {chars : List Char} {c : Char}

theorem wordsFrom_end (h : (encode chars).head?.all isSpace = true) :
    wordsFrom current chars = flushWord current ++ wordsFrom [] chars := by
  cases chars with
  | nil => exact (List.append_nil _).symm
  | cons c chars =>
    have hkind : kind c = .space := by
      have hspan := (show Utf8Spans.IsCodepoint (String.utf8EncodeChar c) from ⟨c, rfl⟩).isSpan
      cases henc : String.utf8EncodeChar c with
      | nil => exact absurd henc hspan.ne_nil
      | cons byte rest =>
        rw [Utf8Spans.encode_cons, henc, List.cons_append, List.head?_cons, Option.all_some] at h
        have hascii := Utf8Spans.ascii_of_isSpace h
        rw [henc] at hspan
        have hsingle := hspan.eq_singleton List.mem_cons_self hascii
        have hsize : c.utf8Size = 1 := by
          rw [← String.length_utf8EncodeChar, henc, hsingle, List.length_singleton]
        have hbyte := String.utf8EncodeChar_eq_singleton hsize
        rw [henc, List.cons.injEq] at hbyte
        rw [Char.utf8Size_eq_one_iff, UInt32.le_iff_toNat_le] at hsize
        have hlt : c.toNat < 0x80 := Nat.lt_succ_of_le hsize
        rw [kind, if_pos hlt, if_pos]
        rw [← h, hbyte.1]
        rfl
    rw [wordsFrom, wordsFrom, hkind]
    rfl

/-! ## One character -/

variable {width fuel : ℕ} {punctuation : List Char}

theorem sequenceLength_of_lead {ch : UInt8} (h : Utf8Spans.utf8Width ch = some width) :
    sequenceLength ch = width := by
  have hlead := forall_byte (p := fun ch => Utf8Spans.utf8Width ch ≠ none →
    Utf8Spans.utf8Width ch = some (sequenceLength ch)) (by decide +kernel) ch
  rw [h] at hlead
  exact (Option.some.inj (hlead (Option.some_ne_none width))).symm

theorem settle_words {p : Prop} [Decidable p] (word : Bytes) (rawEnd length : ℕ)
    (hp : p → (encode chars).head?.all isSpace = true) :
    (if p then (⟨flushToken [] word rawEnd, length, []⟩ : Scanned)
        else ⟨[], length, word⟩).emitted.map Token.normalized ++
      wordsFrom (if p then (⟨flushToken [] word rawEnd, length, []⟩ : Scanned)
        else ⟨[], length, word⟩).current chars = wordsFrom word chars := by
  by_cases h : p
  · rw [if_pos h, wordsFrom_end word (hp h), flushToken_words]
  · rw [if_neg h]
    rfl

/-- A round of the scan reads one character, and emits what the machine emits. -/
structure Reads (c : Char) (i : ℕ) (byte : UInt8) (rest current : Bytes) (chars : List Char) :
    Prop where
  length : (scan i byte (rest ++ encode chars) current).length = rest.length + 1
  words : (scan i byte (rest ++ encode chars) current).emitted.map Token.normalized ++
    wordsFrom (scan i byte (rest ++ encode chars) current).current chars =
      wordsFrom current (c :: chars)

theorem reads_ascii (hc : c.toNat < 0x80) (i : ℕ) (current : Bytes) (chars : List Char) :
    Reads c i c.toUInt8 [] current chars := by
  have hbyte : c.toUInt8 < 0x80 := by
    rw [UInt8.lt_iff_toNat_lt]
    change c.toNat % 256 < 128
    omega
  by_cases hspace : isSpace c.toUInt8 = true
  · have hscan : scan i c.toUInt8 (encode chars) current = ⟨flushToken [] current i, 1, []⟩ := by
      rw [scan, if_pos hbyte, if_pos hspace]
    refine ⟨by rw [List.nil_append, hscan]; rfl, ?_⟩
    rw [List.nil_append, hscan, flushToken_words, wordsFrom, kind, if_pos hc, if_pos hspace]
  · generalize hword : (if (isAlnum c.toUInt8 || c.toUInt8 == 0x27) = true then
      current ++ [toLower c.toUInt8] else current) = word
    have hscan : scan i c.toUInt8 (encode chars) current =
        if (encode chars).head?.all isSpace then ⟨flushToken [] word (i + 1), 1, []⟩
        else ⟨[], 1, word⟩ := by
      rw [scan, if_pos hbyte, if_neg hspace]
      dsimp only
      rw [hword]
    constructor
    · rw [List.nil_append, hscan]
      split_ifs <;> rfl
    · rw [List.nil_append, hscan, settle_words word (i + 1) 1 id, ← hword, wordsFrom, kind,
        if_pos hc, if_neg hspace, normalizedChar, if_pos hc]
      split_ifs <;> rfl

theorem byte_of_wide {byte : UInt8} (h : Utf8Spans.utf8Width byte = some width)
    (hwidth : width ≠ 1) : ¬ byte < 0x80 := by
  have hlead := forall_byte (p := fun ch => ch < 0x80 → Utf8Spans.utf8Width ch = some 1)
    (by decide +kernel) byte
  intro hlt
  rw [hlead hlt, Option.some.injEq] at h
  exact hwidth h.symm

theorem scan_wide {byte : UInt8} {rest : Bytes} (hspan : Utf8Spans.IsSpan (byte :: rest))
    (hrest : rest ≠ []) (i : ℕ) (tail current : Bytes) : scan i byte (rest ++ tail) current =
      if rest.length = 2 ∧ isCjkLead byte then
        if byte == 0xE3 && rest.getD 0 0 == 0x80 then
          ⟨flushToken [] current i, rest.length + 1, []⟩
        else ⟨flushToken [] current i ++ [⟨byte :: rest, i + (rest.length + 1)⟩], rest.length + 1, []⟩
      else if rest.length = 2 ∧ byte = 0xEF then ⟨flushToken [] current i, rest.length + 1, []⟩
      else if tail = [] then
        ⟨flushToken [] (current ++ byte :: rest) (i + (rest.length + 1)), rest.length + 1, []⟩
      else ⟨[], rest.length + 1, current ++ byte :: rest⟩ := by
  have hlength := sequenceLength_of_lead hspan.1
  have hone : rest.length + 1 ≠ 1 := fun h => hrest (List.eq_nil_of_length_eq_zero (by omega))
  have htake : (byte :: (rest ++ tail)).take (rest.length + 1) = byte :: rest := by
    rw [List.take_succ_cons, List.take_left]
  have hdrop : (byte :: (rest ++ tail)).drop (rest.length + 1) = tail := by
    rw [List.drop_succ_cons, List.drop_left]
  rw [scan, if_neg (byte_of_wide hspan.1 hone), hlength, htake, hdrop]
  simp only [List.length_cons, Nat.reduceEqDiff, List.getD_cons_succ]

theorem reads_letter {byte : UInt8} {rest : Bytes} (henc : String.utf8EncodeChar c = byte :: rest)
    (hrest : rest ≠ []) (hkind : kind c = .word) (hc : ¬ c.toNat < 0x80)
    (hcjk : ¬ (rest.length = 2 ∧ isCjkLead byte = true)) (hfull : ¬ (rest.length = 2 ∧ byte = 0xEF))
    (i : ℕ) (current : Bytes) (chars : List Char) : Reads c i byte rest current chars := by
  have hspan := (show Utf8Spans.IsCodepoint (byte :: rest) from ⟨c, henc.symm⟩).isSpan
  have hscan := scan_wide hspan hrest i (encode chars) current
  rw [if_neg hcjk, if_neg hfull] at hscan
  have hend : encode chars = [] → (encode chars).head?.all isSpace = true := by
    intro h
    rw [h]
    rfl
  constructor
  · rw [hscan]
    split_ifs <;> rfl
  · rw [hscan, settle_words (current ++ byte :: rest) _ _ hend, wordsFrom, hkind, normalizedChar,
      if_neg hc, henc]

theorem reads_three (hsize : c.utf8Size = 3) : ∃ byte rest,
    String.utf8EncodeChar c = byte :: rest ∧ ∀ i current chars, Reads c i byte rest current chars := by
  obtain ⟨lead, second, third, henc, hlead, hsecond⟩ := Utf8Spans.three_bytes hsize
  refine ⟨lead, [second, third], henc, fun i current chars => ?_⟩
  rw [Char.utf8Size_eq_three_iff, UInt32.lt_iff_toNat_lt, UInt32.le_iff_toNat_le] at hsize
  obtain ⟨hgt, hle⟩ : 0x7FF < c.toNat ∧ c.toNat ≤ 0xFFFF := hsize
  have hascii : ¬ c.toNat < 0x80 := by omega
  have hcjk : isCjkLead lead = true ↔ 0x3000 ≤ c.toNat ∧ c.toNat < 0xA000 := by
    rw [isCjkLead, Bool.and_eq_true, decide_eq_true_eq, decide_eq_true_eq, UInt8.le_iff_toNat_le,
      UInt8.le_iff_toNat_le, hlead]
    change 0xE3 ≤ _ ∧ _ ≤ 0xE9 ↔ _
    omega
  have hblock : (lead == 0xE3 && second == 0x80) = true ↔ 0x3000 ≤ c.toNat ∧ c.toNat < 0x3040 := by
    rw [Bool.and_eq_true, beq_iff_eq, beq_iff_eq, ← UInt8.toNat_inj, ← UInt8.toNat_inj, hlead,
      hsecond]
    change _ = 0xE3 ∧ _ = 0x80 ↔ _
    omega
  have hfull : lead = 0xEF ↔ 0xF000 ≤ c.toNat ∧ c.toNat < 0x10000 := by
    rw [← UInt8.toNat_inj, hlead]
    change _ = 0xEF ↔ _
    omega
  have hspan := (show Utf8Spans.IsCodepoint [lead, second, third] from ⟨c, henc.symm⟩).isSpan
  have hscan := scan_wide hspan (List.cons_ne_nil _ _) i (encode chars) current
  by_cases hideograph : isCjkLead lead = true
  · rw [if_pos ⟨rfl, hideograph⟩] at hscan
    rw [hcjk] at hideograph
    by_cases hpunct : (lead == 0xE3 && [second, third].getD 0 0 == 0x80) = true
    · rw [if_pos hpunct] at hscan
      have hkind : kind c = .wide := by rw [kind, if_neg hascii, if_pos (hblock.mp hpunct)]
      refine ⟨by rw [hscan], ?_⟩
      rw [hscan, flushToken_words, wordsFrom, hkind]
    · rw [if_neg hpunct] at hscan
      have hnot : ¬ (0x3000 ≤ c.toNat ∧ c.toNat < 0x3040) := fun h => hpunct (hblock.mpr h)
      have hkind : kind c = .ideograph := by
        rw [kind, if_neg hascii, if_neg hnot, if_pos (by omega)]
      refine ⟨by rw [hscan], ?_⟩
      rw [hscan, List.map_append, flushToken_words, wordsFrom, hkind, henc, List.append_assoc]
      rfl
  · have hnot : ¬ (0x3000 ≤ c.toNat ∧ c.toNat < 0xA000) := fun h => hideograph (hcjk.mpr h)
    by_cases hwide : lead = 0xEF
    · rw [if_neg (fun h => hideograph h.2), if_pos ⟨rfl, hwide⟩] at hscan
      have hkind : kind c = .wide := by
        rw [kind, if_neg hascii, if_neg (by omega), if_neg (by omega), if_pos (hfull.mp hwide)]
      refine ⟨by rw [hscan], ?_⟩
      rw [hscan, flushToken_words, wordsFrom, hkind]
    · have hout : ¬ (0xF000 ≤ c.toNat ∧ c.toNat < 0x10000) := fun h => hwide (hfull.mpr h)
      have hkind : kind c = .word := by
        rw [kind, if_neg hascii, if_neg (by omega), if_neg (by omega), if_neg hout]
      exact reads_letter henc (List.cons_ne_nil _ _) hkind hascii (fun h => hideograph h.2)
        (fun h => hwide h.2) i current chars

theorem reads_char (c : Char) : ∃ byte rest, String.utf8EncodeChar c = byte :: rest ∧
    ∀ i current chars, Reads c i byte rest current chars := by
  rcases c.utf8Size_eq with hone | htwo | hthree | hfour
  · have henc := String.utf8EncodeChar_eq_singleton hone
    rw [Char.utf8Size_eq_one_iff, UInt32.le_iff_toNat_le] at hone
    exact ⟨_, _, henc, reads_ascii (Nat.lt_succ_of_le hone)⟩
  · have henc := String.utf8EncodeChar_eq_cons_cons htwo
    rw [Char.utf8Size_eq_two_iff, UInt32.lt_iff_toNat_lt, UInt32.le_iff_toNat_le] at htwo
    obtain ⟨hgt, hle⟩ : 0x7F < c.toNat ∧ c.toNat ≤ 0x7FF := htwo
    have hascii : ¬ c.toNat < 0x80 := by omega
    have hkind : kind c = .word := by
      rw [kind, if_neg hascii, if_neg (by omega), if_neg (by omega), if_neg (by omega)]
    exact ⟨_, _, henc, reads_letter henc (List.cons_ne_nil _ _) hkind hascii
      (by simp) (by simp)⟩
  · exact reads_three hthree
  · have henc := String.utf8EncodeChar_eq_cons_cons_cons_cons hfour
    rw [Char.utf8Size_eq_four_iff, UInt32.lt_iff_toNat_lt] at hfour
    have hgt : 0xFFFF < c.toNat := hfour
    have hascii : ¬ c.toNat < 0x80 := by omega
    have hkind : kind c = .word := by
      rw [kind, if_neg hascii, if_neg (by omega), if_neg (by omega), if_neg (by omega)]
    exact ⟨_, _, henc, reads_letter henc (List.cons_ne_nil _ _) hkind hascii
      (by simp) (by simp)⟩

/-! ## Runs -/

theorem tokenizeFrom_encode (chars : List Char) (hfuel : (encode chars).length ≤ fuel) (i : ℕ)
    (current : Bytes) :
    (tokenizeFrom fuel i (encode chars) current []).map Token.normalized =
      wordsFrom current chars := by
  induction chars generalizing fuel i current with
  | nil =>
    rw [Utf8Spans.encode_nil, tokenizeFrom_nil, flushToken_words]
    rfl
  | cons c chars ih =>
    obtain ⟨byte, rest, henc, hreads⟩ := reads_char c
    obtain ⟨hlength, hwords⟩ := hreads i current chars
    rw [Utf8Spans.encode_cons, henc, List.cons_append] at hfuel ⊢
    rw [List.length_cons, List.length_append] at hfuel
    cases fuel with
    | zero => omega
    | succ fuel =>
      rw [tokenizeFrom_cons, tokenizeFrom_tokens, List.nil_append, hlength, List.drop_succ_cons,
        List.drop_left, List.map_append, ih (by omega), hwords]

theorem words_encode (chars : List Char) : words (encode chars) = wordsFrom [] chars :=
  tokenizeFrom_encode chars le_rfl 0 []

theorem scan_ends {i : ℕ} {byte : UInt8} {rest current : Bytes} {token : Token}
    (h : token ∈ (scan i byte rest current).emitted) :
    token.rawEnd = i ∧ current ≠ [] ∨ token.rawEnd = i + (scan i byte rest current).length ∧
        (scan i byte rest current).current = [] := by
  obtain ⟨k, hk⟩ := List.mem_iff_getElem?.mp h
  rcases scan_emitted hk with ⟨hend, rfl, hfirst⟩ | ⟨hend, -, hcurrent⟩
  · refine .inl ⟨hend, fun hnil => ?_⟩
    subst hnil
    rw [flushToken_nil, List.take_eq_nil_iff] at hfirst
    rcases hfirst with hone | hempty
    · exact absurd hone (by decide)
    · rw [hempty] at h
      exact absurd h List.not_mem_nil
  · exact .inr ⟨hend, hcurrent⟩

theorem scan_rising (i : ℕ) (byte : UInt8) (rest current : Bytes) :
    ((scan i byte rest current).emitted.map Token.rawEnd).Pairwise (· < ·) := by
  rw [List.pairwise_map, List.pairwise_iff_getElem]
  intro j k hj hk hjk
  have hpos := (scan_length i byte rest current).1
  have hfirst := scan_emitted (List.getElem?_eq_getElem hj)
  have hsecond := scan_emitted (List.getElem?_eq_getElem hk)
  omega

/-- The tokens from byte offset `i` on end one behind the other, each behind a character. -/
structure Ends (i : ℕ) (chars : List Char) (current : Bytes) (tokens : List Token) : Prop where
  rising : (tokens.map Token.rawEnd).Pairwise (· < ·)
  behind : current = [] → ∀ token ∈ tokens, i < token.rawEnd
  boundary : ∀ token ∈ tokens, ∃ before after, chars = before ++ after ∧
    token.rawEnd = i + (encode before).length

theorem ends_tokenizeFrom (chars : List Char) (hfuel : (encode chars).length ≤ fuel) (i : ℕ)
    (current : Bytes) : Ends i chars current (tokenizeFrom fuel i (encode chars) current []) := by
  induction chars generalizing fuel i current with
  | nil =>
    rw [Utf8Spans.encode_nil, tokenizeFrom_nil, flushToken]
    split_ifs with hnil
    · exact ⟨.nil, fun _ => by simp, by simp⟩
    · exact ⟨by simp, fun h => absurd h hnil, by simp⟩
  | cons c chars ih =>
    obtain ⟨byte, rest, henc, hreads⟩ := reads_char c
    obtain ⟨hlength, -⟩ := hreads i current chars
    have hrising := scan_rising i byte (rest ++ encode chars) current
    have hends := @scan_ends i byte (rest ++ encode chars) current
    rw [Utf8Spans.encode_cons, henc, List.cons_append] at hfuel ⊢
    rw [List.length_cons, List.length_append] at hfuel
    cases fuel with
    | zero => omega
    | succ fuel =>
      rw [tokenizeFrom_cons, tokenizeFrom_tokens, List.nil_append, hlength, List.drop_succ_cons,
        List.drop_left]
      rw [hlength] at hends
      generalize scan i byte (rest ++ encode chars) current = s at *
      have hlong : (encode chars).length ≤ fuel := by omega
      obtain ⟨hlater, hbehind, hboundary⟩ := ih hlong (i + (rest.length + 1)) s.current
      generalize tokenizeFrom fuel (i + (rest.length + 1)) (encode chars) s.current [] = later at *
      have hfrom : ∀ token ∈ later, i + (rest.length + 1) ≤ token.rawEnd := by
        intro token htoken
        obtain ⟨before, after, -, hend⟩ := hboundary token htoken
        omega
      refine ⟨?_, ?_, ?_⟩
      · rw [List.map_append, List.pairwise_append]
        refine ⟨hrising, hlater, fun a ha b hb => ?_⟩
        obtain ⟨first, hfirst, rfl⟩ := List.mem_map.mp ha
        obtain ⟨second, hsecond, rfl⟩ := List.mem_map.mp hb
        have hge := hfrom second hsecond
        rcases hends hfirst with ⟨hend, -⟩ | ⟨hend, hnone⟩
        · omega
        · have hgt := hbehind hnone second hsecond
          omega
      · intro hnil token htoken
        rcases List.mem_append.mp htoken with hfirst | hsecond
        · rcases hends hfirst with ⟨-, hword⟩ | ⟨hend, -⟩
          · exact absurd hnil hword
          · omega
        · have hge := hfrom token hsecond
          omega
      · intro token htoken
        rcases List.mem_append.mp htoken with hfirst | hsecond
        · rcases hends hfirst with ⟨hend, -⟩ | ⟨hend, -⟩
          · exact ⟨[], c :: chars, rfl, hend⟩
          · refine ⟨[c], chars, rfl, ?_⟩
            rw [hend, Utf8Spans.encode_cons, Utf8Spans.encode_nil, List.append_nil, henc,
              List.length_cons]
        · obtain ⟨before, after, rfl, hend⟩ := hboundary token hsecond
          refine ⟨c :: before, after, rfl, ?_⟩
          rw [hend, Utf8Spans.encode_cons, henc, List.length_append, List.length_cons]
          omega

/-- The ends of the tokens rise, and each of them is a place between two characters. -/
def EndsRise (text : Bytes) : Prop :=
  ((tokenize text).map Token.rawEnd).Pairwise (· < ·) ∧
    ∀ token ∈ tokenize text, IsBoundary text token.rawEnd

theorem endsRise_of_isUtf8 {text : Bytes} (h : IsUtf8 text) : EndsRise text := by
  obtain ⟨chars, rfl⟩ := h.exists_chars
  have hends := ends_tokenizeFrom chars le_rfl 0 []
  refine ⟨hends.rising, fun token htoken => ?_⟩
  obtain ⟨before, after, rfl, hend⟩ := hends.boundary token htoken
  rw [hend, Nat.zero_add, Utf8Spans.encode_append]
  exact Utf8Spans.isBoundary_append (Utf8Spans.isUtf8_encode _) (Utf8Spans.isUtf8_encode _)

/-! ## Punctuation behind a word -/

/-- ASCII punctuation other than the apostrophe, the CJK punctuation block, the fullwidth forms and
the ellipsis. -/
def SentencePunctuation (c : Char) : Prop :=
  c.toNat < 0x80 ∧ isPunct c.toUInt8 = true ∧ c.toUInt8 ≠ 0x27 ∨
    0x3000 ≤ c.toNat ∧ c.toNat ≤ 0x303F ∨ 0xFF00 ≤ c.toNat ∧ c.toNat ≤ 0xFFEF ∨ c = '…'

instance (c : Char) : Decidable (SentencePunctuation c) := inferInstanceAs (Decidable (_ ∨ _))

/-- The text in front ends with a word or an ideograph. -/
def EndsInWord (text : List Char) : Prop :=
  ∃ c ∈ text.getLast?, kind c = .word ∨ kind c = .ideograph

def EndsInIdeograph (text : List Char) : Prop := ∃ c ∈ text.getLast?, kind c = .ideograph

/-- Whatever ASCII marks stand in front, the first character behind them is part of a word. -/
def goesOn (text : List Char) : Bool :=
  ((text.dropWhile fun c => kind c = .mark).head?).any fun c => kind c = .word

/-- Punctuation between two parts of a text makes no difference to the words. -/
def PunctuationIgnored (front punctuation behind : List Char) : Prop :=
  words (encode (front ++ punctuation ++ behind)) = words (encode (front ++ behind))

theorem isPunct_kind {b : UInt8} (h : isPunct b = true) (hquote : b ≠ 0x27) :
    isSpace b = false ∧ (isAlnum b || b == 0x27) = false :=
  forall_byte (p := fun b => isPunct b = true → b ≠ 0x27 →
    isSpace b = false ∧ (isAlnum b || b == 0x27) = false) (by decide +kernel) b h hquote

theorem kind_ellipsis : kind '…' = .word := by decide

theorem SentencePunctuation.kind_eq (h : SentencePunctuation c) (hc : c ≠ '…') :
    c.toNat < 0x80 ∧ kind c = .mark ∨ ¬ c.toNat < 0x80 ∧ kind c = .wide := by
  rcases h with ⟨hascii, hpunct, hquote⟩ | hcjk | hfull | hellipsis
  · obtain ⟨hspace, hword⟩ := isPunct_kind hpunct hquote
    refine .inl ⟨hascii, ?_⟩
    rw [kind, if_pos hascii, hspace, hword]
    rfl
  · refine .inr ⟨by omega, ?_⟩
    rw [kind, if_neg (by omega), if_pos (by omega)]
  · refine .inr ⟨by omega, ?_⟩
    rw [kind, if_neg (by omega), if_neg (by omega), if_neg (by omega), if_pos (by omega)]
  · exact absurd hellipsis hc

/-! ### The machine between two parts of a text -/

/-- The words that are complete behind a text, and the word that is read. -/
def readFrom (current : Bytes) : List Char → List Bytes × Bytes
  | [] => ([], current)
  | c :: chars =>
    match kind c with
    | .space | .wide => (flushWord current ++ (readFrom [] chars).1, (readFrom [] chars).2)
    | .mark => readFrom current chars
    | .word => readFrom (current ++ normalizedChar c) chars
    | .ideograph =>
      (flushWord current ++ String.utf8EncodeChar c :: (readFrom [] chars).1,
        (readFrom [] chars).2)

variable (front behind : List Char)

theorem wordsFrom_append :
    wordsFrom current (front ++ behind) =
      (readFrom current front).1 ++ wordsFrom (readFrom current front).2 behind := by
  induction front generalizing current with
  | nil => rfl
  | cons c front ih =>
    rw [List.cons_append, wordsFrom, readFrom]
    cases hkind : kind c with
    | space => simp only [ih, List.append_assoc]
    | mark => simp only [ih]
    | word => simp only [ih]
    | ideograph => simp only [ih, List.append_assoc, List.cons_append]
    | wide => simp only [ih, List.append_assoc]

theorem readFrom_append :
    (readFrom current (front ++ behind)).2 = (readFrom (readFrom current front).2 behind).2 := by
  induction front generalizing current with
  | nil => rfl
  | cons c front ih =>
    rw [List.cons_append, readFrom, readFrom]
    cases hkind : kind c with
    | space => exact ih []
    | mark => exact ih current
    | word => exact ih _
    | ideograph => exact ih []
    | wide => exact ih []

theorem normalizedChar_ne_nil (c : Char) : normalizedChar c ≠ [] := by
  rw [normalizedChar]
  split_ifs
  · exact List.cons_ne_nil _ _
  · exact (show Utf8Spans.IsCodepoint (String.utf8EncodeChar c) from ⟨c, rfl⟩).isSpan.ne_nil

theorem readFrom_last {front : List Char} (hc : c ∈ front.getLast?) :
    (kind c = .word → (readFrom [] front).2 ≠ []) ∧
      (kind c = .ideograph → (readFrom [] front).2 = []) := by
  obtain ⟨before, rfl⟩ := List.getLast?_eq_some_iff.mp hc
  rw [readFrom_append, readFrom]
  refine ⟨fun hkind => ?_, fun hkind => ?_⟩
  · rw [hkind]
    exact List.append_ne_nil_of_right_ne_nil _ (normalizedChar_ne_nil c)
  · rw [hkind]
    rfl

/-- Marks alone change nothing; behind a CJK or a fullwidth mark the word is complete. -/
theorem readFrom_silent (h : ∀ c ∈ chars, kind c = .mark ∨ kind c = .wide) :
    readFrom current chars =
      if ∀ c ∈ chars, kind c = .mark then ([], current) else (flushWord current, []) := by
  induction chars generalizing current with
  | nil => rw [if_pos (by simp), readFrom]
  | cons c chars ih =>
    have hrest : ∀ c ∈ chars, kind c = .mark ∨ kind c = .wide :=
      fun d hd => h d (List.mem_cons_of_mem _ hd)
    have hnone : readFrom [] chars = ([], []) := by
      rw [ih [] hrest]
      split_ifs <;> rfl
    rw [readFrom]
    rcases h c List.mem_cons_self with hmark | hwide
    · rw [hmark, ih current hrest]
      simp only [List.forall_mem_cons, hmark, true_and]
    · rw [hwide, if_neg fun hall => by simpa [hwide] using hall c List.mem_cons_self]
      simp only [hnone, List.append_nil]

theorem wordsFrom_stops (h : goesOn chars = false) :
    wordsFrom current chars = flushWord current ++ wordsFrom [] chars := by
  induction chars with
  | nil => exact (List.append_nil _).symm
  | cons c chars ih =>
    rw [wordsFrom, wordsFrom]
    cases hkind : kind c with
    | space => rfl
    | mark =>
      rw [goesOn, List.dropWhile_cons_of_pos (by simp [hkind])] at h
      exact ih h
    | word => simp [goesOn, hkind] at h
    | ideograph => rfl
    | wide => rfl

theorem length_wordsFrom {a b : Bytes} (ha : a ≠ []) (hb : b ≠ []) (chars : List Char) :
    (wordsFrom a chars).length = (wordsFrom b chars).length := by
  have hone : ∀ {current : Bytes}, current ≠ [] → (flushWord current).length = 1 := by
    intro current h
    rw [flushWord, if_neg h, List.length_singleton]
  induction chars generalizing a b with
  | nil => rw [wordsFrom, wordsFrom, hone ha, hone hb]
  | cons c chars ih =>
    rw [wordsFrom, wordsFrom]
    cases hkind : kind c with
    | space => simp only [List.length_append, hone ha, hone hb]
    | mark => exact ih ha hb
    | word =>
      exact ih (List.append_ne_nil_of_left_ne_nil ha _) (List.append_ne_nil_of_left_ne_nil hb _)
    | ideograph => simp only [List.length_append, hone ha, hone hb]
    | wide => simp only [List.length_append, hone ha, hone hb]

theorem length_goesOn {current : Bytes} (hcurrent : current ≠ []) (h : goesOn chars = true) :
    (wordsFrom current chars).length = (wordsFrom [] chars).length := by
  induction chars with
  | nil => cases h
  | cons c chars ih =>
    rw [wordsFrom, wordsFrom]
    cases hkind : kind c with
    | space => simp [goesOn, hkind] at h
    | mark =>
      rw [goesOn, List.dropWhile_cons_of_pos (by simp [hkind])] at h
      exact ih h
    | word =>
      rw [List.nil_append]
      exact length_wordsFrom (List.append_ne_nil_of_left_ne_nil hcurrent _)
        (normalizedChar_ne_nil c) chars
    | ideograph => simp [goesOn, hkind] at h
    | wide => simp [goesOn, hkind] at h

theorem flatten_wordsFrom (chars : List Char) :
    (wordsFrom current chars).flatten = current ++ (wordsFrom [] chars).flatten := by
  have hflush : ∀ current : Bytes, (flushWord current).flatten = current := by
    intro current
    rw [flushWord]
    split_ifs with h
    · exact h.symm
    · exact List.flatten_singleton
  induction chars generalizing current with
  | nil => rw [wordsFrom, wordsFrom, hflush, hflush, List.append_nil]
  | cons c chars ih =>
    rw [wordsFrom, wordsFrom]
    cases hkind : kind c with
    | space => simp only [List.flatten_append, hflush, List.nil_append]
    | mark => exact ih current
    | word =>
      dsimp only
      rw [ih, ih ([] ++ _), List.nil_append, List.append_assoc]
    | ideograph => simp only [List.flatten_append, hflush, List.nil_append]
    | wide => simp only [List.flatten_append, hflush, List.nil_append]

theorem flatten_append :
    (wordsFrom [] (front ++ behind)).flatten =
      (wordsFrom [] front).flatten ++ (wordsFrom [] behind).flatten := by
  have hfront := wordsFrom_append [] front []
  rw [List.append_nil] at hfront
  rw [wordsFrom_append, hfront, List.flatten_append, List.flatten_append,
    flatten_wordsFrom _ behind, flatten_wordsFrom _ [], List.append_assoc, List.append_assoc]
  rfl

theorem ellipsis_spelled (h : '…' ∈ punctuation) : (wordsFrom [] punctuation).flatten ≠ [] := by
  obtain ⟨before, after, rfl⟩ := List.append_of_mem h
  rw [flatten_append]
  refine List.append_ne_nil_of_right_ne_nil _ ?_
  rw [wordsFrom, kind_ellipsis]
  dsimp only
  rw [flatten_wordsFrom, List.nil_append]
  exact List.append_ne_nil_of_left_ne_nil (normalizedChar_ne_nil _) _

/-- Behind a word or an ideograph, punctuation is ignored as long as there is no ellipsis and no
mark comes between two parts of a word other than an ASCII one. -/
theorem punctuation_ignored_iff {front behind : List Char} (hfront : EndsInWord front)
    (hpunctuation : ∀ c ∈ punctuation, SentencePunctuation c) :
    PunctuationIgnored front punctuation behind ↔ '…' ∉ punctuation ∧
      (EndsInIdeograph front ∨ (∀ c ∈ punctuation, c.toNat < 0x80) ∨ goesOn behind = false) := by
  rw [PunctuationIgnored, words_encode, words_encode]
  by_cases hellipsis : '…' ∈ punctuation
  · refine ⟨fun h => ?_, fun h => absurd hellipsis h.1⟩
    have hflat := congrArg (fun words => words.flatten.length) h
    simp only [flatten_append, List.length_append] at hflat
    have hpos := List.length_pos_of_ne_nil (ellipsis_spelled hellipsis)
    omega
  · rw [and_iff_right hellipsis]
    have hkinds : ∀ c ∈ punctuation, c.toNat < 0x80 ∧ kind c = .mark ∨
        ¬ c.toNat < 0x80 ∧ kind c = .wide :=
      fun c hc => (hpunctuation c hc).kind_eq fun h => hellipsis (h ▸ hc)
    have hsilent := readFrom_silent (readFrom [] front).2 fun c hc =>
      (hkinds c hc).imp And.right And.right
    have hascii : (∀ c ∈ punctuation, kind c = .mark) ↔ ∀ c ∈ punctuation, c.toNat < 0x80 := by
      refine forall₂_congr fun c hc => ?_
      rcases hkinds c hc with ⟨hlt, hkind⟩ | ⟨hlt, hkind⟩
      · simp [hlt, hkind]
      · simp [hlt, hkind]
    rw [List.append_assoc, wordsFrom_append, wordsFrom_append _ punctuation,
      wordsFrom_append [] front, List.append_cancel_left_eq, hsilent]
    obtain ⟨c, hc, hkind⟩ := hfront
    have hlast := readFrom_last hc
    generalize (readFrom [] front).2 = current at *
    by_cases hmarks : ∀ c ∈ punctuation, kind c = .mark
    · rw [if_pos hmarks]
      exact iff_of_true rfl (.inr (.inl (hascii.mp hmarks)))
    · rw [if_neg hmarks, ← hascii, or_iff_right hmarks]
      dsimp only
      rcases hkind with hword | hideograph
      · have hcurrent := hlast.1 hword
        have hnot : ¬ EndsInIdeograph front := by
          rintro ⟨d, hd, hideograph⟩
          rw [Option.mem_unique hd hc, hword] at hideograph
          cases hideograph
        rw [or_iff_right hnot]
        constructor
        · intro heq
          by_contra hgoes
          have hlength := congrArg List.length heq
          rw [Bool.not_eq_false] at hgoes
          rw [List.length_append, length_goesOn hcurrent hgoes, flushWord, if_neg hcurrent,
            List.length_singleton] at hlength
          omega
        · intro hstops
          exact (wordsFrom_stops current hstops).symm
      · rw [hlast.2 hideograph]
        exact iff_of_true rfl (.inl ⟨c, hc, hideograph⟩)

/-- The tokens of a text end at its characters, one behind the other, and punctuation behind a word
or an ideograph is ignored unless it is spelled out or keeps two parts of a word apart. -/
theorem tokenize_punctuated (text : Bytes) (front punctuation behind : List Char) :
    (IsUtf8 text → EndsRise text) ∧
      (EndsInWord front → (∀ c ∈ punctuation, SentencePunctuation c) →
        (PunctuationIgnored front punctuation behind ↔ '…' ∉ punctuation ∧
          (EndsInIdeograph front ∨ (∀ c ∈ punctuation, c.toNat < 0x80) ∨
            goesOn behind = false))) :=
  ⟨endsRise_of_isUtf8, punctuation_ignored_iff⟩

/-- A comma behind the last word. -/
theorem tokenize_punctuated_comma : PunctuationIgnored ['w', 'a', 'i', 't'] [','] [] :=
  ((tokenize_punctuated [] _ _ _).2 ⟨'t', rfl, .inl (by decide)⟩
    (List.forall_mem_singleton.mpr (by decide))).mpr
    ⟨by decide, .inr (.inl (List.forall_mem_singleton.mpr (by decide)))⟩

/-- An ellipsis behind the last word becomes part of it. -/
theorem tokenize_punctuated_fails : ¬ ((∀ text, IsUtf8 text → EndsRise text) ∧
    ∀ front punctuation behind, EndsInWord front → (∀ c ∈ punctuation, SentencePunctuation c) →
      PunctuationIgnored front punctuation behind) := by
  rintro ⟨-, h⟩
  have hwords := h ['w', 'a', 'i', 't'] ['…'] [] ⟨'t', rfl, .inl (by decide)⟩
    (List.forall_mem_singleton.mpr (by decide))
  exact absurd hwords (by unfold PunctuationIgnored; decide)

end FastTts.Voice
