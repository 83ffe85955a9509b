import Mathlib.Tactic.IntervalCases
import FastTts.JsonText

/-!
# Written JSON

Texts that the server writes by hand, and what `parse` reads from them: the text of each value is
read as the value, whatever comes behind it.
-/

namespace FastTts.JsonText

open FloatFormat

/-! ## Decimal texts -/

def decimalDigit (n : ℕ) : UInt8 := UInt8.ofNat (0x30 + n)

def natText (n : ℕ) : Bytes :=
  if n < 10 then [decimalDigit n] else natText (n / 10) ++ [decimalDigit (n % 10)]

def intText (n : ℤ) : Bytes := if n < 0 then 0x2D :: natText n.natAbs else natText n.natAbs

/-- The last digits of a number, with zeros in front of it. -/
def paddedText : ℕ → ℕ → Bytes
  | 0, _ => []
  | width + 1, n => paddedText width (n / 10) ++ [decimalDigit (n % 10)]

/-- How many units of the last decimal place the nearest decimal has. -/
def fixedUnits (places : ℕ) (q : ℚ) : ℕ := (roundHalfEven (|q| * 10 ^ places)).toNat

def fixedValue (places : ℕ) (q : ℚ) : ℚ :=
  let value := (fixedUnits places q : ℚ) / 10 ^ places
  if q < 0 then -value else value

def fixedText (places : ℕ) (q : ℚ) : Bytes :=
  let text := natText (fixedUnits places q / 10 ^ places) ++
    0x2E :: paddedText places (fixedUnits places q)
  if q < 0 then 0x2D :: text else text

variable {n levels : ℕ} {rest text : Bytes} {value : ℚ} {ch : UInt8}

theorem decimalDigit_value (h : n < 10) :
    isDigit (decimalDigit n) = true ∧ (decimalDigit n).toNat - 0x30 = n := by
  interval_cases n <;> decide

theorem digitsValue_snoc (digits : Bytes) (h : n < 10) :
    digitsValue (digits ++ [decimalDigit n]) = 10 * digitsValue digits + n := by
  rw [digitsValue, List.foldl_append, List.foldl_cons, List.foldl_nil, (decimalDigit_value h).2]
  rfl

theorem natText_spec (n : ℕ) :
    digitsValue (natText n) = n ∧ (∀ ch ∈ natText n, isDigit ch = true) ∧ natText n ≠ [] := by
  induction n using Nat.strongRecOn with
  | ind n ih =>
    rw [natText]
    split_ifs with hsmall
    · refine ⟨?_, ?_, List.cons_ne_nil _ _⟩
      · rw [← List.nil_append [_], digitsValue_snoc [] hsmall]
        exact Nat.zero_add n
      · intro ch hch
        rw [List.mem_singleton.mp hch]
        exact (decimalDigit_value hsmall).1
    · obtain ⟨hvalue, hdigits, -⟩ := ih (n / 10) (by omega)
      have hlast : n % 10 < 10 := Nat.mod_lt _ (by decide)
      refine ⟨?_, ?_, List.append_ne_nil_of_right_ne_nil _ (List.cons_ne_nil _ _)⟩
      · rw [digitsValue_snoc _ hlast, hvalue]
        omega
      · intro ch hch
        obtain hch | hch := List.mem_append.mp hch
        · exact hdigits ch hch
        · rw [List.mem_singleton.mp hch]
          exact (decimalDigit_value hlast).1

theorem paddedText_spec (width n : ℕ) :
    (∀ digits, digitsValue (digits ++ paddedText width n) =
      digitsValue digits * 10 ^ width + n % 10 ^ width) ∧
    (∀ ch ∈ paddedText width n, isDigit ch = true) ∧ (paddedText width n).length = width := by
  induction width generalizing n with
  | zero =>
    refine ⟨fun digits => ?_, fun ch hch => absurd hch List.not_mem_nil, rfl⟩
    rw [paddedText, List.append_nil, Nat.pow_zero, Nat.mul_one, Nat.mod_one, Nat.add_zero]
  | succ width ih =>
    obtain ⟨hvalue, hdigits, hlength⟩ := ih (n / 10)
    have hlast : n % 10 < 10 := Nat.mod_lt _ (by decide)
    refine ⟨fun digits => ?_, fun ch hch => ?_, ?_⟩
    · rw [paddedText, ← List.append_assoc, digitsValue_snoc _ hlast, hvalue, Nat.pow_succ',
        Nat.mod_mul, Nat.mul_add, Nat.mul_left_comm]
      omega
    · obtain hch | hch := List.mem_append.mp hch
      · exact hdigits ch hch
      · rw [List.mem_singleton.mp hch]
        exact (decimalDigit_value hlast).1
    · rw [paddedText, List.length_append, hlength, List.length_singleton]

/-! ## Numbers -/

def Ends (rest : Bytes) : Prop := ∀ ch ∈ rest.head?, ch = 0x2C ∨ ch = 0x5D ∨ ch = 0x7D

theorem Ends.not_digit (h : Ends rest) : ∀ ch ∈ rest.head?, isDigit ch = false := by
  intro ch hch
  obtain rfl | rfl | rfl := h ch hch <;> rfl

variable {digits tail : Bytes}

theorem span_digits (hdigits : ∀ ch ∈ digits, isDigit ch = true)
    (hrest : ∀ ch ∈ rest.head?, isDigit ch = false) :
    (digits ++ rest).span isDigit = (digits, rest) := by
  rw [List.span_eq_takeWhile_dropWhile, List.takeWhile_append_of_pos hdigits,
    List.dropWhile_append_of_pos hdigits]
  cases rest with
  | nil => rw [List.takeWhile_nil, List.append_nil, List.dropWhile_nil]
  | cons ch rest =>
    have hch := hrest ch rfl
    rw [List.takeWhile_cons_of_neg (by simp [hch]), List.dropWhile_cons_of_neg (by simp [hch]),
      List.append_nil]

theorem readExponent_ends (h : Ends rest) : readExponent rest = (0, rest) := by
  cases rest with
  | nil => rfl
  | cons ch rest => obtain rfl | rfl | rfl := h ch rfl <;> rfl

theorem readFraction_ends (h : Ends rest) : readFraction rest = ([], rest) := by
  cases rest with
  | nil => rfl
  | cons ch rest => obtain rfl | rfl | rfl := h ch rfl <;> rfl

theorem readSign_digits (hne : digits ≠ []) (hdigits : ∀ ch ∈ digits, isDigit ch = true) :
    readSign (digits ++ rest) = (false, digits ++ rest) := by
  cases digits with
  | nil => exact absurd rfl hne
  | cons ch digits =>
    have hch := hdigits ch List.mem_cons_self
    have hsigns : ch ≠ 0x2D ∧ ch ≠ 0x2B := by
      constructor
      · rintro rfl
        exact absurd hch (by decide)
      · rintro rfl
        exact absurd hch (by decide)
    rw [List.cons_append, readSign, if_neg hsigns.1, if_neg hsigns.2]

theorem readDecimal_unsigned {whole : Bytes} {fraction : Bytes} {negative : Bool} (hne : whole ≠ [])
    (hwhole : ∀ ch ∈ whole, isDigit ch = true) (hsign : readSign text = (negative, whole ++ tail))
    (htail : ∀ ch ∈ tail.head?, isDigit ch = false)
    (hfraction : readFraction tail = (fraction, rest)) (hrest : Ends rest)
    (hvalue : (digitsValue (whole ++ fraction) : ℚ) / 10 ^ fraction.length = value) :
    readDecimal text = some (if negative then -value else value, rest) := by
  have hspan := span_digits hwhole htail
  rw [readDecimal]
  simp only [hsign, hspan, hfraction, readExponent_ends hrest, hne, false_and, if_false]
  rw [← hvalue, zero_sub, zpow_neg, zpow_natCast, div_eq_mul_inv]

theorem readDecimal_intText (n : ℤ) (hrest : Ends rest) :
    readDecimal (intText n ++ rest) = some ((n : ℚ), rest) := by
  obtain ⟨hvalue, hdigits, hne⟩ := natText_spec n.natAbs
  have hread : (digitsValue (natText n.natAbs ++ []) : ℚ) / 10 ^ ([] : Bytes).length =
      (n.natAbs : ℚ) := by
    rw [List.append_nil, hvalue, List.length_nil, pow_zero, div_one]
  rw [intText]
  split_ifs with hneg
  · rw [List.cons_append, readDecimal_unsigned hne hdigits (by rfl) hrest.not_digit
      (readFraction_ends hrest) hrest hread, if_pos rfl]
    have habs : ((n.natAbs : ℤ) : ℚ) = -n := by
      rw [Int.ofNat_natAbs_of_nonpos hneg.le, Int.cast_neg]
    rw [← Int.cast_natCast, habs, neg_neg]
  · rw [readDecimal_unsigned hne hdigits (readSign_digits hne hdigits) hrest.not_digit
      (readFraction_ends hrest) hrest hread]
    have habs : ((n.natAbs : ℤ) : ℚ) = n := by
      rw [Int.natAbs_of_nonneg (not_lt.mp hneg)]
    rw [← Int.cast_natCast, habs]
    rfl

theorem readDecimal_fixedText (places : ℕ) (q : ℚ) (hrest : Ends rest) :
    readDecimal (fixedText places q ++ rest) = some (fixedValue places q, rest) := by
  obtain ⟨hvalue, hdigits, hne⟩ := natText_spec (fixedUnits places q / 10 ^ places)
  obtain ⟨hpadded, hfraction, hlength⟩ := paddedText_spec places (fixedUnits places q)
  have hread : (digitsValue (natText (fixedUnits places q / 10 ^ places) ++
      paddedText places (fixedUnits places q)) : ℚ) /
        10 ^ (paddedText places (fixedUnits places q)).length =
          (fixedUnits places q : ℚ) / 10 ^ places := by
    rw [hpadded, hvalue, hlength, Nat.mul_comm, Nat.div_add_mod]
  have htail : readFraction (0x2E :: paddedText places (fixedUnits places q) ++ rest) =
      (paddedText places (fixedUnits places q), rest) := by
    rw [List.cons_append, readFraction, if_pos rfl, span_digits hfraction hrest.not_digit]
  have hpoint : ∀ ch ∈ (0x2E :: paddedText places (fixedUnits places q) ++ rest).head?,
      isDigit ch = false := by
    rintro ch ⟨⟩
    rfl
  rw [fixedText, fixedValue]
  split_ifs with hneg
  · rw [List.cons_append, List.append_assoc, readDecimal_unsigned hne hdigits (by rfl) hpoint htail
      hrest hread]
    rfl
  · rw [List.append_assoc, readDecimal_unsigned hne hdigits (readSign_digits hne hdigits) hpoint
      htail hrest hread]
    rfl

/-! ## Strings -/

theorem hexValue_hexDigit (h : n < 16) : hexValue (hexDigit n) = some n := by
  interval_cases n <;> decide

theorem parseHex4_escape (ch : UInt8) (rest : Bytes) :
    parseHex4 (0x30 :: 0x30 :: hexDigit (ch.toNat / 16) :: hexDigit (ch.toNat % 16) :: rest) =
      ch.toNat := by
  have hlt := ch.toNat_lt
  have hhigh := hexValue_hexDigit (by omega : ch.toNat / 16 < 16)
  have hlow := hexValue_hexDigit (by omega : ch.toNat % 16 < 16)
  have hzero : hexValue 0x30 = some 0 := by decide
  rw [parseHex4]
  simp only [List.take_succ_cons, List.take_zero, List.foldlM_cons, List.foldlM_nil, hzero, hhigh,
    hlow, Option.map_some, Option.bind_eq_bind, Option.bind_some, Option.pure_def, Option.getD_some]
  omega

/-- A byte is written as it is, or as a short escape, or with its code. -/
inductive Escaped (ch : UInt8) : Bytes → Prop
  | plain : ch ≠ 0x22 → ch ≠ 0x5C → Escaped ch [ch]
  | short {out : UInt8} : out ≠ 0x75 → simpleEscape out = some ch → Escaped ch [0x5C, out]
  | code : ch.toNat < 0x20 → Escaped ch
      [0x5C, 0x75, 0x30, 0x30, hexDigit (ch.toNat / 16), hexDigit (ch.toNat % 16)]

theorem jsonEscape_escaped (ch : UInt8) : Escaped ch (jsonEscape [ch]) := by
  rw [jsonEscape, List.flatMap_singleton]
  split_ifs with hquote hbackslash hline hreturn htab hcontrol
  · rw [hquote]
    exact .short (by decide) (by decide)
  · rw [hbackslash]
    exact .short (by decide) (by decide)
  · rw [hline]
    exact .short (by decide) (by decide)
  · rw [hreturn]
    exact .short (by decide) (by decide)
  · rw [htab]
    exact .short (by decide) (by decide)
  · exact .code (UInt8.lt_iff_toNat_lt.mp hcontrol)
  · exact .plain hquote hbackslash

theorem jsonEscape_cons (ch : UInt8) (value : Bytes) :
    jsonEscape (ch :: value) = jsonEscape [ch] ++ jsonEscape value := by
  rw [jsonEscape, jsonEscape, jsonEscape, List.flatMap_cons, List.flatMap_singleton]

theorem closeQuote_quote (rest : Bytes) : closeQuote (0x22 :: rest) = some ([], rest) := by
  rw [closeQuote.eq_def]
  exact if_pos rfl

theorem closeQuote_plain (hquote : ch ≠ 0x22) (hbackslash : ch ≠ 0x5C) (rest : Bytes) :
    closeQuote (ch :: rest) =
      (closeQuote rest).map fun (content, rest) => (ch :: content, rest) := by
  rw [closeQuote.eq_def]
  dsimp only
  rw [if_neg hquote, if_neg hbackslash]

theorem closeQuote_escape (escaped : UInt8) (rest : Bytes) :
    closeQuote (0x5C :: escaped :: rest) =
      (closeQuote rest).map fun (content, rest) => (0x5C :: escaped :: content, rest) := by
  rw [closeQuote.eq_def]
  dsimp only
  rw [if_neg (by decide), if_pos rfl]

theorem hexDigit_plain (h : n < 16) : hexDigit n ≠ 0x22 ∧ hexDigit n ≠ 0x5C := by
  interval_cases n <;> decide

theorem closeQuote_jsonEscape (value rest : Bytes) :
    closeQuote (jsonEscape value ++ 0x22 :: rest) = some (jsonEscape value, rest) := by
  induction value with
  | nil => exact closeQuote_quote rest
  | cons ch value ih =>
    have hbyte := jsonEscape_escaped ch
    rw [jsonEscape_cons]
    generalize jsonEscape [ch] = written at hbyte
    cases hbyte with
    | plain hquote hbackslash =>
      change closeQuote (ch :: (jsonEscape value ++ 0x22 :: rest)) = _
      rw [closeQuote_plain hquote hbackslash, ih]
      rfl
    | @short out hout hsimple =>
      change closeQuote (0x5C :: out :: (jsonEscape value ++ 0x22 :: rest)) = _
      rw [closeQuote_escape, ih]
      rfl
    | code hcontrol =>
      have hhigh := hexDigit_plain (by omega : ch.toNat / 16 < 16)
      have hlow := hexDigit_plain (by omega : ch.toNat % 16 < 16)
      change closeQuote (0x5C :: 0x75 :: 0x30 :: 0x30 :: hexDigit (ch.toNat / 16) ::
        hexDigit (ch.toNat % 16) :: (jsonEscape value ++ 0x22 :: rest)) = _
      rw [closeQuote_escape, closeQuote_plain (by decide) (by decide),
        closeQuote_plain (by decide) (by decide), closeQuote_plain hhigh.1 hhigh.2,
        closeQuote_plain hlow.1 hlow.2, ih]
      rfl

theorem unescapeFrom_jsonEscape {value : Bytes} {fuel : ℕ} (h : (jsonEscape value).length ≤ fuel) :
    unescapeFrom fuel (jsonEscape value) = some value := by
  induction value generalizing fuel with
  | nil => cases fuel <;> rfl
  | cons ch value ih =>
    have hbyte := jsonEscape_escaped ch
    rw [jsonEscape_cons] at h ⊢
    generalize jsonEscape [ch] = written at hbyte h
    have hlength : 0 < written.length := by cases hbyte <;> exact Nat.succ_pos _
    rw [List.length_append] at h
    obtain ⟨fuel, rfl⟩ := Nat.exists_eq_succ_of_ne_zero (by omega : fuel ≠ 0)
    have hfuel : (jsonEscape value).length ≤ fuel := by omega
    cases hbyte with
    | plain hquote hbackslash =>
      change unescapeFrom (fuel + 1) (ch :: jsonEscape value) = _
      rw [unescapeFrom, if_pos hbackslash, ih hfuel]
      rfl
    | @short out hout hsimple =>
      change unescapeFrom (fuel + 1) (0x5C :: out :: jsonEscape value) = _
      rw [unescapeFrom, if_neg (by decide)]
      simp only [List.headD_cons, hout, if_false, hsimple, List.tail_cons, ih hfuel]
      rfl
    | code hcontrol =>
      change unescapeFrom (fuel + 1) (0x5C :: 0x75 :: 0x30 :: 0x30 :: hexDigit (ch.toNat / 16) ::
        hexDigit (ch.toNat % 16) :: jsonEscape value) = _
      have hliteral : utf16Literal (0x5C :: 0x75 :: 0x30 :: 0x30 :: hexDigit (ch.toNat / 16) ::
          hexDigit (ch.toNat % 16) :: jsonEscape value) = some (ch.toNat, jsonEscape value) := by
        rw [utf16Literal]
        simp only [List.drop_succ_cons, List.drop_zero, parseHex4_escape]
        rw [if_neg (by simp), if_neg (by omega), if_neg (by omega)]
      have hbyte : encodeUtf8 ch.toNat = [ch] := by
        rw [encodeUtf8]
        simp only [if_pos (by omega : ch.toNat < 0x80), UInt8.ofNat_toNat]
      rw [unescapeFrom, if_neg (by decide)]
      simp only [List.headD_cons, if_true, hliteral, ih hfuel, hbyte]
      rfl

def quoted (value : Bytes) : Bytes := 0x22 :: (jsonEscape value ++ [0x22])

theorem readString_quoted (value rest : Bytes) :
    readString (quoted value ++ rest) = some (cString value, rest) := by
  have hclose : closeQuote (jsonEscape value ++ [0x22] ++ rest) =
      some (jsonEscape value, rest) := by
    rw [List.append_assoc]
    exact closeQuote_jsonEscape value rest
  rw [quoted, List.cons_append, readString, if_pos rfl, hclose]
  dsimp only
  rw [unescape, unescapeFrom_jsonEscape (Nat.le_refl _)]
  rfl

/-! ## Values -/

def Starts (text : Bytes) : Prop :=
  ∃ ch rest, text = ch :: rest ∧ 0x20 < ch ∧ ch ≠ 0x5D ∧ ch ≠ 0x7D ∧ ch ≠ 0xEF

theorem Starts.ne_nil (h : Starts text) : text ≠ [] := by
  obtain ⟨ch, rest, rfl, -⟩ := h
  exact List.cons_ne_nil ch rest

theorem Starts.skipWhitespace (h : Starts text) (rest : Bytes) :
    skipWhitespace (text ++ rest) = text ++ rest := by
  obtain ⟨ch, tail, rfl, hch, -⟩ := h
  rw [JsonText.skipWhitespace, List.cons_append, List.dropWhile_cons_of_neg]
  simpa using hch

/-- A text that is read as the value, whatever comes behind it. -/
structure Written {α : Type} (item : Bytes → Option (α × Bytes)) (text : Bytes) (value : α) :
    Prop where
  read : ∀ rest, Ends rest → item (text ++ rest) = some (value, rest)
  starts : Starts text

abbrev Reads (levels : ℕ) : Bytes → Json Binary64 → Prop := Written (readValue levels)

theorem readValue_cons {ch : UInt8} (hn : ch ≠ 0x6E) (hf : ch ≠ 0x66) (ht : ch ≠ 0x74) (levels : ℕ)
    (rest : Bytes) : readValue levels (ch :: rest) =
      if ch = 0x22 then (readString (ch :: rest)).map fun (string, rest) => (.string string, rest)
      else if ch = 0x2D ∨ isDigit ch then
        (readDecimal (ch :: rest)).map fun (value, rest) => (.number (binary64.ofRat value), rest)
      else match levels with
        | 0 => none
        | levels + 1 =>
          if ch = 0x5B then
            (readList (readValue levels) 0x5D rest).map fun (values, rest) => (.array values, rest)
          else if ch = 0x7B then
            match readList (readMember (readValue levels)) 0x7D rest with
            | none => none
            | some (fields, rest) =>
              if (fields.map Prod.fst).Nodup then some (.object fields, rest) else none
          else none := by
  have hword : ∀ (word : Bytes) first, word.head? = some first → ch ≠ first →
      ¬ word.isPrefixOf (ch :: rest) = true := by
    intro word first hfirst hne
    rw [List.isPrefixOf_iff_prefix]
    rintro ⟨tail, htail⟩
    cases word with
    | nil => exact nomatch hfirst
    | cons letter word => exact hne ((List.cons.inj htail).1.symm.trans (Option.some.inj hfirst))
  have hvalue := readValue.eq_def levels (ch :: rest)
  rw [if_neg (hword (bytes "null") 0x6E rfl hn), if_neg (hword (bytes "false") 0x66 rfl hf),
    if_neg (hword (bytes "true") 0x74 rfl ht)] at hvalue
  exact hvalue.trans (by cases levels <;> rfl)

section

variable (levels : ℕ)

theorem readValue_null (rest : Bytes) :
    readValue levels (bytes "null" ++ rest) = some (.null, rest) := by
  rw [readValue.eq_def, if_pos (List.isPrefixOf_iff_prefix.mpr (List.prefix_append _ _))]
  rfl

theorem readValue_false (rest : Bytes) :
    readValue levels (bytes "false" ++ rest) = some (.bool false, rest) := by
  rw [readValue.eq_def, if_neg, if_pos (List.isPrefixOf_iff_prefix.mpr (List.prefix_append _ _))]
  · rfl
  · rw [List.isPrefixOf_iff_prefix]
    exact fun h => absurd (List.cons_prefix_cons.mp h).1 (by decide)

theorem readValue_true (rest : Bytes) :
    readValue levels (bytes "true" ++ rest) = some (.bool true, rest) := by
  rw [readValue.eq_def, if_neg, if_neg,
    if_pos (List.isPrefixOf_iff_prefix.mpr (List.prefix_append _ _))]
  · rfl
  · rw [List.isPrefixOf_iff_prefix]
    exact fun h => absurd (List.cons_prefix_cons.mp h).1 (by decide)
  · rw [List.isPrefixOf_iff_prefix]
    exact fun h => absurd (List.cons_prefix_cons.mp h).1 (by decide)

theorem reads_false : Reads levels (bytes "false") (.bool false) :=
  ⟨fun rest _ => readValue_false levels rest, _, _, rfl, by decide⟩

theorem reads_true : Reads levels (bytes "true") (.bool true) :=
  ⟨fun rest _ => readValue_true levels rest, _, _, rfl, by decide⟩

theorem reads_quoted (value : Bytes) : Reads levels (quoted value) (.string (cString value)) := by
  refine ⟨fun rest _ => ?_, _, _, rfl, by decide⟩
  have hread := readString_quoted value rest
  rw [quoted, List.cons_append] at hread ⊢
  rw [readValue_cons (by decide) (by decide) (by decide), if_pos rfl, hread]
  rfl

end

theorem numberStart_ne (h : ch = 0x2D ∨ isDigit ch = true) {other : UInt8}
    (hother : other.toNat < 0x2D ∨ 0x39 < other.toNat) : ch ≠ other := by
  rintro rfl
  obtain rfl | hdigit := h
  · exact absurd hother (by decide)
  · rw [isDigit, Bool.and_eq_true, decide_eq_true_iff, decide_eq_true_iff, UInt8.le_iff_toNat_le,
      UInt8.le_iff_toNat_le] at hdigit
    have hfirst : 0x2D ≤ ch.toNat := Nat.le_trans (by decide) hdigit.1
    have hlast : ch.toNat ≤ 0x39 := hdigit.2
    omega

theorem readValue_decimal (levels : ℕ) (hch : ch = 0x2D ∨ isDigit ch = true)
    (h : readDecimal (ch :: tail) = some (value, rest)) :
    readValue levels (ch :: tail) = some (.number (binary64.ofRat value), rest) := by
  rw [readValue_cons (numberStart_ne hch (by decide)) (numberStart_ne hch (by decide))
    (numberStart_ne hch (by decide)), if_neg (numberStart_ne hch (by decide)), if_pos hch, h]
  rfl

theorem reads_decimal (levels : ℕ)
    (hread : ∀ rest, Ends rest → readDecimal (text ++ rest) = some (value, rest))
    (hstart : ∃ ch rest, text = ch :: rest ∧ (ch = 0x2D ∨ isDigit ch = true)) :
    Reads levels text (.number (binary64.ofRat value)) := by
  obtain ⟨ch, tail, rfl, hch⟩ := hstart
  refine ⟨fun rest hrest => readValue_decimal levels hch (hread rest hrest), ch, tail, rfl, ?_,
    numberStart_ne hch (by decide), numberStart_ne hch (by decide), numberStart_ne hch (by decide)⟩
  obtain rfl | hdigit := hch
  · decide
  · rw [isDigit, Bool.and_eq_true, decide_eq_true_iff, UInt8.le_iff_toNat_le] at hdigit
    rw [UInt8.lt_iff_toNat_lt]
    exact Nat.lt_of_lt_of_le (by decide) hdigit.1

theorem natText_starts (n : ℕ) (tail : Bytes) :
    ∃ ch rest, natText n ++ tail = ch :: rest ∧ (ch = 0x2D ∨ isDigit ch = true) := by
  obtain ⟨-, hdigits, hne⟩ := natText_spec n
  cases htext : natText n with
  | nil => exact absurd htext hne
  | cons ch rest => exact ⟨ch, rest ++ tail, rfl, .inr (hdigits ch (htext ▸ List.mem_cons_self))⟩

theorem reads_intText (levels : ℕ) (n : ℤ) :
    Reads levels (intText n) (.number (binary64.ofRat n)) := by
  apply reads_decimal levels fun rest => readDecimal_intText n
  rw [intText]
  split_ifs with hneg
  · exact ⟨_, _, rfl, .inl rfl⟩
  · have hstart := natText_starts n.natAbs []
    rwa [List.append_nil] at hstart

theorem reads_fixedText (levels places : ℕ) (q : ℚ) :
    Reads levels (fixedText places q) (.number (binary64.ofRat (fixedValue places q))) := by
  apply reads_decimal levels fun rest => readDecimal_fixedText places q
  rw [fixedText]
  split_ifs with hneg
  · exact ⟨_, _, rfl, .inl rfl⟩
  · exact natText_starts _ _

/-! ## Arrays and objects -/

def joined : List Bytes → Bytes
  | [] => []
  | [text] => text
  | text :: texts => text ++ 0x2C :: joined texts

theorem joined_cons_cons (text next : Bytes) (texts : List Bytes) :
    joined (text :: next :: texts) = text ++ 0x2C :: joined (next :: texts) := rfl

def arrayText (items : List Bytes) : Bytes := 0x5B :: (joined items ++ [0x5D])

def memberText (member : Bytes × Bytes) : Bytes := quoted member.1 ++ 0x3A :: member.2

def objectText (members : List (Bytes × Bytes)) : Bytes :=
  0x7B :: (joined (members.map memberText) ++ [0x7D])

section Items

variable {α : Type} {item : Bytes → Option (α × Bytes)} {close : UInt8}

theorem length_le_joined (texts : List Bytes) (h : ∀ text ∈ texts, text ≠ []) :
    texts.length ≤ (joined texts).length := by
  induction texts with
  | nil => exact Nat.le_refl 0
  | cons text texts ih =>
    have hrest := ih fun other hother => h other (List.mem_cons_of_mem _ hother)
    have hpos : 0 < text.length := List.length_pos_iff.mpr (h text List.mem_cons_self)
    cases texts with
    | nil =>
      rw [joined, List.length_singleton]
      exact hpos
    | cons next texts =>
      rw [joined_cons_cons]
      simp only [List.length_append, List.length_cons] at hrest ⊢
      omega

variable {items : List (Bytes × α)}

theorem readItems_written (hclose : close = 0x5D ∨ close = 0x7D) (hne : items ≠ [])
    (hitems : ∀ written ∈ items, Written item written.1 written.2) {fuel : ℕ}
    (hfuel : items.length ≤ fuel) (rest : Bytes) :
    readItems item close fuel (joined (items.map Prod.fst) ++ close :: rest) =
      some (items.map Prod.snd, rest) := by
  induction items generalizing fuel with
  | nil => exact absurd rfl hne
  | cons written items ih =>
    obtain ⟨fuel, rfl⟩ := Nat.exists_eq_succ_of_ne_zero
      (Nat.ne_of_gt (Nat.lt_of_lt_of_le (Nat.succ_pos _) hfuel))
    obtain ⟨hread, hstarts⟩ := hitems written List.mem_cons_self
    have hafter : ∀ ch : UInt8, (ch = 0x2C ∨ ch = 0x5D ∨ ch = 0x7D) → ∀ tail : Bytes,
        Ends (ch :: tail) ∧ skipWhitespace (ch :: tail) = ch :: tail := by
      intro ch hch tail
      constructor
      · rintro _ ⟨⟩
        exact hch
      · obtain rfl | rfl | rfl := hch <;> rfl
    cases items with
    | nil =>
      obtain ⟨hends, hskip⟩ := hafter close (.inr hclose) rest
      have hcomma : close ≠ 0x2C := by obtain rfl | rfl := hclose <;> decide
      have htext : joined ([written].map Prod.fst) ++ close :: rest = written.1 ++ close :: rest :=
        rfl
      rw [htext, readItems, hstarts.skipWhitespace, hread _ hends]
      dsimp only
      rw [hskip]
      dsimp only
      rw [if_neg hcomma, if_pos rfl]
      rfl
    | cons next items =>
      have hothers := ih (List.cons_ne_nil _ _)
        (fun other hother => hitems other (List.mem_cons_of_mem _ hother))
        (Nat.le_of_succ_le_succ hfuel)
      obtain ⟨hends, hskip⟩ := hafter 0x2C (.inl rfl)
        (joined ((next :: items).map Prod.fst) ++ close :: rest)
      have htext : joined ((written :: next :: items).map Prod.fst) ++ close :: rest =
          written.1 ++ 0x2C :: (joined ((next :: items).map Prod.fst) ++ close :: rest) := by
        rw [List.map_cons, List.map_cons, joined_cons_cons, List.append_assoc, List.cons_append]
      rw [htext, readItems, hstarts.skipWhitespace, hread _ hends]
      dsimp only
      rw [hskip]
      dsimp only
      rw [if_pos rfl, hothers]
      rfl

theorem readList_written (hclose : close = 0x5D ∨ close = 0x7D)
    (hitems : ∀ written ∈ items, Written item written.1 written.2) (rest : Bytes) :
    readList item close (joined (items.map Prod.fst) ++ close :: rest) =
      some (items.map Prod.snd, rest) := by
  cases items with
  | nil =>
    have hskip : skipWhitespace (close :: rest) = close :: rest := by
      obtain rfl | rfl := hclose <;> rfl
    change readList item close (close :: rest) = _
    rw [readList, hskip]
    exact if_pos rfl
  | cons written items =>
    have hlength := length_le_joined ((written :: items).map Prod.fst) (by
      intro text htext
      obtain ⟨other, hother, rfl⟩ := List.mem_map.mp htext
      exact (hitems other hother).starts.ne_nil)
    rw [List.length_map] at hlength
    have hfirst : Starts (joined ((written :: items).map Prod.fst)) := by
      obtain ⟨ch, tail, htext, hch⟩ := (hitems written List.mem_cons_self).starts
      cases items with
      | nil => exact ⟨ch, tail, htext, hch⟩
      | cons next items =>
        refine ⟨ch, tail ++ 0x2C :: joined ((next :: items).map Prod.fst), ?_, hch⟩
        rw [List.map_cons, List.map_cons, joined_cons_cons, htext, List.cons_append]
    have hfuel : (written :: items).length ≤
        (joined ((written :: items).map Prod.fst) ++ close :: rest).length := by
      rw [List.length_append]
      exact Nat.le_trans hlength (Nat.le_add_right _ _)
    have hread := readItems_written hclose (List.cons_ne_nil written items) hitems hfuel rest
    rw [readList, hfirst.skipWhitespace]
    obtain ⟨ch, tail, htext, -, hbracket, hbrace, -⟩ := hfirst
    have hnot : ch ≠ close := by
      obtain rfl | rfl := hclose
      · exact hbracket
      · exact hbrace
    rw [htext] at hread ⊢
    rw [List.cons_append] at hread ⊢
    dsimp only
    rw [if_neg hnot]
    exact hread

end Items

theorem reads_array {items : List (Bytes × Json Binary64)}
    (hitems : ∀ written ∈ items, Reads levels written.1 written.2) :
    Reads (levels + 1) (arrayText (items.map Prod.fst)) (.array (items.map Prod.snd)) := by
  refine ⟨fun rest _ => ?_, _, _, rfl, by decide⟩
  have hlist := readList_written (.inl rfl) hitems rest
  have hdigit : ¬ ((0x5B : UInt8) = 0x2D ∨ isDigit 0x5B = true) := by decide
  rw [arrayText, List.cons_append, List.append_assoc,
    readValue_cons (by decide) (by decide) (by decide), if_neg (by decide), if_neg hdigit]
  dsimp only
  rw [if_pos rfl]
  change (readList (readValue levels) 0x5D (joined (items.map Prod.fst) ++ 0x5D :: rest)).map _ = _
  rw [hlist]
  rfl

theorem member_written {value : Json Binary64} (h : Reads levels text value) (key : Bytes) :
    Written (readMember (readValue levels)) (memberText (key, text)) (cString key, value) := by
  refine ⟨fun rest hrest => ?_, _, _, rfl, by decide⟩
  have hcolon : skipWhitespace (0x3A :: (text ++ rest)) = 0x3A :: (text ++ rest) := rfl
  rw [memberText, List.append_assoc, List.cons_append, readMember, readString_quoted]
  dsimp only
  rw [hcolon]
  dsimp only
  rw [if_pos rfl, h.starts.skipWhitespace, h.read rest hrest]
  rfl

theorem reads_object {members : List (Bytes × Bytes × Json Binary64)}
    (hmembers : ∀ member ∈ members, Reads levels member.2.1 member.2.2)
    (hkeys : (members.map fun member => cString member.1).Nodup) :
    Reads (levels + 1) (objectText (members.map fun member => (member.1, member.2.1)))
      (.object (members.map fun member => (cString member.1, member.2.2))) := by
  refine ⟨fun rest _ => ?_, _, _, rfl, by decide⟩
  let items : List (Bytes × Bytes × Json Binary64) := members.map fun member =>
    (memberText (member.1, member.2.1), cString member.1, member.2.2)
  have hitems : ∀ written ∈ items,
      Written (readMember (readValue levels)) written.1 written.2 := by
    intro written hwritten
    obtain ⟨member, hmember, rfl⟩ := List.mem_map.mp hwritten
    exact member_written (hmembers member hmember) member.1
  have hlist := readList_written (.inr rfl) hitems rest
  have htexts : items.map Prod.fst =
      (members.map fun member => (member.1, member.2.1)).map memberText := by
    rw [List.map_map, List.map_map]
    rfl
  have hfields : items.map Prod.snd =
      members.map fun member => (cString member.1, member.2.2) := by
    rw [List.map_map]
    rfl
  rw [htexts, hfields] at hlist
  have hdigit : ¬ ((0x7B : UInt8) = 0x2D ∨ isDigit 0x7B = true) := by decide
  have hnodup :
      ((members.map fun member => (cString member.1, member.2.2)).map Prod.fst).Nodup := by
    rw [List.map_map]
    exact hkeys
  rw [objectText, List.cons_append, List.append_assoc,
    readValue_cons (by decide) (by decide) (by decide), if_neg (by decide), if_neg hdigit]
  dsimp only
  rw [if_neg (by decide), if_pos rfl]
  rw [List.singleton_append, hlist]
  dsimp only
  rw [if_pos hnodup]

/-- A text that is read as some value. -/
def Readable (levels : ℕ) (text : Bytes) : Prop := ∃ value, Reads levels text value

theorem readable_quoted (levels : ℕ) (value : Bytes) : Readable levels (quoted value) :=
  ⟨_, reads_quoted levels value⟩

theorem readable_array {texts : List Bytes} (htexts : ∀ text ∈ texts, Readable levels text) :
    Readable (levels + 1) (arrayText texts) := by
  have hinhabited : Nonempty (Json Binary64) := ⟨.null⟩
  choose! value hvalue using htexts
  let items : List (Bytes × Json Binary64) := texts.map fun text => (text, value text)
  have hitems : ∀ written ∈ items, Reads levels written.1 written.2 := by
    intro written hwritten
    obtain ⟨text, htext, rfl⟩ := List.mem_map.mp hwritten
    exact hvalue text htext
  have hread := reads_array hitems
  have hsame : items.map Prod.fst = texts := by
    rw [List.map_map]
    exact List.map_id texts
  rw [hsame] at hread
  exact ⟨_, hread⟩

theorem readable_object {members : List (Bytes × Bytes)} (keys : List Bytes)
    (hkeys : (keys.map cString).Nodup) (hnames : members.map Prod.fst = keys)
    (hmembers : ∀ member ∈ members, Readable levels member.2) :
    Readable (levels + 1) (objectText members) := by
  have hinhabited : Nonempty (Json Binary64) := ⟨.null⟩
  choose! value hvalue using hmembers
  let items : List (Bytes × Bytes × Json Binary64) :=
    members.map fun member => (member.1, member.2, value member)
  have hitems : ∀ member ∈ items, Reads levels member.2.1 member.2.2 := by
    intro written hwritten
    obtain ⟨member, hmember, rfl⟩ := List.mem_map.mp hwritten
    exact hvalue member hmember
  have hnodup : (items.map fun member => cString member.1).Nodup := by
    rw [← hnames, List.map_map] at hkeys
    rw [List.map_map]
    exact hkeys
  have hread := reads_object hitems hnodup
  have hsame : (items.map fun member => (member.1, member.2.1)) = members := by
    rw [List.map_map]
    exact List.map_id members
  rw [hsame] at hread
  exact ⟨_, hread⟩

theorem parse_of_reads {value : Json Binary64} (h : Reads nestingLimit text value) :
    parse text = some value := by
  have hbom : skipUtf8Bom text = text := by
    obtain ⟨ch, tail, rfl, -, -, -, hmark⟩ := h.starts
    rw [skipUtf8Bom, if_neg]
    rintro ⟨-, hfirst⟩
    exact hmark (List.cons.inj hfirst).1
  have hskip := h.starts.skipWhitespace []
  have hread := h.read [] (fun ch hch => nomatch hch)
  rw [List.append_nil] at hskip hread
  rw [parse, hbom, hskip, hread]
  rfl

end FastTts.JsonText
