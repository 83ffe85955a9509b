import FastTts.FloatFormat
import FastTts.Json

/-!
# JSON texts

`engine::io::json::parse` reads a text through cJSON. Numbers are the nearest `double` of a decimal
text, strings end at their first zero byte, and a key must not come twice. What exception a text is
refused with is left out.
-/

namespace FastTts.JsonText

open FloatFormat

def binary64 : Format := ⟨53, -1074, 971, by decide⟩

abbrev Binary64 := Value binary64

/-- White space is every byte up to `0x20`. -/
def skipWhitespace (text : Bytes) : Bytes := text.dropWhile (· ≤ 0x20)

/-! ## Numbers -/

def digitsValue (digits : Bytes) : ℕ := digits.foldl (fun n ch => 10 * n + (ch.toNat - 0x30)) 0

def readSign : Bytes → Bool × Bytes
  | [] => (false, [])
  | ch :: rest =>
    if ch = 0x2D then (true, rest) else if ch = 0x2B then (false, rest) else (false, ch :: rest)

/-- The digits behind a point; a point without digits is read too. -/
def readFraction : Bytes → Bytes × Bytes
  | [] => ([], [])
  | ch :: rest => if ch = 0x2E then rest.span isDigit else ([], ch :: rest)

/-- An `e` without digits is not read. -/
def readExponent : Bytes → ℤ × Bytes
  | [] => (0, [])
  | ch :: rest =>
    if ch = 0x65 ∨ ch = 0x45 then
      let (negative, digits) := readSign rest
      match digits.span isDigit with
      | ([], _) => (0, ch :: rest)
      | (digits, rest) => (if negative then -digitsValue digits else digitsValue digits, rest)
    else (0, ch :: rest)

def readDecimal (text : Bytes) : Option (ℚ × Bytes) :=
  let (negative, text) := readSign text
  let (whole, text) := text.span isDigit
  let (fraction, text) := readFraction text
  if whole = [] ∧ fraction = [] then none
  else
    let (exponent, text) := readExponent text
    let value := (digitsValue (whole ++ fraction) : ℚ) * 10 ^ (exponent - fraction.length)
    some (if negative then -value else value, text)

/-! ## Strings -/

/-- What stands before the closing quote, and what behind it. -/
def closeQuote : Bytes → Option (Bytes × Bytes)
  | [] => none
  | ch :: rest =>
    if ch = 0x22 then some ([], rest)
    else if ch = 0x5C then
      match rest with
      | [] => none
      | escaped :: rest =>
        (closeQuote rest).map fun (content, rest) => (ch :: escaped :: content, rest)
    else (closeQuote rest).map fun (content, rest) => (ch :: content, rest)

def hexValue (ch : UInt8) : Option ℕ :=
  if 0x30 ≤ ch ∧ ch ≤ 0x39 then some (ch.toNat - 0x30)
  else if 0x41 ≤ ch ∧ ch ≤ 0x46 then some (10 + ch.toNat - 0x41)
  else if 0x61 ≤ ch ∧ ch ≤ 0x66 then some (10 + ch.toNat - 0x61)
  else none

/-- Four digits give zero if one of them is none. -/
def parseHex4 (digits : Bytes) : ℕ :=
  ((digits.take 4).foldlM (fun h ch => (hexValue ch).map (16 * h + ·)) 0).getD 0

def encodeUtf8 (codepoint : ℕ) : Bytes :=
  let continuation (shift : ℕ) : UInt8 := UInt8.ofNat (0x80 + codepoint / 64 ^ shift % 64)
  if codepoint < 0x80 then [UInt8.ofNat codepoint]
  else if codepoint < 0x800 then [UInt8.ofNat (0xC0 + codepoint / 64), continuation 0]
  else if codepoint < 0x10000 then
    [UInt8.ofNat (0xE0 + codepoint / 64 ^ 2), continuation 1, continuation 0]
  else [UInt8.ofNat (0xF0 + codepoint / 64 ^ 3), continuation 2, continuation 1, continuation 0]

/-- The code point that the text begins with, as one sequence or as a pair of surrogates. -/
def utf16Literal (text : Bytes) : Option (ℕ × Bytes) :=
  let first := parseHex4 (text.drop 2)
  let second := text.drop 6
  if text.length < 6 then none
  else if 0xDC00 ≤ first ∧ first ≤ 0xDFFF then none
  else if 0xD800 ≤ first ∧ first ≤ 0xDBFF then
    let code := parseHex4 (second.drop 2)
    if second.length < 6 then none
    else if second.take 2 ≠ bytes "\\u" then none
    else if code < 0xDC00 ∨ 0xDFFF < code then none
    else some (0x10000 + (first % 0x400 * 0x400 + code % 0x400), second.drop 6)
  else some (first, second)

def simpleEscape (ch : UInt8) : Option UInt8 :=
  if ch = 0x62 then some 0x08
  else if ch = 0x66 then some 0x0C
  else if ch = 0x6E then some 0x0A
  else if ch = 0x72 then some 0x0D
  else if ch = 0x74 then some 0x09
  else if ch = 0x22 ∨ ch = 0x5C ∨ ch = 0x2F then some ch
  else none

def unescapeFrom : ℕ → Bytes → Option Bytes
  | _, [] => some []
  | 0, _ :: _ => none
  | fuel + 1, ch :: rest =>
    if ch ≠ 0x5C then (unescapeFrom fuel rest).map (ch :: ·)
    else
      -- Behind a last backslash the closing quote is read.
      let escaped := rest.headD 0x22
      if escaped = 0x75 then
        match utf16Literal (ch :: rest) with
        | none => none
        | some (codepoint, rest) => (unescapeFrom fuel rest).map (encodeUtf8 codepoint ++ ·)
      else
        match simpleEscape escaped with
        | none => none
        | some out => (unescapeFrom fuel rest.tail).map (out :: ·)

def unescape (content : Bytes) : Option Bytes := unescapeFrom content.length content

def cString (text : Bytes) : Bytes := text.takeWhile (· ≠ 0)

def readString : Bytes → Option (Bytes × Bytes)
  | [] => none
  | ch :: text =>
    if ch = 0x22 then
      match closeQuote text with
      | none => none
      | some (content, rest) => (unescape content).map fun string => (cString string, rest)
    else none

/-! ## Values -/

/-- Items up to the closing byte, with a comma between two of them. -/
def readItems {α : Type} (item : Bytes → Option (α × Bytes)) (close : UInt8) :
    ℕ → Bytes → Option (List α × Bytes)
  | 0, _ => none
  | fuel + 1, text =>
    match item (skipWhitespace text) with
    | none => none
    | some (value, rest) =>
      match skipWhitespace rest with
      | [] => none
      | ch :: rest =>
        if ch = 0x2C then
          (readItems item close fuel rest).map fun (values, rest) => (value :: values, rest)
        else if ch = close then some ([value], rest)
        else none

/-- Every item takes a byte at least, so there are no more of them than bytes. -/
def readList {α : Type} (item : Bytes → Option (α × Bytes)) (close : UInt8) (text : Bytes) :
    Option (List α × Bytes) :=
  match skipWhitespace text with
  | [] => none
  | ch :: rest => if ch = close then some ([], rest) else readItems item close text.length text

def readMember {α : Type} (value : Bytes → Option (α × Bytes)) (text : Bytes) :
    Option ((Bytes × α) × Bytes) :=
  match readString text with
  | none => none
  | some (key, rest) =>
    match skipWhitespace rest with
    | [] => none
    | ch :: rest =>
      if ch = 0x3A then (value (skipWhitespace rest)).map fun (value, rest) => ((key, value), rest)
      else none

/-- Arrays and objects are read down to a number of levels. -/
def readValue (levels : ℕ) (text : Bytes) : Option (Json Binary64 × Bytes) :=
  if (bytes "null").isPrefixOf text then some (.null, text.drop 4)
  else if (bytes "false").isPrefixOf text then some (.bool false, text.drop 5)
  else if (bytes "true").isPrefixOf text then some (.bool true, text.drop 4)
  else match text with
    | [] => none
    | ch :: rest =>
      if ch = 0x22 then (readString text).map fun (string, rest) => (.string string, rest)
      else if ch = 0x2D ∨ isDigit ch then
        (readDecimal text).map fun (value, rest) => (.number (binary64.ofRat value), rest)
      else match levels with
        | 0 => none
        | levels + 1 =>
          if ch = 0x5B then
            (readList (readValue levels) 0x5D rest).map fun (values, rest) => (.array values, rest)
          else if ch = 0x7B then
            match readList (readMember (readValue levels)) 0x7D rest with
            | none => none
            | some (fields, rest) =>
              if (fields.map Prod.fst).Nodup then some (.object fields, rest) else none
          else none

def nestingLimit : ℕ := 1000

def skipUtf8Bom (text : Bytes) : Bytes :=
  if 4 < text.length ∧ text.take 3 = [0xEF, 0xBB, 0xBF] then text.drop 3 else text

def parse (text : Bytes) : Option (Json Binary64) :=
  match readValue nestingLimit (skipWhitespace (skipUtf8Bom text)) with
  | none => none
  | some (value, rest) => if rest.all isSpace then some value else none

/-! ## What is read -/

/-- A string is a C string, and a number comes from a text. -/
def Parsed (value : Json Binary64) : Prop :=
  (∀ text, value = .string text → cString text = text) ∧ value ≠ .number .nan

variable {text rest : Bytes} {levels : ℕ} {value : Json Binary64}

theorem readString_cString {string : Bytes} (h : readString text = some (string, rest)) :
    cString string = string := by
  cases text with
  | nil => exact nomatch h
  | cons ch text =>
    rw [readString] at h
    split_ifs at h with hquote
    cases hclose : closeQuote text with
    | none =>
      rw [hclose] at h
      exact nomatch h
    | some closed =>
      rw [hclose] at h
      obtain ⟨value, -, hvalue⟩ := Option.map_eq_some_iff.mp h
      obtain ⟨rfl, -⟩ := Prod.mk.inj hvalue
      rw [cString, cString, List.takeWhile_idem]

theorem readValue_cases (h : readValue levels text = some (value, rest)) :
    value = .null ∨ (∃ b, value = .bool b) ∨
    (∃ string, value = .string string ∧ readString text = some (string, rest)) ∨
    (∃ q, value = .number (binary64.ofRat q)) ∨ (∃ values, value = .array values) ∨
    ∃ fields below after, value = .object fields ∧
      readList (readMember (readValue below)) 0x7D after = some (fields, rest) := by
  rw [readValue.eq_def] at h
  split_ifs at h with hnull hfalse htrue
  · obtain ⟨rfl, -⟩ := Prod.mk.inj (Option.some.inj h)
    exact .inl rfl
  · obtain ⟨rfl, -⟩ := Prod.mk.inj (Option.some.inj h)
    exact .inr (.inl ⟨false, rfl⟩)
  · obtain ⟨rfl, -⟩ := Prod.mk.inj (Option.some.inj h)
    exact .inr (.inl ⟨true, rfl⟩)
  cases text with
  | nil => exact nomatch h
  | cons ch text =>
    dsimp only at h
    by_cases hquote : ch = 0x22
    · rw [if_pos hquote] at h
      obtain ⟨⟨string, after⟩, hread, hvalue⟩ := Option.map_eq_some_iff.mp h
      obtain ⟨rfl, rfl⟩ := Prod.mk.inj hvalue
      exact .inr (.inr (.inl ⟨string, rfl, hread⟩))
    rw [if_neg hquote] at h
    by_cases hnumber : ch = 0x2D ∨ isDigit ch = true
    · rw [if_pos hnumber] at h
      obtain ⟨⟨number, after⟩, -, hvalue⟩ := Option.map_eq_some_iff.mp h
      obtain ⟨rfl, -⟩ := Prod.mk.inj hvalue
      exact .inr (.inr (.inr (.inl ⟨number, rfl⟩)))
    rw [if_neg hnumber] at h
    cases levels with
    | zero => exact nomatch h
    | succ levels =>
      dsimp only at h
      split_ifs at h with harray hobject
      · obtain ⟨⟨values, after⟩, -, hvalue⟩ := Option.map_eq_some_iff.mp h
        obtain ⟨rfl, -⟩ := Prod.mk.inj hvalue
        exact .inr (.inr (.inr (.inr (.inl ⟨values, rfl⟩))))
      · cases hlist : readList (readMember (readValue levels)) 0x7D text with
        | none =>
          rw [hlist] at h
          exact nomatch h
        | some read =>
          obtain ⟨fields, after⟩ := read
          rw [hlist] at h
          dsimp only at h
          split_ifs at h with hkeys
          obtain ⟨rfl, rfl⟩ := Prod.mk.inj (Option.some.inj h)
          exact .inr (.inr (.inr (.inr (.inr ⟨fields, levels, text, rfl, hlist⟩))))

theorem readValue_parsed (h : readValue levels text = some (value, rest)) : Parsed value := by
  obtain rfl | ⟨b, rfl⟩ | ⟨string, rfl, hread⟩ | ⟨q, rfl⟩ | ⟨values, rfl⟩ |
    ⟨fields, -, -, rfl, -⟩ := readValue_cases h
  · exact ⟨nofun, nofun⟩
  · exact ⟨nofun, nofun⟩
  · refine ⟨?_, nofun⟩
    intro other hother
    obtain rfl := Json.string.inj hother
    exact readString_cString hread
  · refine ⟨nofun, ?_⟩
    intro hnan
    exact ofRat_ne_nan q (Json.number.inj hnan)
  · exact ⟨nofun, nofun⟩
  · exact ⟨nofun, nofun⟩

section

variable {α : Type} {item : Bytes → Option (α × Bytes)} {P : α → Prop}
  (hitem : ∀ text value rest, item text = some (value, rest) → P value) {close : UInt8}
include hitem

theorem readItems_forall {fuel : ℕ} {values : List α}
    (h : readItems item close fuel text = some (values, rest)) : ∀ value ∈ values, P value := by
  induction fuel generalizing text values rest with
  | zero => exact nomatch h
  | succ fuel ih =>
    rw [readItems] at h
    cases hread : item (skipWhitespace text) with
    | none =>
      rw [hread] at h
      exact nomatch h
    | some read =>
      obtain ⟨first, after⟩ := read
      have hfirst := hitem _ _ _ hread
      rw [hread] at h
      dsimp only at h
      cases hskip : skipWhitespace after with
      | nil =>
        rw [hskip] at h
        exact nomatch h
      | cons ch after =>
        rw [hskip] at h
        dsimp only at h
        split_ifs at h with hcomma hclose
        · obtain ⟨⟨others, behind⟩, hothers, hvalues⟩ := Option.map_eq_some_iff.mp h
          obtain ⟨rfl, -⟩ := Prod.mk.inj hvalues
          exact List.forall_mem_cons.mpr ⟨hfirst, ih hothers⟩
        · obtain ⟨rfl, -⟩ := Prod.mk.inj (Option.some.inj h)
          exact List.forall_mem_singleton.mpr hfirst

theorem readList_forall {values : List α} (h : readList item close text = some (values, rest)) :
    ∀ value ∈ values, P value := by
  rw [readList] at h
  cases hskip : skipWhitespace text with
  | nil =>
    rw [hskip] at h
    exact nomatch h
  | cons ch after =>
    rw [hskip] at h
    dsimp only at h
    split_ifs at h with hclose
    · obtain ⟨rfl, -⟩ := Prod.mk.inj (Option.some.inj h)
      exact List.forall_mem_nil _
    · exact readItems_forall hitem h

end

theorem readMember_parsed {member : Bytes × Json Binary64}
    (h : readMember (readValue levels) text = some (member, rest)) : Parsed member.2 := by
  rw [readMember] at h
  cases hkey : readString text with
  | none =>
    rw [hkey] at h
    exact nomatch h
  | some key =>
    rw [hkey] at h
    dsimp only at h
    cases hskip : skipWhitespace key.2 with
    | nil =>
      rw [hskip] at h
      exact nomatch h
    | cons ch after =>
      rw [hskip] at h
      dsimp only at h
      split_ifs at h with hcolon
      obtain ⟨⟨value, behind⟩, hread, hmember⟩ := Option.map_eq_some_iff.mp h
      obtain ⟨rfl, -⟩ := Prod.mk.inj hmember
      exact readValue_parsed hread

theorem parse_lookup_parsed {key : Bytes} {fields : List (Bytes × Json Binary64)}
    (hparse : parse text = some (.object fields)) (hlookup : fields.lookup key = some value) :
    Parsed value := by
  rw [parse] at hparse
  cases hread : readValue nestingLimit (skipWhitespace (skipUtf8Bom text)) with
  | none =>
    rw [hread] at hparse
    exact nomatch hparse
  | some read =>
    obtain ⟨whole, rest⟩ := read
    rw [hread] at hparse
    dsimp only at hparse
    split_ifs at hparse with hspace
    obtain rfl := Option.some.inj hparse
    obtain h | ⟨b, h⟩ | ⟨string, h, -⟩ | ⟨q, h⟩ | ⟨values, h⟩ | ⟨others, below, after, h, hlist⟩ :=
      readValue_cases hread
    · exact nomatch h
    · exact nomatch h
    · exact nomatch h
    · exact nomatch h
    · exact nomatch h
    obtain rfl := Json.object.inj h
    obtain ⟨before, behind, hfields, -⟩ := List.lookup_eq_some_iff.mp hlookup
    have hall := readList_forall (P := fun member => Parsed member.2)
      (fun _ _ _ hmember => readMember_parsed hmember) hlist
    exact hall (key, value) (hfields ▸ List.mem_append_right _ List.mem_cons_self)

end FastTts.JsonText
