import FastTts.JsoncStripping

/-!
# Values of spaced texts

What the parser reads depends on the tokens of a text and not on the white space between them, so a
text with comments and trailing commas is read as the one without.
-/

namespace FastTts.Jsonc

open JsonText FloatFormat

/-! ## Numbers -/

/-- What may come behind a word. -/
def Stops (rest : Bytes) : Prop :=
  ∀ ch ∈ rest.head?, isDigit ch = false ∧ ch ≠ 0x2E ∧ ch ≠ 0x65 ∧ ch ≠ 0x45

theorem IsExponent.read {exponent : Bytes} (h : IsExponent exponent) :
    ∃ power, ∀ rest, Stops rest → readExponent (exponent ++ rest) = (power, rest) ∧
      ∀ ch ∈ (exponent ++ rest).head?, isDigit ch = false ∧ ch ≠ 0x2E := by
  cases h with
  | none =>
      refine ⟨0, fun rest hrest => ⟨?_, fun ch hch => ?_⟩⟩
      · cases rest with
        | nil => rfl
        | cons ch rest =>
            obtain ⟨-, -, hlower, hupper⟩ := hrest ch rfl
            rw [List.nil_append, readExponent, if_neg (not_or.mpr ⟨hlower, hupper⟩)]
      · obtain ⟨hdigit, hpoint, -⟩ := hrest ch hch
        exact ⟨hdigit, hpoint⟩
  | @power letter sign digits hletter hsign hdigits =>
      obtain ⟨negative, hread⟩ : ∃ negative, ∀ rest,
          readSign (sign ++ (digits ++ rest)) = (negative, digits ++ rest) := by
        cases hsign with
        | none =>
            refine ⟨false, fun rest => ?_⟩
            rw [List.nil_append]
            exact readSign_digits hdigits.1 hdigits.2
        | plus => exact ⟨false, fun rest => rfl⟩
        | minus => exact ⟨true, fun rest => rfl⟩
      refine ⟨if negative then -digitsValue digits else digitsValue digits,
        fun rest hrest => ⟨?_, ?_⟩⟩
      · have hspan := span_digits hdigits.2 fun ch hch => (hrest ch hch).1
        obtain ⟨first, tail, hcons⟩ := List.exists_cons_of_ne_nil hdigits.1
        rw [List.cons_append, readExponent, if_pos hletter, List.append_assoc, hread]
        simp only [hspan]
        rw [hcons]
      · rintro ch ⟨⟩
        obtain rfl | rfl := hletter <;> decide

theorem IsFraction.read {fraction : Bytes} (h : IsFraction fraction) :
    ∃ digits, ∀ rest, (∀ ch ∈ rest.head?, isDigit ch = false ∧ ch ≠ 0x2E) →
      readFraction (fraction ++ rest) = (digits, rest) ∧
        ∀ ch ∈ (fraction ++ rest).head?, isDigit ch = false := by
  cases h with
  | none =>
      refine ⟨[], fun rest hrest => ⟨?_, fun ch hch => (hrest ch hch).1⟩⟩
      cases rest with
      | nil => rfl
      | cons ch rest => rw [List.nil_append, readFraction, if_neg (hrest ch rfl).2]
  | @point digits h =>
      refine ⟨digits, fun rest hrest => ⟨?_, ?_⟩⟩
      · rw [List.cons_append, readFraction, if_pos rfl,
          span_digits h.2 fun ch hch => (hrest ch hch).1]
      · rintro ch ⟨⟩
        rfl

variable {text : Bytes} {token : Token} {tokens : List Token}

theorem IsNumber.read (h : IsNumber text) : ∃ value, ∀ rest, Stops rest →
    readDecimal (text ++ rest) = some (value, rest) := by
  obtain ⟨hsign, hwhole, hfraction, hexponent⟩ := h
  rename_i sign whole fraction exponent
  obtain ⟨power, hpower⟩ := hexponent.read
  obtain ⟨digits, hdigits⟩ := hfraction.read
  obtain ⟨negative, hread⟩ : ∃ negative, ∀ rest,
      readSign (sign ++ (whole ++ rest)) = (negative, whole ++ rest) := by
    obtain rfl | rfl := hsign
    · refine ⟨false, fun rest => ?_⟩
      rw [List.nil_append]
      exact readSign_digits hwhole.1 hwhole.2
    · exact ⟨true, fun rest => rfl⟩
  let value := (digitsValue (whole ++ digits) : ℚ) * 10 ^ (power - digits.length)
  refine ⟨if negative then -value else value, fun rest hrest => ?_⟩
  obtain ⟨hpower, hbehind⟩ := hpower rest hrest
  obtain ⟨hdigits, hhead⟩ := hdigits _ hbehind
  rw [readDecimal]
  simp only [List.append_assoc, hread, span_digits hwhole.2 hhead, hdigits, hpower, hwhole.1,
    false_and, if_false]
  rfl

theorem IsNumber.start (h : IsNumber text) :
    ∃ ch tail, text = ch :: tail ∧ (ch = 0x2D ∨ isDigit ch = true) := by
  obtain ⟨hsign, hwhole, -, -⟩ := h
  obtain ⟨first, tail, rfl⟩ := List.exists_cons_of_ne_nil hwhole.1
  obtain rfl | rfl := hsign
  · exact ⟨first, _, rfl, .inr (hwhole.2 first List.mem_cons_self)⟩
  · exact ⟨0x2D, _, rfl, .inl rfl⟩

theorem IsWord.read (h : IsWord text) : ∃ value, ∀ levels rest, Stops rest →
    readValue levels (text ++ rest) = some (value, rest) := by
  cases h with
  | nullWord => exact ⟨_, fun levels rest _ => readValue_null levels rest⟩
  | trueWord => exact ⟨_, fun levels rest _ => readValue_true levels rest⟩
  | falseWord => exact ⟨_, fun levels rest _ => readValue_false levels rest⟩
  | number h =>
      obtain ⟨value, hread⟩ := h.read
      obtain ⟨ch, tail, rfl, hch⟩ := h.start
      exact ⟨_, fun levels rest hrest => readValue_decimal levels hch (hread rest hrest)⟩

variable {content : Bytes} {last : Mark}

theorem IsContent.closeQuote (h : IsContent content) (rest : Bytes) :
    closeQuote (content ++ 0x22 :: rest) = some (content, rest) := by
  induction h with
  | nil => exact closeQuote_quote rest
  | plain hquote hbackslash _ ih =>
      rw [List.cons_append, closeQuote_plain hquote hbackslash, ih]
      rfl
  | escape ch _ ih =>
      rw [List.cons_append, List.cons_append, closeQuote_escape, ih]
      rfl


/-! ## Tokens of a text -/

theorem skipWhitespace_gap {gap : Bytes} (h : Blank gap) (rest : Bytes) :
    skipWhitespace (gap ++ rest) = skipWhitespace rest := by
  rw [skipWhitespace, List.dropWhile_append_of_pos, skipWhitespace]
  intro ch hch
  obtain ⟨-, -, -, hlow⟩ := isSpace_plain (h ch hch)
  exact decide_eq_true hlow

theorem skipWhitespace_token (token : Token) (rest : Bytes) :
    skipWhitespace (token.text ++ rest) = token.text ++ rest := by
  obtain ⟨ch, tail, htext, -, hhigh, -⟩ := token.text_eq_cons
  rw [htext, List.cons_append, skipWhitespace, List.dropWhile_cons_of_neg]
  simpa using hhigh

theorem Spaced.skip_nil (h : Spaced [] text) : skipWhitespace text = [] := by
  cases h with
  | nil h =>
      have hgap := skipWhitespace_gap h []
      rwa [List.append_nil] at hgap

theorem Spaced.skip_cons (h : Spaced (token :: tokens) text) :
    ∃ rest, skipWhitespace text = token.text ++ rest ∧ Spaced tokens rest := by
  cases h with
  | cons token hgap h => exact ⟨_, by rw [skipWhitespace_gap hgap, skipWhitespace_token], h⟩
  | comma hcommas => exact absurd hcommas id

theorem Spaced.length_le (h : Spaced tokens text) : tokens.length ≤ text.length := by
  induction h with
  | nil => exact Nat.zero_le _
  | cons token _ _ ih =>
      obtain ⟨ch, tail, htext, -⟩ := token.text_eq_cons
      rw [htext, List.length_cons, List.length_append, List.length_append, List.length_cons]
      omega
  | comma hcommas => exact absurd hcommas id

theorem Spaced.stops {word : Bytes} {h : IsWord word} (hjson : JsonTokens (.word word h :: tokens))
    (hspaced : Spaced tokens text) : Stops text := by
  have hspace : ∀ ch, isSpace ch = true →
      isDigit ch = false ∧ ch ≠ 0x2E ∧ ch ≠ 0x65 ∧ ch ≠ 0x45 :=
    Utf8Spans.forall_byte (by decide +kernel)
  have hmark : ∀ sign : Mark, isDigit sign.byte = false ∧ sign.byte ≠ 0x2E ∧ sign.byte ≠ 0x65 ∧
      sign.byte ≠ 0x45 := by
    intro sign
    cases sign <;> decide
  intro ch hch
  cases hspaced with
  | nil hgap => exact hspace ch (hgap ch (List.mem_of_mem_head? hch))
  | @cons gap rest token tokens hgap _ =>
      cases gap with
      | nil =>
          cases (List.isChain_cons_cons.mp hjson).1 with
          | word _ _ sign =>
              obtain rfl := Option.some.inj hch
              exact hmark sign
      | cons first gap =>
          obtain rfl := Option.some.inj hch
          exact hspace _ (hgap _ List.mem_cons_self)
  | comma hcommas => exact absurd hcommas id

/-! ## Two texts of the same tokens -/

/-- Both readings fail, or they read the same from the same tokens. -/
def Agree {α : Type} (tokens : List Token) (first second : Option (α × Bytes)) : Prop :=
  (first = none ∧ second = none) ∨
    ∃ value rest rest' behind, behind.length < tokens.length ∧ JsonTokens behind ∧
      Spaced behind rest ∧ Spaced behind rest' ∧ first = some (value, rest) ∧
      second = some (value, rest')

/-- A reader that starts behind white space and does not tell it apart. -/
def Insensitive {α : Type} (item : Bytes → Option (α × Bytes)) : Prop :=
  ∀ tokens text text', JsonTokens tokens → Spaced tokens text → Spaced tokens text' →
    Agree tokens (item (skipWhitespace text)) (item (skipWhitespace text'))

variable {α β : Type}

theorem Agree.map {first second : Option (α × Bytes)} (h : Agree tokens first second) (f : α → β) :
    Agree tokens (first.map fun (value, rest) => (f value, rest))
      (second.map fun (value, rest) => (f value, rest)) := by
  obtain ⟨rfl, rfl⟩ | ⟨value, rest, rest', behind, hlt, hjson, hrest, hrest', rfl, rfl⟩ := h
  · exact .inl ⟨rfl, rfl⟩
  · exact .inr ⟨f value, rest, rest', behind, hlt, hjson, hrest, hrest', rfl, rfl⟩

theorem Agree.mono {more : List Token} {first second : Option (α × Bytes)}
    (h : Agree tokens first second) (hle : tokens.length ≤ more.length) :
    Agree more first second := by
  obtain hnone | ⟨value, rest, rest', behind, hlt, hbehind⟩ := h
  · exact .inl hnone
  · exact .inr ⟨value, rest, rest', behind, hlt.trans_le hle, hbehind⟩

theorem agree_some {rest rest' : Bytes} (value : α) (hjson : JsonTokens (token :: tokens))
    (hrest : Spaced tokens rest) (hrest' : Spaced tokens rest') :
    Agree (token :: tokens) (some (value, rest)) (some (value, rest')) :=
  .inr ⟨value, rest, rest', tokens, Nat.lt_succ_self _, hjson.tail, hrest, hrest', rfl, rfl⟩

theorem agree_none :
    Agree tokens (none : Option (α × Bytes)) none := .inl ⟨rfl, rfl⟩


theorem readString_content (h : IsContent content) (rest : Bytes) :
    readString (0x22 :: (content ++ 0x22 :: rest)) =
      (unescape content).map fun string => (cString string, rest) := by
  rw [readString, if_pos rfl, h.closeQuote]

theorem readString_other {ch : UInt8} (h : ch ≠ 0x22) (rest : Bytes) :
    readString (ch :: rest) = none := if_neg h

theorem insensitive_readString : Insensitive readString := by
  intro tokens text text' hjson h h'
  cases tokens with
  | nil =>
      rw [h.skip_nil, h'.skip_nil]
      exact agree_none
  | cons token tokens =>
      obtain ⟨rest, hskip, hrest⟩ := h.skip_cons
      obtain ⟨rest', hskip', hrest'⟩ := h'.skip_cons
      rw [hskip, hskip']
      cases token with
      | word word hword =>
          obtain ⟨ch, tail, rfl⟩ := List.exists_cons_of_ne_nil hword.ne_nil
          have hch := (hword.wordBytes ch List.mem_cons_self).plain.1
          rw [Token.text, List.cons_append, List.cons_append, readString_other hch,
            readString_other hch]
          exact agree_none
      | string content hcontent =>
          rw [Token.string_append, Token.string_append, readString_content hcontent,
            readString_content hcontent]
          cases unescape content with
          | none => exact agree_none
          | some string => exact agree_some _ hjson hrest hrest'
      | mark sign =>
          have hch : sign.byte ≠ 0x22 := by cases sign <;> decide
          rw [Token.text, List.singleton_append, List.singleton_append, readString_other hch,
            readString_other hch]
          exact agree_none

section Items

variable {item : Bytes → Option (α × Bytes)} {text text' : Bytes} {tokens : List Token}

theorem Insensitive.none_of_nil (h : Insensitive item) (htext : Spaced [] text) :
    item (skipWhitespace text) = none := by
  obtain ⟨hnone, -⟩ | ⟨-, -, -, behind, hlt, -⟩ := h [] text text List.isChain_nil htext htext
  · exact hnone
  · exact absurd hlt (Nat.not_lt_zero _)

theorem agree_behind (sign : Mark) {comma comma' : Bytes → Option (α × Bytes)} (value : α)
    (hjson : JsonTokens tokens) (h : Spaced tokens text) (h' : Spaced tokens text')
    (hcomma : ∀ behind rest rest', behind.length < tokens.length → JsonTokens behind →
      Spaced behind rest → Spaced behind rest' → Agree tokens (comma rest) (comma' rest')) :
    Agree tokens
      (match skipWhitespace text with
        | [] => none
        | ch :: rest =>
          if ch = 0x2C then comma rest else if ch = sign.byte then some (value, rest) else none)
      (match skipWhitespace text' with
        | [] => none
        | ch :: rest =>
          if ch = 0x2C then comma' rest
          else if ch = sign.byte then some (value, rest) else none) := by
  cases tokens with
  | nil =>
      rw [h.skip_nil, h'.skip_nil]
      exact agree_none
  | cons token tokens =>
      obtain ⟨rest, hskip, hrest⟩ := h.skip_cons
      obtain ⟨rest', hskip', hrest'⟩ := h'.skip_cons
      obtain ⟨ch, tail, htext, -, -, -, hmark⟩ := token.text_eq_cons
      rw [hskip, hskip', htext, List.cons_append, List.cons_append]
      dsimp only
      split_ifs with hch hclose
      · obtain rfl := hmark .comma hch
        obtain rfl : tail = [] := (List.cons.inj htext).2.symm
        exact hcomma tokens rest rest' (Nat.lt_succ_self _) hjson.tail hrest hrest'
      · obtain rfl := hmark sign hclose
        obtain rfl : tail = [] := (List.cons.inj htext).2.symm
        exact agree_some _ hjson hrest hrest'
      · exact agree_none

theorem agree_readItems (hitem : Insensitive item) (sign : Mark) {fuel fuel' : ℕ}
    (hjson : JsonTokens tokens) (h : Spaced tokens text) (h' : Spaced tokens text')
    (hfuel : tokens.length ≤ fuel) (hfuel' : tokens.length ≤ fuel') :
    Agree tokens (readItems item sign.byte fuel text) (readItems item sign.byte fuel' text') := by
  have hempty : ∀ fuel text, Spaced [] text → readItems item sign.byte fuel text = none := by
    intro fuel text htext
    cases fuel with
    | zero => rfl
    | succ fuel => rw [readItems, hitem.none_of_nil htext]
  induction fuel generalizing fuel' tokens text text' with
  | zero =>
      obtain rfl := List.length_eq_zero_iff.mp (Nat.le_zero.mp hfuel)
      rw [hempty _ _ h, hempty _ _ h']
      exact agree_none
  | succ fuel ih =>
      cases fuel' with
      | zero =>
          obtain rfl := List.length_eq_zero_iff.mp (Nat.le_zero.mp hfuel')
          rw [hempty _ _ h, hempty _ _ h']
          exact agree_none
      | succ fuel' =>
          rw [readItems, readItems]
          obtain ⟨hnone, hnone'⟩ |
            ⟨value, rest, rest', behind, hlt, hjson', hrest, hrest', hsome, hsome'⟩ :=
            hitem tokens text text' hjson h h'
          · rw [hnone, hnone']
            exact agree_none
          rw [hsome, hsome']
          dsimp only
          refine (agree_behind sign [value] hjson' hrest hrest' ?_).mono hlt.le
          intro further _ _ hfurther hchain hspaced hspaced'
          have hle : further.length ≤ fuel := by omega
          have hle' : further.length ≤ fuel' := by omega
          exact ((ih hchain hspaced hspaced' hle hle').map (value :: ·)).mono hfurther.le

theorem agree_readList (hitem : Insensitive item) (sign : Mark) (hjson : JsonTokens tokens)
    (h : Spaced tokens text) (h' : Spaced tokens text') :
    Agree tokens (readList item sign.byte text) (readList item sign.byte text') := by
  rw [readList, readList]
  have hitems := agree_readItems hitem sign hjson h h' h.length_le h'.length_le
  cases tokens with
  | nil =>
      rw [h.skip_nil, h'.skip_nil]
      exact agree_none
  | cons token tokens =>
      obtain ⟨rest, hskip, hrest⟩ := h.skip_cons
      obtain ⟨rest', hskip', hrest'⟩ := h'.skip_cons
      obtain ⟨ch, tail, htext, -, -, -, hmark⟩ := token.text_eq_cons
      rw [hskip, hskip', htext, List.cons_append, List.cons_append]
      dsimp only
      split_ifs with hclose
      · obtain rfl := hmark sign hclose
        obtain rfl : tail = [] := (List.cons.inj htext).2.symm
        exact agree_some _ hjson hrest hrest'
      · exact hitems

theorem insensitive_readMember (hitem : Insensitive item) : Insensitive (readMember item) := by
  intro tokens text text' hjson h h'
  rw [readMember, readMember]
  obtain ⟨hnone, hnone'⟩ |
    ⟨key, rest, rest', behind, hlt, hjson', hrest, hrest', hsome, hsome'⟩ :=
    insensitive_readString tokens text text' hjson h h'
  · rw [hnone, hnone']
    exact agree_none
  rw [hsome, hsome']
  dsimp only
  refine Agree.mono ?_ hlt.le
  cases behind with
  | nil =>
      rw [hrest.skip_nil, hrest'.skip_nil]
      exact agree_none
  | cons token behind =>
      obtain ⟨after, hskip, hafter⟩ := hrest.skip_cons
      obtain ⟨after', hskip', hafter'⟩ := hrest'.skip_cons
      obtain ⟨ch, tail, htext, -, -, -, hmark⟩ := token.text_eq_cons
      rw [hskip, hskip', htext, List.cons_append, List.cons_append]
      dsimp only
      split_ifs with hcolon
      · obtain rfl := hmark .colon hcolon
        obtain rfl : tail = [] := (List.cons.inj htext).2.symm
        exact ((hitem behind after after' hjson'.tail hafter hafter').map (key, ·)).mono
          (Nat.le_succ _)
      · exact agree_none

end Items

/-! ## Values -/

theorem readValue_mark (levels : ℕ) (sign : Mark) (rest : Bytes) :
    readValue levels (sign.byte :: rest) =
      match levels with
      | 0 => none
      | levels + 1 =>
        if sign = .openArray then
          (readList (readValue levels) Mark.closeArray.byte rest).map fun (values, rest) =>
            (.array values, rest)
        else if sign = .openObject then
          match readList (readMember (readValue levels)) Mark.closeObject.byte rest with
          | none => none
          | some (fields, rest) =>
            if (fields.map Prod.fst).Nodup then some (.object fields, rest) else none
        else none := by
  have hword : sign.byte ≠ 0x6E ∧ sign.byte ≠ 0x66 ∧ sign.byte ≠ 0x74 ∧ sign.byte ≠ 0x22 ∧
      ¬ (sign.byte = 0x2D ∨ isDigit sign.byte = true) := by
    cases sign <;> decide
  obtain ⟨hn, hf, ht, hquote, hnumber⟩ := hword
  rw [readValue_cons hn hf ht, if_neg hquote, if_neg hnumber]
  cases levels with
  | zero => rfl
  | succ levels => cases sign <;> rfl

theorem insensitive_of_marks {levels : ℕ}
    (hmark : ∀ sign tokens rest rest', JsonTokens tokens → Spaced tokens rest →
      Spaced tokens rest' → Agree (.mark sign :: tokens) (readValue levels (sign.byte :: rest))
        (readValue levels (sign.byte :: rest'))) : Insensitive (readValue levels) := by
  intro tokens text text' hjson h h'
  have hstring := insensitive_readString tokens text text' hjson h h'
  cases tokens with
  | nil =>
      rw [h.skip_nil, h'.skip_nil]
      cases levels <;> exact agree_none
  | cons token tokens =>
      obtain ⟨rest, hskip, hrest⟩ := h.skip_cons
      obtain ⟨rest', hskip', hrest'⟩ := h'.skip_cons
      rw [hskip, hskip'] at hstring ⊢
      cases token with
      | word word hword =>
          obtain ⟨value, hread⟩ := hword.read
          rw [Token.text, hread levels rest (hrest.stops hjson),
            hread levels rest' (hrest'.stops hjson)]
          exact agree_some value hjson hrest hrest'
      | string content hcontent =>
          rw [Token.string_append, Token.string_append] at hstring ⊢
          rw [readValue_cons (by decide) (by decide) (by decide), if_pos rfl,
            readValue_cons (by decide) (by decide) (by decide), if_pos rfl]
          exact hstring.map Json.string
      | mark sign => exact hmark sign tokens rest rest' hjson.tail hrest hrest'

theorem insensitive_readValue (levels : ℕ) : Insensitive (readValue levels) := by
  induction levels with
  | zero =>
      apply insensitive_of_marks
      intro sign tokens rest rest' _ _ _
      rw [readValue_mark, readValue_mark]
      exact agree_none
  | succ levels ih =>
      apply insensitive_of_marks
      intro sign tokens rest rest' hjson hrest hrest'
      rw [readValue_mark, readValue_mark]
      refine Agree.mono ?_ (Nat.le_succ tokens.length)
      dsimp only
      split_ifs
      · exact (agree_readList ih .closeArray hjson hrest hrest').map Json.array
      · obtain ⟨hnone, hnone'⟩ |
          ⟨fields, after, after', behind, hlt, hjson', hafter, hafter', hsome, hsome'⟩ :=
          agree_readList (insensitive_readMember ih) .closeObject hjson hrest hrest'
        · rw [hnone, hnone']
          exact agree_none
        · rw [hsome, hsome']
          dsimp only
          split_ifs
          · exact .inr ⟨_, after, after', behind, hlt, hjson', hafter, hafter', rfl, rfl⟩
          · exact agree_none
      · exact agree_none

theorem Spaced.all_isSpace (h : Spaced tokens text) : text.all isSpace = true ↔ tokens = [] := by
  cases h with
  | nil h => simpa [Blank] using h
  | @cons gap rest token tokens _ _ =>
      obtain ⟨ch, tail, htext, hspace, -⟩ := token.text_eq_cons
      simp [htext, hspace]
  | comma hcommas => exact absurd hcommas id

theorem Spaced.skipUtf8Bom (h : Spaced tokens text) : skipUtf8Bom text = text := by
  have hspace : ∀ ch, isSpace ch = true → ch ≠ 0xEF := Utf8Spans.forall_byte (by decide +kernel)
  have hfirst : ∀ ch ∈ text.head?, ch ≠ 0xEF := by
    intro ch hch
    cases h with
    | nil hgap => exact hspace ch (hgap ch (List.mem_of_mem_head? hch))
    | @cons gap rest token tokens hgap _ =>
        cases gap with
        | nil =>
            obtain ⟨first, tail, htext, -, -, hbom, -⟩ := token.text_eq_cons
            rw [htext] at hch
            obtain rfl := Option.some.inj hch
            exact hbom
        | cons first gap =>
            obtain rfl := Option.some.inj hch
            exact hspace _ (hgap _ List.mem_cons_self)
    | comma hcommas => exact absurd hcommas id
  rw [JsonText.skipUtf8Bom, if_neg]
  rintro ⟨-, hbom⟩
  cases text with
  | nil => simp at hbom
  | cons ch text => exact hfirst ch rfl (List.cons.inj hbom).1

theorem parse_spaced {text' : Bytes} (hjson : JsonTokens tokens) (h : Spaced tokens text)
    (h' : Spaced tokens text') : parse text = parse text' := by
  rw [parse, parse, h.skipUtf8Bom, h'.skipUtf8Bom]
  obtain ⟨hnone, hnone'⟩ |
    ⟨value, rest, rest', behind, -, -, hrest, hrest', hsome, hsome'⟩ :=
    insensitive_readValue nestingLimit tokens text text' hjson h h'
  · rw [hnone, hnone']
  · rw [hsome, hsome']
    dsimp only
    rw [Bool.eq_iff_iff.mpr (hrest.all_isSpace.trans hrest'.all_isSpace.symm)]


/-! ## Tokens of JSON -/

/-- Tokens that may stand between two brackets or commas. -/
structure Chained (tokens : List Token) : Prop where
  follows : JsonTokens tokens
  first : ∃ token rest, tokens = token :: rest ∧ ¬ token.Closes
  last : ∀ token ∈ tokens.getLast?, token ≠ .mark .comma

theorem follows_mark (h : token ≠ .mark .comma) (sign : Mark) : Follows token (.mark sign) := by
  cases token with
  | word text hword => exact .word text hword sign
  | string content hcontent => exact .string content hcontent _
  | mark other => exact .mark (fun hother => h (congrArg Token.mark hother)) _

theorem Chained.append_mark {rest : List Token} (h : Chained tokens) {sign : Mark}
    (hrest : JsonTokens (.mark sign :: rest)) : JsonTokens (tokens ++ .mark sign :: rest) := by
  refine List.isChain_append.mpr ⟨h.follows, hrest, ?_⟩
  rintro token htoken next ⟨⟩
  exact follows_mark (h.last token htoken) sign

theorem Chained.first_append (h : Chained tokens) (rest : List Token) :
    ∃ token behind, tokens ++ rest = token :: behind ∧ ¬ token.Closes := by
  obtain ⟨token, behind, rfl, hcloses⟩ := h.first
  exact ⟨token, behind ++ rest, rfl, hcloses⟩

theorem Chained.join {item items : List Token} (h : Chained item) (hitems : Chained items) :
    Chained (item ++ .mark .comma :: items) := by
  obtain ⟨token, rest, rfl, hcloses⟩ := hitems.first
  refine ⟨h.append_mark (List.isChain_cons_cons.mpr ⟨.comma hcloses, hitems.follows⟩),
    h.first_append _, ?_⟩
  intro last hlast
  rw [List.getLast?_append_of_ne_nil _ (List.cons_ne_nil _ _), List.getLast?_cons_cons] at hlast
  exact hitems.last last hlast

theorem Chained.enclose (h : Chained tokens) {first : Mark} (hfirst : first ≠ .comma)
    (hopens : ¬ (Token.mark first).Closes) (hlast : last ≠ .comma) :
    Chained (.mark first :: (tokens ++ [.mark last])) := by
  obtain ⟨token, rest, htokens, -⟩ := h.first_append [.mark last]
  have hinside := h.append_mark (List.isChain_singleton (Token.mark last))
  refine ⟨?_, ⟨_, _, rfl, hopens⟩, ?_⟩
  · rw [htokens] at hinside ⊢
    exact List.isChain_cons_cons.mpr ⟨.mark hfirst token, hinside⟩
  · intro token htoken
    rw [← List.cons_append, List.getLast?_concat] at htoken
    obtain rfl := Option.some.inj htoken
    exact fun h => hlast (Token.mark.inj h)

theorem Chained.member {value : List Token} (h : Chained value) (key : Bytes)
    (hkey : IsContent key) : Chained (.string key hkey :: .mark .colon :: value) := by
  obtain ⟨token, rest, rfl, hcloses⟩ := h.first
  refine ⟨List.isChain_cons_cons.mpr ⟨.string key hkey _,
    List.isChain_cons_cons.mpr ⟨.mark (by decide) token, h.follows⟩⟩, ⟨_, _, rfl, ?_⟩, ?_⟩
  · rintro (h | h) <;> exact nomatch h
  · intro last hlast
    rw [List.getLast?_cons_cons, List.getLast?_cons_cons] at hlast
    exact h.last last hlast

theorem chained_empty {first : Mark} (hfirst : first ≠ .comma)
    (hopens : ¬ (Token.mark first).Closes) (hlast : last ≠ .comma) :
    Chained [.mark first, .mark last] := by
  refine ⟨List.isChain_cons_cons.mpr ⟨.mark hfirst _, List.isChain_singleton _⟩,
    ⟨_, _, rfl, hopens⟩, ?_⟩
  rintro token ⟨⟩
  exact fun h => hlast (Token.mark.inj h)

theorem openArray_opens : ¬ (Token.mark .openArray).Closes := by
  rintro (h | h) <;> exact nomatch h

theorem openObject_opens : ¬ (Token.mark .openObject).Closes := by
  rintro (h | h) <;> exact nomatch h

theorem chained_singleton (hcloses : ¬ token.Closes) (hcomma : token ≠ .mark .comma) :
    Chained [token] := by
  refine ⟨List.isChain_singleton _, ⟨_, _, rfl, hcloses⟩, ?_⟩
  rintro other ⟨⟩
  exact hcomma

mutual

theorem IsValue.chained {tokens : List Token} : IsValue tokens → Chained tokens
  | .word text h => chained_singleton (by rintro (h | h) <;> exact nomatch h) nofun
  | .string content h => chained_singleton (by rintro (h | h) <;> exact nomatch h) nofun
  | .emptyArray => chained_empty (by decide) openArray_opens (by decide)
  | .array h => h.chained.enclose (by decide) openArray_opens (by decide)
  | .emptyObject => chained_empty (by decide) openObject_opens (by decide)
  | .object h => h.chained.enclose (by decide) openObject_opens (by decide)

theorem IsItems.chained {tokens : List Token} : IsItems tokens → Chained tokens
  | .last h => h.chained
  | .more h hitems => h.chained.join hitems.chained

theorem IsMembers.chained {tokens : List Token} : IsMembers tokens → Chained tokens
  | .last key hkey h => h.chained.member key hkey
  | .more key hkey h hmembers => (h.chained.member key hkey).join hmembers.chained

end

/-- A text of JSON is read the same with comments and trailing commas between its tokens, and in no
text at all is a string literal altered. -/
theorem parseJsonc_decorated :
    (∀ tokens plain decorated, IsValue tokens → Spaced tokens plain → Decorated tokens decorated →
      parseJsonc decorated = parse plain ∧ Spaced tokens (stripJsonc decorated)) ∧
    ∀ text, literals false (stripJsonc text) = literals true text := by
  refine ⟨?_, literals_stripJsonc⟩
  intro tokens plain decorated hvalue hplain hdecorated
  have hspaced := stripJsonc_spaced hvalue.chained.follows hdecorated
  exact ⟨parse_spaced hvalue.chained.follows hspaced hplain, hspaced⟩

theorem isWord_one : IsWord (bytes "1") :=
  .number (.intro (.inl rfl) (⟨by decide, by decide +kernel⟩ : Digits (bytes "1")) .none .none)

theorem isContent_slashes : IsContent (bytes "//,]") :=
  .plain (by decide) (by decide) (.plain (by decide) (by decide)
    (.plain (by decide) (by decide) (.plain (by decide) (by decide) .nil)))

def slashTokens : List Token :=
  [.mark .openArray, .word (bytes "1") isWord_one, .mark .comma,
    .string (bytes "//,]") isContent_slashes, .mark .closeArray]

theorem isValue_slashTokens : IsValue slashTokens :=
  .array (.more (.word _ isWord_one) (.last (.string _ isContent_slashes)))

theorem blank_nil : Blank [] := nofun

theorem spaced_slashTokens : Spaced slashTokens (bytes "[1,\"//,]\" ]") :=
  .cons _ blank_nil (.cons _ blank_nil (.cons _ blank_nil (.cons _ blank_nil
    (.cons _ (blank_cons rfl blank_nil) (.nil blank_nil)))))

theorem commented_bracket : Commented (bytes "//]\n") :=
  .comment (by decide : 0x0A ∉ bytes "]") .nil

theorem decorated_slashTokens : Decorated slashTokens (bytes "[1//]\n,\"//,]\",]") :=
  .cons _ Commented.nil (.cons _ Commented.nil (.cons _ commented_bracket (.cons _ Commented.nil
    (.comma trivial (.inl rfl) Commented.nil Commented.nil (.nil (.closed .nil))))))

/-- A bracket in a comment, a comment in a string and a comma in front of the end. -/
theorem parseJsonc_decorated_slashes :
    (parseJsonc (bytes "[1//]\n,\"//,]\",]") = parse (bytes "[1,\"//,]\" ]") ∧
      Spaced slashTokens (stripJsonc (bytes "[1//]\n,\"//,]\",]"))) ∧
    literals false (stripJsonc (bytes "\"a\\\"//\" // \"b\"")) =
      literals true (bytes "\"a\\\"//\" // \"b\"") :=
  ⟨parseJsonc_decorated.1 slashTokens _ _ isValue_slashTokens spaced_slashTokens
    decorated_slashTokens, parseJsonc_decorated.2 _⟩

/-- A comment inside a number cuts it in two. -/
theorem parseJsonc_not_inside_number :
    parseJsonc (bytes "1" ++ bytes "//\n" ++ bytes "2") ≠ parse (bytes "1" ++ bytes "2") := by
  intro h
  exact absurd (congrArg Option.isSome h) (by decide)

end FastTts.Jsonc
