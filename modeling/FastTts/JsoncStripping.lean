import FastTts.Jsonc
import FastTts.JsonWriting
import FastTts.Utf8Spans

/-!
# What the two passes leave

The bytes of a token pass through both loops, and a gap with comments becomes one of white space.
String literals stay as they are in every text, whether it is one of JSON or not.
-/

namespace FastTts.Jsonc

open JsonText Utf8Spans

/-! ## String literals -/

/-- The state behind the output of the first pass. -/
def Scan.behind : Scan → Scan
  | comment => outside
  | scan => scan

theorem inStringAfter_behind (ch : UInt8) :
    (Scan.inStringAfter ch).behind = Scan.inStringAfter ch := by
  unfold Scan.inStringAfter
  split_ifs <;> rfl

theorem literalsFrom_stripComments (scan : Scan) (text : Bytes) :
    literalsFrom false scan.behind (stripCommentsFrom scan text) = literalsFrom true scan text := by
  induction text generalizing scan with
  | nil => cases scan <;> rfl
  | cons ch rest ih =>
      cases scan with
      | outside =>
          have hstring := ih .inString
          have hcomment := ih .comment
          have hplain := ih .outside
          simp only [Scan.behind] at hstring hcomment hplain ⊢
          simp only [stripCommentsFrom, literalsFrom]
          split_ifs with hquote hslash hslash' hslash'
          · simp only [literalsFrom, if_pos hquote, hstring]
          · exact hcomment
          · exact absurd ⟨trivial, hslash⟩ hslash'
          · exact absurd hslash'.2 hslash
          · simp only [literalsFrom, if_neg hquote, Bool.false_eq_true, false_and, if_false, hplain]
      | inString =>
          have hafter := ih (.inStringAfter ch)
          rw [inStringAfter_behind] at hafter
          simp only [stripCommentsFrom, literalsFrom, Scan.behind]
          split_ifs with hquote
          · subst hquote
            exact congrArg ([] :: ·) hafter
          · exact congrArg (consFirst ch) hafter
      | escaped =>
          have hafter := ih .inString
          exact congrArg (consFirst ch) hafter
      | comment =>
          have hcomment := ih .comment
          have hplain := ih .outside
          simp only [Scan.behind] at hcomment hplain ⊢
          simp only [stripCommentsFrom, literalsFrom]
          split_ifs with hline
          · subst hline
            simpa [literalsFrom] using hplain
          · exact hcomment

theorem inStringAfter_ne (ch : UInt8) : Scan.inStringAfter ch ≠ .comment := by
  unfold Scan.inStringAfter
  split_ifs <;> exact nofun

theorem literalsFrom_stripCommas {scan : Scan} (hscan : scan ≠ .comment) (text : Bytes) :
    literalsFrom false scan (stripCommasFrom scan text) = literalsFrom false scan text := by
  induction text generalizing scan with
  | nil => cases scan <;> rfl
  | cons ch rest ih =>
      cases scan with
      | outside =>
          simp only [stripCommasFrom, literalsFrom, Bool.false_eq_true, false_and, if_false]
          split_ifs with hquote hcomma
          · simp only [literalsFrom, if_pos hquote, ih (nofun : Scan.inString ≠ .comment)]
          · exact ih (nofun : Scan.outside ≠ .comment)
          · simp only [literalsFrom, if_neg hquote, Bool.false_eq_true, false_and, if_false,
              ih (nofun : Scan.outside ≠ .comment)]
      | inString =>
          have hafter := ih (inStringAfter_ne ch)
          simp only [stripCommasFrom, literalsFrom]
          split_ifs with hquote
          · subst hquote
            exact congrArg ([] :: ·) hafter
          · exact congrArg (consFirst ch) hafter
      | escaped => exact congrArg (consFirst ch) (ih (nofun : Scan.inString ≠ .comment))
      | comment => exact absurd rfl hscan

theorem literals_stripJsonc (text : Bytes) :
    literals false (stripJsonc text) = literals true text :=
  (literalsFrom_stripCommas (nofun : Scan.outside ≠ .comment) _).trans
    (literalsFrom_stripComments .outside text)


/-! ## Bytes of tokens -/

def IsWordByte (ch : UInt8) : Prop :=
  isAlnum ch = true ∨ ch = 0x2B ∨ ch = 0x2D ∨ ch = 0x2E

variable {ch : UInt8} {text gap : Bytes} {tokens : List Token}

theorem IsWordByte.plain (h : IsWordByte ch) :
    ch ≠ 0x22 ∧ ch ≠ 0x2F ∧ ch ≠ 0x2C ∧ isSpace ch = false ∧ 0x20 < ch ∧ ch ≠ 0xEF := by
  unfold IsWordByte at h
  revert ch
  apply forall_byte
  decide +kernel

theorem IsWordByte.ne_mark (h : IsWordByte ch) (sign : Mark) : ch ≠ sign.byte := by
  rintro rfl
  cases sign <;> simp [IsWordByte, Mark.byte, isAlnum, isAlpha, isUpper, isLower, isDigit] at h

theorem wordBytes_of_alnum (h : ∀ ch ∈ text, isAlnum ch = true) :
    ∀ ch ∈ text, IsWordByte ch := fun ch hch => .inl (h ch hch)

theorem Digits.wordBytes {digits : Bytes} (h : Digits digits) : ∀ ch ∈ digits, IsWordByte ch := by
  intro ch hch
  rw [IsWordByte, isAlnum, h.2 ch hch, Bool.or_true]
  exact .inl rfl

theorem IsNumber.wordBytes (h : IsNumber text) : ∀ ch ∈ text, IsWordByte ch := by
  obtain ⟨hsign, hwhole, hfraction, hexponent⟩ := h
  simp only [List.forall_mem_append]
  refine ⟨?_, hwhole.wordBytes, ?_, ?_⟩
  · obtain rfl | rfl := hsign <;> simp [IsWordByte]
  · cases hfraction with
    | none => simp
    | point h => exact List.forall_mem_cons.mpr ⟨by simp [IsWordByte], h.wordBytes⟩
  · cases hexponent with
    | none => simp
    | power hletter hsign hdigits =>
        simp only [List.forall_mem_cons, List.forall_mem_append]
        refine ⟨?_, ?_, hdigits.wordBytes⟩
        · obtain rfl | rfl := hletter <;> exact .inl (by decide)
        · cases hsign <;> simp [IsWordByte]

theorem IsWord.wordBytes (h : IsWord text) : ∀ ch ∈ text, IsWordByte ch := by
  cases h with
  | nullWord => exact wordBytes_of_alnum (by decide +kernel)
  | trueWord => exact wordBytes_of_alnum (by decide +kernel)
  | falseWord => exact wordBytes_of_alnum (by decide +kernel)
  | number h => exact h.wordBytes

theorem IsNumber.ne_nil (h : IsNumber text) : text ≠ [] := by
  obtain ⟨-, hwhole, -, -⟩ := h
  simp [hwhole.1]

theorem IsWord.ne_nil (h : IsWord text) : text ≠ [] := by
  cases h with
  | nullWord => decide
  | trueWord => decide
  | falseWord => decide
  | number h => exact h.ne_nil

theorem Token.text_eq_cons (token : Token) : ∃ ch tail, token.text = ch :: tail ∧
    isSpace ch = false ∧ 0x20 < ch ∧ ch ≠ 0xEF ∧
      ∀ sign : Mark, ch = sign.byte → token = .mark sign := by
  cases token with
  | word text h =>
      obtain ⟨ch, tail, rfl⟩ := List.exists_cons_of_ne_nil h.ne_nil
      have hch := h.wordBytes ch List.mem_cons_self
      obtain ⟨-, -, -, hspace, hhigh, hmark⟩ := hch.plain
      exact ⟨ch, tail, rfl, hspace, hhigh, hmark, fun sign hsign => absurd hsign (hch.ne_mark sign)⟩
  | string content h =>
      refine ⟨0x22, content ++ [0x22], rfl, rfl, by decide, by decide, ?_⟩
      intro sign hsign
      cases sign <;> exact absurd hsign (by decide)
  | mark sign =>
      refine ⟨sign.byte, [], rfl, ?_⟩
      cases sign <;> refine ⟨rfl, by decide, by decide, fun other hother => ?_⟩ <;>
        cases other <;> first | rfl | exact absurd hother (by decide)

theorem isSpace_plain (h : isSpace ch = true) : ch ≠ 0x22 ∧ ch ≠ 0x2F ∧ ch ≠ 0x2C ∧ ch ≤ 0x20 := by
  revert ch
  apply forall_byte
  decide +kernel

/-! ## The first pass -/

theorem stripComments_cons (hquote : ch ≠ 0x22) (hslash : ch ≠ 0x2F) (rest : Bytes) :
    stripCommentsFrom .outside (ch :: rest) = ch :: stripCommentsFrom .outside rest := by
  rw [stripCommentsFrom, if_neg hquote, if_neg fun h => hslash h.1]

variable {front content rest : Bytes} {token : Token}

theorem stripComments_plain (h : ∀ ch ∈ front, ch ≠ 0x22 ∧ ch ≠ 0x2F) (rest : Bytes) :
    stripCommentsFrom .outside (front ++ rest) = front ++ stripCommentsFrom .outside rest := by
  induction front with
  | nil => rfl
  | cons ch front ih =>
      obtain ⟨⟨hquote, hslash⟩, hfront⟩ := List.forall_mem_cons.mp h
      rw [List.cons_append, stripComments_cons hquote hslash, ih hfront, List.cons_append]

theorem stripComments_content (h : IsContent content) (rest : Bytes) :
    stripCommentsFrom .inString (content ++ rest) =
      content ++ stripCommentsFrom .inString rest := by
  induction h with
  | nil => rfl
  | plain hquote hbackslash _ ih =>
      rw [List.cons_append, stripCommentsFrom, Scan.inStringAfter, if_neg hbackslash, if_neg hquote,
        ih, List.cons_append]
  | escape ch _ ih =>
      rw [List.cons_append, List.cons_append, stripCommentsFrom, Scan.inStringAfter, if_pos rfl,
        stripCommentsFrom, ih, List.cons_append, List.cons_append]

theorem stripComments_token (token : Token) (rest : Bytes) :
    stripCommentsFrom .outside (token.text ++ rest) =
      token.text ++ stripCommentsFrom .outside rest := by
  cases token with
  | word text h =>
      apply stripComments_plain
      intro ch hch
      obtain ⟨hquote, hslash, -⟩ := (h.wordBytes ch hch).plain
      exact ⟨hquote, hslash⟩
  | string content h =>
      rw [Token.string_append, Token.string_append, stripCommentsFrom, if_pos rfl,
        stripComments_content h]
      rfl
  | mark sign =>
      apply stripComments_plain
      cases sign <;> decide +kernel

theorem stripComments_body {body : Bytes} (h : 0x0A ∉ body) (rest : Bytes) :
    stripCommentsFrom .comment (body ++ rest) = stripCommentsFrom .comment rest := by
  induction body with
  | nil => rfl
  | cons ch body ih =>
      obtain ⟨hch, hbody⟩ := not_or.mp (List.mem_cons.not.mp h)
      rw [List.cons_append, stripCommentsFrom, if_neg (Ne.symm hch), ih hbody]

theorem stripComments_comment (rest : Bytes) :
    stripCommentsFrom .outside (0x2F :: 0x2F :: rest) = stripCommentsFrom .comment rest := rfl

theorem blank_cons (hch : isSpace ch = true) (h : Blank gap) :
    Blank (ch :: gap) := List.forall_mem_cons.mpr ⟨hch, h⟩

theorem stripComments_gap (h : Commented gap) : ∃ blank, Blank blank ∧ ∀ rest,
    stripCommentsFrom .outside (gap ++ rest) = blank ++ stripCommentsFrom .outside rest := by
  induction h with
  | nil => exact ⟨[], nofun, fun _ => rfl⟩
  | @space ch gap hch _ ih =>
      obtain ⟨blank, hblank, hgap⟩ := ih
      obtain ⟨hquote, hslash, -⟩ := isSpace_plain hch
      refine ⟨ch :: blank, blank_cons hch hblank, fun rest => ?_⟩
      rw [List.cons_append, stripComments_cons hquote hslash, hgap, List.cons_append]
  | @comment body gap hbody _ ih =>
      obtain ⟨blank, hblank, hgap⟩ := ih
      refine ⟨0x0A :: blank, blank_cons rfl hblank, fun rest => ?_⟩
      rw [List.cons_append, List.cons_append, stripComments_comment, List.append_assoc,
        stripComments_body hbody, List.cons_append, stripCommentsFrom, if_pos rfl, hgap]
      rfl

theorem stripComments_end (h : CommentedEnd gap) : Blank (stripCommentsFrom .outside gap) := by
  cases h with
  | closed h =>
      obtain ⟨blank, hblank, hgap⟩ := stripComments_gap h
      have hwhole := hgap []
      rw [List.append_nil] at hwhole
      rw [hwhole]
      simpa [stripCommentsFrom] using hblank
  | @opened gap body h hbody =>
      obtain ⟨blank, hblank, hgap⟩ := stripComments_gap h
      have hskip := stripComments_body hbody []
      rw [List.append_nil] at hskip
      rw [hgap, stripComments_comment, hskip]
      simpa [stripCommentsFrom] using hblank

theorem stripComments_spelled (h : Decorated tokens text) :
    Spelled Blank Blank True tokens (stripJsoncComments text) := by
  unfold stripJsoncComments
  induction h with
  | nil h => exact .nil (stripComments_end h)
  | cons token hgap _ ih =>
      obtain ⟨blank, hblank, hstrip⟩ := stripComments_gap hgap
      rw [hstrip, stripComments_token]
      exact .cons token hblank ih
  | @comma gap after text token tokens _ hcloses hgap hafter _ ih =>
      obtain ⟨blank, hblank, hstrip⟩ := stripComments_gap hgap
      obtain ⟨blank', hblank', hstrip'⟩ := stripComments_gap hafter
      rw [hstrip, stripComments_cons (by decide) (by decide), hstrip', stripComments_token]
      exact .comma trivial hcloses hblank hblank' ih


/-! ## The second pass -/

theorem stripCommas_cons (hquote : ch ≠ 0x22) (hcomma : ch = 0x2C → isTrailing rest = false) :
    stripCommasFrom .outside (ch :: rest) = ch :: stripCommasFrom .outside rest := by
  rw [stripCommasFrom, if_neg hquote, if_neg]
  rintro ⟨hch, htrailing⟩
  rw [hcomma hch] at htrailing
  exact Bool.false_ne_true htrailing
  · exact nofun
  · exact nofun

theorem stripCommas_plain (h : ∀ ch ∈ front, ch ≠ 0x22 ∧ ch ≠ 0x2C) (rest : Bytes) :
    stripCommasFrom .outside (front ++ rest) = front ++ stripCommasFrom .outside rest := by
  induction front with
  | nil => rfl
  | cons ch front ih =>
      obtain ⟨⟨hquote, hcomma⟩, hfront⟩ := List.forall_mem_cons.mp h
      rw [List.cons_append, stripCommas_cons hquote fun hch => absurd hch hcomma, ih hfront,
        List.cons_append]

theorem stripCommas_content (h : IsContent content) (rest : Bytes) :
    stripCommasFrom .inString (content ++ rest) = content ++ stripCommasFrom .inString rest := by
  induction h with
  | nil => rfl
  | plain hquote hbackslash _ ih =>
      rw [List.cons_append, stripCommasFrom, Scan.inStringAfter, if_neg hbackslash, if_neg hquote,
        ih, List.cons_append]
  | escape ch _ ih =>
      rw [List.cons_append, List.cons_append, stripCommasFrom, Scan.inStringAfter, if_pos rfl,
        stripCommasFrom, ih, List.cons_append, List.cons_append]

theorem stripCommas_token (hcomma : token = .mark .comma → isTrailing rest = false) :
    stripCommasFrom .outside (token.text ++ rest) =
      token.text ++ stripCommasFrom .outside rest := by
  cases token with
  | word text h =>
      apply stripCommas_plain
      intro ch hch
      obtain ⟨hquote, -, hother, -⟩ := (h.wordBytes ch hch).plain
      exact ⟨hquote, hother⟩
  | string content h =>
      rw [Token.string_append, Token.string_append, stripCommasFrom, if_pos rfl,
        stripCommas_content h]
      · rfl
      · exact nofun
      · exact nofun
  | mark sign =>
      apply stripCommas_cons
      · cases sign <;> decide
      · intro hsign
        apply hcomma
        cases sign <;> first | rfl | exact absurd hsign (by decide)

theorem stripCommas_gap (h : Blank gap) (rest : Bytes) :
    stripCommasFrom .outside (gap ++ rest) = gap ++ stripCommasFrom .outside rest := by
  apply stripCommas_plain
  intro ch hch
  obtain ⟨hquote, -, hcomma, -⟩ := isSpace_plain (h ch hch)
  exact ⟨hquote, hcomma⟩

theorem isTrailing_gap (h : Blank gap) (rest : Bytes) :
    isTrailing (gap ++ rest) = isTrailing rest := by
  rw [isTrailing, List.dropWhile_append_of_pos h, isTrailing]

theorem isTrailing_token (token : Token) (rest : Bytes) :
    isTrailing (token.text ++ rest) = true ↔ token.Closes := by
  obtain ⟨ch, tail, htext, hspace, -, -, hmark⟩ := token.text_eq_cons
  rw [htext, List.cons_append, isTrailing, List.dropWhile_cons_of_neg (by simp [hspace])]
  simp only [Bool.or_eq_true, decide_eq_true_eq]
  constructor
  · rintro (rfl | rfl)
    · exact .inr (hmark .closeObject rfl)
    · exact .inl (hmark .closeArray rfl)
  · rintro (rfl | rfl)
    · exact .inr (List.cons.inj htext).1.symm
    · exact .inl (List.cons.inj htext).1.symm

theorem isTrailing_spelled {commas : Prop} (h : Spelled Blank Blank commas tokens text)
    (hnext : ∀ token ∈ tokens.head?, ¬ token.Closes) : isTrailing text = false := by
  cases h with
  | @nil gap h =>
      rw [isTrailing, List.dropWhile_eq_nil_iff.mpr h]
  | cons token hgap _ =>
      rw [isTrailing_gap hgap, Bool.eq_false_iff, Ne, isTrailing_token]
      exact hnext token rfl
  | @comma gap after text token tokens _ hcloses _ _ _ => exact absurd hcloses (hnext token rfl)

theorem JsonTokens.tail (h : JsonTokens (token :: tokens)) :
    JsonTokens tokens := List.IsChain.of_cons h

theorem JsonTokens.behind_comma (h : JsonTokens (.mark .comma :: tokens)) :
    ∀ token ∈ tokens.head?, ¬ token.Closes := by
  intro token htoken
  cases tokens with
  | nil => exact nomatch htoken
  | cons next tokens =>
      obtain rfl := Option.some.inj htoken
      cases (List.isChain_cons_cons.mp h).1 with
      | comma h => exact h
      | mark h => exact absurd rfl h

theorem stripCommas_spelled (hjson : JsonTokens tokens) (h : Spelled Blank Blank True tokens text) :
    Spaced tokens (stripJsoncTrailingCommas text) := by
  unfold stripJsoncTrailingCommas
  induction h with
  | @nil gap h =>
      have hgap := stripCommas_gap h []
      rw [List.append_nil] at hgap
      rw [hgap]
      exact .nil (by simpa [stripCommasFrom] using h)
  | cons token hgap h ih =>
      rw [stripCommas_gap hgap, stripCommas_token fun hcomma =>
        isTrailing_spelled h (JsonTokens.behind_comma (hcomma ▸ hjson))]
      exact .cons token hgap (ih hjson.tail)
  | @comma gap after text token tokens _ hcloses hgap hafter h ih =>
      have htrailing : isTrailing (after ++ (token.text ++ text)) = true := by
        rw [isTrailing_gap hafter]
        exact (isTrailing_token token text).mpr hcloses
      have hcomma : stripCommasFrom .outside (0x2C :: (after ++ (token.text ++ text))) =
          stripCommasFrom .outside (after ++ (token.text ++ text)) := by
        rw [stripCommasFrom, if_neg (by decide), if_pos ⟨rfl, htrailing⟩]
        · exact nofun
        · exact nofun
      have htoken : token ≠ .mark .comma := by
        rintro rfl
        obtain h | h := hcloses <;> exact nomatch h
      rw [stripCommas_gap hgap, hcomma, stripCommas_gap hafter,
        stripCommas_token fun h => absurd h htoken, ← List.append_assoc]
      exact .cons token (List.forall_mem_append.mpr ⟨hgap, hafter⟩) (ih hjson.tail)

theorem stripJsonc_spaced (hjson : JsonTokens tokens) (h : Decorated tokens text) :
    Spaced tokens (stripJsonc text) :=
  stripCommas_spelled hjson (stripComments_spelled h)

end FastTts.Jsonc
