import FastTts.Utf8Spans

/-!
# UTF-8 texts

A text is UTF-8 when it is made of the encodings of Unicode characters. It can be cut in front of
every byte that is no continuation byte, and nowhere else; what is cut off at either side is UTF-8
again. Whoever drops ASCII bytes alone, from the ends or from anywhere, keeps a text UTF-8.
-/

namespace FastTts.Utf8Spans

inductive IsUtf8 : Bytes → Prop
  | nil : IsUtf8 []
  | cons {cp text : Bytes} (hcp : IsCodepoint cp) (htext : IsUtf8 text) : IsUtf8 (cp ++ text)

theorem isUtf8_flatten {cps : List Bytes} (h : ∀ cp ∈ cps, IsCodepoint cp) : IsUtf8 cps.flatten := by
  induction cps with
  | nil => exact .nil
  | cons cp cps ih =>
    rw [List.flatten_cons]
    exact .cons (h cp List.mem_cons_self) (ih fun cp hcp => h cp (List.mem_cons_of_mem _ hcp))

def encode (chars : List Char) : Bytes := (chars.map String.utf8EncodeChar).flatten

@[simp] theorem encode_nil : encode [] = [] := rfl

@[simp] theorem encode_cons (c : Char) (chars : List Char) :
    encode (c :: chars) = String.utf8EncodeChar c ++ encode chars := rfl

@[simp] theorem encode_append (a b : List Char) : encode (a ++ b) = encode a ++ encode b := by
  rw [encode, List.map_append, List.flatten_append, ← encode, ← encode]

theorem isUtf8_encode (chars : List Char) : IsUtf8 (encode chars) :=
  isUtf8_flatten fun cp hcp => by
    obtain ⟨c, -, rfl⟩ := List.mem_map.mp hcp
    exact ⟨c, rfl⟩

variable {text a b cp : Bytes} {c : Char} {ch : UInt8} {index : ℕ}

theorem IsUtf8.exists_chars (h : IsUtf8 text) : ∃ chars, encode chars = text := by
  induction h with
  | nil => exact ⟨[], rfl⟩
  | @cons cp text hcp _ ih =>
    obtain ⟨c, rfl⟩ := hcp
    obtain ⟨chars, rfl⟩ := ih
    exact ⟨c :: chars, rfl⟩

theorem isUtf8_bytes (s : String) : IsUtf8 (bytes s) := by
  obtain ⟨chars, hchars⟩ := s.isValidUTF8
  have hbytes : bytes s = encode chars := by
    rw [bytes, String.toUTF8, hchars, List.utf8Encode, List.toList_data_toByteArray,
      List.flatMap_def, encode]
  rw [hbytes]
  exact isUtf8_encode chars

theorem IsUtf8.append (ha : IsUtf8 a) (hb : IsUtf8 b) : IsUtf8 (a ++ b) := by
  induction ha with
  | nil => exact hb
  | cons hcp _ ih =>
    rw [List.append_assoc]
    exact .cons hcp ih

theorem isUtf8_of_codepoint (h : IsCodepoint cp) : IsUtf8 cp := by
  have hcons := IsUtf8.cons h .nil
  rwa [List.append_nil] at hcons

theorem codepoint_ascii {b : UInt8} (h : b ≤ 0x7F) : IsCodepoint [b] :=
  ⟨Char.ofUInt8 b, forall_byte
    (p := fun b => b ≤ 0x7F → [b] = String.utf8EncodeChar (Char.ofUInt8 b)) (by decide +kernel) b h⟩

theorem isUtf8_ascii (h : ∀ b ∈ text, b ≤ 0x7F) : IsUtf8 text := by
  induction text with
  | nil => exact .nil
  | cons b text ih =>
    exact .cons (codepoint_ascii (h b List.mem_cons_self))
      (ih fun b hb => h b (List.mem_cons_of_mem _ hb))

theorem three_bytes (h : c.utf8Size = 3) : ∃ lead second third,
    String.utf8EncodeChar c = [lead, second, third] ∧ lead.toNat = 0xE0 + c.toNat / 4096 ∧
      second.toNat = 0x80 + c.toNat / 64 % 64 := by
  have hlead : ∀ ch : UInt8, (ch &&& 0x0F ||| 0xE0).toNat = 0xE0 + ch.toNat % 16 :=
    forall_byte (by decide +kernel)
  have hsecond : ∀ ch : UInt8, (ch &&& 0x3F ||| 0x80).toNat = 0x80 + ch.toNat % 64 :=
    forall_byte (by decide +kernel)
  refine ⟨_, _, _, String.utf8EncodeChar_eq_cons_cons_cons h, ?_, ?_⟩
  · rw [hlead, UInt32.toNat_toUInt8, UInt32.toNat_shiftRight, Nat.shiftRight_eq_div_pow]
    rw [Char.utf8Size_eq_three_iff, UInt32.le_iff_toNat_le] at h
    have hle : c.toNat ≤ 0xFFFF := h.2
    change 0xE0 + c.toNat / 2 ^ 12 % 256 % 16 = _
    omega
  · rw [hsecond, UInt32.toNat_toUInt8, UInt32.toNat_shiftRight, Nat.shiftRight_eq_div_pow]
    change 0x80 + c.toNat / 2 ^ 6 % 256 % 64 = _
    omega

/-! ## Cuts -/

theorem not_continuation_of_lead {width : ℕ} (h : utf8Width ch = some width) :
    isUtf8Continuation ch = false := by
  have hlead := forall_byte (p := fun ch => utf8Width ch ≠ none → isUtf8Continuation ch = false)
    (by decide +kernel) ch
  exact hlead (by rw [h]; exact Option.some_ne_none width)

theorem not_continuation_of_ascii (h : ch ≤ 0x7F) : isUtf8Continuation ch = false :=
  not_continuation_of_lead (lead_one h)

theorem IsSpan.append_inj {cp' : Bytes} (h : IsSpan cp) (h' : IsSpan cp')
    (heq : cp ++ a = cp' ++ b) : cp = cp' ∧ a = b := by
  cases cp with
  | nil => exact absurd h id
  | cons ch rest =>
    cases cp' with
    | nil => exact absurd h' id
    | cons ch' rest' =>
      rw [List.cons_append, List.cons_append, List.cons.injEq] at heq
      obtain ⟨rfl, heq⟩ := heq
      have hlength : rest.length = rest'.length := by
        have hwidth := h.1.symm.trans h'.1
        rw [Option.some.injEq] at hwidth
        omega
      obtain ⟨rfl, rfl⟩ := List.append_inj heq hlength
      exact ⟨rfl, rfl⟩

theorem IsUtf8.of_codepoint_append (h : IsUtf8 (cp ++ text)) (hcp : IsCodepoint cp) :
    IsUtf8 text := by
  generalize heq : cp ++ text = whole at h
  cases h with
  | nil => exact absurd (List.append_eq_nil_iff.mp heq).1 hcp.isSpan.ne_nil
  | cons hcp' htext =>
    obtain ⟨-, rfl⟩ := hcp.isSpan.append_inj hcp'.isSpan heq
    exact htext

theorem IsUtf8.of_append (ha : IsUtf8 a) (h : IsUtf8 (a ++ b)) : IsUtf8 b := by
  induction ha with
  | nil => exact h
  | cons hcp _ ih =>
    rw [List.append_assoc] at h
    exact ih (h.of_codepoint_append hcp)

theorem IsUtf8.head (h : IsUtf8 (ch :: text)) : isUtf8Continuation ch = false := by
  generalize heq : ch :: text = whole at h
  cases h with
  | nil => cases heq
  | @cons cp _ hcp _ =>
    have hspan := hcp.isSpan
    cases cp with
    | nil => exact absurd hspan id
    | cons lead rest =>
      rw [List.cons_append, List.cons.injEq] at heq
      rw [heq.1]
      exact not_continuation_of_lead hspan.1

theorem IsUtf8.split (h : IsUtf8 (a ++ b)) (hb : ∀ ch ∈ b.head?, isUtf8Continuation ch = false) :
    IsUtf8 a ∧ IsUtf8 b := by
  generalize heq : a ++ b = whole at h
  induction h generalizing a with
  | nil =>
    obtain ⟨rfl, rfl⟩ := List.append_eq_nil_iff.mp heq
    exact ⟨.nil, .nil⟩
  | @cons cp text hcp htext ih =>
    rcases List.append_eq_append_iff.mp heq with ⟨inner, rfl, rfl⟩ | ⟨a', rfl, rfl⟩
    · -- the code point reaches up to the cut or over it
      cases a with
      | nil => exact ⟨.nil, .cons hcp htext⟩
      | cons lead front =>
        cases inner with
        | nil =>
          rw [List.append_nil] at hcp
          exact ⟨isUtf8_of_codepoint hcp, htext⟩
        | cons ch inner =>
          have hcontinuation := hcp.isSpan.2 ch (List.mem_append_right _ List.mem_cons_self)
          rw [hb ch rfl] at hcontinuation
          cases hcontinuation
    · obtain ⟨ha', hrest⟩ := ih rfl
      exact ⟨.cons hcp ha', hrest⟩

theorem IsUtf8.around {before behind : Bytes} (h : IsUtf8 (before ++ cp ++ behind))
    (hcp : IsCodepoint cp) : IsUtf8 before ∧ IsUtf8 behind := by
  rw [List.append_assoc] at h
  obtain ⟨hbefore, hrest⟩ := h.split fun ch hch => by
    obtain ⟨lead, rest, rfl⟩ := List.exists_cons_of_ne_nil hcp.isSpan.ne_nil
    rw [List.cons_append, List.head?_cons, Option.mem_some_iff] at hch
    rw [← hch]
    exact not_continuation_of_lead hcp.isSpan.1
  exact ⟨hbefore, hrest.of_codepoint_append hcp⟩

theorem utf8EncodeChar_inj {d : Char} (h : String.utf8EncodeChar c = String.utf8EncodeChar d) :
    c = d := by
  have hc := ByteArray.utf8DecodeChar?_utf8EncodeChar_append (b := ByteArray.empty) (c := c)
  rw [h, ByteArray.utf8DecodeChar?_utf8EncodeChar_append] at hc
  exact (Option.some.inj hc).symm

theorem mem_of_encode_part {chars : List Char} (h : String.utf8EncodeChar c <:+: encode chars) :
    c ∈ chars := by
  obtain ⟨before, behind, heq⟩ := h
  have hutf8 := isUtf8_encode chars
  rw [← heq] at hutf8
  obtain ⟨front, rfl⟩ := (hutf8.around ⟨c, rfl⟩).1.exists_chars
  clear hutf8
  have hspan : ∀ d : Char, IsSpan (String.utf8EncodeChar d) := fun d => IsCodepoint.isSpan ⟨d, rfl⟩
  induction front generalizing chars with
  | nil =>
    rw [encode_nil, List.nil_append] at heq
    cases chars with
    | nil => exact absurd (List.append_eq_nil_iff.mp heq).1 (hspan c).ne_nil
    | cons d chars =>
      rw [utf8EncodeChar_inj ((hspan c).append_inj (hspan d) heq).1]
      exact List.mem_cons_self
  | cons a front ih =>
    rw [encode_cons, List.append_assoc, List.append_assoc, ← List.append_assoc (encode front)] at heq
    cases chars with
    | nil => exact absurd (List.append_eq_nil_iff.mp heq).1 (hspan a).ne_nil
    | cons d chars =>
      exact List.mem_cons_of_mem _ (ih ((hspan a).append_inj (hspan d) heq).2)

/-- A place between two code points, or at an end of the text. -/
def IsBoundary (text : Bytes) (index : ℕ) : Prop :=
  ∃ before after, text = before ++ after ∧ before.length = index ∧ IsUtf8 before ∧ IsUtf8 after

theorem isBoundary_append (ha : IsUtf8 a) (hb : IsUtf8 b) : IsBoundary (a ++ b) a.length :=
  ⟨a, b, rfl, rfl, ha, hb⟩

theorem IsBoundary.take (h : IsBoundary text index) : IsUtf8 (text.take index) := by
  obtain ⟨before, after, rfl, rfl, hbefore, -⟩ := h
  rwa [List.take_left]

theorem IsBoundary.drop (h : IsBoundary text index) : IsUtf8 (text.drop index) := by
  obtain ⟨before, after, rfl, rfl, -, hafter⟩ := h
  rwa [List.drop_left]

theorem IsUtf8.isBoundary (h : IsUtf8 text) (hle : index ≤ text.length)
    (hnext : ∀ ch ∈ text[index]?, isUtf8Continuation ch = false) : IsBoundary text index := by
  rw [← List.take_append_drop index text] at h
  obtain ⟨htake, hdrop⟩ := h.split (by rwa [List.head?_drop])
  exact ⟨_, _, (List.take_append_drop index text).symm, List.length_take_of_le hle, htake, hdrop⟩

theorem IsUtf8.take_of_continuation (h : IsUtf8 text) (hch : text[index]? = some ch)
    (hcontinuation : isUtf8Continuation ch = true) : ¬ IsUtf8 (text.take index) := by
  intro htake
  rw [← List.take_append_drop index text] at h
  have hdrop := htake.of_append h
  rw [List.drop_eq_getElem?_toList_append, hch] at hdrop
  have hlead := hdrop.head
  rw [hcontinuation] at hlead
  cases hlead

/-! ## ASCII bytes -/

section

variable (h : IsUtf8 text) {p : UInt8 → Bool} (hp : ∀ b, p b = true → b ≤ 0x7F)
include h hp

theorem IsUtf8.dropWhile : IsUtf8 (text.dropWhile p) := by
  rw [← List.takeWhile_append_dropWhile (p := p) (l := text)] at h
  exact (isUtf8_ascii fun b hb => hp b (List.mem_takeWhile_imp hb)).of_append h

theorem IsUtf8.rdropWhile : IsUtf8 (text.rdropWhile p) := by
  rw [← List.rdropWhile_append_rtakeWhile (p := p) (l := text)] at h
  refine (h.split fun ch hch => ?_).1
  exact not_continuation_of_ascii (hp ch (List.mem_rtakeWhile_imp (List.mem_of_mem_head? hch)))

end

theorem ascii_of_isSpace {b : UInt8} (h : isSpace b = true) : b ≤ 0x7F := by
  revert b
  apply forall_byte
  decide +kernel

theorem IsUtf8.trimmed (h : IsUtf8 text) : IsUtf8 (trimmed text) :=
  (h.dropWhile fun _ => ascii_of_isSpace).rdropWhile fun _ => ascii_of_isSpace

theorem isUtf8_trimmed : IsUtf8 (FastTts.trimmed text) ↔ IsUtf8 text := by
  refine ⟨fun h => ?_, IsUtf8.trimmed⟩
  have hfront : IsUtf8 (text.takeWhile isSpace) :=
    isUtf8_ascii fun b hb => ascii_of_isSpace (List.mem_takeWhile_imp hb)
  have hback : IsUtf8 ((text.dropWhile isSpace).rtakeWhile isSpace) :=
    isUtf8_ascii fun b hb => ascii_of_isSpace (List.mem_rtakeWhile_imp hb)
  have hall := hfront.append (h.append hback)
  rwa [FastTts.trimmed, List.rdropWhile_append_rtakeWhile, List.takeWhile_append_dropWhile] at hall

theorem IsUtf8.isBoundary_ascii (h : IsUtf8 text) (hch : text[index]? = some ch)
    (hascii : ch ≤ 0x7F) : IsBoundary text index ∧ IsBoundary text (index + 1) := by
  have hlt := (List.getElem?_eq_some_iff.mp hch).1
  have hhere : IsBoundary text index := by
    refine h.isBoundary hlt.le fun next hnext => ?_
    rw [hch, Option.mem_some_iff] at hnext
    rw [← hnext]
    exact not_continuation_of_ascii hascii
  refine ⟨hhere, text.take (index + 1), text.drop (index + 1), (List.take_append_drop ..).symm,
    List.length_take_of_le hlt, ?_, ?_⟩
  · rw [List.take_add_one, hch]
    exact hhere.take.append (isUtf8_of_codepoint (codepoint_ascii hascii))
  · have hdrop := hhere.drop
    rw [List.drop_eq_getElem?_toList_append, hch] at hdrop
    exact hdrop.of_codepoint_append (codepoint_ascii hascii)

theorem IsUtf8.isBoundary_isAt (h : IsUtf8 text) (hcp : IsCodepoint cp)
    (hat : isAt text index cp = true) :
    IsBoundary text index ∧ IsBoundary text (index + cp.length) := by
  obtain ⟨rest, hrest⟩ := List.isPrefixOf_iff_prefix.mp hat
  have hlength := congrArg List.length hrest
  rw [List.length_append, List.length_drop] at hlength
  have hpos := List.length_pos_of_ne_nil hcp.isSpan.ne_nil
  have hhere : IsBoundary text index := by
    refine h.isBoundary (by omega) fun next hnext => ?_
    rw [← List.head?_drop, ← hrest] at hnext
    cases cp with
    | nil => exact absurd hcp.isSpan id
    | cons lead tail =>
      rw [List.cons_append, List.head?_cons, Option.mem_some_iff] at hnext
      rw [← hnext]
      exact not_continuation_of_lead hcp.isSpan.1
  have hdrop := hhere.drop
  rw [← hrest] at hdrop
  refine ⟨hhere, text.take index ++ cp, rest, ?_, ?_, ?_, hdrop.of_codepoint_append hcp⟩
  · rw [List.append_assoc, hrest, List.take_append_drop]
  · rw [List.length_append, List.length_take_of_le (by omega)]
  · exact hhere.take.append (isUtf8_of_codepoint hcp)

end FastTts.Utf8Spans
