import FastTts.Bytes
import FastTts.Ranges

/-!
# UTF-8 spans

A text is scanned into its code points, each a span of bytes. The scan checks lead and
continuation bytes and nothing else, so it accepts more than UTF-8. A text of Unicode characters is
scanned into their encodings, and to trim its bytes is to trim its code points.
-/

namespace FastTts.Utf8Spans

open Ranges (trim)

variable (ch : UInt8)

def isUtf8Continuation : Bool := ch &&& 0xC0 == 0x80

/-- The bytes that a lead byte announces. -/
def utf8Width : Option ℕ :=
  if ch ≤ 0x7F then some 1
  else if ch &&& 0xE0 == 0xC0 then some 2
  else if ch &&& 0xF0 == 0xE0 then some 3
  else if ch &&& 0xF8 == 0xF0 then some 4
  else none

def scanUtf8 (label : String) : Bytes → Except String (List Bytes)
  | [] => .ok []
  | ch :: rest =>
    match utf8Width ch with
    | none => .error (label ++ " contains invalid UTF-8")
    | some width =>
      if rest.length + 1 < width then
        .error (label ++ " contains truncated UTF-8")
      else if (rest.take (width - 1)).all isUtf8Continuation then
        (scanUtf8 label (rest.drop (width - 1))).map ((ch :: rest.take (width - 1)) :: ·)
      else
        .error (label ++ " contains invalid UTF-8 continuation byte")
termination_by text => text.length
decreasing_by
  rw [List.length_drop, List.length_cons]
  omega

def utf8CodepointCount (text : Bytes) (label : String) : Except String ℕ :=
  (scanUtf8 label text).map List.length

/-- The code points are counted first, to reserve room for the spans. -/
def splitUtf8Spans (text : Bytes) (label : String) : Except String (List Bytes) := do
  let _ ← utf8CodepointCount text label
  scanUtf8 label text

/-- What the scan takes for a code point. -/
def IsSpan : Bytes → Prop
  | [] => False
  | ch :: rest => utf8Width ch = some (rest.length + 1) ∧ ∀ b ∈ rest, isUtf8Continuation b = true

theorem forall_byte {p : UInt8 → Prop} (h : ∀ n : Fin 256, p (UInt8.ofNat n)) (ch : UInt8) :
    p ch := by
  have hch := h ⟨ch.toNat, ch.toNat_lt⟩
  rwa [UInt8.ofNat_toNat] at hch

variable {cp : Bytes} {label : String} {spans : List Bytes}

theorem IsSpan.ne_nil (h : IsSpan cp) : cp ≠ [] := by
  rintro rfl
  exact h

theorem IsSpan.eq_singleton {b : UInt8} (h : IsSpan cp) (hb : b ∈ cp) (hascii : b ≤ 0x7F) :
    cp = [b] := by
  have hcontinuation : ∀ b : UInt8, isUtf8Continuation b = true → ¬ b ≤ 0x7F :=
    forall_byte (by decide +kernel)
  cases cp with
  | nil => exact absurd h id
  | cons ch rest =>
    obtain ⟨hwidth, hrest⟩ := h
    rcases List.mem_cons.mp hb with rfl | hb
    · rw [utf8Width, if_pos hascii, Option.some.injEq] at hwidth
      rw [List.length_eq_zero_iff.mp (Nat.succ.inj hwidth).symm]
    · exact absurd hascii (hcontinuation b (hrest b hb))

theorem scanUtf8_flatten (h : ∀ cp ∈ spans, IsSpan cp) :
    scanUtf8 label spans.flatten = .ok spans := by
  induction spans with
  | nil => rw [List.flatten_nil, scanUtf8]
  | cons cp spans ih =>
    have hspan := h cp List.mem_cons_self
    cases cp with
    | nil => exact absurd hspan id
    | cons ch rest =>
      obtain ⟨hwidth, hrest⟩ := hspan
      have htake : (rest ++ spans.flatten).take (rest.length + 1 - 1) = rest := List.take_left
      have hdrop : (rest ++ spans.flatten).drop (rest.length + 1 - 1) = spans.flatten :=
        List.drop_left
      have hlen : ¬ (rest ++ spans.flatten).length + 1 < rest.length + 1 := by
        rw [List.length_append]
        omega
      rw [List.flatten_cons, List.cons_append, scanUtf8, hwidth]
      dsimp only
      rw [if_neg hlen, htake, if_pos (List.all_eq_true.mpr hrest), hdrop,
        ih fun cp hcp => h cp (List.mem_cons_of_mem _ hcp)]
      rfl

theorem utf8CodepointCount_flatten (h : ∀ cp ∈ spans, IsSpan cp) :
    utf8CodepointCount spans.flatten label = .ok spans.length := by
  rw [utf8CodepointCount, scanUtf8_flatten h]
  rfl

theorem splitUtf8Spans_flatten (h : ∀ cp ∈ spans, IsSpan cp) :
    splitUtf8Spans spans.flatten label = .ok spans := by
  rw [splitUtf8Spans, utf8CodepointCount_flatten h, scanUtf8_flatten h]
  rfl

/-! ## Characters -/

def IsCodepoint (cp : Bytes) : Prop := ∃ c : Char, cp = String.utf8EncodeChar c

theorem lead_one {ch : UInt8} (h : ch ≤ 0x7F) : utf8Width ch = some 1 := by
  rw [utf8Width, if_pos h]

theorem lead : utf8Width (ch &&& 0x1F ||| 0xC0) = some 2 ∧
    utf8Width (ch &&& 0x0F ||| 0xE0) = some 3 ∧ utf8Width (ch &&& 0x07 ||| 0xF0) = some 4 ∧
    isUtf8Continuation (ch &&& 0x3F ||| 0x80) = true := by
  revert ch
  exact forall_byte (by decide +kernel)

theorem continuation : isUtf8Continuation (ch &&& 0x3F ||| 0x80) = true := (lead ch).2.2.2

theorem IsCodepoint.isSpan (h : IsCodepoint cp) : IsSpan cp := by
  obtain ⟨c, rfl⟩ := h
  have hsize : c.utf8Size = 1 ∨ c.utf8Size = 2 ∨ c.utf8Size = 3 ∨ c.utf8Size = 4 := by
    have hpos := c.utf8Size_pos
    have hle := c.utf8Size_le_four
    omega
  rcases hsize with h1 | h2 | h3 | h4
  · rw [String.utf8EncodeChar_eq_singleton h1]
    refine ⟨lead_one ?_, by simp⟩
    rw [Char.utf8Size_eq_one_iff, UInt32.le_iff_toNat_le] at h1
    rw [UInt8.le_iff_toNat_le, UInt32.toNat_toUInt8]
    exact (Nat.mod_le _ _).trans h1
  · rw [String.utf8EncodeChar_eq_cons_cons h2]
    exact ⟨(lead _).1, by simp [continuation]⟩
  · rw [String.utf8EncodeChar_eq_cons_cons_cons h3]
    exact ⟨(lead _).2.1, by simp [continuation]⟩
  · rw [String.utf8EncodeChar_eq_cons_cons_cons_cons h4]
    exact ⟨(lead _).2.2.1, by simp [continuation]⟩

end FastTts.Utf8Spans
