import Mathlib.Data.List.DropRight

/-!
# JavaScript strings

A string is its UTF-16 code units. White space is that of `\s` and of `String.prototype.trim`.
-/

namespace FastTts.JsText

abbrev Units := List UInt16

abbrev Ranges := List (ℕ × ℕ)

def inRanges (ranges : Ranges) (unit : UInt16) : Bool :=
  ranges.any fun range => range.1 ≤ unit.toNat && unit.toNat ≤ range.2

def isSpace : UInt16 → Bool :=
  inRanges [(0x09, 0x0D), (0x20, 0x20), (0xA0, 0xA0), (0x1680, 0x1680), (0x2000, 0x200A),
    (0x2028, 0x2029), (0x202F, 0x202F), (0x205F, 0x205F), (0x3000, 0x3000), (0xFEFF, 0xFEFF)]

def trim (text : Units) : Units := (text.dropWhile isSpace).rdropWhile isSpace

def ascii (text : String) : Units := text.toList.map fun char => UInt16.ofNat char.toNat

def utf16 (char : Char) : Units :=
  if char.toNat < 0x10000 then [UInt16.ofNat char.toNat]
  else
    [UInt16.ofNat (0xD800 + (char.toNat - 0x10000) / 0x400),
      UInt16.ofNat (0xDC00 + (char.toNat - 0x10000) % 0x400)]

def unitsOf (text : List Char) : Units := text.flatMap utf16

def utf8Of (text : List Char) : List UInt8 := text.flatMap String.utf8EncodeChar

/-! ## Trimming -/

/-- A text that neither begins nor ends with white space. -/
structure Trimmed (text : Units) : Prop where
  first : ∀ unit, text.head? = some unit → isSpace unit = false
  last : ∀ unit, text.getLast? = some unit → isSpace unit = false

/-- White space around a trimmed text is what trimming removes, for any class of white space that
belongs to that of the language. -/
theorem strip_around {space : UInt16 → Bool} {before text behind : Units} (h : Trimmed text)
    (hne : text ≠ []) (hspace : ∀ unit, space unit = true → isSpace unit = true)
    (hbefore : ∀ unit ∈ before, space unit = true) (hbehind : ∀ unit ∈ behind, space unit = true) :
    ((before ++ (text ++ behind)).dropWhile space).rdropWhile space = text := by
  obtain ⟨first, rest, rfl⟩ := List.exists_cons_of_ne_nil hne
  have hfirst : space first = false := by
    by_contra hyes
    have hno := h.first first rfl
    rw [hspace first (by simpa using hyes)] at hno
    exact nomatch hno
  have hdrop : (before ++ (first :: rest ++ behind)).dropWhile space = first :: rest ++ behind := by
    rw [List.dropWhile_append_of_pos hbefore, List.cons_append,
      List.dropWhile_cons_of_neg (by simp [hfirst])]
  have hlast : ∀ hnil : first :: rest ≠ [], ¬ space ((first :: rest).getLast hnil) = true := by
    intro hnil hyes
    have hno := h.last _ (List.getLast?_eq_some_getLast hnil)
    rw [hspace _ hyes] at hno
    exact nomatch hno
  rw [hdrop, List.rdropWhile, List.reverse_append,
    List.dropWhile_append_of_pos fun unit hunit => hbehind unit (List.mem_reverse.mp hunit)]
  exact List.rdropWhile_eq_self_iff.mpr hlast

theorem trim_around {before text behind : Units} (h : Trimmed text) (hne : text ≠ [])
    (hbefore : ∀ unit ∈ before, isSpace unit = true)
    (hbehind : ∀ unit ∈ behind, isSpace unit = true) : trim (before ++ (text ++ behind)) = text :=
  strip_around h hne (fun _ hspace => hspace) hbefore hbehind

end FastTts.JsText
