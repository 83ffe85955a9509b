import Mathlib.Algebra.Ring.Int.Defs
import Mathlib.Algebra.Ring.Nat
import Mathlib.Data.List.DropRight
import Mathlib.Data.List.Infix

/-!
# Byte strings

A `std::string` is its list of bytes. The character classes are those of `<cctype>` in the "C"
locale, where no byte from `0x80` on belongs to any class.
-/

namespace FastTts

abbrev Bytes := List UInt8

instance instLawfulBEqBytes : LawfulBEq Bytes := List.instLawfulBEq

/-- The bytes of a source literal. -/
def bytes (s : String) : Bytes := s.toUTF8.data.toList

def isSpace (b : UInt8) : Bool := b == 0x20 || (0x09 ≤ b && b ≤ 0x0D)

def isDigit (b : UInt8) : Bool := 0x30 ≤ b && b ≤ 0x39

def isUpper (b : UInt8) : Bool := 0x41 ≤ b && b ≤ 0x5A

def isLower (b : UInt8) : Bool := 0x61 ≤ b && b ≤ 0x7A

def isAlpha (b : UInt8) : Bool := isUpper b || isLower b

def isAlnum (b : UInt8) : Bool := isAlpha b || isDigit b

def isPunct (b : UInt8) : Bool := 0x21 ≤ b && b ≤ 0x7E && !isAlnum b

def toLower (b : UInt8) : UInt8 := if isUpper b then b + 0x20 else b

/-- `isspace` of a byte at either end goes. -/
@[grind =]
def trimmed (text : Bytes) : Bytes := (text.dropWhile isSpace).rdropWhile isSpace

variable {b : UInt8} {text needle before : Bytes} {index bound i : ℕ} {p : ℕ → Bool}

theorem trimmed_cons_space (h : isSpace b = true) (text : Bytes) :
    trimmed (b :: text) = trimmed text := by
  rw [trimmed, List.dropWhile_cons_of_pos h]
  rfl

theorem trimmed_of_ends {first last : UInt8} (hfirst : isSpace first = false)
    (hlast : isSpace last = false) :
    trimmed (first :: (text ++ [last])) = first :: (text ++ [last]) := by
  rw [trimmed, List.dropWhile_cons_of_neg (by simp [hfirst]), ← List.cons_append,
    List.rdropWhile_concat_neg _ _ _ (by simp [hlast])]

theorem trimmed_trimmed (text : Bytes) : trimmed (trimmed text) = trimmed text := by
  rw [trimmed, trimmed]
  generalize hl : text.dropWhile isSpace = l
  have hleft : (l.rdropWhile isSpace).dropWhile isSpace = l.rdropWhile isSpace := by
    rw [List.dropWhile_eq_self_iff]
    intro hpos
    have hpart : l.rdropWhile isSpace <+: l := List.rdropWhile_prefix isSpace l
    have hlen : 0 < l.length := lt_of_lt_of_le hpos hpart.length_le
    rw [hpart.getElem hpos]
    subst hl
    exact List.dropWhile_get_zero_not isSpace text hlen
  rw [hleft, List.rdropWhile_idempotent]

def isAt (text : Bytes) (index : ℕ) (needle : Bytes) : Bool := needle.isPrefixOf (text.drop index)

/-- `std::string::find`. -/
@[grind =]
def find (text needle : Bytes) : Option ℕ :=
  (List.range (text.length + 1)).find? fun index => isAt text index needle

theorem find_spec (h : find text needle = some index) :
    isAt text index needle = true ∧ ∀ earlier < index, isAt text earlier needle = false := by
  obtain ⟨hat, -, hfirst⟩ := List.find?_range_eq_some.mp h
  exact ⟨hat, fun earlier hlt => by simpa using hfirst earlier hlt⟩

theorem isAt_length (before needle behind : Bytes) :
    isAt (before ++ needle ++ behind) before.length needle = true := by
  rw [isAt, List.append_assoc, List.drop_left]
  exact List.isPrefixOf_iff_prefix.mpr (List.prefix_append needle behind)

theorem find_eq_none (h : find text needle = none) : ¬ needle <:+: text := by
  rintro ⟨before, behind, rfl⟩
  have hlt : before.length < (before ++ needle ++ behind).length + 1 := by
    rw [List.length_append, List.length_append]
    omega
  have hnot := List.find?_eq_none.mp h before.length (List.mem_range.mpr hlt)
  exact hnot (isAt_length before needle behind)

theorem find_first {length : ℕ} (h : find text needle = some index)
    (hlength : length < index + needle.length) : ¬ needle <:+: text.take length := by
  rintro ⟨before, behind, hsplit⟩
  have hle := congrArg List.length hsplit
  rw [List.length_append, List.length_append, List.length_take] at hle
  have hat := isAt_length before needle (behind ++ text.drop length)
  rw [← List.append_assoc, hsplit, List.take_append_drop] at hat
  have hnot := (find_spec h).2 before.length (by omega)
  rw [hat] at hnot
  cases hnot

theorem find_split (h : find text needle = some index) :
    ∃ before behind, text = before ++ needle ++ behind ∧ before.length = index := by
  have hmem := List.mem_of_find?_eq_some h
  rw [List.mem_range] at hmem
  obtain ⟨behind, hbehind⟩ := List.isPrefixOf_iff_prefix.mp (find_spec h).1
  refine ⟨text.take index, behind, ?_, List.length_take_of_le (by omega)⟩
  rw [List.append_assoc, hbehind, List.take_append_drop]

theorem find_byte (h : b ∉ before) (behind : Bytes) :
    find (before ++ b :: behind) [b] = some before.length := by
  cases hfind : find (before ++ b :: behind) [b] with
  | none => exact absurd ⟨before, behind, by simp⟩ (find_eq_none hfind)
  | some index =>
    have hhere := isAt_length before [b] behind
    rw [List.append_assoc, List.singleton_append] at hhere
    rcases Nat.lt_trichotomy index before.length with hlt | rfl | hgt
    · have hat := (find_spec hfind).1
      rw [isAt, List.drop_append_of_le_length hlt.le, List.drop_eq_getElem_cons hlt,
        List.cons_append, List.isPrefixOf_cons_cons, List.isPrefixOf_nil_left, Bool.and_true,
        beq_iff_eq] at hat
      exact absurd (hat ▸ List.getElem_mem hlt) h
    · rfl
    · have hnot := (find_spec hfind).2 before.length hgt
      rw [hhere] at hnot
      cases hnot

@[simp] theorem find_nil (needle : Bytes) :
    find [] needle = if needle.isEmpty then some 0 else none := by
  cases needle <;> rfl

theorem find_cons (b : UInt8) (text needle : Bytes) : find (b :: text) needle =
    if needle.isPrefixOf (b :: text) then some 0 else (find text needle).map (· + 1) := by
  rw [find, List.length_cons, List.range_succ_eq_map, List.find?_cons, List.find?_map, find]
  have hhere : isAt (b :: text) 0 needle = needle.isPrefixOf (b :: text) := rfl
  have hlater : ((fun index => isAt (b :: text) index needle) ∘ Nat.succ) =
      fun index => isAt text index needle := rfl
  rw [hhere, hlater]
  cases needle.isPrefixOf (b :: text) <;> rfl

theorem take_find_byte (text : Bytes) (b : UInt8) :
    text.take ((find text [b]).getD text.length) = text.takeWhile (· ≠ b) := by
  induction text with
  | nil => rfl
  | cons first text ih =>
    rw [find_cons]
    by_cases hfirst : first = b
    · subst hfirst
      simp
    · have hother : ([b].isPrefixOf (first :: text)) = false := by
        simp [List.isPrefixOf, Ne.symm hfirst]
      rw [hother, if_neg Bool.false_ne_true, List.takeWhile_cons_of_pos (by simpa using hfirst),
        ← ih, List.length_cons]
      cases find text [b] <;> rfl

theorem find_skip (h : b ∉ before) (text needle : Bytes) :
    find (before ++ text) (b :: needle) = (find text (b :: needle)).map (before.length + ·) := by
  induction before with
  | nil => simp
  | cons first before ih =>
    rw [List.mem_cons, not_or] at h
    have hfirst : (b == first) = false := beq_eq_false_iff_ne.mpr h.1
    have hlength : (fun index => index + 1) ∘ (fun index => before.length + index) =
        fun index => (first :: before).length + index := by
      funext index
      simp only [Function.comp_apply, List.length_cons]
      omega
    rw [List.cons_append, find_cons, List.isPrefixOf, hfirst, ih h.2, Option.map_map, hlength,
      Bool.false_and, if_neg Bool.false_ne_true]

theorem find_free (h : ¬ needle <:+: before ++ needle.dropLast) (behind : Bytes) :
    find (before ++ needle ++ behind) needle = some before.length := by
  cases hfind : find (before ++ needle ++ behind) needle with
  | none => exact absurd ⟨before, behind, rfl⟩ (find_eq_none hfind)
  | some index =>
    rcases Nat.lt_trichotomy index before.length with hlt | rfl | hgt
    · obtain ⟨early, late, hsplit, hearly⟩ := find_split hfind
      have hbehind : before ++ needle.dropLast <+: before ++ needle ++ behind := by
        rw [List.append_assoc]
        exact (List.prefix_append_right_inj before).mpr
          ((List.dropLast_prefix needle).trans (List.prefix_append needle behind))
      have hlength : (early ++ needle).length ≤ (before ++ needle.dropLast).length := by
        rw [List.length_append, List.length_append, List.length_dropLast]
        omega
      have hpart := List.prefix_of_prefix_length_le ⟨late, hsplit.symm⟩ hbehind hlength
      exact absurd ((List.suffix_append early needle).isInfix.trans hpart.isInfix) h
    · rfl
    · have hnot := (find_spec hfind).2 before.length hgt
      rw [isAt_length] at hnot
      cases hnot

/-- The greatest index below `bound` that satisfies `p`. -/
@[grind =]
def findLast (p : ℕ → Bool) : ℕ → Option ℕ
  | 0 => none
  | bound + 1 => if p bound then some bound else findLast p bound

theorem findLast_lt (h : findLast p bound = some i) : i < bound := by
  induction bound with
  | zero => cases h
  | succ bound ih =>
    rw [findLast] at h
    split at h
    · cases h
      exact Nat.lt_succ_self _
    · exact Nat.lt_succ_of_lt (ih h)

theorem findLast_holds (h : findLast p bound = some i) : p i = true := by
  induction bound with
  | zero => cases h
  | succ bound ih =>
    rw [findLast] at h
    split at h
    · next hp =>
      cases h
      exact hp
    · exact ih h

theorem findLast_max {j : ℕ} (h : findLast p bound = some i) (hij : i < j) (hj : j < bound) :
    p j = false := by
  induction bound with
  | zero => omega
  | succ bound ih =>
    rw [findLast] at h
    split at h
    · cases h
      omega
    · next hp =>
      rcases Nat.lt_succ_iff_lt_or_eq.mp hj with hlt | rfl
      · exact ih h hlt
      · exact Bool.not_eq_true _ |>.mp hp

theorem findLast_none (h : findLast p bound = none) (hi : i < bound) : p i = false := by
  induction bound with
  | zero => omega
  | succ bound ih =>
    rw [findLast] at h
    split at h
    · cases h
    · next hp =>
      rcases Nat.lt_succ_iff_lt_or_eq.mp hi with hlt | rfl
      · exact ih h hlt
      · exact Bool.not_eq_true _ |>.mp hp

/-- `std::string::rfind` of a byte, among the indices below `bound`. -/
def rfindByte (text : Bytes) (b : UInt8) (bound : ℕ) : Option ℕ :=
  findLast (fun index => decide (text[index]? = some b)) (min bound text.length)

theorem rfindByte_spec {space : ℕ} (h : rfindByte text b bound = some space) :
    text[space]? = some b ∧ space < bound := by
  rw [rfindByte] at h
  have hlt := findLast_lt h
  exact ⟨of_decide_eq_true (findLast_holds h), by omega⟩

/-- `static_cast<size_t>` of an `int`. -/
def toSize (n : ℤ) : ℕ := (n % 2 ^ 64).toNat

end FastTts
