import FastTts.SavedMatches
import FastTts.Utf8Spans

/-!
# Pinyin under placeholders

`save_pinyin_tones` puts placeholders for the syllables with a tone digit, which come back in
corrected spelling. A syllable is replaced wherever it stands, also in the middle of a word that the
pattern has found as a whole.
-/

namespace FastTts.PinyinTones

open Backtracking MarkedTexts StdSort SavedMatches Utf8Spans

/-! ## Syllables -/

def toUpper (b : UInt8) : UInt8 := if isLower b then b - 0x20 else b

def uppercaseAsciiAndV : Bytes → Bytes
  | [] => []
  | [ch] => [toUpper ch]
  | ch :: next :: rest =>
    if ch == 0xC3 && (next == 0xBC || next == 0x9C) then 0x56 :: uppercaseAsciiAndV rest
    else toUpper ch :: uppercaseAsciiAndV (next :: rest)

/-- Behind `j`, `q` and `x`, a `u` is an `ü`, which is written as a `v`. -/
def correctIndexTtsPinyin : Bytes → Bytes
  | first :: second :: third :: rest =>
    if (bytes "jqx").contains (toLower first) then
      if toLower second == 0x75 then uppercaseAsciiAndV (first :: 0x76 :: third :: rest)
      else if !rest.isEmpty && second == 0xC3 && third == 0xBC then
        uppercaseAsciiAndV (first :: 0x76 :: rest)
      else uppercaseAsciiAndV (first :: second :: third :: rest)
    else first :: second :: third :: rest
  | value => value

def initials : List Bytes :=
  ["zh", "ch", "sh", "b", "p", "m", "f", "d", "t", "n", "l", "g", "k", "h",
    "j", "q", "x", "z", "c", "s", "r", "y", "w"].map bytes

def finals : List Bytes :=
  ["a", "ai", "an", "ang", "ao", "e", "ei", "en", "eng", "er", "i", "ia", "ian", "iang",
    "iao", "ie", "in", "ing", "iong", "iu", "o", "ong", "ou", "u", "ua", "uai", "uan",
    "uang", "ue", "ui", "un", "uo", "v", "van", "ve", "vn", "ng"].map bytes

def isIndexTtsPinyinCandidate (candidate : Bytes) : Bool :=
  match candidate.getLast? with
  | none => false
  | some tone =>
    if candidate.length < 2 || !(isWithin 0x31 0x35 tone) then false
    else
      let body := (uppercaseAsciiAndV candidate.dropLast).map toLower
      match initials.find? (·.isPrefixOf body) with
      | some initial => finals.contains (body.drop initial.length)
      | none => finals.contains body

/-! ## Saving -/

def isPinyinLetter (b : UInt8) : Bool :=
  isUpper b || isLower b || b == 0xC3 || b == 0x9C || b == 0xBC

def pinyinPattern : Pattern UInt8 := .seq (.plus isPinyinLetter) (.one (isWithin 0x31 0x35))

/-- A match that no letter stands in front of and that is a syllable. -/
def isTone (text : Bytes) (place : ℕ × Bytes) : Bool :=
  !(decide (0 < place.1) && (text[place.1 - 1]?.any isAlpha)) && isIndexTtsPinyinCandidate place.2

def tones (text : Bytes) : List (ℕ × Bytes) :=
  (matchesIn pinyinPattern text).filter (isTone text)

def toneTerms (sort : (Bytes → Bytes → Bool) → List Bytes → List Bytes) (text : Bytes) :
    List Bytes :=
  unique (sort lexLess ((tones text).map Prod.snd))

def savePinyinTones (sort : (Bytes → Bytes → Bool) → List Bytes → List Bytes) (text : Bytes) :
    Bytes × List (Bytes × Bytes) :=
  saveTerms (bytes "pinyin") correctIndexTtsPinyin (toneTerms sort text) text

/-- What is meant to come back: the text that begins at an offset, with a correction at each of the
places. -/
def correctedAt (offset : ℕ) (text : Bytes) : List (ℕ × Bytes) → Bytes
  | [] => text
  | (pos, syllable) :: places =>
    text.take (pos - offset) ++ (correctIndexTtsPinyin syllable ++
      correctedAt (pos + syllable.length) (text.drop (pos - offset + syllable.length)) places)

/-! ## Corrections -/

variable {digit : UInt8} {offset : ℕ} {places : List (ℕ × Bytes)}

theorem uppercase_append (front : Bytes) (h : isDigit digit = true) :
    uppercaseAsciiAndV (front ++ [digit]) = uppercaseAsciiAndV front ++ [digit] := by
  have hdigit : toUpper digit = digit ∧ digit ≠ 0xBC ∧ digit ≠ 0x9C :=
    forall_byte (p := fun b => isDigit b = true → toUpper b = b ∧ b ≠ 0xBC ∧ b ≠ 0x9C)
      (by decide +kernel) digit h
  obtain ⟨hupper, hlow, hhigh⟩ := hdigit
  fun_induction uppercaseAsciiAndV front with
  | case1 => rw [List.nil_append, uppercaseAsciiAndV, hupper]
  | case2 ch =>
    rw [List.singleton_append, uppercaseAsciiAndV, if_neg (by simp [hlow, hhigh]),
      uppercaseAsciiAndV, hupper]
    rfl
  | case3 ch next rest hpair ih =>
    rw [List.cons_append, List.cons_append, uppercaseAsciiAndV, if_pos hpair, ih]
    rfl
  | case4 ch next rest hpair ih =>
    rw [List.cons_append] at ih
    rw [List.cons_append, List.cons_append, uppercaseAsciiAndV, if_neg hpair, ih]
    rfl

theorem close_notMem_uppercase {value : Bytes} (h : 0x3E ∉ value) :
    0x3E ∉ uppercaseAsciiAndV value := by
  have hupper : ∀ b, 0x3E ≠ b → 0x3E ≠ toUpper b :=
    forall_byte (by decide +kernel)
  fun_induction uppercaseAsciiAndV value with
  | case1 => exact h
  | case2 ch => simpa using hupper ch (by simpa using h)
  | case3 ch next rest hpair ih =>
    simp only [List.mem_cons, not_or] at h ⊢
    exact ⟨by decide, ih h.2.2⟩
  | case4 ch next rest hpair ih =>
    rw [List.mem_cons, not_or] at h ⊢
    exact ⟨hupper ch h.1, ih h.2⟩

theorem correct_digit (front : Bytes) (h : isDigit digit = true) (hclose : 0x3E ∉ front) :
    ∃ corrected,
      correctIndexTtsPinyin (front ++ [digit]) = corrected ++ [digit] ∧ 0x3E ∉ corrected := by
  have hupper : ∀ letters : Bytes, 0x3E ∉ letters → ∃ corrected,
      uppercaseAsciiAndV (letters ++ [digit]) = corrected ++ [digit] ∧ 0x3E ∉ corrected :=
    fun letters hletters =>
      ⟨_, uppercase_append letters h, close_notMem_uppercase hletters⟩
  match front, hclose with
  | [], _ => exact ⟨[], rfl, nofun⟩
  | [first], hclose => exact ⟨[first], rfl, hclose⟩
  | [first, second], hclose =>
    simp only [List.mem_cons, List.not_mem_nil, or_false, not_or] at hclose
    simp only [List.cons_append, List.nil_append, correctIndexTtsPinyin, List.isEmpty_nil,
      Bool.not_true, Bool.false_and, Bool.false_eq_true, if_false]
    split_ifs
    · exact hupper [first, 0x76] (by simp [hclose.1])
    · exact hupper [first, second] (by simp [hclose.1, hclose.2])
    · exact ⟨[first, second], rfl, by simp [hclose.1, hclose.2]⟩
  | first :: second :: third :: rest, hclose =>
    simp only [List.mem_cons, not_or] at hclose
    obtain ⟨hfirst, hsecond, hthird, hrest⟩ := hclose
    simp only [List.cons_append, correctIndexTtsPinyin]
    split_ifs
    · exact hupper (first :: 0x76 :: third :: rest) (by simp [hfirst, hthird, hrest])
    · exact hupper (first :: 0x76 :: rest) (by simp [hfirst, hrest])
    · exact hupper (first :: second :: third :: rest) (by simp [hfirst, hsecond, hthird, hrest])
    · exact ⟨first :: second :: third :: rest, rfl, by simp [hfirst, hsecond, hthird, hrest]⟩

theorem apart_digit {front : Bytes} (h : isDigit digit = true) (hclose : 0x3E ∉ front) :
    Apart (bytes "pinyin") (front ++ [digit]) := by
  have hdigit : digit ≠ 0x3E := by
    rintro rfl
    exact absurd h (by decide)
  refine ⟨by simp [hclose, hdigit.symm], digit, List.getLast?_concat, fun i hmem => ?_⟩
  have hall : ∀ letter : Fin 26, (placeholder (bytes "pinyin") letter).all (! isDigit ·) = true := by
    decide
  rw [placeholder_eq_iff.mpr (Nat.mod_mod i 26).symm] at hmem
  have hother := List.all_eq_true.mp (hall ⟨i % 26, Nat.mod_lt i (by decide)⟩) digit hmem
  rw [h] at hother
  exact nomatch hother

theorem ways_pinyin {text : Bytes} {way : Way UInt8} (h : way ∈ ways pinyinPattern text) :
    ∃ front digit, way.taken = front ++ [digit] ∧ isDigit digit = true ∧ 0x3E ∉ front := by
  obtain ⟨letters, hletters, tone, htone, rfl⟩ := mem_ways_seq.mp h
  obtain ⟨-, -, haccepts, -⟩ := mem_ways_run hletters
  obtain ⟨-, -, htone, hleast, hmost⟩ := mem_ways_run htone
  obtain ⟨digit, hdigit⟩ := List.length_eq_one_iff.mp (le_antisymm (hmost 1 rfl) hleast)
  have hwithin : isWithin 0x31 0x35 digit = true :=
    htone digit (by rw [hdigit]; exact List.mem_singleton_self digit)
  refine ⟨letters.taken, digit, by rw [← hdigit]; rfl, ?_, fun hmem => ?_⟩
  · exact forall_byte (p := fun b => isWithin 0x31 0x35 b = true → isDigit b = true)
      (by decide +kernel) digit hwithin
  · exact absurd (haccepts _ hmem) (by decide)

/-! ## Places -/

/-- Matches at their places in the text that begins at an offset, one behind the other. -/
inductive Lies : ℕ → Bytes → List (ℕ × Bytes) → Prop
  | nil {offset : ℕ} {text : Bytes} : Lies offset text []
  | cons {offset : ℕ} (gap : Bytes) {term behind : Bytes} {places : List (ℕ × Bytes)}
      (h : Lies (offset + gap.length + term.length) behind places) :
      Lies offset (gap ++ (term ++ behind)) ((offset + gap.length, term) :: places)

theorem Lies.front {front text : Bytes} (h : Lies (offset + front.length) text places) :
    Lies offset (front ++ text) places := by
  generalize hbegin : offset + front.length = start at h
  cases h with
  | nil => exact .nil
  | @cons _ gap term behind places hrest =>
    subst hbegin
    rw [Nat.add_assoc offset, ← List.length_append] at hrest ⊢
    rw [← List.append_assoc]
    exact .cons (front ++ gap) hrest

theorem Lies.filter {text : Bytes} (h : Lies offset text places) (p : ℕ × Bytes → Bool) :
    Lies offset text (places.filter p) := by
  induction h with
  | nil => exact .nil
  | @cons offset gap term behind places _ ih =>
    rw [List.filter_cons]
    split_ifs
    · exact .cons gap ih
    · rw [Nat.add_assoc, ← List.length_append] at ih
      rw [← List.append_assoc]
      exact ih.front

theorem Lies.offset_le {text : Bytes} (h : Lies offset text places) :
    ∀ place ∈ places, offset ≤ place.1 := by
  induction h with
  | nil => exact nofun
  | @cons offset gap term behind places _ ih =>
    refine List.forall_mem_cons.mpr ⟨Nat.le_add_right _ _, fun place hplace => ?_⟩
    have hle := ih place hplace
    omega

theorem lies_placed (found : List (Bytes × Way UInt8)) (last : Bytes) (offset : ℕ) :
    Lies offset (spelled (found, last)) (placed offset found) := by
  induction found generalizing offset with
  | nil => exact .nil
  | cons hit found ih =>
    have hrest := Lies.cons hit.1 (ih (offset + hit.1.length + hit.2.taken.length))
    rw [spelled, List.flatMap_cons, List.append_assoc, List.append_assoc]
    exact hrest

theorem lies_matchesIn (pattern : Pattern UInt8) (text : Bytes) :
    Lies 0 text (matchesIn pattern text) := by
  have hplaced := lies_placed (hits pattern text).1 (hits pattern text).2 0
  rwa [Prod.mk.eta, spelled_hits] at hplaced

theorem correctedAt_cons (offset : ℕ) (gap term behind : Bytes) (places : List (ℕ × Bytes)) :
    correctedAt offset (gap ++ (term ++ behind)) ((offset + gap.length, term) :: places) =
      gap ++ (correctIndexTtsPinyin term ++
        correctedAt (offset + gap.length + term.length) behind places) := by
  rw [correctedAt, Nat.add_sub_cancel_left, List.take_left, drop_behind]

/-- If the matches stand in the text at these places only, then marks that leave none of them in
the pieces are at these places. -/
theorem spell_corrected {terms : List Bytes} (hne : ∀ term ∈ terms, term ≠ []) {word : ℕ → Bytes}
    (t : Marked UInt8) (hwords : ∀ mark ∈ t.marks, word mark ∈ terms)
    (hpieces : ∀ piece ∈ t.pieces, ∀ term ∈ terms, ¬ term <:+: piece)
    (hplaces : ∀ place ∈ places, place.2 ∈ terms) (hlies : Lies offset (t.spell word) places)
    (hall : ∀ term ∈ terms, ∀ before behind, t.spell word = before ++ (term ++ behind) →
      (offset + before.length, term) ∈ places) :
    t.spell (fun mark => correctIndexTtsPinyin (word mark)) =
      correctedAt offset (t.spell word) places := by
  obtain ⟨first, rest⟩ := t
  induction rest generalizing first offset places with
  | nil =>
    generalize htext : Marked.spell ⟨first, []⟩ word = text at *
    cases hlies with
    | nil => exact htext
    | cons gap hrest =>
      have htext' : first = _ := (List.append_nil first).symm.trans htext
      have hterm := hplaces _ List.mem_cons_self
      refine absurd ?_ (hpieces first List.mem_cons_self _ hterm)
      rw [htext']
      exact ⟨gap, _, List.append_assoc ..⟩
  | cons entry rest ih =>
    have hword : word entry.1 ∈ terms := hwords entry.1 List.mem_cons_self
    rw [Marked.spell_cons] at hlies hall ⊢
    rw [Marked.spell_cons]
    have hmember := hall (word entry.1) hword first _ rfl
    generalize htext : first ++ (word entry.1 ++ Marked.spell ⟨entry.2, rest⟩ word) = text at *
    cases hlies with
    | nil => exact nomatch hmember
    | @cons _ gap term behind places hlater =>
      have hterm : term ∈ terms := hplaces _ List.mem_cons_self
      have hpos := List.length_pos_iff.mpr (hne term hterm)
      rcases List.mem_cons.mp hmember with hhere | hbehind
      · obtain ⟨hoffset, rfl⟩ := Prod.mk.inj hhere
        obtain ⟨rfl, hrest⟩ := List.append_inj htext (by omega)
        have hbehind := List.append_cancel_left hrest
        rw [correctedAt_cons, ← hbehind]
        rw [← hbehind] at hlater
        refine congrArg (first ++ ·) (congrArg (correctIndexTtsPinyin (word entry.1) ++ ·) ?_)
        refine ih (fun place hplace => hplaces place (List.mem_cons_of_mem _ hplace)) entry.2
          (fun mark hmark => hwords mark (List.mem_cons_of_mem _ hmark))
          (fun piece hpiece => hpieces piece (List.mem_cons_of_mem _ hpiece)) hlater ?_
        intro other hother before after hspell
        have hplace := hall other hother (first ++ (word entry.1 ++ before)) after (by
          rw [← hbehind, hspell, List.append_assoc, List.append_assoc])
        rcases List.mem_cons.mp hplace with hsame | hlater
        · have hlength := congrArg Prod.fst hsame
          simp only [List.length_append] at hlength
          omega
        · simpa only [List.length_append, Nat.add_assoc] using hlater
      · -- the first match would stand in the first piece
        have hle := hlater.offset_le _ hbehind
        dsimp only at hle
        have hbegin : gap ++ term <+:
            first ++ (word entry.1 ++ Marked.spell ⟨entry.2, rest⟩ word) :=
          ⟨behind, by rw [htext, List.append_assoc]⟩
        have hpart := List.prefix_of_prefix_length_le hbegin (List.prefix_append first _)
          (by rw [List.length_append]; omega)
        exact absurd ((List.suffix_append gap term).isInfix.trans hpart.isInfix)
          (hpieces first List.mem_cons_self term hterm)

/-! ## Restored texts -/

/-- There is a placeholder for each syllable, none of these stands in the text, and the syllables
stand only where they have been found. -/
def TonesKept (sort : (Bytes → Bytes → Bool) → List Bytes → List Bytes) (text : Bytes) : Prop :=
  (toneTerms sort text).length ≤ 26 ∧
    (∀ i < (toneTerms sort text).length, ¬ placeholder (bytes "pinyin") i <:+: text) ∧
      ∀ term ∈ toneTerms sort text, ∀ before behind, text = before ++ (term ++ behind) →
        (before.length, term) ∈ tones text

section Tones

variable {sort : (Bytes → Bytes → Bool) → List Bytes → List Bytes} {text : Bytes}

theorem apart_toneTerms (hsort : Sorts sort) : ∀ term ∈ toneTerms sort text,
    Apart (bytes "pinyin") term ∧ Apart (bytes "pinyin") (correctIndexTtsPinyin term) := by
  intro term hterm
  obtain ⟨place, hplace, rfl⟩ := List.mem_map.mp ((mem_uniqueTerms hsort).mp hterm)
  obtain ⟨rest, way, hway, htaken⟩ := matchesIn_way place (List.mem_of_mem_filter hplace)
  obtain ⟨front, digit, hfront, htone, hclose⟩ := ways_pinyin hway
  obtain ⟨corrected, hcorrect, hclose'⟩ := correct_digit front htone hclose
  rw [← htaken, hfront, hcorrect]
  exact ⟨apart_digit htone hclose, apart_digit htone hclose'⟩

theorem restoreSaved_spell (hsort : Sorts sort)
    (hfree : ∀ i < (toneTerms sort text).length, ¬ placeholder (bytes "pinyin") i <:+: text) :
    restoreSaved (savePinyinTones sort text).1 (savePinyinTones sort text).2 =
      (Marked.ofNeedles cutAt (toneTerms sort text) text).spell fun mark =>
        correctIndexTtsPinyin ((toneTerms sort text).getD (mark % 26) []) :=
  restore_saved_text (by decide) (fun term hterm => (apart_toneTerms hsort term hterm).1)
    (fun term hterm => (apart_toneTerms hsort term hterm).2) hfree

theorem restoreSaved_tones (hsort : Sorts sort) (h : TonesKept sort text) :
    restoreSaved (savePinyinTones sort text).1 (savePinyinTones sort text).2 =
      correctedAt 0 text (tones text) := by
  obtain ⟨hmany, hfree, honly⟩ := h
  have hmem : ∀ {term : Bytes}, term ∈ toneTerms sort text ↔ term ∈ (tones text).map Prod.snd :=
    mem_uniqueTerms hsort
  have hne : ∀ term ∈ toneTerms sort text, term ≠ [] := fun term hterm =>
    (apart_toneTerms hsort term hterm).1.ne_nil
  have hspell : (Marked.ofNeedles cutAt (toneTerms sort text) text).spell
      (fun mark => (toneTerms sort text).getD mark []) = text :=
    Marked.spell_ofNeedles cutsAll_cutAt hne
  have hword : ∀ mark ∈ (Marked.ofNeedles cutAt (toneTerms sort text) text).marks,
      (toneTerms sort text).getD mark [] ∈ toneTerms sort text := by
    intro mark hmark
    rw [List.getD_eq_getElem?_getD, List.getElem?_eq_getElem (Marked.lt_of_mem_marks hmark)]
    exact List.getElem_mem _
  have hpieces : ∀ piece ∈ (Marked.ofNeedles cutAt (toneTerms sort text) text).pieces,
      ∀ term ∈ toneTerms sort text, ¬ term <:+: piece := by
    rw [Marked.pieces_ofNeedles cutsAll_cutAt hne]
    exact Marked.gaps_free cutsAll_cutAt hne
  have hlies : Lies 0 text (tones text) := (lies_matchesIn pinyinPattern text).filter (isTone text)
  have hplaces : ∀ place ∈ tones text, place.2 ∈ toneTerms sort text :=
    fun place hplace => hmem.mpr (List.mem_map_of_mem hplace)
  calc restoreSaved (savePinyinTones sort text).1 (savePinyinTones sort text).2
      = (Marked.ofNeedles cutAt (toneTerms sort text) text).spell
        (fun mark => correctIndexTtsPinyin ((toneTerms sort text).getD (mark % 26) [])) :=
        restoreSaved_spell hsort hfree
    _ = (Marked.ofNeedles cutAt (toneTerms sort text) text).spell
        (fun mark => correctIndexTtsPinyin ((toneTerms sort text).getD mark [])) := by
        refine Marked.spell_congr fun mark hmark => ?_
        rw [Nat.mod_eq_of_lt ((Marked.lt_of_mem_marks hmark).trans_le hmany)]
    _ = correctedAt 0 text (tones text) := by
        have hcorrected := spell_corrected hne (Marked.ofNeedles cutAt (toneTerms sort text) text)
          hword hpieces hplaces (by rwa [hspell])
          (fun term hterm before behind heq => by
            rw [Nat.zero_add]
            exact honly term hterm before behind (hspell.symm.trans heq))
        rwa [hspell] at hcorrected

end Tones

/-- A name and a syllable behind it. -/
def nameAndTone : Bytes := bytes "一-丁 ju4"

def manyTones : Bytes := bytes "a1a2a3a4a5e1e2e3e4e5i1i2i3i4i5o1o2o3o4o5u1u2u3u4u5v1v2"

end FastTts.PinyinTones
