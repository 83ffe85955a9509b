import FastTts.Segmenter
import FastTts.Utf8Text

/-!
# Speech markup

`strip_speech_markup` over the characters of a text. The filter leaves out the actions between
asterisks, markup and pictographs. Where an unbalanced asterisk would take half of the text with it,
the text is written after all, without its markup and with everything else that is in it.
-/

namespace FastTts.SpeechMarkup

open Utf8Spans

/-! ## Characters in their places -/

/-- The planes above the basic one, and the symbols and dingbats in it. -/
def IsPictograph (c : Char) : Prop :=
  0x10000 ≤ c.toNat ∨ 0x2600 ≤ c.toNat ∧ c.toNat ≤ 0x27BF

def IsSelector (c : Char) : Prop := 0xFE00 ≤ c.toNat ∧ c.toNat ≤ 0xFE0F

def joiner : Char := '\u200d'

def IsMark (c : Char) : Prop := c = '*' ∨ c = '#' ∨ c = '`'

/-- What the filter takes for an emoji: the block of the selectors goes as a whole. -/
def IsDropped (c : Char) : Prop := IsPictograph c ∨ 0xFE00 ≤ c.toNat ∧ c.toNat ≤ 0xFE3F

instance (c : Char) : Decidable (IsPictograph c) := inferInstanceAs (Decidable (_ ∨ _))

instance (c : Char) : Decidable (IsSelector c) := inferInstanceAs (Decidable (_ ∧ _))

instance (c : Char) : Decidable (IsMark c) := inferInstanceAs (Decidable (_ ∨ _))

instance (c : Char) : Decidable (IsDropped c) := inferInstanceAs (Decidable (_ ∨ _))

/-- A character of a text and what stands before it. -/
structure Place where
  before : List Char
  char : Char
  deriving DecidableEq, Repr

def places (before : List Char) : List Char → List Place
  | [] => []
  | c :: chars => ⟨before, c⟩ :: places (before ++ [c]) chars

variable (before : List Char)

def InAction : Prop := before.count '*' % 2 = 1

instance (before : List Char) : Decidable (InAction before) := inferInstanceAs (Decidable (_ = _))

/-- A pictograph stands in front, and nothing but selectors and joiners between. -/
def Trails : Prop :=
  ∃ c ∈ (before.rdropWhile fun c => decide (IsSelector c ∨ c = joiner)).getLast?, IsPictograph c

/-- Part of an emoji: a pictograph, a selector, or a joiner that trails a pictograph. -/
def Place.IsEmoji (place : Place) : Prop :=
  IsPictograph place.char ∨ IsSelector place.char ∨ place.char = joiner ∧ Trails place.before

/-! ## The filter -/

/-- Bytes that stand for a whole symbol or selector. -/
def Skips (ch : UInt8) (rest : Bytes) : Prop :=
  ∃ second third tail, rest = second :: third :: tail ∧
    (ch = 0xE2 ∧ 0x98 ≤ second ∧ second ≤ 0x9E ∨ ch = 0xEF ∧ second = 0xB8)

theorem stripLoop_star (inAction : Bool) (rest : Bytes) :
    stripLoop 0 inAction (0x2A :: rest) = stripLoop 0 (!inAction) rest := by
  rw [stripLoop.eq_def]
  rfl

theorem stripLoop_inAction {front : Bytes} (h : ∀ b ∈ front, b ≠ 0x2A) (rest : Bytes) :
    stripLoop 0 true (front ++ rest) = stripLoop 0 true rest := by
  induction front with
  | nil => rfl
  | cons b front ih =>
    obtain ⟨hb, hfront⟩ := List.forall_mem_cons.mp h
    rw [List.cons_append, stripLoop.eq_def]
    simp [hb, ih hfront]

theorem stripLoop_skip (front rest : Bytes) (inAction : Bool) :
    stripLoop front.length inAction (front ++ rest) = stripLoop 0 inAction rest := by
  induction front with
  | nil => rfl
  | cons b front ih => rw [List.cons_append, List.length_cons, stripLoop, ih]

variable {b : UInt8} {c : Char} {chars : List Char} {place : Place}

theorem stripLoop_copy (hmark : isMarkup b = false) (hlead : ¬ 0xF0 ≤ b) {rest : Bytes}
    (hsymbol : ¬ Skips b rest) : stripLoop 0 false (b :: rest) =
      (b :: (stripLoop 0 false rest).1, (stripLoop 0 false rest).2) := by
  obtain ⟨⟨hstar, hhash⟩, htick⟩ : ((b == 0x2A) = false ∧ (b == 0x23) = false) ∧
      (b == 0x60) = false := by
    simpa only [isMarkup, Bool.or_eq_false_iff] using hmark
  rw [stripLoop.eq_def]
  simp only [hstar, hhash, htick, Bool.or_self, Bool.false_eq_true, if_false, if_neg hlead]
  cases rest with
  | nil => rfl
  | cons second rest =>
    cases rest with
    | nil => rfl
    | cons third tail =>
      refine if_neg fun h => hsymbol ⟨second, third, tail, rfl, ?_⟩
      simpa [and_assoc] using h

theorem stripLoop_plain {front : Bytes} (h : ∀ b ∈ front, isMarkup b = false ∧ ¬ 0xF0 ≤ b ∧
    b ≠ 0xE2 ∧ b ≠ 0xEF) (rest : Bytes) : stripLoop 0 false (front ++ rest) =
      (front ++ (stripLoop 0 false rest).1, (stripLoop 0 false rest).2) := by
  induction front with
  | nil => rfl
  | cons b front ih =>
    obtain ⟨⟨hmark, hlead, hsymbol, hselector⟩, hfront⟩ := List.forall_mem_cons.mp h
    have hskips : ¬ Skips b (front ++ rest) := by
      rintro ⟨_, _, _, -, h | h⟩
      · exact hsymbol h.1
      · exact hselector h.1
    rw [List.cons_append, stripLoop_copy hmark hlead hskips, ih hfront]
    rfl

/-! ## One character -/

theorem ascii_char (h : c.utf8Size = 1) :
    String.utf8EncodeChar c = [c.toUInt8] ∧ c.toNat < 0x80 ∧ c.toUInt8.toNat = c.toNat := by
  have henc := String.utf8EncodeChar_eq_singleton h
  rw [Char.utf8Size_eq_one_iff, UInt32.le_iff_toNat_le] at h
  have hlt : c.toNat < 0x80 := Nat.lt_succ_of_le h
  refine ⟨henc, hlt, ?_⟩
  change c.toNat % 256 = c.toNat
  omega

theorem wide_bytes (h : c.utf8Size ≠ 1) : ∀ b ∈ String.utf8EncodeChar c, 0x80 ≤ b := by
  intro b hb
  by_contra hascii
  have hcp : IsCodepoint (String.utf8EncodeChar c) := ⟨c, rfl⟩
  have hle : b ≤ 0x7F := by
    rw [UInt8.le_iff_toNat_le] at hascii ⊢
    exact Nat.le_of_lt_succ (not_le.mp hascii)
  have hsingle := hcp.isSpan.eq_singleton hb hle
  rw [← String.length_utf8EncodeChar, hsingle] at h
  exact h rfl

theorem isMark_iff (h : c.utf8Size = 1) : isMarkup c.toUInt8 = true ↔ IsMark c := by
  obtain ⟨-, -, hbyte⟩ := ascii_char h
  have hsame : ∀ mark : Char, c = mark ↔ c.toNat = mark.toNat := fun mark => Char.toNat_inj.symm
  rw [isMarkup, IsMark, hsame, hsame, hsame, Bool.or_eq_true, Bool.or_eq_true, beq_iff_eq,
    beq_iff_eq, beq_iff_eq, ← UInt8.toNat_inj, ← UInt8.toNat_inj, ← UInt8.toNat_inj, hbyte,
    or_assoc]
  exact Iff.rfl

theorem not_mark_of_wide (h : c.utf8Size ≠ 1) : ¬ IsMark c := by
  rintro (rfl | rfl | rfl) <;> exact h rfl

theorem stripLoop_mute (h : c ≠ '*') (rest : Bytes) :
    stripLoop 0 true (String.utf8EncodeChar c ++ rest) = stripLoop 0 true rest := by
  refine stripLoop_inAction (fun b hb hstar => ?_) rest
  by_cases hsize : c.utf8Size = 1
  · obtain ⟨henc, -, hbyte⟩ := ascii_char hsize
    rw [henc, List.mem_singleton] at hb
    rw [← hb, hstar] at hbyte
    exact h (Char.toNat_inj.mp hbyte.symm)
  · have hwide := wide_bytes hsize b hb
    rw [hstar] at hwide
    exact absurd hwide (by decide)

theorem dropped_size (h : IsDropped c) :
    c.utf8Size = 4 ∧ 0x10000 ≤ c.toNat ∨ c.utf8Size = 3 ∧
      (0x2600 ≤ c.toNat ∧ c.toNat ≤ 0x27BF ∨ 0xFE00 ≤ c.toNat ∧ c.toNat ≤ 0xFE3F) := by
  have hfour : c.utf8Size = 4 ↔ 0xFFFF < c.toNat := by
    rw [Char.utf8Size_eq_four_iff, UInt32.lt_iff_toNat_lt]
    exact Iff.rfl
  have hthree : c.utf8Size = 3 ↔ 0x7FF < c.toNat ∧ c.toNat ≤ 0xFFFF := by
    rw [Char.utf8Size_eq_three_iff, UInt32.lt_iff_toNat_lt, UInt32.le_iff_toNat_le]
    exact Iff.rfl
  rw [hfour, hthree]
  rcases h with (hhigh | hsymbol) | hselector <;> omega

theorem four_bytes (h : c.utf8Size = 4) : ∃ lead tail,
    String.utf8EncodeChar c = lead :: tail ∧ tail.length = 3 ∧ 0xF0 ≤ lead := by
  have hlead (ch : UInt8) : 0xF0 ≤ ch &&& 0x07 ||| 0xF0 := by
    rw [UInt8.le_iff_toNat_le, UInt8.toNat_or]
    exact Nat.right_le_or
  rw [String.utf8EncodeChar_eq_cons_cons_cons_cons h]
  exact ⟨_, _, rfl, rfl, hlead _⟩

theorem skips_iff (hsize : c.utf8Size = 3) {lead second : UInt8}
    (hlead : lead.toNat = 0xE0 + c.toNat / 4096) (hsecond : second.toNat = 0x80 + c.toNat / 64 % 64)
    (third : UInt8) (rest : Bytes) : Skips lead (second :: third :: rest) ↔ IsDropped c := by
  have hbytes : Skips lead (second :: third :: rest) ↔
      (lead = 0xE2 ∧ 0x98 ≤ second ∧ second ≤ 0x9E ∨ lead = 0xEF ∧ second = 0xB8) := by
    constructor
    · rintro ⟨_, _, _, heq, h⟩
      cases heq
      exact h
    · exact fun h => ⟨second, third, rest, rfl, h⟩
  rw [Char.utf8Size_eq_three_iff, UInt32.lt_iff_toNat_lt, UInt32.le_iff_toNat_le] at hsize
  obtain ⟨-, hle⟩ : 0x7FF < c.toNat ∧ c.toNat ≤ 0xFFFF := hsize
  rw [hbytes, IsDropped, IsPictograph, UInt8.le_iff_toNat_le, UInt8.le_iff_toNat_le,
    ← UInt8.toNat_inj, ← UInt8.toNat_inj, ← UInt8.toNat_inj, hlead, hsecond]
  change _ = 0xE2 ∧ 0x98 ≤ _ ∧ _ ≤ 0x9E ∨ _ = 0xEF ∧ _ = 0xB8 ↔ _
  omega

theorem stripLoop_drop (h : c = '#' ∨ c = '`' ∨ IsDropped c) (rest : Bytes) :
    stripLoop 0 false (String.utf8EncodeChar c ++ rest) = stripLoop 0 false rest := by
  rcases h with rfl | rfl | hdropped
  · exact stripLoop.eq_def ..
  · exact stripLoop.eq_def ..
  · rcases dropped_size hdropped with ⟨hsize, -⟩ | ⟨hsize, -⟩
    · obtain ⟨lead, tail, henc, hlength, hlead⟩ := four_bytes hsize
      have hmark : ¬ (lead = 0x2A ∨ lead = 0x23 ∨ lead = 0x60) := by
        rintro (rfl | rfl | rfl) <;> exact absurd hlead (by decide)
      rw [not_or, not_or] at hmark
      have hskip := stripLoop_skip tail rest false
      rw [hlength] at hskip
      rw [henc, List.cons_append, stripLoop.eq_def]
      simp [hmark, hlead, hskip]
    · obtain ⟨lead, second, third, henc, hlead, hsecond⟩ := three_bytes hsize
      obtain ⟨_, _, _, heq, hskips⟩ := (skips_iff hsize hlead hsecond third rest).mpr hdropped
      cases heq
      have hskip := stripLoop_skip [second, third] rest false
      rw [henc, stripLoop.eq_def]
      rcases hskips with ⟨rfl, hle, hge⟩ | ⟨rfl, rfl⟩
      · simpa [hle, hge] using hskip
      · exact hskip

theorem plain_of_continuation (h : isUtf8Continuation b = true) :
    isMarkup b = false ∧ ¬ 0xF0 ≤ b ∧ b ≠ 0xE2 ∧ b ≠ 0xEF := by
  revert b
  apply forall_byte
  decide +kernel

theorem stripLoop_keep (hmark : ¬ IsMark c) (hdropped : ¬ IsDropped c) (rest : Bytes) :
    stripLoop 0 false (String.utf8EncodeChar c ++ rest) =
      (String.utf8EncodeChar c ++ (stripLoop 0 false rest).1, (stripLoop 0 false rest).2) := by
  rcases c.utf8Size_eq with hone | htwo | hthree | hfour
  · obtain ⟨henc, hlt, hbyte⟩ := ascii_char hone
    rw [henc]
    refine stripLoop_plain (fun b hb => ?_) rest
    rw [List.mem_singleton.mp hb, ← Bool.not_eq_true, isMark_iff hone, UInt8.le_iff_toNat_le, ne_eq,
      ne_eq, ← UInt8.toNat_inj, ← UInt8.toNat_inj, hbyte]
    refine ⟨hmark, ?_, ?_, ?_⟩
    · change ¬ 0xF0 ≤ c.toNat
      omega
    · change ¬ c.toNat = 0xE2
      omega
    · change ¬ c.toNat = 0xEF
      omega
  · have hlead : ∀ ch : UInt8, isMarkup (ch &&& 0x1F ||| 0xC0) = false ∧
        ¬ 0xF0 ≤ ch &&& 0x1F ||| 0xC0 ∧ ch &&& 0x1F ||| 0xC0 ≠ 0xE2 ∧
        ch &&& 0x1F ||| 0xC0 ≠ 0xEF := forall_byte (by decide +kernel)
    rw [String.utf8EncodeChar_eq_cons_cons htwo]
    refine stripLoop_plain ?_ rest
    simp only [List.forall_mem_cons, List.not_mem_nil, false_implies, implies_true, and_true]
    exact ⟨hlead _, plain_of_continuation (continuation _)⟩
  · obtain ⟨lead, second, third, henc, hlead, hsecond⟩ := three_bytes hthree
    have hspan := (show IsCodepoint [lead, second, third] from ⟨c, henc.symm⟩).isSpan
    have hhigh : ∀ b : UInt8, utf8Width b = some 3 → isMarkup b = false ∧ ¬ 0xF0 ≤ b :=
      forall_byte (by decide +kernel)
    obtain ⟨hplain, hlow⟩ := hhigh lead hspan.1
    have hskips := mt (skips_iff hthree hlead hsecond third rest).mp hdropped
    have htail : stripLoop 0 false (second :: third :: rest) =
        (second :: third :: (stripLoop 0 false rest).1, (stripLoop 0 false rest).2) :=
      stripLoop_plain (fun b hb => plain_of_continuation (hspan.2 b hb)) rest
    have hcopy := stripLoop_copy hplain hlow hskips
    rw [htail] at hcopy
    rwa [henc]
  · rw [Char.utf8Size_eq_four_iff, UInt32.lt_iff_toNat_lt] at hfour
    exact absurd (.inl (.inl hfour)) hdropped

/-! ## The whole text -/

def Place.IsSpoken (place : Place) : Prop :=
  ¬ InAction place.before ∧ ¬ IsMark place.char ∧ ¬ IsDropped place.char

instance (place : Place) : Decidable place.IsSpoken := inferInstanceAs (Decidable (_ ∧ _))

def spoken (chars : List Char) : List Place :=
  (places [] chars).filter fun place => decide place.IsSpoken

def unmarked (chars : List Char) : List Place :=
  (places [] chars).filter fun place => decide (¬ IsMark place.char)

def textOf (l : List Place) : Bytes := encode (l.map Place.char)

/-- An asterisk is unbalanced, and the filter leaves less than half of the text. -/
def FallsBack (chars : List Char) : Prop :=
  InAction chars ∧ (textOf (spoken chars)).length * 2 < (textOf (unmarked chars)).length

instance (chars : List Char) : Decidable (FallsBack chars) := inferInstanceAs (Decidable (_ ∧ _))

def IsBlank (c : Char) : Prop := c.toNat = 0x20 ∨ 0x09 ≤ c.toNat ∧ c.toNat ≤ 0x0D

instance (c : Char) : Decidable (IsBlank c) := inferInstanceAs (Decidable (_ ∨ _))

/-- The characters of the result, each in the place of the text that it comes from. -/
def written (chars : List Char) : List Place :=
  Ranges.trim (fun place => decide (IsBlank place.char))
    (if FallsBack chars then unmarked chars else spoken chars)

theorem inAction_star : InAction (before ++ ['*']) ↔ ¬ InAction before := by
  rw [InAction, InAction, List.count_append, List.count_singleton_self]
  omega

theorem inAction_snoc (h : c ≠ '*') : InAction (before ++ [c]) ↔ InAction before := by
  rw [InAction, InAction, List.count_append, List.count_singleton, if_neg (by simpa using h),
    Nat.add_zero]

theorem stripLoop_encode (before chars : List Char) :
    stripLoop 0 (decide (InAction before)) (encode chars) =
      (textOf ((places before chars).filter fun place => decide place.IsSpoken),
        decide (InAction (before ++ chars))) := by
  induction chars generalizing before with
  | nil =>
    rw [List.append_nil, encode_nil, stripLoop.eq_def]
    rfl
  | cons c chars ih =>
    have hnext := ih (before ++ [c])
    rw [List.append_assoc, List.singleton_append] at hnext
    have hunspoken : ¬ (⟨before, c⟩ : Place).IsSpoken →
        (places before (c :: chars)).filter (fun place => decide place.IsSpoken) =
          (places (before ++ [c]) chars).filter fun place => decide place.IsSpoken := fun h => by
      rw [places, List.filter_cons_of_neg (by simpa using h)]
    by_cases hstar : c = '*'
    · have hturn : decide (InAction (before ++ [c])) = !decide (InAction before) := by
        rw [hstar, ← decide_not]
        exact decide_eq_decide.mpr (inAction_star before)
      have hbyte : String.utf8EncodeChar c = [0x2A] := by rw [hstar]; rfl
      rw [hunspoken fun h => h.2.1 (.inl hstar), ← hnext, hturn, encode_cons, hbyte]
      exact stripLoop_star ..
    · have hsame : decide (InAction (before ++ [c])) = decide (InAction before) :=
        decide_eq_decide.mpr (inAction_snoc before hstar)
      rw [hsame] at hnext
      rw [encode_cons]
      by_cases haction : InAction before
      · rw [hunspoken fun h => h.1 haction, ← hnext, decide_eq_true haction]
        exact stripLoop_mute hstar _
      · rw [decide_eq_false haction] at hnext ⊢
        by_cases hgone : IsMark c ∨ IsDropped c
        · have hdrop : c = '#' ∨ c = '\x60' ∨ IsDropped c := by
            rcases hgone with (h | h | h) | h
            · exact absurd h hstar
            · exact .inl h
            · exact .inr (.inl h)
            · exact .inr (.inr h)
          rw [hunspoken fun h => hgone.elim h.2.1 h.2.2, ← hnext]
          exact stripLoop_drop hdrop _
        · rw [not_or] at hgone
          have hspoken : (⟨before, c⟩ : Place).IsSpoken := ⟨haction, hgone⟩
          rw [stripLoop_keep hgone.1 hgone.2, hnext, places,
            List.filter_cons_of_pos (by simpa using hspoken)]
          rfl

theorem markup_of_mem (hb : b ∈ String.utf8EncodeChar c) : isMarkup b = decide (IsMark c) := by
  by_cases hsize : c.utf8Size = 1
  · rw [(ascii_char hsize).1, List.mem_singleton] at hb
    rw [hb, Bool.eq_iff_iff, decide_eq_true_eq, isMark_iff hsize]
  · have hplain : ∀ b : UInt8, 0x80 ≤ b → isMarkup b = false := forall_byte (by decide +kernel)
    rw [hplain b (wide_bytes hsize b hb), decide_eq_false (not_mark_of_wide hsize)]

theorem blank_of_mem (hb : b ∈ String.utf8EncodeChar c) : isSpace b = decide (IsBlank c) := by
  by_cases hsize : c.utf8Size = 1
  · obtain ⟨henc, -, hbyte⟩ := ascii_char hsize
    rw [henc, List.mem_singleton] at hb
    rw [hb, Bool.eq_iff_iff, decide_eq_true_eq, isSpace, Bool.or_eq_true, Bool.and_eq_true,
      decide_eq_true_eq, decide_eq_true_eq, beq_iff_eq, ← UInt8.toNat_inj, UInt8.le_iff_toNat_le,
      UInt8.le_iff_toNat_le, hbyte]
    exact Iff.rfl
  · have hplain : ∀ b : UInt8, 0x80 ≤ b → isSpace b = false := forall_byte (by decide +kernel)
    rw [hplain b (wide_bytes hsize b hb), eq_comm, decide_eq_false_iff_not]
    rw [Char.utf8Size_eq_one_iff, UInt32.le_iff_toNat_le] at hsize
    have hgt : ¬ c.toNat ≤ 0x7F := hsize
    rw [IsBlank]
    omega

theorem filter_encode (before chars : List Char) : (encode chars).filter (fun ch => !isMarkup ch) =
    textOf ((places before chars).filter fun place => decide (¬ IsMark place.char)) := by
  induction chars generalizing before with
  | nil => rfl
  | cons c chars ih =>
    rw [encode_cons, List.filter_append, ih (before ++ [c]), places]
    by_cases hmark : IsMark c
    · have hgone : (String.utf8EncodeChar c).filter (fun ch => !isMarkup ch) = [] :=
        List.filter_eq_nil_iff.mpr fun b hb => by rw [markup_of_mem hb]; simp [hmark]
      rw [hgone, List.filter_cons_of_neg (by simpa using hmark)]
      rfl
    · have hkept : (String.utf8EncodeChar c).filter (fun ch => !isMarkup ch) =
          String.utf8EncodeChar c :=
        List.filter_eq_self.mpr fun b hb => by rw [markup_of_mem hb]; simp [hmark]
      rw [hkept, List.filter_cons_of_pos (by simpa using hmark)]
      rfl

theorem trimmed_textOf (l : List Place) :
    trimmed (textOf l) = textOf (Ranges.trim (fun place => decide (IsBlank place.char)) l) := by
  have hmap : ∀ l : List Place, textOf l =
      (l.map fun place => String.utf8EncodeChar place.char).flatten := fun l => by
    rw [textOf, encode, List.map_map]
    rfl
  have hall : ∀ c : Char, (String.utf8EncodeChar c).all isSpace = decide (IsBlank c) := by
    intro c
    obtain ⟨b, rest, henc⟩ := List.exists_cons_of_ne_nil (String.utf8EncodeChar_ne_nil (c := c))
    rw [Bool.eq_iff_iff, List.all_eq_true]
    constructor
    · intro h
      rw [← blank_of_mem (henc ▸ List.mem_cons_self)]
      exact h b (henc ▸ List.mem_cons_self)
    · exact fun h b hb => (blank_of_mem hb).trans h
  have hblank : ∀ cp ∈ l.map (fun place => String.utf8EncodeChar place.char),
      cp ≠ [] ∧ ∀ b ∈ cp, isSpace b = cp.all isSpace := by
    intro cp hcp
    obtain ⟨place, -, rfl⟩ := List.mem_map.mp hcp
    exact ⟨String.utf8EncodeChar_ne_nil, fun b hb => (blank_of_mem hb).trans (hall _).symm⟩
  have htrim := Ranges.trim_flatten hblank
  rw [Ranges.trim_map] at htrim
  rw [hmap, hmap]
  refine htrim.trans ?_
  simp only [Function.comp_def, hall]

/-- The result is what `written` says, and so every character of it has a place in the text. -/
theorem stripSpeechMarkup_encode (chars : List Char) :
    stripSpeechMarkup (encode chars) = textOf (written chars) := by
  have hloop := stripLoop_encode [] chars
  have hfilter := filter_encode [] chars
  rw [← spoken, List.nil_append] at hloop
  rw [← unmarked] at hfilter
  have hstart : decide (InAction []) = false := rfl
  have hfalls : (decide (InAction chars) && decide ((textOf (spoken chars)).length * 2 <
      (textOf (unmarked chars)).length)) = true ↔ FallsBack chars := by
    rw [Bool.and_eq_true, decide_eq_true_eq, decide_eq_true_eq, FallsBack]
  rw [hstart] at hloop
  rw [stripSpeechMarkup, hloop]
  dsimp only
  rw [hfilter, written, ← trimmed_textOf]
  by_cases h : FallsBack chars
  · rw [if_pos h, if_pos (hfalls.mpr h)]
  · rw [if_neg h, if_neg (mt hfalls.mp h)]

/-! ## What is written -/

/-- What is promised of the result: whole characters, no markup, and nothing of an emoji, be it one
that stands in the result or a joiner that is left of one. -/
structure Clean (chars : List Char) : Prop where
  utf8 : IsUtf8 (stripSpeechMarkup (encode chars))
  markup : ∀ ch ∈ stripSpeechMarkup (encode chars), isMarkup ch = false
  pictograph : ∀ c, IsPictograph c ∨ IsSelector c →
    ¬ String.utf8EncodeChar c <:+: stripSpeechMarkup (encode chars)
  places : stripSpeechMarkup (encode chars) = textOf (written chars)
  emoji : ∀ place ∈ written chars, ¬ place.IsEmoji

theorem mem_places {before : List Char} : place ∈ places before chars ↔
    ∃ front behind, chars = front ++ place.char :: behind ∧ place.before = before ++ front := by
  induction chars generalizing before with
  | nil => simp [places]
  | cons c chars ih =>
    rw [places, List.mem_cons, ih]
    constructor
    · rintro (rfl | ⟨front, behind, rfl, hbefore⟩)
      · exact ⟨[], chars, rfl, (List.append_nil _).symm⟩
      · exact ⟨c :: front, behind, rfl, by rw [hbefore, List.append_assoc]; rfl⟩
    · rintro ⟨front, behind, heq, hbefore⟩
      cases front with
      | nil =>
        rw [List.nil_append, List.cons.injEq] at heq
        rw [List.append_nil] at hbefore
        exact .inl (by rw [heq.1, ← hbefore])
      | cons d front =>
        rw [List.cons_append, List.cons.injEq] at heq
        refine .inr ⟨front, behind, heq.2, ?_⟩
        rw [hbefore, heq.1, List.append_assoc]
        rfl

theorem mem_written (h : place.IsEmoji) :
    place ∈ written chars ↔ place ∈ (if FallsBack chars then unmarked chars else spoken chars) := by
  have hshown : ¬ IsBlank place.char := by
    rcases h with hpictograph | hselector | ⟨hjoiner, -⟩
    · rw [IsPictograph] at hpictograph
      rw [IsBlank]
      omega
    · rw [IsSelector] at hselector
      rw [IsBlank]
      omega
    · rw [hjoiner]
      decide
  rw [written]
  generalize (if FallsBack chars then unmarked chars else spoken chars) = l
  have hfilter : (Ranges.trim (fun place : Place => decide (IsBlank place.char)) l).filter
      (fun place => !decide (IsBlank place.char)) =
        l.filter fun place => !decide (IsBlank place.char) :=
    Ranges.filter_trim l
  have hmem := congrArg (place ∈ ·) hfilter
  simpa only [List.mem_filter, hshown, decide_false, Bool.not_false, and_true,
    eq_iff_iff] using hmem

theorem mem_of_trails {before : List Char} (h : Trails before) : ∃ c ∈ before, IsPictograph c := by
  obtain ⟨c, hc, hpictograph⟩ := h
  exact ⟨c, (List.rdropWhile_prefix ..).subset (List.mem_of_getLast? hc), hpictograph⟩

theorem not_mark_of_emoji (h : place.IsEmoji) : ¬ IsMark place.char := by
  have hnot : ∀ c, IsMark c → ¬ IsPictograph c ∧ ¬ IsSelector c ∧ c ≠ joiner := by
    rintro c (rfl | rfl | rfl) <;> decide
  intro hmark
  obtain ⟨hpictograph, hselector, hjoiner⟩ := hnot _ hmark
  rcases h with h | h | h
  · exact hpictograph h
  · exact hselector h
  · exact hjoiner h.1

theorem emoji_unmarked (chars : List Char) :
    (∀ place ∈ unmarked chars, ¬ place.IsEmoji) ↔
      ∀ c ∈ chars, ¬ (IsPictograph c ∨ IsSelector c) := by
  constructor
  · intro h c hc hemoji
    obtain ⟨front, behind, rfl⟩ := List.append_of_mem hc
    have hplace : (⟨front, c⟩ : Place).IsEmoji := by
      rcases hemoji with hpictograph | hselector
      · exact .inl hpictograph
      · exact .inr (.inl hselector)
    refine h ⟨front, c⟩ (List.mem_filter.mpr ⟨?_, ?_⟩) hplace
    · exact mem_places.mpr ⟨front, behind, rfl, rfl⟩
    · exact decide_eq_true (not_mark_of_emoji hplace)
  · intro h place hplace hemoji
    obtain ⟨front, behind, rfl, hbefore⟩ := mem_places.mp (List.mem_filter.mp hplace).1
    rw [List.nil_append] at hbefore
    have hhere : place.char ∈ front ++ place.char :: behind := by simp
    rcases hemoji with hpictograph | hselector | ⟨-, htrails⟩
    · exact h _ hhere (.inl hpictograph)
    · exact h _ hhere (.inr hselector)
    · obtain ⟨c, hc, hpictograph⟩ := mem_of_trails htrails
      rw [hbefore] at hc
      exact h c (List.mem_append_left _ hc) (.inl hpictograph)

theorem emoji_spoken (chars : List Char) :
    (∀ place ∈ spoken chars, ¬ place.IsEmoji) ↔
      ∀ before behind, chars = before ++ joiner :: behind → Trails before → InAction before := by
  constructor
  · rintro h before behind rfl htrails
    by_contra haction
    refine h ⟨before, joiner⟩ (List.mem_filter.mpr ⟨?_, ?_⟩) (.inr (.inr ⟨rfl, htrails⟩))
    · exact mem_places.mpr ⟨before, behind, rfl, rfl⟩
    · have hkept : ¬ IsMark joiner ∧ ¬ IsDropped joiner := by decide
      exact decide_eq_true ⟨haction, hkept⟩
  · intro h place hplace hemoji
    obtain ⟨hmem, hspoken⟩ := List.mem_filter.mp hplace
    obtain ⟨haction, -, hdropped⟩ := of_decide_eq_true hspoken
    obtain ⟨front, behind, hchars, hbefore⟩ := mem_places.mp hmem
    rw [List.nil_append] at hbefore
    rcases hemoji with hpictograph | hselector | ⟨hjoiner, htrails⟩
    · exact hdropped (.inl hpictograph)
    · exact hdropped (.inr ⟨hselector.1, hselector.2.trans (by decide)⟩)
    · rw [hjoiner] at hchars
      rw [hbefore] at haction htrails
      exact haction (h front behind hchars htrails)

theorem markup_written (h : place ∈ written chars) : ¬ IsMark place.char := by
  have hmem := Ranges.trim_subset _ _ h
  split_ifs at hmem
  · exact of_decide_eq_true (List.mem_filter.mp hmem).2
  · exact (of_decide_eq_true (List.mem_filter.mp hmem).2).2.1

/-- The result is clean unless an unbalanced asterisk brings the pictographs back, or a joiner
behind a pictograph stands outside the actions. -/
theorem strip_speech_markup_clean_iff (chars : List Char) : Clean chars ↔
    if FallsBack chars then ∀ c ∈ chars, ¬ (IsPictograph c ∨ IsSelector c)
    else ∀ before behind, chars = before ++ joiner :: behind → Trails before → InAction before := by
  have hemoji : (∀ place ∈ written chars, ¬ place.IsEmoji) ↔
      ∀ place ∈ (if FallsBack chars then unmarked chars else spoken chars), ¬ place.IsEmoji :=
    ⟨fun h place hplace hemoji => h place ((mem_written hemoji).mpr hplace) hemoji,
      fun h place hplace hemoji => h place ((mem_written hemoji).mp hplace) hemoji⟩
  have hplaces := stripSpeechMarkup_encode chars
  have hclean : Clean chars ↔ ∀ place ∈ written chars, ¬ place.IsEmoji := by
    refine ⟨Clean.emoji, fun h => ⟨?_, ?_, ?_, hplaces, h⟩⟩
    · rw [hplaces]
      exact isUtf8_encode _
    · rw [hplaces]
      intro ch hch
      obtain ⟨cp, hcp, hch⟩ := List.mem_flatten.mp hch
      obtain ⟨c, hc, rfl⟩ := List.mem_map.mp hcp
      obtain ⟨place, hplace, rfl⟩ := List.mem_map.mp hc
      rw [markup_of_mem hch]
      exact decide_eq_false (markup_written hplace)
    · intro c hc hpart
      rw [hplaces] at hpart
      obtain ⟨place, hplace, rfl⟩ := List.mem_map.mp (mem_of_encode_part hpart)
      exact h place hplace (hc.imp_right .inl)
  rw [hclean, hemoji]
  split_ifs
  · exact emoji_unmarked chars
  · exact emoji_spoken chars

/-- Behind an unbalanced asterisk a pictograph is written, and of a compound emoji the joiner. -/
theorem strip_speech_markup_fails : ¬ Clean ['*', 'a', '😀'] ∧ ¬ Clean ['👩', joiner, '💻'] := by
  constructor
  · intro h
    exact h.pictograph '😀' (.inl (by decide)) (by decide)
  · intro h
    have htrails : Trails ['👩'] := ⟨'👩', by decide, by decide⟩
    exact h.emoji ⟨['👩'], joiner⟩ (by decide) (.inr (.inr ⟨rfl, htrails⟩))

end FastTts.SpeechMarkup
