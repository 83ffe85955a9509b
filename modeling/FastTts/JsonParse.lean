import FastTts.Backtracking
import FastTts.JsText

/-!
# `JSON.parse`

The parser of the language for JSON texts, over code units. A text is a value with white space
around it. A value begins and ends with a unit that is no white space.
-/

namespace FastTts.JsonParse

open Backtracking JsText

inductive JsonValue (N : Type)
  | null
  | bool (value : Bool)
  | number (value : N)
  | string (text : Units)
  | array (items : List (JsonValue N))
  | object (members : List (Units × JsonValue N))

def isBlank : UInt16 → Bool := inRanges [(0x09, 0x0A), (0x0D, 0x0D), (0x20, 0x20)]

def skipBlank (text : Units) : Units := text.dropWhile isBlank

def isDigit : UInt16 → Bool := inRanges [(0x30, 0x39)]

/-! ## Numbers -/

def digits : Pattern UInt16 := .plus isDigit

def numberText : Pattern UInt16 :=
  .seq (.run (· == 0x2D) 0 (some 1)) (.seq
    (.alt (.one (· == 0x30)) (.seq (.one (inRanges [(0x31, 0x39)])) (.many isDigit)))
    (.seq (.opt (.seq (.one (· == 0x2E)) digits))
      (.opt (.seq (.one (inRanges [(0x45, 0x45), (0x65, 0x65)]))
        (.seq (.run (inRanges [(0x2B, 0x2B), (0x2D, 0x2D)]) 0 (some 1)) digits)))))

/-! ## Strings -/

def hexDigit (unit : UInt16) : Option ℕ :=
  if inRanges [(0x30, 0x39)] unit then some (unit.toNat - 0x30)
  else if inRanges [(0x41, 0x46)] unit then some (unit.toNat - 0x37)
  else if inRanges [(0x61, 0x66)] unit then some (unit.toNat - 0x57)
  else none

def hexUnit (a b c d : UInt16) : Option UInt16 := do
  return UInt16.ofNat (((← hexDigit a) * 16 + (← hexDigit b)) * 256 +
    (← hexDigit c) * 16 + (← hexDigit d))

/-- What a backslash and the unit stand for. -/
def simpleEscape (unit : UInt16) : Option UInt16 :=
  if unit == 0x22 || unit == 0x5C || unit == 0x2F then some unit
  else if unit == 0x62 then some 0x08
  else if unit == 0x66 then some 0x0C
  else if unit == 0x6E then some 0x0A
  else if unit == 0x72 then some 0x0D
  else if unit == 0x74 then some 0x09
  else none

def readString : ℕ → Units → Option (Units × Units)
  | 0, _ => none
  | fuel + 1, text => match text with
    | [] => none
    | unit :: rest =>
      if unit == 0x22 then some ([], rest)
      else if unit == 0x5C then match rest with
        | [] => none
        | escape :: rest =>
          if escape == 0x75 then match rest with
            | a :: b :: c :: d :: rest => do
              let escaped ← hexUnit a b c d
              let (text, rest) ← readString fuel rest
              return (escaped :: text, rest)
            | _ => none
          else do
            let escaped ← simpleEscape escape
            let (text, rest) ← readString fuel rest
            return (escaped :: text, rest)
      else if unit < 0x20 then none
      else do
        let (text, rest) ← readString fuel rest
        return (unit :: text, rest)

/-! ## Values -/

section Lists

variable {α : Type}

/-- Items with commas between them, up to the closing bracket. -/
def readItems (item : Units → Option (α × Units)) (close : UInt16) :
    ℕ → Units → Option (List α × Units)
  | 0, _ => none
  | fuel + 1, text => do
    let (value, rest) ← item (skipBlank text)
    match skipBlank rest with
    | [] => none
    | sign :: rest =>
      if sign == close then return ([value], rest)
      else if sign == 0x2C then do
        let (values, rest) ← readItems item close fuel rest
        return (value :: values, rest)
      else none

def readList (item : Units → Option (α × Units)) (close : UInt16) (text : Units) :
    Option (List α × Units) :=
  match skipBlank text with
  | [] => none
  | sign :: rest =>
    if sign == close then some ([], rest) else readItems item close text.length text

def readMember (value : Units → Option (α × Units)) : Units → Option ((Units × α) × Units)
  | [] => none
  | quote :: rest =>
    if quote == 0x22 then do
      let (key, rest) ← readString rest.length rest
      match skipBlank rest with
      | [] => none
      | colon :: rest =>
        if colon == 0x3A then do
          let (value, rest) ← value (skipBlank rest)
          return ((key, value), rest)
        else none
    else none

end Lists

variable {N : Type} (toNumber : Units → N)

def readWord (word : Units) (value : JsonValue N) (text : Units) : Option (JsonValue N × Units) :=
  if word.isPrefixOf text then some (value, text.drop word.length) else none

def readNumber (text : Units) : Option (JsonValue N × Units) :=
  (matchAt numberText text).map fun way => (.number (toNumber way.taken), way.rest)

/-- A value at the beginning of a text, with at most so many levels. -/
def readValue : ℕ → Units → Option (JsonValue N × Units)
  | 0, _ => none
  | levels + 1, text => match text with
    | [] => none
    | unit :: rest =>
      if unit == 0x22 then
        (readString rest.length rest).map fun read => (.string read.1, read.2)
      else if unit == 0x5B then
        (readList (readValue levels) 0x5D rest).map fun read => (.array read.1, read.2)
      else if unit == 0x7B then
        (readList (readMember (readValue levels)) 0x7D rest).map fun read =>
          (.object read.1, read.2)
      else if unit == 0x6E then readWord (ascii "null") .null text
      else if unit == 0x74 then readWord (ascii "true") (.bool true) text
      else if unit == 0x66 then readWord (ascii "false") (.bool false) text
      else readNumber toNumber text

/-- White space around the value is no part of it; every level takes a unit. -/
def parse (text : Units) : Option (JsonValue N) := do
  let inner := (skipBlank text).rdropWhile isBlank
  let (value, rest) ← readValue toNumber inner.length inner
  if rest.isEmpty then return value else none

/-! ## Where a value begins and ends -/

/-- What is read ends with a unit that is no white space. -/
def Ends (text rest : Units) : Prop :=
  ∃ front last, text = front ++ last :: rest ∧ JsText.isSpace last = false

variable {text rest : Units} {unit : UInt16} {way : Way UInt16} {value : JsonValue N}

theorem Ends.suffix (h : Ends text rest) : rest <:+ text := by
  obtain ⟨front, last, rfl, -⟩ := h
  exact ⟨front ++ [last], by simp⟩

theorem Ends.of_suffix {later : Units} (h : Ends later rest) (hlater : later <:+ text) :
    Ends text rest := by
  obtain ⟨front, last, rfl, hlast⟩ := h
  obtain ⟨before, rfl⟩ := hlater
  exact ⟨before ++ front, last, by simp, hlast⟩

theorem ends_cons (h : JsText.isSpace unit = false) :
    Ends (unit :: rest) rest := ⟨[], unit, rfl, h⟩

theorem skipBlank_suffix (text : Units) : skipBlank text <:+ text := List.dropWhile_suffix _

theorem readString_ends {fuel : ℕ} {read : Units} (h : readString fuel text = some (read, rest)) :
    Ends text rest := by
  induction fuel generalizing text read with
  | zero => exact nomatch h
  | succ fuel ih =>
    cases text with
    | nil => exact nomatch h
    | cons unit text =>
      have hlater : ∀ {later : Units} {f : Units → Units}, later <:+ text →
          (do let (text, rest) ← readString fuel later; return (f text, rest)) =
            some (read, rest) → Ends (unit :: text) rest := by
        intro later f hlater hrun
        obtain ⟨⟨inner, behind⟩, hread, hpair⟩ := Option.bind_eq_some_iff.mp hrun
        obtain ⟨-, rfl⟩ := Prod.mk.inj (Option.some.inj hpair)
        exact (ih hread).of_suffix (hlater.trans (List.suffix_cons unit text))
      unfold readString at h
      dsimp only at h
      split_ifs at h with hquote hbackslash hcontrol
      · obtain ⟨-, rfl⟩ := Prod.mk.inj (Option.some.inj h)
        rw [beq_iff_eq.mp hquote]
        exact ends_cons (by decide)
      · cases text with
        | nil => exact nomatch h
        | cons escape text =>
          dsimp only at h
          split_ifs at h
          · split at h
            · next a b c d later =>
              obtain ⟨escaped, -, h⟩ := Option.bind_eq_some_iff.mp h
              exact hlater ⟨[escape, a, b, c, d], rfl⟩ h
            · exact nomatch h
          · obtain ⟨escaped, -, h⟩ := Option.bind_eq_some_iff.mp h
            exact hlater (List.suffix_cons escape text) h
      · exact hlater List.suffix_rfl h

section Lists

variable {α : Type} {item : Units → Option (α × Units)} {close : UInt16} {text rest : Units}

variable {values : List α}

theorem readItems_ends
    (hitem : ∀ {text value rest}, item text = some (value, rest) → Ends text rest)
    (hclose : JsText.isSpace close = false) {fuel : ℕ}
    (h : readItems item close fuel text = some (values, rest)) : Ends text rest := by
  induction fuel generalizing text values with
  | zero => exact nomatch h
  | succ fuel ih =>
    rw [readItems] at h
    obtain ⟨⟨value, behind⟩, hread, h⟩ := Option.bind_eq_some_iff.mp h
    have hbehind := (hitem hread).suffix.trans (skipBlank_suffix text)
    dsimp only at h
    cases hsign : skipBlank behind with
    | nil =>
      rw [hsign] at h
      exact nomatch h
    | cons sign later =>
      rw [hsign] at h
      have hlater : sign :: later <:+ text := hsign ▸ (skipBlank_suffix behind).trans hbehind
      dsimp only at h
      split_ifs at h with hend hcomma
      · obtain ⟨-, rfl⟩ := Prod.mk.inj (Option.some.inj h)
        rw [beq_iff_eq.mp hend] at hlater
        exact (ends_cons hclose).of_suffix hlater
      · obtain ⟨⟨others, last⟩, hothers, h⟩ := Option.bind_eq_some_iff.mp h
        obtain ⟨-, rfl⟩ := Prod.mk.inj (Option.some.inj h)
        exact (ih hothers).of_suffix ((List.suffix_cons sign later).trans hlater)

theorem readList_ends (hitem : ∀ {text value rest}, item text = some (value, rest) → Ends text rest)
    (hclose : JsText.isSpace close = false) (h : readList item close text = some (values, rest)) :
    Ends text rest := by
  unfold readList at h
  cases hsign : skipBlank text with
  | nil =>
    rw [hsign] at h
    exact nomatch h
  | cons sign later =>
    rw [hsign] at h
    dsimp only at h
    split_ifs at h with hend
    · obtain ⟨-, rfl⟩ := Prod.mk.inj (Option.some.inj h)
      refine Ends.of_suffix ?_ (hsign ▸ skipBlank_suffix text)
      rw [beq_iff_eq.mp hend]
      exact ends_cons hclose
    · exact readItems_ends hitem hclose h

theorem readMember_ends
    (hitem : ∀ {text value rest}, item text = some (value, rest) → Ends text rest)
    {member : Units × α} (h : readMember item text = some (member, rest)) : Ends text rest := by
  cases text with
  | nil => exact nomatch h
  | cons quote text =>
    rw [readMember] at h
    split_ifs at h
    · obtain ⟨⟨key, behind⟩, hkey, h⟩ := Option.bind_eq_some_iff.mp h
      have hbehind := (readString_ends hkey).suffix.trans (List.suffix_cons quote text)
      dsimp only at h
      cases hcolon : skipBlank behind with
      | nil =>
        rw [hcolon] at h
        exact nomatch h
      | cons colon later =>
        rw [hcolon] at h
        have hlater : colon :: later <:+ quote :: text :=
          hcolon ▸ (skipBlank_suffix behind).trans hbehind
        dsimp only at h
        split_ifs at h
        · obtain ⟨⟨value, last⟩, hvalue, h⟩ := Option.bind_eq_some_iff.mp h
          obtain ⟨-, rfl⟩ := Prod.mk.inj (Option.some.inj h)
          exact (hitem hvalue).of_suffix
            (((skipBlank_suffix later).trans (List.suffix_cons colon later)).trans hlater)

end Lists

/-! ## Numbers end with a digit -/

def EndsInDigit (text : Units) : Prop := ∀ unit, text.getLast? = some unit → isDigit unit = true

variable {first second : Units} {p : Pattern UInt16}

theorem EndsInDigit.append (hfirst : EndsInDigit first) (hsecond : EndsInDigit second) :
    EndsInDigit (first ++ second) := by
  intro unit hunit
  rw [List.getLast?_append] at hunit
  cases hlast : second.getLast? with
  | none =>
    rw [hlast] at hunit
    exact hfirst unit hunit
  | some last =>
    rw [hlast] at hunit
    exact hsecond unit (hlast.trans hunit)

theorem endsInDigit_run {least : ℕ} {most : Option ℕ}
    (h : way ∈ ways (.run isDigit least most) text) : EndsInDigit way.taken := by
  intro unit hunit
  exact (mem_ways_run h).2.2.1 unit (List.mem_of_getLast? hunit)

theorem endsInDigit_behind (h : EndsInDigit second) (hne : second ≠ []) :
    EndsInDigit (first ++ second) := by
  intro unit hunit
  rw [List.getLast?_append_of_ne_nil _ hne] at hunit
  exact h unit hunit

theorem digits_behind (h : way ∈ ways (.seq p digits) text) : EndsInDigit way.taken := by
  obtain ⟨first, -, second, hsecond, rfl⟩ := mem_ways_seq.mp h
  exact endsInDigit_behind (endsInDigit_run hsecond) (eats_plus isDigit _ second hsecond)

theorem opt_endsInDigit (hp : ∀ way ∈ ways p text, EndsInDigit way.taken)
    (h : way ∈ ways (.opt p) text) : EndsInDigit way.taken := by
  rcases mem_ways_opt.mp h with hinner | rfl
  · exact hp way hinner
  · exact fun unit hunit => nomatch hunit

theorem integer_taken (h : way ∈ ways
    (.alt (.one (· == 0x30)) (.seq (.one (inRanges [(0x31, 0x39)])) (.many isDigit))) text) :
    way.taken ≠ [] ∧ ∀ unit ∈ way.taken, isDigit unit = true := by
  rw [ways, List.mem_append, List.mem_map, List.mem_map] at h
  rcases h with ⟨inner, hinner, rfl⟩ | ⟨inner, hinner, rfl⟩
  · obtain ⟨-, -, hzero, hleast, -⟩ := mem_ways_run hinner
    refine ⟨List.length_pos_iff.mp hleast, fun unit hunit => ?_⟩
    rw [beq_iff_eq.mp (hzero unit hunit)]
    decide
  · obtain ⟨first, hfirst, second, hsecond, rfl⟩ := mem_ways_seq.mp hinner
    obtain ⟨-, -, hlead, hleast, -⟩ := mem_ways_run hfirst
    have hrest := (mem_ways_run hsecond).2.2.1
    refine ⟨List.append_ne_nil_of_left_ne_nil (List.length_pos_iff.mp hleast) _,
      fun unit hunit => ?_⟩
    rcases List.mem_append.mp hunit with hunit | hunit
    · have hdigit := hlead unit hunit
      simp only [inRanges, isDigit, List.any_cons, List.any_nil, Bool.or_false, Bool.and_eq_true,
        decide_eq_true_eq] at hdigit ⊢
      omega
    · exact hrest unit hunit

theorem not_isSpace_of_isDigit (h : isDigit unit = true) : JsText.isSpace unit = false := by
  simp only [isDigit, JsText.isSpace, inRanges, List.any_cons, List.any_nil, Bool.or_false,
    Bool.and_eq_true, decide_eq_true_eq, Bool.or_eq_false_iff, Bool.and_eq_false_iff,
    decide_eq_false_iff_not] at h ⊢
  omega

theorem numberText_taken (h : way ∈ ways numberText text) :
    way.taken ≠ [] ∧ EndsInDigit way.taken ∧
      ∀ unit, way.taken.head? = some unit → JsText.isSpace unit = false := by
  obtain ⟨minus, hminus, behind, hbehind, rfl⟩ := mem_ways_seq.mp h
  obtain ⟨integer, hinteger, tail, htail, rfl⟩ := mem_ways_seq.mp hbehind
  obtain ⟨fraction, hfraction, exponent, hexponent, rfl⟩ := mem_ways_seq.mp htail
  obtain ⟨hne, hdigits⟩ := integer_taken hinteger
  have hfractions : EndsInDigit fraction.taken :=
    opt_endsInDigit (fun way hway => digits_behind hway) hfraction
  have hexponents : EndsInDigit exponent.taken := by
    refine opt_endsInDigit (fun way hway => ?_) hexponent
    obtain ⟨mark, -, power, hpower, rfl⟩ := mem_ways_seq.mp hway
    obtain ⟨sign, -, second, hsecond, rfl⟩ := mem_ways_seq.mp hpower
    have hsome := eats_plus isDigit _ second hsecond
    exact endsInDigit_behind (endsInDigit_behind (endsInDigit_run hsecond) hsome)
      (List.append_ne_nil_of_right_ne_nil _ hsome)
  have hintegers : EndsInDigit integer.taken := fun unit hunit =>
    hdigits unit (List.mem_of_getLast? hunit)
  have hall : EndsInDigit (integer.taken ++ (fraction.taken ++ exponent.taken)) :=
    hintegers.append (hfractions.append hexponents)
  have hsome : integer.taken ++ (fraction.taken ++ exponent.taken) ≠ [] :=
    List.append_ne_nil_of_left_ne_nil hne _
  refine ⟨List.append_ne_nil_of_right_ne_nil _ hsome, endsInDigit_behind hall hsome,
    fun unit hunit => ?_⟩
  change (minus.taken ++ (integer.taken ++ (fraction.taken ++ exponent.taken))).head? = _ at hunit
  cases hsign : minus.taken with
  | nil =>
    obtain ⟨first, rest, hfirst⟩ := List.exists_cons_of_ne_nil hne
    rw [hsign, hfirst] at hunit
    obtain rfl := Option.some.inj hunit
    exact not_isSpace_of_isDigit (hdigits first (by simp [hfirst]))
  | cons first rest =>
    rw [hsign] at hunit
    obtain rfl := Option.some.inj hunit
    have hminus := (mem_ways_run hminus).2.2.1 first (by simp [hsign])
    rw [beq_iff_eq.mp hminus]
    decide

/-! ## Values -/

theorem readWord_ends {word : Units} {read : JsonValue N} (last : UInt16)
    (hword : word.getLast? = some last) (hlast : JsText.isSpace last = false)
    (h : readWord word value text = some (read, rest)) : Ends text rest := by
  unfold readWord at h
  split_ifs at h with hmatch
  · obtain ⟨-, rfl⟩ := Prod.mk.inj (Option.some.inj h)
    obtain ⟨behind, rfl⟩ := List.isPrefixOf_iff_prefix.mp hmatch
    obtain ⟨front, rfl⟩ := List.getLast?_eq_some_iff.mp hword
    exact ⟨front, last, by simp, hlast⟩

theorem readNumber_ends (h : readNumber toNumber text = some (value, rest)) : Ends text rest ∧
      ∀ unit, text.head? = some unit → JsText.isSpace unit = false := by
  obtain ⟨way, hway, hpair⟩ := Option.map_eq_some_iff.mp h
  obtain ⟨-, rfl⟩ := Prod.mk.inj hpair
  obtain ⟨hne, hdigit, hfirst⟩ := numberText_taken (matchAt_mem hway)
  have hall := taken_append_rest (matchAt_mem hway)
  refine ⟨⟨way.taken.dropLast, way.taken.getLast hne, ?_, ?_⟩, fun unit hunit => ?_⟩
  · conv_lhs => rw [← hall, ← List.dropLast_append_getLast hne]
    rw [List.append_assoc]
    rfl
  · exact not_isSpace_of_isDigit (hdigit _ (List.getLast?_eq_some_getLast hne))
  · refine hfirst unit ?_
    rw [← hunit, ← hall, List.head?_append_of_ne_nil _ hne]

theorem readValue_ends {levels : ℕ} (h : readValue toNumber levels text = some (value, rest)) :
    Ends text rest ∧ ∀ unit, text.head? = some unit → JsText.isSpace unit = false := by
  induction levels generalizing text rest value with
  | zero => exact nomatch h
  | succ levels ih =>
    cases text with
    | nil => exact nomatch h
    | cons unit text =>
      have hfirst : ∀ {sign : UInt16}, (unit == sign) = true → JsText.isSpace sign = false →
          ∀ other, (unit :: text).head? = some other → JsText.isSpace other = false := by
        intro sign hsign hspace other hother
        obtain rfl := Option.some.inj hother
        rwa [beq_iff_eq.mp hsign]
      have hitem : ∀ {text : Units} {value : JsonValue N} {rest : Units},
          readValue toNumber levels text = some (value, rest) → Ends text rest :=
        fun hread => (ih hread).1
      have hsuffix := List.suffix_cons unit text
      unfold readValue at h
      dsimp only at h
      split_ifs at h with hquote harray hobject hnull htrue hfalse
      · obtain ⟨read, hread, hpair⟩ := Option.map_eq_some_iff.mp h
        obtain ⟨-, rfl⟩ := Prod.mk.inj hpair
        exact ⟨(readString_ends hread).of_suffix hsuffix, hfirst hquote (by decide)⟩
      · obtain ⟨read, hread, hpair⟩ := Option.map_eq_some_iff.mp h
        obtain ⟨-, rfl⟩ := Prod.mk.inj hpair
        exact ⟨(readList_ends hitem (by decide) hread).of_suffix hsuffix,
          hfirst harray (by decide)⟩
      · obtain ⟨read, hread, hpair⟩ := Option.map_eq_some_iff.mp h
        obtain ⟨-, rfl⟩ := Prod.mk.inj hpair
        exact ⟨(readList_ends (readMember_ends hitem) (by decide) hread).of_suffix hsuffix,
          hfirst hobject (by decide)⟩
      · exact ⟨readWord_ends 0x6C (by decide) (by decide) h, hfirst hnull (by decide)⟩
      · exact ⟨readWord_ends 0x65 (by decide) (by decide) h, hfirst htrue (by decide)⟩
      · exact ⟨readWord_ends 0x65 (by decide) (by decide) h, hfirst hfalse (by decide)⟩
      · exact readNumber_ends toNumber h

theorem parse_some (h : parse toNumber text = some value) :
    ∃ before inner behind, text = before ++ (inner ++ behind) ∧
      (∀ unit ∈ before, isBlank unit = true) ∧ (∀ unit ∈ behind, isBlank unit = true) ∧
        Trimmed inner ∧ inner ≠ [] ∧ readValue toNumber inner.length inner = some (value, []) := by
  unfold parse at h
  dsimp only at h
  set inner := (skipBlank text).rdropWhile isBlank with hinner
  obtain ⟨⟨read, rest⟩, hread, h⟩ := Option.bind_eq_some_iff.mp h
  dsimp only at h
  split_ifs at h with hrest
  · obtain rfl : rest = [] := List.isEmpty_iff.mp hrest
    obtain rfl := Option.some.inj h
    obtain ⟨⟨front, last, hsplit, hlast⟩, hfirst⟩ := readValue_ends toNumber hread
    refine ⟨text.takeWhile isBlank, inner, (skipBlank text).rtakeWhile isBlank, ?_, ?_, ?_,
      ⟨hfirst, fun unit hunit => ?_⟩, ?_, hread⟩
    · rw [hinner, List.rdropWhile_append_rtakeWhile]
      exact List.takeWhile_append_dropWhile.symm
    · exact fun unit hunit => List.mem_takeWhile_imp hunit
    · exact fun unit hunit => List.mem_rtakeWhile_imp hunit
    · rw [hsplit, List.getLast?_append_of_ne_nil _ (List.cons_ne_nil _ _)] at hunit
      obtain rfl := Option.some.inj hunit
      exact hlast
    · rw [hsplit]
      simp

theorem isSpace_of_isBlank (h : isBlank unit = true) : JsText.isSpace unit = true := by
  simp only [isBlank, JsText.isSpace, inRanges, List.any_cons, List.any_nil, Bool.or_false,
    Bool.and_eq_true, decide_eq_true_eq, Bool.or_eq_true] at h ⊢
  omega

theorem parse_trim {before : Units} (h : parse toNumber text = some value)
    (hbefore : ∀ unit ∈ before, JsText.isSpace unit = true) :
    parse toNumber (trim (before ++ text)) = some value ∧ trim (before ++ text) ≠ [] := by
  obtain ⟨blank, inner, behind, rfl, hblank, hbehind, htrimmed, hne, hread⟩ := parse_some toNumber h
  have htrim : trim (before ++ (blank ++ (inner ++ behind))) = inner := by
    rw [← List.append_assoc]
    refine trim_around htrimmed hne (fun unit hunit => ?_) fun unit hunit =>
      isSpace_of_isBlank (hbehind unit hunit)
    rcases List.mem_append.mp hunit with hunit | hunit
    · exact hbefore unit hunit
    · exact isSpace_of_isBlank (hblank unit hunit)
  have hstrip : (skipBlank inner).rdropWhile isBlank = inner := by
    have haround : (([] ++ (inner ++ [])).dropWhile isBlank).rdropWhile isBlank = inner :=
      strip_around htrimmed hne (fun unit => isSpace_of_isBlank) nofun nofun
    simpa [skipBlank] using haround
  rw [htrim]
  refine ⟨?_, hne⟩
  unfold parse
  dsimp only
  rw [hstrip, hread]
  rfl

end FastTts.JsonParse
