import FastTts.JsonWriting

/-!
# English numbers

A number in the words of a count and in those of a position. The two are spelled by functions of
their own.
-/

namespace FastTts.EnglishNumbers

open JsonText (natText natText_spec)

def units : List Bytes :=
  ["zero", "one", "two", "three", "four", "five", "six", "seven", "eight", "nine", "ten", "eleven",
    "twelve", "thirteen", "fourteen", "fifteen", "sixteen", "seventeen", "eighteen",
    "nineteen"].map bytes

def tens : List Bytes :=
  ["", "", "twenty", "thirty", "forty", "fifty", "sixty", "seventy", "eighty", "ninety"].map bytes

def ordinals : List Bytes :=
  ["zeroth", "first", "second", "third", "fourth", "fifth", "sixth", "seventh", "eighth", "ninth",
    "tenth", "eleventh", "twelfth", "thirteenth", "fourteenth", "fifteenth", "sixteenth",
    "seventeenth", "eighteenth", "nineteenth"].map bytes

def tensOrdinals : List Bytes :=
  ["", "", "twentieth", "thirtieth", "fortieth", "fiftieth", "sixtieth", "seventieth", "eightieth",
    "ninetieth"].map bytes

def word (words : List Bytes) (n : ℕ) : Bytes := words.getD n []

def englishCardinalUnder1000 (value : ℕ) : Bytes :=
  if value < 20 then word units value
  else if value < 100 then
    if value % 10 = 0 then word tens (value / 10)
    else word tens (value / 10) ++ bytes " " ++ word units (value % 10)
  else if value % 100 = 0 then word units (value / 100) ++ bytes " hundred"
  else word units (value / 100) ++ bytes " hundred " ++ englishCardinalUnder1000 (value % 100)

/-- The value is not negative. -/
def englishCardinal (value : ℕ) : Bytes :=
  if value < 1000 then englishCardinalUnder1000 value
  else if value < 1000000 then
    if value % 1000 = 0 then englishCardinal (value / 1000) ++ bytes " thousand"
    else englishCardinal (value / 1000) ++ bytes " thousand " ++ englishCardinal (value % 1000)
  else natText value

def englishOrdinal (value : ℕ) : Bytes :=
  if value < 20 then word ordinals value
  else if value < 100 then
    if value % 10 = 0 then word tensOrdinals (value / 10)
    else englishCardinalUnder1000 (value / 10 * 10) ++ bytes " " ++ englishOrdinal (value % 10)
  else if value % 100 = 0 then englishCardinal (value / 100) ++ bytes " hundredth"
  else englishCardinal (value - value % 100) ++ bytes " " ++ englishOrdinal (value % 100)

/-! ## The last word -/

/-- The ordinal word of each word of a count. -/
def ordinalWords : List (Bytes × Bytes) :=
  units.zip ordinals ++ (tens.zip tensOrdinals).drop 2 ++
    [(bytes "hundred", bytes "hundredth"), (bytes "thousand", bytes "thousandth")]

def isLetter (ch : UInt8) : Bool := ch ≠ 0x20

/-- A text with its last word made the ordinal word. -/
def turned (text : Bytes) : Option Bytes :=
  (ordinalWords.lookup (text.rtakeWhile isLetter)).map (text.rdropWhile isLetter ++ ·)

variable {value : ℕ} {front text spelled : Bytes}

theorem while_stop {p : UInt8 → Bool} {stop : UInt8} (hstop : p stop = false) (l rest : Bytes) :
    (l ++ stop :: rest).takeWhile p = l.takeWhile p ∧
      (l ++ stop :: rest).dropWhile p = l.dropWhile p ++ stop :: rest := by
  induction l with
  | nil => simp [hstop]
  | cons ch l ih => by_cases h : p ch = true <;> simp [h, ih]

theorem turned_append (front : Bytes) (h : turned text = some spelled) :
    turned (front ++ bytes " " ++ text) = some (front ++ bytes " " ++ spelled) := by
  obtain ⟨last, hlast, rfl⟩ := Option.map_eq_some_iff.mp h
  have hreverse : (front ++ bytes " " ++ text).reverse = text.reverse ++ 0x20 :: front.reverse := by
    simp only [List.reverse_append]
    rfl
  have hspace : isLetter 0x20 = false := rfl
  obtain ⟨htake, hdrop⟩ := while_stop hspace text.reverse front.reverse
  rw [List.rtakeWhile] at hlast
  rw [turned, List.rtakeWhile, List.rdropWhile, hreverse, htake, hdrop, hlast, List.rdropWhile]
  simp [show bytes " " = [0x20] from rfl]

theorem turned_under_100 (h : value < 100) :
    turned (englishCardinalUnder1000 value) = some (englishOrdinal value) := by
  have hunits : ∀ n < 20, turned (word units n) = some (word ordinals n) := by decide
  have htens : ∀ n < 10, 2 ≤ n → turned (word tens n) = some (word tensOrdinals n) := by
    decide
  rw [englishCardinalUnder1000, englishOrdinal]
  split_ifs with hsmall hten
  · exact hunits value hsmall
  · exact htens (value / 10) (by omega) (by omega)
  · have hfirst : englishCardinalUnder1000 (value / 10 * 10) = word tens (value / 10) := by
      rw [englishCardinalUnder1000, if_neg (by omega), if_pos (by omega), if_pos (by omega),
        Nat.mul_div_cancel _ (by decide)]
    rw [hfirst, englishOrdinal, if_pos (by omega)]
    exact turned_append _ (hunits (value % 10) (by omega))

theorem turned_hundred (front : Bytes) :
    turned (front ++ bytes " hundred") = some (front ++ bytes " hundredth") := by
  have hword : turned (bytes "hundred") = some (bytes "hundredth") := by decide
  have h := turned_append front hword
  rwa [List.append_assoc, List.append_assoc] at h

theorem turned_thousand (front : Bytes) :
    turned (front ++ bytes " thousand") = some (front ++ bytes " thousandth") := by
  have hword : turned (bytes "thousand") = some (bytes "thousandth") := by decide
  have h := turned_append front hword
  rwa [List.append_assoc, List.append_assoc] at h

theorem under1000_hundreds (hlow : 100 ≤ value) (h : value < 1000) :
    englishCardinalUnder1000 (value - value % 100) =
      word units (value / 100) ++ bytes " hundred" := by
  rw [englishCardinalUnder1000, if_neg (by omega), if_neg (by omega), if_pos (by omega),
    show (value - value % 100) / 100 = value / 100 by omega]

theorem under1000_rest (hlow : 100 ≤ value) (hrest : value % 100 ≠ 0) :
    englishCardinalUnder1000 value = word units (value / 100) ++ bytes " hundred" ++ bytes " " ++
      englishCardinalUnder1000 (value % 100) := by
  rw [englishCardinalUnder1000, if_neg (by omega), if_neg (by omega), if_neg hrest,
    List.append_assoc _ (bytes " hundred")]
  rfl

theorem turned_under_1000 (h : value < 1000) :
    turned (englishCardinal value) = some (englishOrdinal value) := by
  rw [englishCardinal, if_pos h]
  by_cases hlow : value < 100
  · exact turned_under_100 hlow
  · rw [englishOrdinal, if_neg (by omega), if_neg (by omega)]
    split_ifs with hrest
    · rw [englishCardinalUnder1000, if_neg (by omega), if_neg (by omega), if_pos hrest,
        englishCardinal, if_pos (by omega), englishCardinalUnder1000.eq_def (value / 100),
        if_pos (by omega)]
      exact turned_hundred _
    · rw [under1000_rest (by omega) hrest, englishCardinal, if_pos (by omega),
        under1000_hundreds (by omega) h]
      exact turned_append _ (turned_under_100 (Nat.mod_lt _ (by decide)))

theorem cardinal_rest (value : ℕ) (hlow : 1000 ≤ value) (h : value < 1000000)
    (hrest : value % 1000 ≠ 0) :
    englishCardinal value = englishCardinal (value / 1000) ++ bytes " thousand" ++ bytes " " ++
      englishCardinal (value % 1000) := by
  rw [englishCardinal, if_neg (by omega), if_pos h, if_neg hrest,
    List.append_assoc _ (bytes " thousand")]
  rfl

theorem cardinal_thousands (value : ℕ) (hlow : 1000 ≤ value) (h : value < 1000000)
    (hrest : value % 1000 = 0) :
    englishCardinal value = englishCardinal (value / 1000) ++ bytes " thousand" := by
  rw [englishCardinal, if_neg (by omega), if_pos h, if_pos hrest]

theorem ordinal_rest (value : ℕ) (hlow : 100 ≤ value) (hrest : value % 100 ≠ 0) :
    englishOrdinal value =
      englishCardinal (value - value % 100) ++ bytes " " ++ englishOrdinal (value % 100) := by
  rw [englishOrdinal, if_neg (by omega), if_neg (by omega), if_neg hrest]

theorem turned_thousands (hlow : 1000 ≤ value) (h : value < 1000000) (hrest : value % 100 ≠ 0) :
    turned (englishCardinal value) = some (englishOrdinal value) := by
  have hturned := turned_under_1000 (Nat.mod_lt value (by decide : 0 < 1000))
  rw [cardinal_rest value hlow h (by omega), turned_append _ hturned,
    ordinal_rest value (by omega) hrest]
  by_cases hsmall : value % 1000 < 100
  · have hsame : value % 1000 = value % 100 := by omega
    rw [cardinal_thousands (value - value % 100) (by omega) (by omega) (by omega), hsame,
      show (value - value % 100) / 1000 = value / 1000 by omega]
  · rw [cardinal_rest (value - value % 100) (by omega) (by omega) (by omega),
      ordinal_rest (value % 1000) (by omega) (by omega),
      show (value - value % 100) / 1000 = value / 1000 by omega,
      show (value - value % 100) % 1000 = value % 1000 - value % 1000 % 100 by omega,
      show value % 1000 % 100 = value % 100 by omega]
    simp only [List.append_assoc]

/-! ## Where the words differ -/

theorem a_notMem_word {words : List Bytes} (h : ∀ spelled ∈ words, 0x61 ∉ spelled) (n : ℕ) :
    0x61 ∉ word words n := by
  rw [word, List.getD_eq_getElem?_getD]
  cases hn : words[n]? with
  | none => simp
  | some spelled => exact h spelled (List.mem_of_getElem? hn)

theorem a_notMem_units (n : ℕ) : 0x61 ∉ word units n := a_notMem_word (by decide) n

theorem a_notMem_under1000 (value : ℕ) : 0x61 ∉ englishCardinalUnder1000 value := by
  have htens : ∀ n, 0x61 ∉ word tens n := a_notMem_word (by decide)
  have hhundred : 0x61 ∉ bytes " hundred" ∧ 0x61 ∉ bytes " hundred " ∧ 0x61 ∉ bytes " " := by
    decide
  induction value using Nat.strongRecOn with
  | ind value ih =>
    rw [englishCardinalUnder1000]
    split_ifs
    · exact a_notMem_units value
    · exact htens (value / 10)
    · simp [htens, a_notMem_units, hhundred]
    · simp [a_notMem_units, hhundred]
    · simp [a_notMem_units, hhundred, ih (value % 100) (by omega)]

theorem cardinal_hundreds_ne (hlow : 1000 ≤ value) (h : value < 1000000) :
    englishCardinal (value / 100) ≠ englishCardinal (value / 1000) ++ bytes " thousand " ++
      word units (value % 1000 / 100) := by
  intro heq
  have ha : bytes " thousand " = bytes " thous" ++ 0x61 :: bytes "nd " := rfl
  have hthous : 0x61 ∉ bytes " thous" := by decide
  have hcardinal : englishCardinal (value / 1000) = englishCardinalUnder1000 (value / 1000) := by
    rw [englishCardinal, if_pos (by omega)]
  rw [hcardinal, ha] at heq
  by_cases hsmall : value / 100 < 1000
  · rw [englishCardinal, if_pos hsmall] at heq
    exact a_notMem_under1000 (value / 100) (heq ▸ by simp)
  · -- Both texts have the letter once, behind what is spelled for their thousands.
    have hfirst : englishCardinal (value / 100 / 1000) = word units (value / 100 / 1000) := by
      rw [englishCardinal, if_pos (by omega), englishCardinalUnder1000, if_pos (by omega)]
    obtain ⟨rest, hsplit⟩ : ∃ rest, englishCardinal (value / 100) =
        word units (value / 100 / 1000) ++ bytes " thous" ++ 0x61 :: rest := by
      by_cases hzero : value / 100 % 1000 = 0
      · rw [cardinal_thousands _ (by omega) (by omega) hzero, hfirst]
        exact ⟨bytes "nd", by rw [List.append_assoc]; rfl⟩
      · rw [cardinal_rest _ (by omega) (by omega) hzero, hfirst]
        exact ⟨bytes "nd" ++ (bytes " " ++ englishCardinal (value / 100 % 1000)), by
          simp only [List.append_assoc]; rfl⟩
    have hfront : 0x61 ∉ englishCardinalUnder1000 (value / 1000) ++ bytes " thous" := by
      simp [a_notMem_under1000, hthous]
    have hback : 0x61 ∉ bytes "nd " ++ word units (value % 1000 / 100) := by
      simp [a_notMem_units, show 0x61 ∉ bytes "nd " by decide]
    rw [hsplit, List.append_assoc (englishCardinalUnder1000 _), List.append_assoc (bytes " thous"),
      ← List.append_assoc (englishCardinalUnder1000 _), List.cons_append, eq_comm,
      List.append_cons_inj_of_notMem hfront hback] at heq
    have hlength := congrArg List.length (List.append_cancel_right heq.1)
    rw [englishCardinalUnder1000, if_neg (by omega), if_neg (by omega),
      show value / 1000 / 100 = value / 100 / 1000 by omega] at hlength
    have hhundred : 0 < (bytes " hundred").length ∧ 0 < (bytes " hundred ").length := by
      decide
    split_ifs at hlength <;> simp only [List.length_append] at hlength <;> omega

theorem turned_natText (value : ℕ) : turned (natText value) = none := by
  obtain ⟨-, hdigits, hne⟩ := natText_spec value
  have hletters : ∀ ch ∈ (natText value).reverse, isLetter ch = true := by
    intro ch hch
    have hspace : isDigit 0x20 = false := rfl
    have hdigit := hdigits ch (List.mem_reverse.mp hch)
    rw [isLetter, decide_eq_true_iff]
    rintro rfl
    exact absurd hdigit (by rw [hspace]; decide)
  have hlookup : ordinalWords.lookup (natText value) = none := by
    rw [List.lookup_eq_none_iff]
    intro entry hentry
    have hfirst : ∀ entry ∈ ordinalWords, entry.1.head?.all (! isDigit ·) = true := by
      decide
    obtain ⟨ch, rest, htext⟩ := List.exists_cons_of_ne_nil hne
    refine bne_iff_ne.mpr fun heq => ?_
    have hdigit := hdigits ch (htext ▸ List.mem_cons_self)
    have hother := hfirst entry hentry
    rw [← heq, htext, List.head?_cons, Option.all_some, hdigit] at hother
    exact nomatch hother
  rw [turned, List.rtakeWhile, List.takeWhile_eq_self_iff.mpr hletters, List.reverse_reverse,
    hlookup]
  rfl

theorem turned_hundreds_ne (hlow : 1000 ≤ value) (h : value < 1000000) (hrest : value % 100 = 0) :
    turned (englishCardinal value) ≠ some (englishOrdinal value) := by
  rw [englishOrdinal, if_neg (by omega), if_neg (by omega), if_pos hrest]
  by_cases hzero : value % 1000 = 0
  · rw [cardinal_thousands value hlow h hzero, turned_thousand]
    intro heq
    have hlast := congrArg (fun text => text.reverse[3]?) (Option.some.inj heq)
    simp only [List.reverse_append] at hlast
    rw [List.getElem?_append_left (by decide),
      List.getElem?_append_left (by decide)] at hlast
    exact absurd hlast (by decide)
  · have hword : englishCardinal (value % 1000) =
        word units (value % 1000 / 100) ++ bytes " hundred" := by
      rw [englishCardinal, if_pos (by omega), englishCardinalUnder1000, if_neg (by omega),
        if_neg (by omega), if_pos (by omega)]
    rw [cardinal_rest value hlow h hzero, hword, ← List.append_assoc, turned_hundred]
    intro heq
    refine cardinal_hundreds_ne hlow h ?_
    rw [← List.append_cancel_right (Option.some.inj heq), List.append_assoc _ (bytes " thousand")]
    rfl

/-- A position reads as its count with the last word turned, exactly up to a thousand, and up to a
million where it is no position of hundreds. -/
theorem turned_cardinal_iff (value : ℕ) :
    turned (englishCardinal value) = some (englishOrdinal value) ↔
      value < 1000000 ∧ (value < 1000 ∨ value % 100 ≠ 0) := by
  rcases lt_or_ge value 1000 with hlow | hlow
  · exact iff_of_true (turned_under_1000 hlow) ⟨by omega, .inl hlow⟩
  rcases lt_or_ge value 1000000 with h | h
  · by_cases hrest : value % 100 = 0
    · exact iff_of_false (turned_hundreds_ne hlow h hrest) (by omega)
    · exact iff_of_true (turned_thousands hlow h hrest) ⟨h, .inr hrest⟩
  · rw [englishCardinal, if_neg (by omega), if_neg (by omega), turned_natText]
    exact iff_of_false nofun (by omega)

/-- A thousand is spelled `ten hundredth`. -/
theorem not_turned_thousand :
    ¬ ∀ value < 2 ^ 63, turned (englishCardinal value) = some (englishOrdinal value) := by
  intro h
  exact turned_hundreds_ne (by decide) (by decide) (by decide) (h 1000 (by decide))

end FastTts.EnglishNumbers
