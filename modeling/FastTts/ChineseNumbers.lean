import FastTts.Json
import FastTts.TextEdits
import FastTts.Utf8Text
import Mathlib.Data.Nat.Digits.Defs

/-!
# Numbers in Chinese texts

`normalizeChineseNumbers` reads the runs of digits in a text aloud: prices, speeds, decimals, years
and plain numbers. The words that it writes have no ASCII digit.
-/

namespace FastTts.ChineseNumbers

open TextEdits Utf8Spans

/-! ## Digits and cardinals -/

def digitWords : List Bytes :=
  [bytes "零", bytes "一", bytes "二", bytes "三", bytes "四", bytes "五", bytes "六", bytes "七",
    bytes "八", bytes "九"]

def chineseDigitWord (digit : UInt8) (telephoneOne : Bool) : Except Exception Bytes :=
  if telephoneOne && digit == 0x31 then .ok (bytes "幺")
  else match digitWords[(digit - 0x30).toNat]? with
    | some word => .ok word
    | none => .error (bytes "the digit words are read out of bounds")

def chineseDigitsIndividually (digits : Bytes) (telephoneOne : Bool) : Except Exception Bytes := do
  return (← digits.mapM fun digit => chineseDigitWord digit telephoneOne).flatten

def units : List Bytes := [[], bytes "十", bytes "百", bytes "千"]

/-- The word of a digit in its place. A ten in front has none. -/
def placeWord (digit : ℤ) (unitIndex : ℕ) (first : Bool) : Except Exception Bytes :=
  if !(digit == 1 && unitIndex == 1 && first) then
    if digit == 2 && decide (2 ≤ unitIndex) then .ok (bytes "两")
    else chineseDigitWord (UInt8.ofInt (0x30 + digit)) false
  else .ok []

structure Cardinal where
  value : ℤ
  out : Bytes
  pendingZero : Bool

def Cardinal.step (state : Cardinal) (unitIndex : ℕ) : Except Exception Cardinal :=
  let divisor : ℤ := 10 ^ unitIndex
  let digit := state.value.tdiv divisor
  let value := state.value.tmod divisor
  if digit = 0 then
    .ok { state with
      value := value
      pendingZero := state.pendingZero || (!state.out.isEmpty && decide (0 < value)) }
  else do
    let out := if state.pendingZero then state.out ++ bytes "零" else state.out
    let word ← placeWord digit unitIndex out.isEmpty
    return ⟨value, out ++ word ++ units.getD unitIndex [], false⟩

def chineseCardinalUnder10000 (value : ℤ) : Except Exception Bytes :=
  if value = 0 then .ok (bytes "零")
  else do return (← [3, 2, 1, 0].foldlM Cardinal.step ⟨value, [], false⟩).out

def decimalValue (digits : Bytes) : ℕ :=
  Nat.ofDigits 10 (digits.reverse.map fun digit => digit.toNat - 0x30)

/-- The number at the beginning of a text, as the standard library reads it. -/
def stoi (text : Bytes) : Except Exception ℤ :=
  let number := text.dropWhile isSpace
  let signed := number.head? == some 0x2B || number.head? == some 0x2D
  let digits := (if signed then number.tail else number).takeWhile isDigit
  let value : ℤ :=
    if number.head? == some 0x2D then -decimalValue digits else decimalValue digits
  if digits.isEmpty then .error (bytes "stoi")
  else if value < -2 ^ 31 ∨ 2 ^ 31 ≤ value then .error (bytes "stoi")
  else .ok value

def chineseCardinalFromDigits (digits : Bytes) : Except Exception Bytes :=
  if digits.isEmpty then .ok []
  else if 4 < digits.length then chineseDigitsIndividually digits true
  else do chineseCardinalUnder10000 (← stoi digits)

/-! ## The scanner -/

def startsInDigit (text : Bytes) : Bool := text.head?.any isDigit

/-- The digits behind a decimal point, and what follows them. -/
def decimalPart (text : Bytes) : Option (Bytes × Bytes) :=
  if text.head? == some 0x2E && startsInDigit text.tail then
    some (text.tail.takeWhile isDigit, text.tail.dropWhile isDigit)
  else none

/-- Measure words after which a single two is read differently. -/
def measureWords : List Bytes :=
  ["个", "位", "只", "条", "张", "本", "件", "次", "台", "辆", "块", "颗",
    "杯", "瓶", "碗", "套", "把", "支", "根", "座", "间", "群", "双", "对",
    "种", "类", "项", "层", "栋", "扇", "面", "盏", "袋", "箱", "包", "桶"].map bytes

/-- The words for a price, behind its currency sign, and what follows it. -/
def readPrice (text : Bytes) : Except Exception (Bytes × Bytes) := do
  let whole ← chineseCardinalFromDigits (text.takeWhile isDigit)
  match decimalPart (text.dropWhile isDigit) with
  | some (decimals, behind) =>
    return (whole ++ bytes "点" ++ (← chineseDigitsIndividually decimals false) ++ bytes "美元",
      behind)
  | none => return (whole ++ bytes "美元", text.dropWhile isDigit)

/-- The words for a number, and what follows it. -/
def readNumber (text : Bytes) : Except Exception (Bytes × Bytes) :=
  let digits := text.takeWhile isDigit
  let behind := text.dropWhile isDigit
  if (bytes "km/h").isPrefixOf behind then do
    return (bytes "每小时" ++ (← chineseCardinalFromDigits digits) ++ bytes "公里", behind.drop 4)
  else match decimalPart behind with
    | some (decimals, rest) => do
      let whole ← chineseCardinalFromDigits digits
      return (whole ++ bytes "点" ++ (← chineseDigitsIndividually decimals false), rest)
    | none =>
      if digits.length == 4 && (bytes "年").isPrefixOf behind then do
        return (← chineseDigitsIndividually digits false, behind)
      else if digits == bytes "2" && measureWords.any (·.isPrefixOf behind) then
        .ok (bytes "两", behind)
      else do return (← chineseCardinalFromDigits digits, behind)

def numbersWithin : ℕ → Bytes → Except Exception Bytes
  | 0, _ => .ok []
  | _ + 1, [] => .ok []
  | fuel + 1, ch :: text =>
    if ch == 0x24 && startsInDigit text then do
      let read ← readPrice text
      return read.1 ++ (← numbersWithin fuel read.2)
    else if !isDigit ch then do
      return ch :: (← numbersWithin fuel text)
    else do
      let read ← readNumber (ch :: text)
      return read.1 ++ (← numbersWithin fuel read.2)

/-- Every round takes a byte at least. -/
def normalizeChineseNumbers (text : Bytes) : Except Exception Bytes :=
  numbersWithin text.length text

/-! ## Words -/

/-- A text that a scan for digits leaves as it is. -/
def Spoken (words : Bytes) : Prop := IsUtf8 words ∧ ∀ b ∈ words, isDigit b = false

theorem spoken_nil : Spoken [] := ⟨.nil, nofun⟩

theorem Spoken.append {first second : Bytes} (h : Spoken first) (h' : Spoken second) :
    Spoken (first ++ second) :=
  ⟨h.1.append h'.1, List.forall_mem_append.mpr ⟨h.2, h'.2⟩⟩

theorem spoken_flatten {words : List Bytes} (h : ∀ word ∈ words, Spoken word) :
    Spoken words.flatten := by
  induction words with
  | nil => exact spoken_nil
  | cons word words ih =>
    obtain ⟨hword, hrest⟩ := List.forall_mem_cons.mp h
    exact hword.append (ih hrest)

theorem spoken_bytes {word : String} (h : (bytes word).all (! isDigit ·) = true) :
    Spoken (bytes word) :=
  ⟨isUtf8_bytes word, by simpa using h⟩

theorem digit_bounds {b : UInt8} (h : isDigit b = true) : 0x30 ≤ b.toNat ∧ b.toNat ≤ 0x39 := by
  simpa [isDigit, UInt8.le_iff_toNat_le] using h

def Digits (run : Bytes) : Prop := run ≠ [] ∧ ∀ b ∈ run, isDigit b = true

variable {run piece text : Bytes}

theorem Digits.isUtf8 (h : Digits run) : IsUtf8 run :=
  isUtf8_ascii fun b hb => UInt8.le_iff_toNat_le.mpr ((digit_bounds (h.2 b hb)).2.trans (by decide))

theorem spoken_digitWords : ∀ word ∈ digitWords, Spoken word := by
  unfold digitWords
  simp only [List.forall_mem_cons, List.not_mem_nil, false_implies, implies_true, and_true]
  refine ⟨?_, ?_, ?_, ?_, ?_, ?_, ?_, ?_, ?_, ?_⟩ <;> exact spoken_bytes (by decide)

theorem spoken_units : ∀ word ∈ units, Spoken word := by
  unfold units
  simp only [List.forall_mem_cons, List.not_mem_nil, false_implies, implies_true, and_true]
  exact ⟨spoken_nil, spoken_bytes (by decide), spoken_bytes (by decide), spoken_bytes (by decide)⟩

theorem spoken_unit (unitIndex : ℕ) : Spoken (units.getD unitIndex []) := by
  rw [List.getD_eq_getElem?_getD]
  cases hword : units[unitIndex]? with
  | none => exact spoken_nil
  | some word => exact spoken_units word (List.mem_of_getElem? hword)

theorem chineseDigitWord_ok {digit : UInt8} (h : isDigit digit = true) (telephoneOne : Bool) :
    ∃ word, chineseDigitWord digit telephoneOne = .ok word ∧ Spoken word := by
  have hlt : (digit - 0x30).toNat < digitWords.length :=
    forall_byte (p := fun digit => isDigit digit = true → (digit - 0x30).toNat < 10)
      (by decide +kernel) digit h
  unfold chineseDigitWord
  split_ifs
  · exact ⟨_, rfl, spoken_bytes (by decide)⟩
  · rw [List.getElem?_eq_getElem hlt]
    exact ⟨_, rfl, spoken_digitWords _ (List.getElem_mem hlt)⟩

theorem chineseDigitsIndividually_ok {digits : Bytes} (h : ∀ b ∈ digits, isDigit b = true)
    (telephoneOne : Bool) :
    ∃ words, chineseDigitsIndividually digits telephoneOne = .ok words ∧ Spoken words := by
  have hwords : ∃ words : List Bytes,
      (digits.mapM fun digit => chineseDigitWord digit telephoneOne) = .ok words ∧
        ∀ word ∈ words, Spoken word := by
    induction digits with
    | nil => exact ⟨[], rfl, nofun⟩
    | cons digit digits ih =>
      obtain ⟨hdigit, hrest⟩ := List.forall_mem_cons.mp h
      obtain ⟨word, hword, hspoken⟩ := chineseDigitWord_ok hdigit telephoneOne
      obtain ⟨words, hwords, hall⟩ := ih hrest
      refine ⟨word :: words, ?_, List.forall_mem_cons.mpr ⟨hspoken, hall⟩⟩
      rw [List.mapM_cons, hword, hwords]
      rfl
  obtain ⟨words, hwords, hall⟩ := hwords
  refine ⟨words.flatten, ?_, spoken_flatten hall⟩
  rw [chineseDigitsIndividually, hwords]
  rfl

/-! ## Cardinals -/

variable {digit : ℤ} {state : Cardinal} {words later : Bytes}

theorem isDigit_ofInt (h : 0 ≤ digit) (h' : digit ≤ 9) :
    isDigit (UInt8.ofInt (0x30 + digit)) = true := by
  obtain ⟨n, rfl⟩ := Int.eq_ofNat_of_zero_le h
  have hall : ∀ n : Fin 10, isDigit (UInt8.ofInt (0x30 + (n : ℕ))) = true := by decide
  exact hall ⟨n, by omega⟩

theorem placeWord_ok (h : 0 ≤ digit) (h' : digit ≤ 9) (unitIndex : ℕ) (first : Bool) :
    ∃ word, placeWord digit unitIndex first = .ok word ∧ Spoken word := by
  unfold placeWord
  split_ifs
  · exact ⟨_, rfl, spoken_bytes (by decide)⟩
  · exact chineseDigitWord_ok (isDigit_ofInt h h') false
  · exact ⟨_, rfl, spoken_nil⟩

theorem Cardinal.step_ok {unitIndex : ℕ} (hvalue : 0 ≤ state.value)
    (hlt : state.value < 10 ^ (unitIndex + 1)) (hout : Spoken state.out) :
    ∃ next, state.step unitIndex = .ok next ∧ 0 ≤ next.value ∧ next.value < 10 ^ unitIndex ∧
      Spoken next.out := by
  have hpos : (0 : ℤ) < 10 ^ unitIndex := by positivity
  have hrest : 0 ≤ state.value.tmod (10 ^ unitIndex) := Int.tmod_nonneg _ hvalue
  have hless : state.value.tmod (10 ^ unitIndex) < 10 ^ unitIndex := Int.tmod_lt_of_pos _ hpos
  have hdigit : 0 ≤ state.value.tdiv (10 ^ unitIndex) := Int.tdiv_nonneg hvalue hpos.le
  have hdigit' : state.value.tdiv (10 ^ unitIndex) ≤ 9 := by
    rw [Int.tdiv_eq_ediv_of_nonneg hvalue]
    refine Int.le_of_lt_add_one (Int.ediv_lt_of_lt_mul hpos ?_)
    rw [pow_succ] at hlt
    linarith
  unfold Cardinal.step
  dsimp only
  by_cases hzero : state.value.tdiv (10 ^ unitIndex) = 0
  · rw [if_pos hzero]
    exact ⟨_, rfl, hrest, hless, hout⟩
  · rw [if_neg hzero]
    obtain ⟨before, hbefore, hspoken⟩ : ∃ before,
        (if state.pendingZero then state.out ++ bytes "零" else state.out) = before ∧
          Spoken before := by
      split_ifs
      · exact ⟨_, rfl, hout.append (spoken_bytes (by decide))⟩
      · exact ⟨_, rfl, hout⟩
    rw [hbefore]
    obtain ⟨word, hword, hspoken'⟩ := placeWord_ok hdigit hdigit' unitIndex before.isEmpty
    rw [hword]
    exact ⟨_, rfl, hrest, hless, (hspoken.append hspoken').append (spoken_unit unitIndex)⟩

theorem foldlM_step_ok {units : ℕ} (hvalue : 0 ≤ state.value) (hlt : state.value < 10 ^ units)
    (hout : Spoken state.out) :
    ∃ next, (List.range units).reverse.foldlM Cardinal.step state = .ok next ∧ Spoken next.out := by
  induction units generalizing state with
  | zero => exact ⟨state, rfl, hout⟩
  | succ units ih =>
    obtain ⟨next, hstep, hvalue', hlt', hout'⟩ := Cardinal.step_ok hvalue hlt hout
    rw [List.range_succ, List.reverse_append, List.reverse_singleton, List.singleton_append,
      List.foldlM_cons, hstep]
    exact ih hvalue' hlt' hout'

theorem chineseCardinalUnder10000_ok {value : ℤ} (h : 0 ≤ value) (hlt : value < 10000) :
    ∃ words, chineseCardinalUnder10000 value = .ok words ∧ Spoken words := by
  unfold chineseCardinalUnder10000
  split_ifs
  · exact ⟨_, rfl, spoken_bytes (by decide)⟩
  · obtain ⟨start, hstart⟩ : ∃ start : Cardinal, start = ⟨value, [], false⟩ := ⟨_, rfl⟩
    have hless : start.value < 10 ^ 4 := by
      rw [hstart]
      simpa using hlt
    have hfold : ∃ next, (List.range 4).reverse.foldlM Cardinal.step start = .ok next ∧
        Spoken next.out :=
      foldlM_step_ok (hstart ▸ h) hless (hstart ▸ spoken_nil)
    rw [hstart] at hfold
    obtain ⟨next, hnext, hout⟩ := hfold
    have hunits : [3, 2, 1, 0] = (List.range 4).reverse := by decide
    rw [hunits, hnext]
    exact ⟨next.out, rfl, hout⟩

theorem decimalValue_lt (h : ∀ b ∈ run, isDigit b = true) : decimalValue run < 10 ^ run.length := by
  have hdigit : ∀ digit ∈ run.reverse.map fun digit => digit.toNat - 0x30, digit < 10 := by
    intro digit hmem
    obtain ⟨b, hb, rfl⟩ := List.mem_map.mp hmem
    have hb' := h b (List.mem_reverse.mp hb)
    have hbounds := digit_bounds hb'
    omega
  have hlt := Nat.ofDigits_lt_base_pow_length (by norm_num : 1 < 10) hdigit
  rwa [List.length_map, List.length_reverse] at hlt

theorem stoi_digits (h : Digits run) (hlength : run.length ≤ 4) :
    ∃ value, stoi run = .ok value ∧ 0 ≤ value ∧ value < 10000 := by
  have hlt : decimalValue run < 10000 :=
    (decimalValue_lt h.2).trans_le (Nat.pow_le_pow_right (by norm_num) hlength)
  refine ⟨decimalValue run, ?_, Int.natCast_nonneg _, by exact_mod_cast hlt⟩
  obtain ⟨first, rest, rfl⟩ := List.exists_cons_of_ne_nil h.1
  have hfirst := h.2 first List.mem_cons_self
  have hother : isSpace first = false ∧ first ≠ 0x2B ∧ first ≠ 0x2D :=
    forall_byte (p := fun b => isDigit b = true → isSpace b = false ∧ b ≠ 0x2B ∧ b ≠ 0x2D)
      (by decide +kernel) first hfirst
  obtain ⟨hspace, hplus, hminus⟩ := hother
  have htake : (first :: rest).takeWhile isDigit = first :: rest :=
    List.takeWhile_eq_self_iff.mpr h.2
  unfold stoi
  dsimp only
  rw [List.dropWhile_cons_of_neg (by simp [hspace])]
  simp only [List.head?_cons, Option.some_beq_some, beq_eq_false_iff_ne.mpr hplus,
    beq_eq_false_iff_ne.mpr hminus, Bool.or_self, Bool.false_eq_true, if_false, htake,
    List.isEmpty_cons]
  rw [if_neg (by omega)]

theorem chineseCardinalFromDigits_ok (h : Digits run) :
    ∃ words, chineseCardinalFromDigits run = .ok words ∧ Spoken words := by
  unfold chineseCardinalFromDigits
  split_ifs with hempty hlong
  · exact ⟨[], rfl, spoken_nil⟩
  · exact chineseDigitsIndividually_ok h.2 true
  · obtain ⟨value, hvalue, hnonneg, hlt⟩ := stoi_digits h (by omega)
    rw [hvalue]
    exact chineseCardinalUnder10000_ok hnonneg hlt

/-! ## Expressions -/

inductive Amount : Bytes → Prop
  | whole {digits : Bytes} (h : Digits digits) : Amount digits
  | decimal {digits decimals : Bytes} (h : Digits digits) (h' : Digits decimals) :
      Amount (digits ++ 0x2E :: decimals)

inductive Expression : Bytes → Prop
  | telephone {area exchange line : Bytes} (h : Digits area) (h' : Digits exchange)
      (h'' : Digits line) (hlength : area.length = 3 ∧ exchange.length = 4 ∧ line.length = 4) :
      Expression (area ++ 0x2D :: (exchange ++ 0x2D :: line))
  | date {year month day : Bytes} (h : Digits year) (h' : Digits month) (h'' : Digits day)
      (hlength : year.length = 4 ∧ month.length ≤ 2 ∧ day.length ≤ 2) :
      Expression (year ++ 0x2F :: (month ++ 0x2F :: day))
  | zeroMinutes {hour : Bytes} (h : Digits hour) (hlength : hour.length ≤ 2) :
      Expression (hour ++ [0x3A, 0x30, 0x30])
  | percentage {amount : Bytes} (h : Amount amount) : Expression (amount ++ [0x25])
  | fraction {numerator denominator : Bytes} (h : Digits numerator) (h' : Digits denominator) :
      Expression (numerator ++ 0x2F :: denominator)
  | price {amount : Bytes} (h : Amount amount) : Expression (0x24 :: amount)
  | speed {digits : Bytes} (h : Digits digits) : Expression (digits ++ bytes "km/h")
  | amount {amount : Bytes} (h : Amount amount) : Expression amount

/-- An expression gives way to words, or to a text with no more digits than it has. -/
def Reading (piece inserted : Bytes) : Prop :=
  Expression piece ∧ IsUtf8 inserted ∧ inserted.countP isDigit ≤ piece.countP isDigit

theorem countP_spoken (h : Spoken words) : words.countP isDigit = 0 :=
  List.countP_eq_zero.mpr fun b hb => by simp [h.2 b hb]

theorem Expression.reading (h : Expression piece) (hwords : Spoken words) : Reading piece words :=
  ⟨h, hwords.1, (countP_spoken hwords).trans_le (Nat.zero_le _)⟩

theorem digits_takeWhile (h : startsInDigit text = true) : Digits (text.takeWhile isDigit) := by
  cases text with
  | nil => exact nomatch h
  | cons ch text =>
    have hch : isDigit ch = true := h
    refine ⟨?_, fun b hb => List.mem_takeWhile_imp hb⟩
    rw [List.takeWhile_cons_of_pos hch]
    exact List.cons_ne_nil _ _

theorem decimalPart_some {decimals rest : Bytes} (h : decimalPart text = some (decimals, rest)) :
    text = 0x2E :: (decimals ++ rest) ∧ Digits decimals := by
  unfold decimalPart at h
  split_ifs at h with hpoint
  obtain ⟨rfl, rfl⟩ := Prod.mk.inj (Option.some.inj h)
  rw [Bool.and_eq_true, beq_iff_eq] at hpoint
  rw [List.takeWhile_append_dropWhile]
  exact ⟨(List.eq_cons_of_mem_head? (Option.mem_def.mpr hpoint.1)), digits_takeWhile hpoint.2⟩

theorem readPrice_ok (h : startsInDigit text = true) : ∃ words amount rest,
    readPrice text = .ok (words, rest) ∧ amount ++ rest = text ∧ Amount amount ∧ Spoken words := by
  have hdigits := digits_takeWhile h
  obtain ⟨whole, hwhole, hspoken⟩ := chineseCardinalFromDigits_ok hdigits
  have hdollar : Spoken (bytes "美元") := spoken_bytes (by decide)
  unfold readPrice
  rw [hwhole]
  cases hpart : decimalPart (text.dropWhile isDigit) with
  | none =>
    exact ⟨_, _, _, rfl, List.takeWhile_append_dropWhile, .whole hdigits,
      hspoken.append hdollar⟩
  | some part =>
    obtain ⟨decimals, rest⟩ := part
    obtain ⟨hbehind, hdecimals⟩ := decimalPart_some hpart
    obtain ⟨words, hwords, hspoken'⟩ := chineseDigitsIndividually_ok hdecimals.2 false
    refine ⟨whole ++ bytes "点" ++ words ++ bytes "美元",
      text.takeWhile isDigit ++ 0x2E :: decimals, rest, ?_, ?_, .decimal hdigits hdecimals,
      ((hspoken.append (spoken_bytes (by decide))).append hspoken').append hdollar⟩
    · dsimp only
      rw [hwords]
      rfl
    · rw [List.append_assoc, List.cons_append, ← hbehind, List.takeWhile_append_dropWhile]

theorem readNumber_ok (h : startsInDigit text = true) : ∃ words piece rest,
    readNumber text = .ok (words, rest) ∧ piece ++ rest = text ∧ Expression piece ∧
      Spoken words := by
  have hdigits := digits_takeWhile h
  have htext : text.takeWhile isDigit ++ text.dropWhile isDigit = text :=
    List.takeWhile_append_dropWhile
  obtain ⟨whole, hwhole, hspoken⟩ := chineseCardinalFromDigits_ok hdigits
  unfold readNumber
  dsimp only
  rw [hwhole]
  by_cases hspeed : (bytes "km/h").isPrefixOf (text.dropWhile isDigit) = true
  · rw [if_pos hspeed]
    obtain ⟨rest, hrest⟩ := List.isPrefixOf_iff_prefix.mp hspeed
    refine ⟨_, _, _, rfl, ?_, .speed hdigits,
      ((spoken_bytes (by decide)).append hspoken).append (spoken_bytes (by decide))⟩
    have hdrop : (text.dropWhile isDigit).drop 4 = rest := by
      rw [← hrest]
      rfl
    rw [List.append_assoc, hdrop, hrest, htext]
  · rw [if_neg hspeed]
    cases hpart : decimalPart (text.dropWhile isDigit) with
    | some part =>
      obtain ⟨decimals, rest⟩ := part
      obtain ⟨hbehind, hdecimals⟩ := decimalPart_some hpart
      obtain ⟨words, hwords, hspoken'⟩ := chineseDigitsIndividually_ok hdecimals.2 false
      refine ⟨whole ++ bytes "点" ++ words, text.takeWhile isDigit ++ 0x2E :: decimals, rest, ?_,
        ?_, .amount (.decimal hdigits hdecimals),
        (hspoken.append (spoken_bytes (by decide))).append hspoken'⟩
      · dsimp only
        rw [hwords]
        rfl
      · rw [List.append_assoc, List.cons_append, ← hbehind, htext]
    | none =>
      dsimp only
      split_ifs
      · obtain ⟨words, hwords, hspoken'⟩ := chineseDigitsIndividually_ok hdigits.2 false
        rw [hwords]
        exact ⟨_, _, _, rfl, htext, .amount (.whole hdigits), hspoken'⟩
      · exact ⟨_, _, _, rfl, htext, .amount (.whole hdigits), spoken_bytes (by decide)⟩
      · exact ⟨_, _, _, rfl, htext, .amount (.whole hdigits), hspoken⟩

def IsNumeric (b : UInt8) : Prop := isDigit b = true ∨ b ∈ bytes "-/:%.$kmh"

theorem IsNumeric.ascii {b : UInt8} (h : IsNumeric b) : b ≤ 0x7F := by
  unfold IsNumeric at h
  revert b
  apply forall_byte
  decide +kernel

theorem Digits.keyed (h : Digits run) : Keyed IsNumeric (fun b => isDigit b = true) run := by
  obtain ⟨first, hfirst⟩ := List.exists_mem_of_ne_nil run h.1
  exact ⟨fun b hb => .inl (h.2 b hb), first, hfirst, h.2 first hfirst⟩

theorem keyed_append {front back : Bytes}
    (hfront : Keyed IsNumeric (fun b => isDigit b = true) front) (hback : ∀ b ∈ back, IsNumeric b) :
    Keyed IsNumeric (fun b => isDigit b = true) (front ++ back) := by
  obtain ⟨hinside, b, hb, hdigit⟩ := hfront
  exact ⟨List.forall_mem_append.mpr ⟨hinside, hback⟩, b, List.mem_append_left _ hb, hdigit⟩

theorem Amount.keyed {amount : Bytes} (h : Amount amount) :
    Keyed IsNumeric (fun b => isDigit b = true) amount := by
  cases h with
  | whole h => exact h.keyed
  | decimal h h' =>
    exact keyed_append h.keyed (List.forall_mem_cons.mpr ⟨.inr (by decide), h'.keyed.1⟩)

theorem Expression.keyed (h : Expression piece) :
    Keyed IsNumeric (fun b => isDigit b = true) piece := by
  have hsign : ∀ sign ∈ bytes "-/:%.$kmh", IsNumeric sign := fun sign hsign => .inr hsign
  cases h with
  | telephone h h' h'' =>
    have hline := List.forall_mem_cons.mpr ⟨hsign 0x2D (by decide), h''.keyed.1⟩
    exact keyed_append h.keyed (List.forall_mem_cons.mpr
      ⟨hsign 0x2D (by decide), List.forall_mem_append.mpr ⟨h'.keyed.1, hline⟩⟩)
  | date h h' h'' =>
    have hday := List.forall_mem_cons.mpr ⟨hsign 0x2F (by decide), h''.keyed.1⟩
    exact keyed_append h.keyed (List.forall_mem_cons.mpr
      ⟨hsign 0x2F (by decide), List.forall_mem_append.mpr ⟨h'.keyed.1, hday⟩⟩)
  | zeroMinutes h =>
    refine keyed_append h.keyed fun b hb => ?_
    simp only [List.mem_cons, List.not_mem_nil, or_false] at hb
    rcases hb with rfl | rfl | rfl
    · exact hsign _ (by decide)
    · exact .inl (by decide)
    · exact .inl (by decide)
  | percentage h =>
    exact keyed_append h.keyed (List.forall_mem_singleton.mpr (hsign 0x25 (by decide)))
  | fraction h h' =>
    exact keyed_append h.keyed (List.forall_mem_cons.mpr ⟨hsign 0x2F (by decide), h'.keyed.1⟩)
  | price h =>
    obtain ⟨hinside, b, hb, hdigit⟩ := h.keyed
    exact ⟨List.forall_mem_cons.mpr ⟨hsign 0x24 (by decide), hinside⟩, b,
      List.mem_cons_of_mem _ hb, hdigit⟩
  | speed h =>
    exact keyed_append h.keyed fun b hb => hsign b (by revert b; decide +kernel)
  | amount h => exact h.keyed

theorem Expression.countP_pos (h : Expression piece) : 0 < piece.countP isDigit :=
  List.countP_pos_iff.mpr h.keyed.2

theorem Keyed.isUtf8 (h : Keyed IsNumeric (fun b => isDigit b = true) piece) : IsUtf8 piece :=
  isUtf8_ascii fun b hb => (h.1 b hb).ascii

theorem Reading.isUtf8 {before inserted behind : Bytes} (h : Reading piece inserted)
    (htext : IsUtf8 (before ++ (piece ++ behind))) : IsUtf8 (before ++ (inserted ++ behind)) := by
  have hkeyed := h.1.keyed
  obtain ⟨hbefore, hrest⟩ := htext.split fun ch hch => by
    obtain ⟨first, rest, rfl⟩ :=
      List.exists_cons_of_ne_nil (List.ne_nil_of_mem hkeyed.2.choose_spec.1)
    rw [List.cons_append, List.head?_cons, Option.mem_some_iff] at hch
    rw [← hch]
    exact not_continuation_of_ascii (hkeyed.1 first List.mem_cons_self).ascii
  exact hbefore.append (h.2.1.append ((Keyed.isUtf8 hkeyed).of_append hrest))

theorem isUtf8_rewrites (h : Rewrites Reading text later) (htext : IsUtf8 text) : IsUtf8 later :=
  h.keeps (fun _ _ _ _ hreading => hreading.isUtf8) htext

theorem countP_rewrites (h : Rewrites Reading text later) :
    later.countP isDigit ≤ text.countP isDigit := by
  refine h.keeps (Q := fun later => later.countP isDigit ≤ text.countP isDigit)
    (fun before behind piece inserted hpiece hle => ?_) (le_refl _)
  simp only [List.countP_append] at hle ⊢
  have hless := hpiece.2.2
  omega

/-! ## Reading a whole text -/

theorem numbersWithin_ok {fuel : ℕ} (h : text.length ≤ fuel) :
    ∃ out, numbersWithin fuel text = .ok out ∧ Rewrites Reading text out ∧
      ∀ b ∈ out, isDigit b = false := by
  induction fuel generalizing text with
  | zero =>
    rw [List.length_eq_zero_iff.mp (Nat.le_zero.mp h)]
    exact ⟨[], rfl, .refl, nofun⟩
  | succ fuel ih =>
    cases text with
    | nil => exact ⟨[], rfl, .refl, nofun⟩
    | cons ch text =>
      -- an expression that is read, and the scan of what follows it
      have hread : ∀ {piece rest words : Bytes}, piece ++ rest = ch :: text → Expression piece →
          Spoken words → ∃ out, numbersWithin fuel rest = .ok out ∧
            Rewrites Reading (ch :: text) (words ++ out) ∧
              ∀ b ∈ words ++ out, isDigit b = false := by
        intro piece rest words htext hpiece hwords
        have hlength := congrArg List.length htext
        have hpos := hpiece.countP_pos.trans_le List.countP_le_length
        rw [List.length_append, List.length_cons] at hlength
        rw [List.length_cons] at h
        have hshort : rest.length ≤ fuel := by omega
        obtain ⟨out, hout, hrewrites, hnone⟩ := ih hshort
        refine ⟨out, hout, ?_, List.forall_mem_append.mpr ⟨hwords.2, hnone⟩⟩
        rw [← htext]
        exact (Relation.ReflTransGen.single
          (Replaces.at [] rest (hpiece.reading hwords))).trans (hrewrites.front words)
      rw [numbersWithin]
      split_ifs with hprice hdigit
      · rw [Bool.and_eq_true, beq_iff_eq] at hprice
        obtain ⟨words, amount, rest, hok, htext, hamount, hwords⟩ := readPrice_ok hprice.2
        have hall : 0x24 :: amount ++ rest = ch :: text := by
          rw [hprice.1, ← htext, List.cons_append]
        obtain ⟨out, hout, hrest⟩ := hread hall (.price hamount) hwords
        rw [hok]
        dsimp only [bind, Except.bind]
        rw [hout]
        exact ⟨_, rfl, hrest⟩
      · rw [Bool.not_eq_true'] at hdigit
        obtain ⟨out, hout, hrewrites, hnone⟩ := ih (Nat.le_of_succ_le_succ h)
        rw [hout]
        exact ⟨ch :: out, rfl, hrewrites.front [ch], List.forall_mem_cons.mpr ⟨hdigit, hnone⟩⟩
      · have hstarts : startsInDigit (ch :: text) = true := by simpa [startsInDigit] using hdigit
        obtain ⟨words, piece, rest, hok, htext, hpiece, hwords⟩ := readNumber_ok hstarts
        obtain ⟨out, hout, hrest⟩ := hread htext hpiece hwords
        rw [hok]
        dsimp only [bind, Except.bind]
        rw [hout]
        exact ⟨_, rfl, hrest⟩

theorem normalizeChineseNumbers_ok (text : Bytes) :
    ∃ out, normalizeChineseNumbers text = .ok out ∧ Rewrites Reading text out ∧
      ∀ b ∈ out, isDigit b = false :=
  numbersWithin_ok (le_refl _)

theorem normalizeChineseNumbers_spoken (h : ∀ b ∈ text, isDigit b = false) :
    normalizeChineseNumbers text = .ok text := by
  unfold normalizeChineseNumbers
  induction text with
  | nil => rfl
  | cons ch text ih =>
    obtain ⟨hch, hrest⟩ := List.forall_mem_cons.mp h
    have hstarts : startsInDigit text = false := by
      cases text with
      | nil => rfl
      | cons next text => exact hrest next List.mem_cons_self
    rw [List.length_cons, numbersWithin, hstarts, Bool.and_false, if_neg Bool.false_ne_true, hch,
      Bool.not_false, if_pos rfl, ih hrest]
    rfl

end FastTts.ChineseNumbers
