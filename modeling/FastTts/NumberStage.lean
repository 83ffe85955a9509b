import FastTts.Backtracking
import FastTts.ChineseNumbers

/-!
# The number stage

`normalize_index_tts_chinese_text` rewrites telephone numbers, dates, full hours, percentages and
fractions, each in a pass of its own, and then reads the other numbers. Three of the passes search
the whole text again after every replacement. They end, since each replacement takes digits away.
-/

namespace FastTts.NumberStage

open Backtracking TextEdits Utf8Spans ChineseNumbers

/-! ## The passes -/

/-- A computation that may throw; there is no result where the fuel of a loop runs out. -/
abbrev Run := ExceptT Exception Option

def digitRun (least : ℕ) (most : Option ℕ) : Pattern UInt8 := .group (.run isDigit least most)

def byte (b : UInt8) : Pattern UInt8 := .one (· == b)

def group (way : Way UInt8) (index : ℕ) : Bytes := way.groups.getD (index - 1) []

/-- `std::regex_replace`: what the pattern finds is replaced, one place behind the other. -/
def regexReplace (p : Pattern UInt8) (inserted : Way UInt8 → Bytes) (text : Bytes) : Bytes :=
  ((hits p text).1.flatMap fun hit => hit.1 ++ inserted hit.2) ++ (hits p text).2

/-- The loop that searches again, from the beginning, behind every replacement. -/
def replaceFound (p : Pattern UInt8) (inserted : Way UInt8 → Except Exception Bytes) :
    ℕ → Bytes → Run Bytes
  | 0, _ => ExceptT.mk none
  | fuel + 1, text => match search p text with
    | none => pure text
    | some (before, way) => do
      let inserted' ← ExceptT.mk (some (inserted way))
      replaceFound p inserted fuel (before ++ (inserted' ++ way.rest))

def phonePattern : Pattern UInt8 :=
  .seq (digitRun 3 (some 3)) (.seq (byte 0x2D) (.seq (digitRun 4 (some 4))
    (.seq (byte 0x2D) (digitRun 4 (some 4)))))

def normalizeTelephoneRuns : ℕ → Bytes → Run Bytes :=
  replaceFound phonePattern fun way =>
    chineseDigitsIndividually (group way 1 ++ group way 2 ++ group way 3) false

def datePattern : Pattern UInt8 :=
  .seq (digitRun 4 (some 4)) (.seq (byte 0x2F) (.seq (digitRun 1 (some 2))
    (.seq (byte 0x2F) (digitRun 1 (some 2)))))

def normalizeDateSeparators : Bytes → Bytes :=
  regexReplace datePattern fun way =>
    group way 1 ++ bytes "年" ++ group way 2 ++ bytes "月" ++ group way 3 ++ bytes "日"

def timePattern : Pattern UInt8 :=
  .seq (digitRun 1 (some 2)) (.seq (byte 0x3A) (.seq (byte 0x30) (byte 0x30)))

def normalizeTimeZeroMinutes : Bytes → Bytes :=
  regexReplace timePattern fun way => group way 1 ++ bytes "点"

def percentPattern : Pattern UInt8 :=
  .seq (.group (.seq (.plus isDigit) (.opt (.seq (byte 0x2E) (.plus isDigit))))) (byte 0x25)

def normalizePercentages : ℕ → Bytes → Run Bytes :=
  replaceFound percentPattern fun way => do
    return bytes "百分之" ++ (← normalizeChineseNumbers (group way 1))

def fractionPattern : Pattern UInt8 :=
  .seq (digitRun 1 none) (.seq (byte 0x2F) (digitRun 1 none))

def normalizeFractions : ℕ → Bytes → Run Bytes :=
  replaceFound fractionPattern fun way => do
    return (← chineseCardinalFromDigits (group way 2)) ++ bytes "分之" ++
      (← chineseCardinalFromDigits (group way 1))

/-- The passes in the order of `normalize_index_tts_chinese_text`. -/
def numberStage (fuel : ℕ) (text : Bytes) : Run Bytes := do
  let out ← normalizeTelephoneRuns fuel text
  let out := normalizeDateSeparators out
  let out := normalizeTimeZeroMinutes out
  let out ← normalizePercentages fuel out
  let out ← normalizeFractions fuel out
  ExceptT.mk (some (normalizeChineseNumbers out))

/-! ## What the patterns find -/

variable {text : Bytes} {way : Way UInt8}

theorem ways_byte {b : UInt8} (h : way ∈ ways (byte b) text) :
    way.taken = [b] ∧ way.groups = [] := by
  obtain ⟨-, hgroups, haccepts, hleast, hmost⟩ := mem_ways_run h
  have hlength : way.taken.length = 1 := le_antisymm (hmost 1 rfl) hleast
  obtain ⟨found, htaken⟩ := List.length_eq_one_iff.mp hlength
  have hfound := haccepts found (by rw [htaken]; exact List.mem_singleton_self found)
  rw [beq_iff_eq] at hfound
  exact ⟨hfound ▸ htaken, hgroups⟩

variable {least : ℕ} {most : Option ℕ} {p : Pattern UInt8}

theorem ways_digits (h : way ∈ ways (.run isDigit least most) text) (hpos : 0 < least) :
    Digits way.taken ∧ way.groups = [] ∧ least ≤ way.taken.length ∧
      ∀ bound, most = some bound → way.taken.length ≤ bound := by
  obtain ⟨-, hgroups, haccepts, hleast, hmost⟩ := mem_ways_run h
  exact ⟨⟨List.length_pos_iff.mp (hpos.trans_le hleast), haccepts⟩, hgroups, hleast, hmost⟩

theorem ways_digitRun (h : way ∈ ways (digitRun least most) text) (hpos : 0 < least) :
    Digits way.taken ∧ way.groups = [way.taken] ∧ least ≤ way.taken.length ∧
      ∀ bound, most = some bound → way.taken.length ≤ bound := by
  obtain ⟨inner, hinner, rfl⟩ := mem_ways_group.mp h
  obtain ⟨hdigits, hgroups, hlength⟩ := ways_digits hinner hpos
  exact ⟨hdigits, congrArg (inner.taken :: ·) hgroups, hlength⟩

theorem ways_three {sign : UInt8} {least₁ least₂ least₃ : ℕ} {most₁ most₂ most₃ : Option ℕ}
    (hpos : 0 < least₁ ∧ 0 < least₂ ∧ 0 < least₃)
    (h : way ∈ ways (.seq (digitRun least₁ most₁) (.seq (byte sign) (.seq (digitRun least₂ most₂)
      (.seq (byte sign) (digitRun least₃ most₃))))) text) :
    ∃ first second third, way.taken = first ++ sign :: (second ++ sign :: third) ∧
      way.groups = [first, second, third] ∧ Digits first ∧ Digits second ∧ Digits third ∧
      (least₁ ≤ first.length ∧ ∀ bound, most₁ = some bound → first.length ≤ bound) ∧
      (least₂ ≤ second.length ∧ ∀ bound, most₂ = some bound → second.length ≤ bound) ∧
      (least₃ ≤ third.length ∧ ∀ bound, most₃ = some bound → third.length ≤ bound) := by
  obtain ⟨first, hfirst, behind₁, hbehind₁, rfl⟩ := mem_ways_seq.mp h
  obtain ⟨sign₁, hsign₁, behind₂, hbehind₂, rfl⟩ := mem_ways_seq.mp hbehind₁
  obtain ⟨second, hsecond, behind₃, hbehind₃, rfl⟩ := mem_ways_seq.mp hbehind₂
  obtain ⟨sign₂, hsign₂, third, hthird, rfl⟩ := mem_ways_seq.mp hbehind₃
  obtain ⟨hdigits₁, hgroups₁, hlength₁⟩ := ways_digitRun hfirst hpos.1
  obtain ⟨hdigits₂, hgroups₂, hlength₂⟩ := ways_digitRun hsecond hpos.2.1
  obtain ⟨hdigits₃, hgroups₃, hlength₃⟩ := ways_digitRun hthird hpos.2.2
  obtain ⟨htaken₁, hnone₁⟩ := ways_byte hsign₁
  obtain ⟨htaken₂, hnone₂⟩ := ways_byte hsign₂
  refine ⟨first.taken, second.taken, third.taken, ?_, ?_, hdigits₁, hdigits₂, hdigits₃, hlength₁,
    hlength₂, hlength₃⟩
  · simp only [Way.andThen, htaken₁, htaken₂, List.singleton_append]
  · simp only [Way.andThen, hgroups₁, hgroups₂, hgroups₃, hnone₁, hnone₂, List.nil_append,
      List.singleton_append]

theorem ways_phone (h : way ∈ ways phonePattern text) :
    Expression way.taken ∧ Digits (group way 1 ++ group way 2 ++ group way 3) := by
  obtain ⟨area, exchange, line, htaken, hgroups, harea, hexchange, hline, harea', hexchange',
    hline'⟩ := ways_three (by decide) h
  have hlength : area.length = 3 ∧ exchange.length = 4 ∧ line.length = 4 :=
    ⟨le_antisymm (harea'.2 3 rfl) harea'.1, le_antisymm (hexchange'.2 4 rfl) hexchange'.1,
      le_antisymm (hline'.2 4 rfl) hline'.1⟩
  refine ⟨htaken ▸ .telephone harea hexchange hline hlength, ?_⟩
  simp only [group, hgroups]
  exact ⟨by simp [harea.1], List.forall_mem_append.mpr
    ⟨List.forall_mem_append.mpr ⟨harea.2, hexchange.2⟩, hline.2⟩⟩

theorem ways_fraction (h : way ∈ ways fractionPattern text) :
    Expression way.taken ∧ Digits (group way 1) ∧ Digits (group way 2) := by
  obtain ⟨numerator, hnumerator, behind, hbehind, rfl⟩ := mem_ways_seq.mp h
  obtain ⟨sign, hsign, denominator, hdenominator, rfl⟩ := mem_ways_seq.mp hbehind
  obtain ⟨hdigits, hgroups, -⟩ := ways_digitRun hnumerator one_pos
  obtain ⟨hdigits', hgroups', -⟩ := ways_digitRun hdenominator one_pos
  obtain ⟨htaken, hnone⟩ := ways_byte hsign
  simp only [Way.andThen, group, htaken, hgroups, hgroups', hnone, List.singleton_append,
    List.nil_append]
  exact ⟨.fraction hdigits hdigits', hdigits, hdigits'⟩

theorem ways_percent (h : way ∈ ways percentPattern text) :
    Expression way.taken ∧ Amount (group way 1) := by
  obtain ⟨amount, hamount, sign, hsign, rfl⟩ := mem_ways_seq.mp h
  obtain ⟨inner, hinner, rfl⟩ := mem_ways_group.mp hamount
  obtain ⟨whole, hwhole, decimals, hdecimals, rfl⟩ := mem_ways_seq.mp hinner
  obtain ⟨hdigits, -⟩ := ways_digits hwhole one_pos
  have hall : Amount (whole.taken ++ decimals.taken) := by
    rcases mem_ways_opt.mp hdecimals with hpoint | rfl
    · obtain ⟨point, hbyte, behind, hbehind, rfl⟩ := mem_ways_seq.mp hpoint
      simp only [Way.andThen, (ways_byte hbyte).1]
      exact .decimal hdigits (ways_digits hbehind one_pos).1
    · rw [List.append_nil]
      exact .whole hdigits
  refine ⟨?_, hall⟩
  simp only [Way.andThen, (ways_byte hsign).1]
  exact .percentage hall

theorem ways_date (h : way ∈ ways datePattern text) :
    ChineseNumbers.Reading way.taken
      (group way 1 ++ bytes "年" ++ group way 2 ++ bytes "月" ++ group way 3 ++ bytes "日") := by
  obtain ⟨year, month, day, htaken, hgroups, hyear, hmonth, hday, hyear', hmonth', hday'⟩ :=
    ways_three (by decide) h
  have hlength : year.length = 4 ∧ month.length ≤ 2 ∧ day.length ≤ 2 :=
    ⟨le_antisymm (hyear'.2 4 rfl) hyear'.1, hmonth'.2 2 rfl, hday'.2 2 rfl⟩
  have hfirst : group way 1 = year := by rw [group, hgroups]; rfl
  have hsecond : group way 2 = month := by rw [group, hgroups]; rfl
  have hthird : group way 3 = day := by rw [group, hgroups]; rfl
  rw [hfirst, hsecond, hthird]
  refine ⟨htaken ▸ .date hyear hmonth hday hlength, ?_, ?_⟩
  · exact ((((hyear.isUtf8.append (isUtf8_bytes _)).append hmonth.isUtf8).append
      (isUtf8_bytes _)).append hday.isUtf8).append (isUtf8_bytes _)
  · have hyears : (bytes "年").countP isDigit = 0 := by decide
    have hmonths : (bytes "月").countP isDigit = 0 := by decide
    have hdays : (bytes "日").countP isDigit = 0 := by decide
    rw [htaken]
    simp only [List.countP_append, List.countP_cons, hyears, hmonths, hdays]
    omega

theorem ways_time (h : way ∈ ways timePattern text) :
    ChineseNumbers.Reading way.taken (group way 1 ++ bytes "点") := by
  obtain ⟨hour, hhour, behind₁, hbehind₁, rfl⟩ := mem_ways_seq.mp h
  obtain ⟨colon, hcolon, behind₂, hbehind₂, rfl⟩ := mem_ways_seq.mp hbehind₁
  obtain ⟨zero₁, hzero₁, zero₂, hzero₂, rfl⟩ := mem_ways_seq.mp hbehind₂
  obtain ⟨hdigits, hgroups, -, hmost⟩ := ways_digitRun hhour one_pos
  have hfirst : group (hour.andThen (colon.andThen (zero₁.andThen zero₂))) 1 = hour.taken := by
    simp only [group, Way.andThen, hgroups]
    rfl
  rw [hfirst]
  simp only [Way.andThen, (ways_byte hcolon).1, (ways_byte hzero₁).1, (ways_byte hzero₂).1]
  refine ⟨.zeroMinutes hdigits (hmost 2 rfl), hdigits.isUtf8.append (isUtf8_bytes _), ?_⟩
  have hhours : (bytes "点").countP isDigit = 0 := by decide
  rw [List.countP_append, List.countP_append, hhours]
  omega

/-! ## The passes rewrite expressions -/

theorem regexReplace_rewrites {P : Bytes → Bytes → Prop} {inserted : Way UInt8 → Bytes}
    (hp : ∀ text, ∀ way ∈ ways p text, P way.taken (inserted way)) (text : Bytes) :
    Rewrites P text (regexReplace p inserted text) := by
  rw [regexReplace, hits]
  generalize text.length = fuel
  induction fuel generalizing text with
  | zero => exact .refl
  | succ fuel ih =>
    rw [hitsWithin]
    cases hfound : search p text with
    | none => exact .refl
    | some found =>
      obtain ⟨before, way⟩ := found
      obtain ⟨htext, hmatch⟩ := search_some hfound
      dsimp only
      split_ifs
      · exact .refl
      · have hfirst : Replaces P text (before ++ (inserted way ++ way.rest)) := by
          nth_rewrite 1 [← htext]
          exact .at before way.rest (hp _ way (matchAt_mem hmatch))
        have hrest := (ih way.rest).front (before ++ inserted way)
        rw [List.append_assoc] at hrest
        rw [List.flatMap_cons, List.append_assoc]
        exact .head hfirst hrest

theorem replaceFound_ok {inserted : Way UInt8 → Except Exception Bytes}
    (hp : ∀ text, ∀ way ∈ ways p text, Expression way.taken ∧
      ∃ words, inserted way = .ok words ∧ Spoken words) (text : Bytes) :
    ∃ out, (∀ fuel, text.countP isDigit < fuel → replaceFound p inserted fuel text = pure out) ∧
      Rewrites ChineseNumbers.Reading text out := by
  induction hcount : text.countP isDigit using Nat.strong_induction_on generalizing text with
  | _ count ih =>
    cases hfound : search p text with
    | none =>
      refine ⟨text, fun fuel hfuel => ?_, .refl⟩
      obtain ⟨fuel, rfl⟩ := Nat.exists_eq_succ_of_ne_zero (by omega : fuel ≠ 0)
      rw [replaceFound, hfound]
    | some found =>
      obtain ⟨before, way⟩ := found
      obtain ⟨htext, hmatch⟩ := search_some hfound
      obtain ⟨hexpression, words, hwords, hspoken⟩ := hp _ way (matchAt_mem hmatch)
      have hfirst : Replaces ChineseNumbers.Reading text (before ++ (words ++ way.rest)) := by
        rw [← htext]
        exact .at before way.rest (hexpression.reading hspoken)
      have hless : (before ++ (words ++ way.rest)).countP isDigit < count := by
        have hdigits := hexpression.countP_pos
        rw [← hcount, ← htext]
        simp only [List.countP_append, countP_spoken hspoken]
        omega
      obtain ⟨out, hout, hrest⟩ := ih _ hless _ rfl
      refine ⟨out, fun fuel hfuel => ?_, .head hfirst hrest⟩
      obtain ⟨fuel, rfl⟩ := Nat.exists_eq_succ_of_ne_zero (by omega : fuel ≠ 0)
      rw [replaceFound, hfound]
      dsimp only
      rw [hwords]
      exact hout fuel (by omega)

theorem normalizeTelephoneRuns_ok (text : Bytes) : ∃ out,
    (∀ fuel, text.countP isDigit < fuel → normalizeTelephoneRuns fuel text = pure out) ∧
      Rewrites ChineseNumbers.Reading text out := by
  refine replaceFound_ok (fun text way hway => ?_) text
  obtain ⟨hexpression, hdigits⟩ := ways_phone hway
  exact ⟨hexpression, chineseDigitsIndividually_ok hdigits.2 false⟩

theorem normalizePercentages_ok (text : Bytes) : ∃ out,
    (∀ fuel, text.countP isDigit < fuel → normalizePercentages fuel text = pure out) ∧
      Rewrites ChineseNumbers.Reading text out := by
  refine replaceFound_ok (fun text way hway => ?_) text
  obtain ⟨hexpression, hamount⟩ := ways_percent hway
  obtain ⟨words, hwords, hrewrites, hnone⟩ := normalizeChineseNumbers_ok (group way 1)
  have hutf8 := isUtf8_rewrites hrewrites (Keyed.isUtf8 hamount.keyed)
  rw [hwords]
  exact ⟨hexpression, _, rfl, (spoken_bytes (by decide)).append ⟨hutf8, hnone⟩⟩

theorem normalizeFractions_ok (text : Bytes) : ∃ out,
    (∀ fuel, text.countP isDigit < fuel → normalizeFractions fuel text = pure out) ∧
      Rewrites ChineseNumbers.Reading text out := by
  refine replaceFound_ok (fun text way hway => ?_) text
  obtain ⟨hexpression, hnumerator, hdenominator⟩ := ways_fraction hway
  obtain ⟨numerator, hnum, hspoken⟩ := chineseCardinalFromDigits_ok hnumerator
  obtain ⟨denominator, hden, hspoken'⟩ := chineseCardinalFromDigits_ok hdenominator
  rw [hden, hnum]
  exact ⟨hexpression, _, rfl, (hspoken'.append (spoken_bytes (by decide))).append hspoken⟩

/-- The stage ends without an exception. It replaces numeric expressions one after the other and
keeps all around them, so that the text between the pieces that it has edited is still there. No
digit is left, and a second scan for numbers changes nothing. -/
theorem numberStage_reads {text : Bytes} (h : IsUtf8 text) : ∃ out,
    (∀ fuel, text.length < fuel → numberStage fuel text = pure out) ∧ IsUtf8 out ∧
      (∀ b ∈ out, isDigit b = false) ∧ Rewrites ChineseNumbers.Reading text out ∧
      Edits IsNumeric (fun b => isDigit b = true) text out ∧
      normalizeChineseNumbers out = .ok out := by
  obtain ⟨out₁, hphone, hrewrites₁⟩ := normalizeTelephoneRuns_ok text
  have hrewrites₂ := hrewrites₁.trans (regexReplace_rewrites (fun _ _ => ways_date) out₁)
  have hrewrites₃ := hrewrites₂.trans (regexReplace_rewrites (fun _ _ => ways_time) _)
  obtain ⟨out₄, hpercent, hrewrites₄⟩ :=
    normalizePercentages_ok (normalizeTimeZeroMinutes (normalizeDateSeparators out₁))
  have hrewrites₄ := hrewrites₃.trans hrewrites₄
  obtain ⟨out₅, hfraction, hrewrites₅⟩ := normalizeFractions_ok out₄
  have hrewrites₅ := hrewrites₄.trans hrewrites₅
  obtain ⟨out, hout, hrewrites, hnone⟩ := normalizeChineseNumbers_ok out₅
  have hrewrites := hrewrites₅.trans hrewrites
  refine ⟨out, fun fuel hfuel => ?_, isUtf8_rewrites hrewrites h, hnone, hrewrites,
    Rewrites.edits hrewrites fun piece inserted hpiece => hpiece.1.keyed,
    normalizeChineseNumbers_spoken hnone⟩
  have hdigits : text.countP isDigit < fuel := List.countP_le_length.trans_lt hfuel
  unfold numberStage
  rw [hphone fuel hdigits, pure_bind]
  dsimp only
  rw [hpercent fuel ((countP_rewrites hrewrites₃).trans_lt hdigits), pure_bind,
    hfraction fuel ((countP_rewrites hrewrites₄).trans_lt hdigits), pure_bind, hout]
  rfl

/-- A share of a price. -/
theorem numberStage_reads_price : ∃ out,
    (∀ fuel, (bytes "$5/8").length < fuel → numberStage fuel (bytes "$5/8") = pure out) ∧
      IsUtf8 out ∧ (∀ b ∈ out, isDigit b = false) ∧
      Rewrites ChineseNumbers.Reading (bytes "$5/8") out ∧
      Edits IsNumeric (fun b => isDigit b = true) (bytes "$5/8") out ∧
      normalizeChineseNumbers out = .ok out :=
  numberStage_reads (isUtf8_bytes _)

end FastTts.NumberStage
