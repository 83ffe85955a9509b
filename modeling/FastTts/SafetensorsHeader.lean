import FastTts.Safetensors
import FastTts.Utf8Spans

/-!
# What the reader finds in a written header

The reader takes a written header tensor by tensor. A string comes back without its control
characters, and a number comes back where it fits in an `int64_t`.
-/

namespace FastTts.Safetensors

open Utf8Spans (forall_byte)
open JsonText (natText intText digitsValue readSign joined joined_cons_cons arrayText natText_spec
  span_digits readSign_digits)

/-! ## Bytes -/

variable {ch : UInt8}

theorem skipWs_cons (h : isSpace ch = false) (text : Bytes) : skipWs (ch :: text) = ch :: text :=
  List.dropWhile_cons_of_neg (by simp [h])

@[simp] theorem accept_self (h : isSpace ch = false) (text : Bytes) :
    accept ch (ch :: text) = some text := by
  rw [accept, skipWs_cons h]
  exact if_pos rfl

variable {expected : UInt8} {fuel : ℕ}

theorem accept_other (h : isSpace ch = false) (hne : ch ≠ expected) (text : Bytes) :
    accept expected (ch :: text) = none := by
  rw [accept, skipWs_cons h]
  exact if_neg hne

theorem expectChar_self (ch : UInt8) (h : isSpace ch = false) (text : Bytes) :
    expectChar ch (ch :: text) = .ok text := by
  rw [expectChar, accept_self h]

variable (close : UInt8) (n : ℕ) (numbers : List ℕ)

theorem behindItem_comma (text : Bytes) : behindItem close (0x2C :: text) = some (true, text) := by
  rw [behindItem, accept_self rfl]

theorem behindItem_close (h : isSpace close = false) (hne : close ≠ 0x2C) (text : Bytes) :
    behindItem close (close :: text) = some (false, text) := by
  rw [behindItem, accept_other h hne, accept_self h]
  rfl

/-! ## Strings -/

/-- What is read of a byte that was written. -/
def readByte (ch : UInt8) : Bytes :=
  if ch = 0x5C ∨ ch = 0x22 then [ch] else (escapeByte ch).filter (· ≠ 0x5C)

def readBack (value : Bytes) : Bytes := value.flatMap readByte

def Printed (value : Bytes) : Prop := ∀ ch ∈ value, 0x20 ≤ ch

theorem stringBody_plain (hslash : ch ≠ 0x5C) (hquote : ch ≠ 0x22) (out text : Bytes) :
    stringBody out (ch :: text) = stringBody (out ++ [ch]) text := by
  rw [stringBody.eq_def]
  exact (if_neg hslash).trans (if_neg hquote)

theorem stringBody_quote (out text : Bytes) : stringBody out (0x22 :: text) = .ok (out, text) := by
  rw [stringBody.eq_def]
  rfl

theorem stringBody_escaped (ch : UInt8) (out text : Bytes) :
    stringBody out (0x5C :: ch :: text) = stringBody (out ++ [ch]) text := by
  rw [stringBody, if_pos rfl]

theorem hexDigit_plain {digit : ℕ} (h : digit < 16) :
    hexDigit digit ≠ 0x5C ∧ hexDigit digit ≠ 0x22 ∧ 0x20 ≤ hexDigit digit := by
  interval_cases digit <;> decide

theorem nibble_lt : n &&& 0x0F < 16 :=
  lt_of_le_of_lt Nat.and_le_right (by decide)

theorem stringBody_escapeByte (ch : UInt8) (out text : Bytes) :
    stringBody out (escapeByte ch ++ text) = stringBody (out ++ readByte ch) text := by
  by_cases hquoted : ch = 0x5C ∨ ch = 0x22
  · have hread : readByte ch = [ch] := if_pos hquoted
    rw [hread]
    obtain rfl | rfl := hquoted
    · exact stringBody_escaped 0x5C out text
    · exact stringBody_escaped 0x22 out text
  · have hread : readByte ch = (escapeByte ch).filter (· ≠ 0x5C) := if_neg hquoted
    obtain ⟨hslash, hquote⟩ := not_or.mp hquoted
    rw [hread, escapeByte, if_neg hslash, if_neg hquote]
    split_ifs
    · exact stringBody_escaped 0x62 out text
    · exact stringBody_escaped 0x66 out text
    · exact stringBody_escaped 0x6E out text
    · exact stringBody_escaped 0x72 out text
    · exact stringBody_escaped 0x74 out text
    · obtain ⟨hhigh, hhigh', -⟩ := hexDigit_plain (nibble_lt (ch.toNat >>> 4))
      obtain ⟨hlow, hlow', -⟩ := hexDigit_plain (nibble_lt ch.toNat)
      have hu : bytes "\\u00" = [0x5C, 0x75, 0x30, 0x30] := rfl
      rw [hu]
      simp only [List.cons_append, List.nil_append, stringBody_escaped]
      rw [stringBody_plain (by decide) (by decide), stringBody_plain (by decide) (by decide),
        stringBody_plain hhigh hhigh', stringBody_plain hlow hlow']
      simp [hhigh, hlow]
    · rw [List.singleton_append, stringBody_plain hslash hquote]
      simp [hslash]

theorem stringBody_escape (value out text : Bytes) :
    stringBody out (escapeJsonString value ++ 0x22 :: text) =
      .ok (out ++ readBack value, text) := by
  induction value generalizing out with
  | nil =>
    rw [readBack, List.flatMap_nil, List.append_nil]
    exact stringBody_quote out text
  | cons ch value ih =>
    have hescape : escapeJsonString (ch :: value) = escapeByte ch ++ escapeJsonString value := rfl
    have hread : readBack (ch :: value) = readByte ch ++ readBack value := rfl
    rw [hescape, List.append_assoc, stringBody_escapeByte, ih, hread, List.append_assoc]

theorem parseString_quoted (value text : Bytes) :
    parseString (0x22 :: (escapeJsonString value ++ 0x22 :: text)) =
      .ok (readBack value, text) := by
  rw [parseString, accept_self rfl]
  exact stringBody_escape value [] text

theorem readByte_printed (ch : UInt8) : Printed (readByte ch) := by
  have hall := forall_byte (p := fun ch => (readByte ch).all (0x20 ≤ ·) = true) (by decide +kernel)
  exact fun b hb => of_decide_eq_true (List.all_eq_true.mp (hall ch) b hb)

theorem readByte_of_le (h : 0x20 ≤ ch) : readByte ch = [ch] := by
  revert ch
  apply forall_byte
  decide +kernel

theorem readBack_printed (value : Bytes) : Printed (readBack value) := by
  intro b hb
  obtain ⟨ch, -, hread⟩ := List.mem_flatMap.mp hb
  exact readByte_printed ch b hread

theorem readBack_of_printed {value : Bytes} (h : Printed value) : readBack value = value := by
  induction value with
  | nil => rfl
  | cons ch value ih =>
    have hread : readBack (ch :: value) = readByte ch ++ readBack value := rfl
    rw [hread, readByte_of_le (h ch List.mem_cons_self),
      ih fun b hb => h b (List.mem_cons_of_mem _ hb)]
    rfl

/-! ## Numbers -/

theorem digit_number (h : isDigit ch = true) : isNumberByte ch = true := by
  rw [isNumberByte, h, Bool.true_or]

theorem digit_not_space (h : isDigit ch = true) : isSpace ch = false := by
  revert ch
  apply forall_byte
  decide +kernel

theorem skipWs_digits {digits : Bytes} (hne : digits ≠ [])
    (hdigits : ∀ ch ∈ digits, isDigit ch = true) (text : Bytes) :
    skipWs (digits ++ text) = digits ++ text := by
  cases digits with
  | nil => exact absurd rfl hne
  | cons ch digits => exact skipWs_cons (digit_not_space (hdigits ch List.mem_cons_self)) _

theorem stoll_natText :
    stoll (natText n) = if n < 2 ^ 63 then .ok (n : ℤ) else .error (bytes "stoll") := by
  obtain ⟨hvalue, hdigits, hne⟩ := natText_spec n
  have hsign : readSign (natText n ++ []) = (false, natText n ++ []) :=
    readSign_digits hne hdigits
  have hskip := skipWs_digits hne hdigits []
  rw [List.append_nil] at hsign hskip
  have htake : (natText n).takeWhile isDigit = natText n := List.takeWhile_eq_self_iff.mpr hdigits
  rw [stoll, hskip, hsign]
  simp only [htake, hvalue, Bool.false_eq_true, if_false]
  have hcast : (n : ℤ) < 2 ^ 63 ↔ n < 2 ^ 63 := by omega
  have hlow : (-2 ^ 63 : ℤ) ≤ n := by omega
  simp only [ne_eq, hne, not_false_eq_true, hlow, hcast, true_and]

/-- A written number that is too large for an `int64_t` makes `stoll` throw. -/
def int64Of (n : ℕ) : Except Exception ℤ :=
  if n < 2 ^ 63 then .ok (n : ℤ) else .error (bytes "stoll")

theorem parseInt64_natText {text : Bytes} (h : ∀ ch ∈ text.head?, isNumberByte ch = false) :
    parseInt64 (natText n ++ text) = (int64Of n).map fun value => (value, text) := by
  obtain ⟨-, hdigits, hne⟩ := natText_spec n
  have hnumber : ∀ ch ∈ natText n, isNumberByte ch = true :=
    fun ch hch => digit_number (hdigits ch hch)
  have hspan : (natText n ++ text).span isNumberByte = (natText n, text) := by
    rw [List.span_eq_takeWhile_dropWhile, List.takeWhile_append_of_pos hnumber,
      List.dropWhile_append_of_pos hnumber]
    cases text with
    | nil => simp
    | cons ch text => simp [h ch rfl]
  rw [parseInt64, skipWs_digits hne hdigits text, hspan]
  simp only [hne, if_false, stoll_natText, int64Of]
  split_ifs <;> rfl

theorem accept_natText (h : isDigit expected = false) (n : ℕ) (text : Bytes) :
    accept expected (natText n ++ text) = none := by
  obtain ⟨-, hdigits, hne⟩ := natText_spec n
  cases hnat : natText n with
  | nil => exact absurd hnat hne
  | cons ch digits =>
    have hch : isDigit ch = true := hdigits ch (hnat ▸ List.mem_cons_self)
    refine accept_other (digit_not_space hch) ?_ _
    rintro rfl
    exact absurd hch (by simp [h])

theorem intArrayItems_written (hfuel : numbers.length < fuel) (values : List ℤ) (text : Bytes) :
    intArrayItems fuel values (joined (numbers.map natText) ++ 0x5D :: text) =
      (numbers.mapM int64Of).map fun read => (values ++ read, text) := by
  induction numbers generalizing fuel values with
  | nil =>
    obtain ⟨fuel, rfl⟩ := Nat.exists_eq_succ_of_ne_zero (by omega : fuel ≠ 0)
    rw [intArrayItems, List.map_nil, joined, List.nil_append, accept_self rfl]
    simp [Except.map, pure, Except.pure]
  | cons n numbers ih =>
    obtain ⟨fuel, rfl⟩ := Nat.exists_eq_succ_of_ne_zero (by omega : fuel ≠ 0)
    rw [List.length_cons] at hfuel
    cases numbers with
    | nil =>
      have htext : joined ([n].map natText) = natText n := rfl
      rw [htext, intArrayItems, accept_natText rfl, parseInt64_natText n (by simp; rfl)]
      cases hn : int64Of n with
      | error e => simp [hn, Except.map, bind, Except.bind]
      | ok value =>
        simp [hn, Except.map, bind, Except.bind, pure, Except.pure,
          behindItem_close 0x5D rfl (by decide)]
    | cons m numbers =>
      have htext : joined ((n :: m :: numbers).map natText) ++ 0x5D :: text =
          natText n ++ 0x2C :: (joined ((m :: numbers).map natText) ++ 0x5D :: text) := by
        rw [List.map_cons, List.map_cons, joined_cons_cons, List.append_assoc]
        rfl
      rw [htext, intArrayItems, accept_natText rfl, parseInt64_natText n (by simp; rfl),
        List.mapM_cons]
      cases hn : int64Of n with
      | error e => simp [Except.map, bind, Except.bind]
      | ok value =>
        have hrest := ih (by omega : (m :: numbers).length < fuel) (values ++ [value])
        simp only [Except.map, bind, Except.bind, behindItem_comma, hrest]
        cases (m :: numbers).mapM int64Of <;> simp [pure, Except.pure]

theorem parseIntArray_written (text : Bytes) :
    parseIntArray (arrayText (numbers.map natText) ++ text) =
      (numbers.mapM int64Of).map fun read => (read, text) := by
  have htext : arrayText (numbers.map natText) ++ text =
      0x5B :: (joined (numbers.map natText) ++ 0x5D :: text) := by
    rw [arrayText, List.cons_append, List.append_assoc]
    rfl
  have hlength := JsonText.length_le_joined (numbers.map natText) (by
    intro digits hdigits
    obtain ⟨n, -, rfl⟩ := List.mem_map.mp hdigits
    exact (natText_spec n).2.2)
  rw [List.length_map] at hlength
  rw [htext, parseIntArray, accept_self rfl]
  exact intArrayItems_written numbers (by rw [List.length_append]; omega) [] text

/-! ## A tensor -/

variable (member : SafeTensorWriteEntry × ℕ × ℕ)

/-- What stands behind the opening brace of a tensor. -/
def fieldsText (text : Bytes) : Bytes :=
  0x22 :: (escapeJsonString (bytes "dtype") ++ 0x22 :: 0x3A :: 0x22 ::
    (escapeJsonString member.1.dtype ++ 0x22 :: 0x2C ::
  0x22 :: (escapeJsonString (bytes "shape") ++ 0x22 :: 0x3A ::
    (shapeToJson member.1.shape ++ 0x2C ::
  0x22 :: (escapeJsonString (bytes "data_offsets") ++ 0x22 :: 0x3A ::
    (arrayText ([member.2.1, member.2.2].map natText) ++ 0x7D :: text))))))

theorem fieldsText_fuel (text : Bytes) :
    ∃ fuel, (fieldsText member text).length + 1 = fuel + 3 := by
  have htwo : 2 ≤ (fieldsText member text).length := by
    simp only [fieldsText, List.length_cons, List.length_append]
    omega
  exact ⟨(fieldsText member text).length - 2, by omega⟩

theorem memberText_append (text : Bytes) :
    memberText member ++ text = 0x22 :: (escapeJsonString member.1.name ++ 0x22 :: 0x3A :: 0x7B ::
        fieldsText member text) := by
  have hname : bytes "\":\x7b" = [0x22, 0x3A, 0x7B] := rfl
  have hcomma : bytes "," = [0x2C] := rfl
  simp only [memberText, fieldsText, arrayText, List.map_cons, List.map_nil, joined,
    List.append_assoc, hname, hcomma]
  simp only [List.cons_append, List.nil_append, List.append_assoc]
  rfl

theorem intText_natCast : intText n = natText n := by
  rw [intText, if_neg (by omega), Int.natAbs_natCast]

theorem mapM_int64Of {numbers : List ℕ} (h : ∀ n ∈ numbers, n < 2 ^ 63) :
    numbers.mapM int64Of = .ok (numbers.map (fun n : ℕ => (n : ℤ))) := by
  induction numbers with
  | nil => rfl
  | cons n numbers ih =>
    have hn : int64Of n = .ok (n : ℤ) := if_pos (h n List.mem_cons_self)
    rw [List.mapM_cons, hn, ih fun m hm => h m (List.mem_cons_of_mem _ hm)]
    rfl

theorem parseIntArray_shape {shape : List ℤ} (h : ∀ dim ∈ shape, 0 ≤ dim ∧ dim < 2 ^ 63)
    (text : Bytes) : parseIntArray (shapeToJson shape ++ text) = .ok (shape, text) := by
  have hcast : ∀ dim ∈ shape, ((dim.toNat : ℕ) : ℤ) = dim :=
    fun dim hdim => Int.toNat_of_nonneg (h dim hdim).1
  have htexts : shape.map intText = (shape.map Int.toNat).map natText := by
    rw [List.map_map]
    refine List.map_congr_left fun dim hdim => ?_
    rw [Function.comp_apply, ← intText_natCast, hcast dim hdim]
  have hsmall : ∀ n ∈ shape.map Int.toNat, n < 2 ^ 63 := by
    intro n hn
    obtain ⟨dim, hdim, rfl⟩ := List.mem_map.mp hn
    have hlarge := (h dim hdim).2
    omega
  have hback : (shape.map Int.toNat).map (fun n : ℕ => (n : ℤ)) = shape := by
    rw [List.map_map]
    exact (List.map_congr_left hcast).trans (List.map_id _)
  rw [shapeToJson, htexts, parseIntArray_written, mapM_int64Of hsmall, hback]
  rfl

/-- What is read of a tensor's object. -/
def infoOf : Except Exception SafeTensorInfo := do
  let offsets ← [member.2.1, member.2.2].mapM int64Of
  withOffsets (readBack member.1.name)
    ⟨readBack member.1.name, readBack member.1.dtype, member.1.shape, 0, 0⟩ offsets

theorem readTensor_written {member : SafeTensorWriteEntry × ℕ × ℕ}
    (hshape : ∀ dim ∈ member.1.shape, 0 ≤ dim) (text : Bytes) :
    readTensor (readBack member.1.name) (0x7B :: fieldsText member text) =
      (infoOf member).map fun info => (info, text) := by
  obtain ⟨fuel, hfuel⟩ := fieldsText_fuel member text
  have hdims : ∀ dim ∈ member.1.shape, 0 ≤ dim ∧ dim < 2 ^ 63 :=
    fun dim hdim => ⟨hshape dim hdim, (member.1.shape_int64 dim hdim).2⟩
  have hdtype : readBack (bytes "dtype") = bytes "dtype" := by decide
  have hshapes : readBack (bytes "shape") = bytes "shape" := by decide
  have hoffsets : readBack (bytes "data_offsets") = bytes "data_offsets" := by decide
  have hne : bytes "shape" ≠ bytes "dtype" ∧ bytes "data_offsets" ≠ bytes "dtype" ∧
      bytes "data_offsets" ≠ bytes "shape" := by decide
  rw [readTensor, expectChar_self 0x7B rfl]
  simp only [bind, Except.bind, hfuel]
  rw [fieldsText, readFields, parseString_quoted, hdtype]
  simp only [bind, Except.bind, expectChar_self 0x3A rfl, readField, if_true,
    parseString_quoted, behindItem_comma]
  rw [readFields, parseString_quoted, hshapes]
  simp only [bind, Except.bind, expectChar_self 0x3A rfl, readField, hne.1, if_true,
    if_false, parseIntArray_shape hdims, behindItem_comma]
  rw [readFields, parseString_quoted, hoffsets]
  simp only [bind, Except.bind, expectChar_self 0x3A rfl, readField, hne.2.1, hne.2.2,
    if_true, if_false, parseIntArray_written, infoOf]
  cases [member.2.1, member.2.2].mapM int64Of with
  | error e => rfl
  | ok offsets =>
    simp only [Except.map]
    cases withOffsets (readBack member.1.name)
      ⟨readBack member.1.name, readBack member.1.dtype, member.1.shape, 0, 0⟩ offsets with
    | error e => rfl
    | ok info => simp only [behindItem_close 0x7D rfl (by decide)]

/-! ## All tensors -/

/-- One pass of the loop over the header. The braces of a tensor are no map of strings, so a
tensor under the key of the metadata is an error. -/
def loadMember (index : SafeTensorIndex) (member : SafeTensorWriteEntry × ℕ × ℕ) :
    Except Exception SafeTensorIndex :=
  if readBack member.1.name = metadataKey then .error (bytes "expected json string")
  else do
    let info ← infoOf member
    .ok ⟨index.metadata, emplace index.tensors (info.name, info), index.headerBytes⟩

theorem readMetadata_fields (metadata : List (Bytes × Bytes))
    (member : SafeTensorWriteEntry × ℕ × ℕ) (text : Bytes) :
    readMetadata metadata (0x7B :: fieldsText member text) =
      .error (bytes "expected json string") := by
  obtain ⟨fuel, hfuel⟩ := fieldsText_fuel member text
  have hshape : ∀ text, parseString (shapeToJson member.1.shape ++ text) =
      .error (bytes "expected json string") := by
    intro text
    rw [shapeToJson, arrayText, List.cons_append, parseString, accept_other rfl (by decide)]
  rw [readMetadata, accept_self rfl, Option.isSome_some, if_pos rfl, parseStringMap,
    expectChar_self 0x7B rfl]
  simp only [bind, Except.bind, hfuel]
  rw [fieldsText, stringMapMembers, accept_other rfl (by decide), parseString_quoted]
  simp only [bind, Except.bind, expectChar_self 0x3A rfl, parseString_quoted,
    behindItem_comma]
  rw [stringMapMembers, accept_other rfl (by decide), parseString_quoted]
  simp only [bind, Except.bind, expectChar_self 0x3A rfl, hshape]

theorem loadMembers_step {member : SafeTensorWriteEntry × ℕ × ℕ}
    (hshape : ∀ dim ∈ member.1.shape, 0 ≤ dim) (fuel : ℕ) (index : SafeTensorIndex) (text : Bytes) :
    loadMembers (fuel + 1) index (memberText member ++ text) = (do
      let index ← loadMember index member
      match behindItem 0x7D text with
      | some (true, text) => loadMembers fuel index text
      | some (false, _) => .ok index
      | none => loadMembers fuel index text) := by
  rw [memberText_append, loadMembers, accept_other rfl (by decide), parseString_quoted, loadMember]
  simp only [bind, Except.bind, expectChar_self 0x3A rfl]
  split_ifs with hname
  · rw [readMetadata_fields]
  · rw [readTensor_written hshape]
    cases infoOf member <;> rfl

theorem loadMembers_written {written : List (SafeTensorWriteEntry × ℕ × ℕ)} (hne : written ≠ [])
    (hshape : ∀ member ∈ written, ∀ dim ∈ member.1.shape, 0 ≤ dim) (hfuel : written.length ≤ fuel)
    (index : SafeTensorIndex) (text : Bytes) :
    loadMembers fuel index (joined (written.map memberText) ++ 0x7D :: text) =
      written.foldlM loadMember index := by
  induction written generalizing fuel index with
  | nil => exact absurd rfl hne
  | cons member written ih =>
    obtain ⟨fuel, rfl⟩ := Nat.exists_eq_succ_of_ne_zero
      (by rw [List.length_cons] at hfuel; omega : fuel ≠ 0)
    rw [List.length_cons] at hfuel
    have hfirst := hshape member List.mem_cons_self
    rw [List.foldlM_cons]
    cases written with
    | nil =>
      have htext : joined ([member].map memberText) = memberText member := rfl
      rw [htext, loadMembers_step hfirst, behindItem_close 0x7D rfl (by decide)]
      rfl
    | cons next written =>
      have htext : joined ((member :: next :: written).map memberText) ++ 0x7D :: text =
          memberText member ++ 0x2C ::
            (joined ((next :: written).map memberText) ++ 0x7D :: text) := by
        rw [List.map_cons, List.map_cons, joined_cons_cons, List.append_assoc]
        rfl
      rw [htext, loadMembers_step hfirst, behindItem_comma]
      refine bind_congr fun index => ?_
      exact ih (List.cons_ne_nil _ _)
        (fun other hother => hshape other (List.mem_cons_of_mem _ hother)) (by omega) index

end FastTts.Safetensors
