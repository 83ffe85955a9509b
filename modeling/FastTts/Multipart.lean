import FastTts.CharacterStore
import FastTts.HeaderText
import FastTts.Utf8Spans

/-!
# Multipart bodies

A body is cut at its delimiter, wherever that stands, and a part at its first empty line. The name
and the filename of a part are parameters of its `Content-Disposition` field. A body that was put
together from parts is read back as long as no delimiter comes up inside a part; a parameter is read
back as long as the value in front of it does not look like it.
-/

namespace FastTts.Multipart

open HeaderText Store
open Ranges (infix_stop)

/-! ## The parser -/

def stripTrailingNewline (text : Bytes) : Bytes :=
  if crlf.isSuffixOf text then text.take (text.length - 2)
  else if text.getLast? = some 0x0A then text.dropLast
  else text

/-- Where the header of a part ends, and where its data begins. -/
def headerEnd (segment : Bytes) : Option (ℕ × ℕ) :=
  match find segment (crlf ++ crlf) with
  | some stop => some (stop, stop + 4)
  | none => (find segment [0x0A, 0x0A]).map fun stop => (stop, stop + 2)

def readField (part : MultipartPart) (field : Bytes × Bytes) : MultipartPart :=
  if field.1 = bytes "content-disposition" then
    { part with
      name := extractHeaderParam field.2 (bytes "name")
      filename := extractHeaderParam field.2 (bytes "filename") }
  else part

def parsePart (segment : Bytes) : MultipartPart :=
  match headerEnd segment with
  | none => ⟨[], [], []⟩
  | some (stop, start) =>
    (fields (linesFrom [] (segment.take stop))).foldl readField ⟨[], [], segment.drop start⟩

/-- The line break behind a delimiter goes. -/
def skipNewline (text : Bytes) : Bytes :=
  if crlf.isPrefixOf text then text.drop 2
  else if text.head? = some 0x0A then text.drop 1
  else text

/-- The loop behind a delimiter; `none` is a loop that has not come to its end. -/
def readParts (delimiter : Bytes) : ℕ → Bytes → Option (List MultipartPart)
  | 0, _ => none
  | fuel + 1, text =>
    if (bytes "--").isPrefixOf text then some []
    else
      match find (skipNewline text) delimiter with
      | none => some []
      | some next =>
        (readParts delimiter fuel ((skipNewline text).drop (next + delimiter.length))).map
          (parsePart (stripTrailingNewline ((skipNewline text).take next)) :: ·)

def delimiterOf (boundary : Bytes) : Bytes := bytes "--" ++ boundary

def parseMultipartBody (body boundary : Bytes) : Option (List MultipartPart) :=
  match find body (delimiterOf boundary) with
  | none => some []
  | some pos =>
    readParts (delimiterOf boundary) (body.length + 1)
      (body.drop (pos + (delimiterOf boundary).length))

theorem delimiterOf_ne_nil (boundary : Bytes) : delimiterOf boundary ≠ [] := by
  have hdashes : bytes "--" ≠ [] := by decide
  exact fun hnil => hdashes (List.append_eq_nil_iff.mp hnil).1

theorem length_skipNewline_le (text : Bytes) : (skipNewline text).length ≤ text.length := by
  rw [skipNewline]
  split_ifs
  · rw [List.length_drop]
    omega
  · rw [List.length_drop]
    omega
  · exact le_rfl

variable {fuel : ℕ} {behind : Bytes}

theorem readParts_isSome {delimiter : Bytes} (h : delimiter ≠ []) {text : Bytes}
    (hfuel : text.length < fuel) : (readParts delimiter fuel text).isSome = true := by
  induction fuel generalizing text with
  | zero => omega
  | succ fuel ih =>
    rw [readParts]
    split_ifs with hend
    · rfl
    · have hle := length_skipNewline_le text
      cases hfind : find (skipNewline text) delimiter with
      | none => rfl
      | some next =>
        obtain ⟨before, behind, hsplit, hbefore⟩ := find_split hfind
        have hlength := congrArg List.length hsplit
        have hpos := List.length_pos_of_ne_nil h
        simp only [List.length_append] at hlength
        dsimp only
        rw [Option.isSome_map]
        apply ih
        rw [List.length_drop]
        omega

theorem parseMultipartBody_isSome (body boundary : Bytes) :
    (parseMultipartBody body boundary).isSome = true := by
  rw [parseMultipartBody]
  cases find body (delimiterOf boundary) with
  | none => rfl
  | some pos =>
    apply readParts_isSome (delimiterOf_ne_nil boundary)
    rw [List.length_drop]
    omega

/-! ## The parameters of a part -/

inductive Key
  | name
  | filename
  deriving DecidableEq, Repr

namespace Key

def text : Key → Bytes
  | name => bytes "name"
  | filename => bytes "filename"

def other : Key → Key
  | name => filename
  | filename => name

def needle (key : Key) : Bytes := key.text ++ bytes "="

theorem needle_eq (key : Key) : ∃ first rest, key.needle = first :: rest ∧ first ∉ rest ∧
    (∀ b ∈ key.needle, b ≠ 0x22 ∧ b ≠ 0x3B ∧ b ≠ 0x20) ∧ key.needle.map toLower = key.needle := by
  cases key
  · exact ⟨0x6E, [0x61, 0x6D, 0x65, 0x3D], by decide +kernel⟩
  · exact ⟨0x66, [0x69, 0x6C, 0x65, 0x6E, 0x61, 0x6D, 0x65, 0x3D], by decide +kernel⟩

end Key

variable (gap : ℕ) (key : Key)

/-- `;key="value"`, with blanks behind the `;`. -/
def parameter (value : Bytes) : Bytes :=
  0x3B :: (List.replicate gap 0x20 ++ (key.needle ++ 0x22 :: (value ++ [0x22])))

/-- A `form-data` value with both parameters, in either order. -/
def formData (first : Key) (values : Key → Bytes) : Bytes :=
  bytes "form-data" ++
    (parameter gap first (values first) ++ parameter gap first.other (values first.other))

/-- What looks like a parameter inside a quoted value: the text behind its `key=`. -/
def hidden (value : Bytes) : Option Bytes := behindParam key.needle (some 0x22) value

/-- What is then taken for the value of the parameter. -/
def misread (behind : Bytes) : Bytes :=
  if behind = [] then 0x3B :: (List.replicate gap 0x20 ++ key.needle)
  else trimmed ((behind ++ [0x22]).takeWhile (· ≠ 0x3B))

variable (prev : Option UInt8)

theorem behind_own (value rest : Bytes) :
    behindParam key.needle prev (parameter gap key value ++ rest) =
      some (0x22 :: (value ++ 0x22 :: rest)) := by
  obtain ⟨first, needle, hneedle, -, hplain, hlower⟩ := key.needle_eq
  have hfirst := hplain first (hneedle ▸ List.mem_cons_self)
  have hopening : ∀ b ∈ (0x3B :: List.replicate gap 0x20 : Bytes), toLower b ≠ first := by
    intro b hb
    rcases List.mem_cons.mp hb with rfl | hb
    · exact fun h => hfirst.2.1 h.symm
    · rw [List.eq_of_mem_replicate hb]
      exact fun h => hfirst.2.2 h.symm
  have hsep : Separates ((0x3B :: List.replicate gap 0x20 : Bytes).getLast?.or prev) := by
    cases gap with
    | zero => exact .inr (.inr rfl)
    | succ gap =>
      rw [List.replicate_succ', ← List.cons_append, List.getLast?_append]
      exact .inr (.inl rfl)
  have hsplit : parameter gap key value ++ rest = (0x3B :: List.replicate gap 0x20) ++
      (key.needle ++ 0x22 :: (value ++ 0x22 :: rest)) := by simp [parameter]
  rw [hneedle] at hlower
  rw [hsplit, hneedle, behindParam_other hopening, behindParam_here hsep hlower]

theorem passes_filename (text : Bytes) :
    behindParam Key.name.needle prev
        (0x3B :: (List.replicate gap 0x20 ++ (Key.filename.needle ++ 0x22 :: text))) =
      behindParam Key.name.needle (some 0x22) text := by
  have hneedle : Key.name.needle = 0x6E :: [0x61, 0x6D, 0x65, 0x3D] := by decide +kernel
  have hopening : ∀ b ∈ (0x3B :: (List.replicate gap 0x20 ++ [0x66, 0x69, 0x6C, 0x65]) : Bytes),
      toLower b ≠ 0x6E := by
    intro b hb
    simp only [List.mem_cons, List.mem_append, List.mem_replicate, List.not_mem_nil] at hb
    rcases hb with rfl | ⟨-, rfl⟩ | rfl | rfl | rfl | rfl | hb
    all_goals first | decide | exact hb.elim
  have hsplit : (0x3B :: (List.replicate gap 0x20 ++ (Key.filename.needle ++ 0x22 :: text)) :
      Bytes) = (0x3B :: (List.replicate gap 0x20 ++ [0x66, 0x69, 0x6C, 0x65])) ++
        (0x6E :: ([0x61, 0x6D, 0x65, 0x3D, 0x22] ++ text)) := by
    have hfilename : Key.filename.needle =
        [0x66, 0x69, 0x6C, 0x65, 0x6E, 0x61, 0x6D, 0x65, 0x3D] := by decide +kernel
    simp [hfilename]
  have hlast : (0x3B :: (List.replicate gap 0x20 ++ [0x66, 0x69, 0x6C, 0x65]) :
      Bytes).getLast?.or prev = some 0x65 := by
    rw [← List.cons_append, List.getLast?_append]
    rfl
  rw [hsplit, hneedle, behindParam_other hopening, hlast, behindParam,
    if_neg fun h => absurd h.1 (by decide), behindParam_other (by decide +kernel)]
  rfl

theorem passes_name (text : Bytes) :
    behindParam Key.filename.needle prev
        (0x3B :: (List.replicate gap 0x20 ++ (Key.name.needle ++ 0x22 :: text))) =
      behindParam Key.filename.needle (some 0x22) text := by
  have hneedle : Key.filename.needle =
      0x66 :: [0x69, 0x6C, 0x65, 0x6E, 0x61, 0x6D, 0x65, 0x3D] := by decide
  have hname : Key.name.needle = [0x6E, 0x61, 0x6D, 0x65, 0x3D] := by decide
  have hopening : ∀ b ∈ (0x3B :: (List.replicate gap 0x20 ++ (Key.name.needle ++ [0x22])) :
      Bytes), toLower b ≠ 0x66 := by
    intro b hb
    rw [hname] at hb
    simp only [List.mem_cons, List.mem_append, List.mem_replicate, List.not_mem_nil] at hb
    rcases hb with rfl | ⟨-, rfl⟩ | (rfl | rfl | rfl | rfl | rfl | hb) | rfl | hb
    all_goals first | decide | exact hb.elim
  have hsplit : (0x3B :: (List.replicate gap 0x20 ++ (Key.name.needle ++ 0x22 :: text)) : Bytes) =
      (0x3B :: (List.replicate gap 0x20 ++ (Key.name.needle ++ [0x22]))) ++ text := by simp
  have hlast : (0x3B :: (List.replicate gap 0x20 ++ (Key.name.needle ++ [0x22])) :
      Bytes).getLast?.or prev = some 0x22 := by
    rw [← List.append_assoc, ← List.cons_append, List.getLast?_append]
    rfl
  rw [hsplit, hneedle, behindParam_other hopening, hlast]

theorem behind_other (value rest : Bytes) :
    behindParam key.needle prev (parameter gap key.other value ++ rest) =
      match hidden key value with
      | some behind => some (behind ++ 0x22 :: rest)
      | none => behindParam key.needle (some 0x22) rest := by
  obtain ⟨first, needle, hneedle, -, hplain, -⟩ := key.needle_eq
  have hopening : behindParam key.needle prev (parameter gap key.other value ++ rest) =
      behindParam key.needle (some 0x22) (value ++ 0x22 :: rest) := by
    have hsplit : parameter gap key.other value ++ rest = 0x3B :: (List.replicate gap 0x20 ++
        (key.other.needle ++ 0x22 :: (value ++ 0x22 :: rest))) := by simp [parameter]
    rw [hsplit]
    cases key with
    | name => exact passes_filename gap prev _
    | filename => exact passes_name gap prev _
  have hstop : toLower 0x22 ∉ key.needle := fun hmem => (hplain _ hmem).1 rfl
  have hquote : toLower 0x22 ≠ first := fun h =>
    (hplain first (hneedle ▸ List.mem_cons_self)).1 h.symm
  rw [hopening, behindParam_stop hstop, hidden]
  cases behindParam key.needle (some 0x22) value with
  | some behind => rfl
  | none =>
    dsimp only
    rw [hneedle]
    exact behindParam_other (List.forall_mem_singleton.mpr hquote) _ rest

theorem behind_type (rest : Bytes) :
    behindParam key.needle none (bytes "form-data" ++ rest) =
      behindParam key.needle (some 0x61) rest := by
  have htype : bytes "form-data" = 0x66 :: [0x6F, 0x72, 0x6D, 0x2D, 0x64, 0x61, 0x74, 0x61] := by
    decide
  cases key with
  | name =>
    have hneedle : Key.name.needle = 0x6E :: [0x61, 0x6D, 0x65, 0x3D] := by decide
    rw [hneedle, htype, behindParam_other (by decide +kernel)]
    rfl
  | filename =>
    have hneedle : Key.filename.needle =
        0x66 :: [0x69, 0x6C, 0x65, 0x6E, 0x61, 0x6D, 0x65, 0x3D] := by decide
    rw [hneedle, htype, List.cons_append, behindParam, if_neg, behindParam_other (by decide +kernel)]
    · rfl
    · rintro ⟨-, hhere⟩
      exact Bool.false_ne_true hhere

theorem extract_eq (value : Bytes) : extractHeaderParam value key.text =
    ((behindParam key.needle none value).map paramValue).getD [] := by
  obtain ⟨first, needle, hneedle, hfresh, -⟩ := key.needle_eq
  exact extractHeaderParam_eq hneedle hfresh value

variable {value boundary : Bytes} {p : FormPart} {b : UInt8}

theorem extract_first (h : 0x22 ∉ value) (rest : Bytes) :
    extractHeaderParam (bytes "form-data" ++ (parameter gap key value ++ rest)) key.text =
      value := by
  rw [extract_eq, behind_type, behind_own, Option.map_some, Option.getD_some,
    paramValue_quoted h]

theorem paramValue_hidden (h : 0x22 ∉ behind) (value : Bytes) :
    paramValue (behind ++ 0x22 :: parameter gap key value) = misread gap key behind := by
  rw [paramValue, misread]
  cases behind with
  | nil =>
    obtain ⟨-, -, -, -, hplain, -⟩ := key.needle_eq
    have hquote : 0x22 ∉ 0x3B :: (List.replicate gap 0x20 ++ key.needle) := by
      simp only [List.mem_cons, List.mem_append, List.mem_replicate, not_or]
      exact ⟨by decide, fun h => absurd h.2 (by decide), fun h => (hplain _ h).1 rfl⟩
    have hsplit : parameter gap key value = 0x3B :: (List.replicate gap 0x20 ++ key.needle) ++
        0x22 :: (value ++ [0x22]) := by simp [parameter]
    rw [List.nil_append, List.head?_cons, if_pos rfl, if_pos rfl, List.tail_cons, hsplit,
      takeWhile_ne_stop hquote]
  | cons b behind =>
    have hb : b ≠ 0x22 := fun hb => h (hb ▸ List.mem_cons_self)
    rw [List.cons_append, List.head?_cons, if_neg (by simpa using hb),
      if_neg (List.cons_ne_nil _ _)]
    have hsplit : b :: (behind ++ 0x22 :: parameter gap key value) = (b :: behind ++ [0x22]) ++
        0x3B :: (List.replicate gap 0x20 ++ (key.needle ++ 0x22 :: (value ++ [0x22]))) := by
      simp [parameter]
    rw [hsplit, takeWhile_stop (by simp)]

theorem extract_second {first second : Bytes} (hfirst : 0x22 ∉ first)
    (hsecond : 0x22 ∉ second) :
    extractHeaderParam (bytes "form-data" ++
        (parameter gap key.other first ++ parameter gap key second)) key.text =
      match hidden key first with
      | some behind => misread gap key behind
      | none => second := by
  rw [extract_eq, behind_type, behind_other]
  cases hhidden : hidden key first with
  | none =>
    have hown := behind_own gap key (some 0x22) second []
    rw [List.append_nil] at hown
    dsimp only
    rw [hown, Option.map_some, Option.getD_some, paramValue_quoted hsecond]
  | some behind =>
    have hpart := behindParam_suffix hhidden
    dsimp only
    rw [Option.map_some, Option.getD_some,
      paramValue_hidden gap key fun hquote => hfirst (hpart.subset hquote)]

structure Plain (value : Bytes) : Prop where
  noQuote : 0x22 ∉ value
  noReturn : 0x0D ∉ value
  noNewline : 0x0A ∉ value

/-- Both parameters of a `form-data` value are read as they were written, unless the first value
looks as if the other parameter began inside it, with another value. -/
theorem extractHeaderParam_iff (gap : ℕ) (first : Key) (values : Key → Bytes)
    (h : ∀ key, Plain (values key)) :
    (∀ key, extractHeaderParam (formData gap first values) key.text = values key) ↔
      ∀ behind, hidden first.other (values first) = some behind →
        misread gap first.other behind = values first.other := by
  have hfirst : extractHeaderParam (formData gap first values) first.text = values first :=
    extract_first gap first (h first).noQuote _
  have hother : first.other.other = first := by cases first <;> rfl
  have hsecond := extract_second gap first.other (h first).noQuote (h first.other).noQuote
  rw [hother] at hsecond
  change extractHeaderParam (formData gap first values) _ = _ at hsecond
  constructor
  · intro hread behind hhidden
    have hvalue := hread first.other
    rwa [hsecond, hhidden] at hvalue
  · intro hhidden key
    by_cases hkey : key = first
    · rw [hkey]
      exact hfirst
    · have hkey : key = first.other := by
        cases key <;> cases first <;> first | rfl | exact absurd rfl hkey
      rw [hkey, hsecond]
      cases hvalue : hidden first.other (values first) with
      | none => rfl
      | some behind => exact hhidden behind hvalue

def valuesOf (name filename : Bytes) : Key → Bytes
  | .name => name
  | .filename => filename

theorem plain_valuesOf {name filename : Bytes} (hname : Plain name) (hfilename : Plain filename)
    (key : Key) : Plain (valuesOf name filename key) := by
  cases key
  · exact hname
  · exact hfilename

/-- What looks like a name stands behind a quote. -/
theorem extractHeaderParam_iff_clip :
    extractHeaderParam (formData 1 .filename (valuesOf (bytes "file") (bytes "name=a.wav")))
      Key.name.text = bytes "file" := by
  have hname : Plain (bytes "file") := ⟨by decide, by decide, by decide⟩
  have hfilename : Plain (bytes "name=a.wav") := ⟨by decide, by decide, by decide⟩
  have hhidden : hidden .name (bytes "name=a.wav") = none := by decide
  refine (extractHeaderParam_iff 1 .filename _ (plain_valuesOf hname hfilename)).mpr ?_ .name
  intro behind hbehind
  exact nomatch hhidden.symm.trans hbehind

/-- A name that goes on like a filename. -/
theorem extractHeaderParam_fails : ¬ ∀ (gap : ℕ) (first : Key) (values : Key → Bytes),
    (∀ key, Plain (values key)) →
      ∀ key, extractHeaderParam (formData gap first values) key.text = values key := by
  intro hclaim
  have hread := hclaim 1 .name (valuesOf (bytes "a; filename=b") (bytes "c"))
    (plain_valuesOf ⟨by decide, by decide, by decide⟩ ⟨by decide, by decide, by decide⟩) .filename
  have hwrong : extractHeaderParam
      (formData 1 .name (valuesOf (bytes "a; filename=b") (bytes "c"))) Key.filename.text =
        bytes "b\"" := by decide
  exact absurd (hwrong.symm.trans hread) (by decide)

/-! ## Bodies made of parts -/

/-- A part as a client sends it: with other header lines behind its `Content-Disposition`. -/
structure FormPart where
  part : MultipartPart
  headers : List Bytes
  deriving DecidableEq, Repr

namespace FormPart

/-- The value of its `Content-Disposition`; a field without a file has no filename. -/
def disposition (p : FormPart) : Bytes :=
  bytes "form-data" ++ (parameter 1 .name p.part.name ++
    if p.part.filename = [] then [] else parameter 1 .filename p.part.filename)

def dispositionLine (p : FormPart) : Bytes :=
  bytes "Content-Disposition" ++ 0x3A :: 0x20 :: p.disposition

def text (p : FormPart) : Bytes :=
  joinLines p.dispositionLine p.headers ++ (crlf ++ (crlf ++ p.part.data))

/-- Parameters that can be quoted, and nothing that looks like another one. -/
structure WellFormed (p : FormPart) : Prop where
  name : Plain p.part.name
  filename : Plain p.part.filename
  nameEquals : 0x3D ∉ p.part.name
  filenameEquals : 0x3D ∉ p.part.filename
  headers : ∀ line ∈ p.headers, IsLine line ∧
    ∀ f ∈ field line, f.1 ≠ bytes "content-disposition"

end FormPart

/-- What comes behind a delimiter. -/
def behindDelimiter (boundary : Bytes) : List FormPart → Bytes
  | [] => bytes "--" ++ crlf
  | p :: parts => crlf ++ (p.text ++ (crlf ++ (delimiterOf boundary ++
      behindDelimiter boundary parts)))

def serialise (boundary : Bytes) (parts : List FormPart) : Bytes :=
  delimiterOf boundary ++ behindDelimiter boundary parts

/-- No delimiter begins in a part, or in the line break behind it. -/
def Delimited (boundary : Bytes) (p : FormPart) : Prop :=
  ¬ delimiterOf boundary <:+: p.text ++ crlf ++ (delimiterOf boundary).dropLast

theorem field_disposition (p : FormPart) :
    field p.dispositionLine = some (bytes "content-disposition", p.disposition) := by
  have hkey : (trimmed (bytes "Content-Disposition")).map toLower =
      bytes "content-disposition" := by decide
  have hvalue : ∃ value, p.disposition = 0x66 :: (value ++ [0x22]) := by
    have htype : bytes "form-data" = 0x66 :: [0x6F, 0x72, 0x6D, 0x2D, 0x64, 0x61, 0x74, 0x61] := by
      decide
    rw [FormPart.disposition, htype]
    split_ifs
    · exact ⟨[0x6F, 0x72, 0x6D, 0x2D, 0x64, 0x61, 0x74, 0x61] ++ 0x3B :: (List.replicate 1 0x20 ++
        (Key.name.needle ++ 0x22 :: p.part.name)), by simp [parameter]⟩
    · exact ⟨[0x6F, 0x72, 0x6D, 0x2D, 0x64, 0x61, 0x74, 0x61] ++ (parameter 1 .name p.part.name ++
        0x3B :: (List.replicate 1 0x20 ++ (Key.filename.needle ++ 0x22 :: p.part.filename))),
        by simp [parameter]⟩
  obtain ⟨value, hvalue⟩ := hvalue
  have hfind : find p.dispositionLine [0x3A] = some (bytes "Content-Disposition").length :=
    find_byte (by decide) _
  rw [field, hfind, Option.map_some, FormPart.dispositionLine, List.take_left, hkey,
    ← List.drop_drop, List.drop_left, hvalue]
  rw [List.drop_succ_cons, List.drop_zero, trimmed_cons_space (by decide),
    trimmed_of_ends (by decide) (by decide)]

theorem hidden_eq_none (h : 0x3D ∉ value) (key : Key) : hidden key value = none := by
  apply behindParam_none
  intro hinside
  have hmem : (0x3D : UInt8) ∈ value.map toLower := by
    apply hinside.subset
    cases key <;> decide
  obtain ⟨b, hb, hlower⟩ := List.mem_map.mp hmem
  have hequals := Utf8Spans.forall_byte (p := fun b => toLower b = 0x3D → b = 0x3D)
    (by decide +kernel) b hlower
  exact h (hequals ▸ hb)

theorem read_name (h : p.WellFormed) :
    extractHeaderParam p.disposition (bytes "name") = p.part.name :=
  extract_first 1 .name h.name.noQuote _

theorem read_filename (h : p.WellFormed) :
    extractHeaderParam p.disposition (bytes "filename") = p.part.filename := by
  rw [FormPart.disposition]
  split_ifs with hempty
  · have hread := extract_eq .filename (bytes "form-data" ++ (parameter 1 .name p.part.name ++ []))
    have hother : behindParam Key.filename.needle (some 0x61)
        (parameter 1 .name p.part.name ++ []) = _ := behind_other 1 .filename _ p.part.name []
    rw [hidden_eq_none h.nameEquals] at hother
    rw [behind_type, hother] at hread
    rw [hempty]
    exact hread
  · have hread := extract_second 1 .filename h.name.noQuote h.filename.noQuote
    rwa [hidden_eq_none h.nameEquals] at hread

theorem readField_other {lines : List Bytes}
    (h : ∀ line ∈ lines, ∀ f ∈ field line, f.1 ≠ bytes "content-disposition")
    (part : MultipartPart) : (lines.filterMap field).foldl readField part = part := by
  induction lines with
  | nil => rfl
  | cons line lines ih =>
    have hrest := ih fun next hnext => h next (List.mem_cons_of_mem _ hnext)
    cases hfield : field line with
    | none => rwa [List.filterMap_cons_none hfield]
    | some f =>
      have hkey := h line List.mem_cons_self f hfield
      rwa [List.filterMap_cons_some hfield, List.foldl_cons, readField, if_neg hkey]

theorem notMem_parameter (hb : b = 0x0D ∨ b = 0x0A) (h : b ∉ value) (gap : ℕ) (key : Key) :
    b ∉ parameter gap key value := by
  have hneedle : b ∉ key.needle := by
    rcases hb with rfl | rfl <;> cases key <;> decide
  have hmarks : b ≠ 0x3B ∧ b ≠ 0x20 ∧ b ≠ 0x22 := by
    rcases hb with rfl | rfl <;> decide
  simp [parameter, h, hneedle, hmarks]

theorem notMem_dispositionLine (hb : b = 0x0D ∨ b = 0x0A) (hname : b ∉ p.part.name)
    (hfilename : b ∉ p.part.filename) : b ∉ p.dispositionLine := by
  have htype : b ∉ bytes "Content-Disposition" ++ 0x3A :: 0x20 :: bytes "form-data" := by
    rcases hb with rfl | rfl <;> decide
  have hsplit : p.dispositionLine = (bytes "Content-Disposition" ++ 0x3A :: 0x20 ::
      bytes "form-data") ++ (parameter 1 .name p.part.name ++
        if p.part.filename = [] then [] else parameter 1 .filename p.part.filename) := by
    simp [FormPart.dispositionLine, FormPart.disposition]
  rw [hsplit]
  refine fun hmem => (List.mem_append.mp hmem).elim htype fun hmem => ?_
  refine (List.mem_append.mp hmem).elim (notMem_parameter hb hname 1 .name) fun hmem => ?_
  split_ifs at hmem
  · exact List.not_mem_nil hmem
  · exact notMem_parameter hb hfilename 1 .filename hmem

theorem isLine_disposition {p : FormPart} (h : p.WellFormed) : IsLine p.dispositionLine where
  nonempty := by simp [FormPart.dispositionLine]
  noReturn := notMem_dispositionLine (.inl rfl) h.name.noReturn h.filename.noReturn
  noNewline := notMem_dispositionLine (.inr rfl) h.name.noNewline h.filename.noNewline

theorem parsePart_text (h : p.WellFormed) : parsePart p.text = p.part := by
  have hlines : ∀ line ∈ p.dispositionLine :: p.headers, IsLine line := by
    intro line hline
    rcases List.mem_cons.mp hline with rfl | hline
    · exact isLine_disposition h
    · exact (h.headers line hline).1
  have hfields : fields (linesFrom [] (joinLines p.dispositionLine p.headers)) =
      (bytes "content-disposition", p.disposition) :: p.headers.filterMap field := by
    have hread := congrArg (List.filterMap field) (lines_joinLines hlines)
    rwa [List.filterMap_map, List.filterMap_cons_some (field_disposition p)] at hread
  have hend : headerEnd p.text = some ((joinLines p.dispositionLine p.headers).length,
      (joinLines p.dispositionLine p.headers).length + 4) := by
    rw [headerEnd, FormPart.text, find_blank hlines]
  have hdata : p.text.drop ((joinLines p.dispositionLine p.headers).length + 4) = p.part.data := by
    rw [FormPart.text, ← List.drop_drop, List.drop_left]
    rfl
  rw [parsePart, hend]
  dsimp only
  rw [hdata, FormPart.text, List.take_left, hfields, List.foldl_cons, readField, if_pos rfl,
    read_name h, read_filename h, readField_other fun line hline => (h.headers line hline).2]

theorem stripTrailingNewline_crlf (text : Bytes) : stripTrailingNewline (text ++ crlf) = text := by
  have hsuffix : crlf.isSuffixOf (text ++ crlf) = true :=
    List.isSuffixOf_iff_suffix.mpr (List.suffix_append text crlf)
  rw [stripTrailingNewline, if_pos hsuffix, List.length_append]
  exact List.take_left' rfl

theorem skipNewline_crlf (text : Bytes) : skipNewline (crlf ++ text) = text := by
  have hprefix : crlf.isPrefixOf (crlf ++ text) = true :=
    List.isPrefixOf_iff_prefix.mpr (List.prefix_append crlf text)
  rw [skipNewline, if_pos hprefix]
  rfl

theorem readParts_behind {parts : List FormPart}
    (h : ∀ p ∈ parts, p.WellFormed ∧ Delimited boundary p) (hfuel : parts.length < fuel) :
    readParts (delimiterOf boundary) fuel (behindDelimiter boundary parts) =
      some (parts.map FormPart.part) := by
  induction parts generalizing fuel with
  | nil =>
    obtain ⟨fuel, rfl⟩ := Nat.exists_eq_succ_of_ne_zero (Nat.ne_of_gt hfuel)
    rfl
  | cons p parts ih =>
    obtain ⟨fuel, rfl⟩ := Nat.exists_eq_succ_of_ne_zero (Nat.ne_of_gt (Nat.zero_lt_of_lt hfuel))
    obtain ⟨hwell, hdelimited⟩ := h p List.mem_cons_self
    have hrest := ih (fun next hnext => h next (List.mem_cons_of_mem _ hnext))
      (Nat.lt_of_succ_lt_succ hfuel)
    have hopen : (bytes "--").isPrefixOf (behindDelimiter boundary (p :: parts)) = false := rfl
    have hskip : skipNewline (behindDelimiter boundary (p :: parts)) =
        p.text ++ crlf ++ delimiterOf boundary ++ behindDelimiter boundary parts := by
      rw [behindDelimiter, skipNewline_crlf]
      simp
    rw [readParts, hopen, if_neg Bool.false_ne_true, hskip, find_free hdelimited]
    dsimp only
    rw [← List.length_append, List.drop_left, hrest, Option.map_some, List.append_assoc,
      List.take_left, stripTrailingNewline_crlf, parsePart_text hwell, List.map_cons]

theorem length_le_behindDelimiter (boundary : Bytes) (parts : List FormPart) :
    parts.length ≤ (behindDelimiter boundary parts).length := by
  induction parts with
  | nil => exact Nat.zero_le _
  | cons p parts ih =>
    simp only [behindDelimiter, List.length_cons, List.length_append, crlf, List.length_nil]
    omega

/-! ### Plain boundaries -/

theorem infix_joinLines {needle : Bytes} (hreturn : 0x0D ∉ needle) (hnewline : 0x0A ∉ needle)
    {first : Bytes} {more : List Bytes} (h : needle <:+: joinLines first more) :
    ∃ line ∈ first :: more, needle <:+: line := by
  induction more generalizing first with
  | nil => exact ⟨first, List.mem_cons_self, h⟩
  | cons next more ih =>
    rcases infix_stop hreturn h with hfirst | hrest
    · exact ⟨first, List.mem_cons_self, hfirst⟩
    · have hrest : needle <:+: [] ++ 0x0A :: joinLines next more := hrest
      rcases infix_stop hnewline hrest with hnil | hrest
      · exact ⟨first, List.mem_cons_self, hnil.trans (List.nil_infix)⟩
      · obtain ⟨line, hline, hinside⟩ := ih hrest
        exact ⟨line, List.mem_cons_of_mem _ hline, hinside⟩

/-- The delimiter comes up in nothing that the client fills in. -/
structure FormPart.Free (boundary : Bytes) (p : FormPart) : Prop where
  name : ¬ delimiterOf boundary <:+: p.part.name
  filename : ¬ delimiterOf boundary <:+: p.part.filename
  headers : ∀ line ∈ p.headers, ¬ delimiterOf boundary <:+: line
  data : ¬ delimiterOf boundary <:+: p.part.data

theorem dispositionLine_split (p : FormPart) :
    p.dispositionLine = bytes "Content-Disposition: form-data; name=" ++ 0x22 ::
      (p.part.name ++ 0x22 :: if p.part.filename = [] then [] else
        bytes "; filename=" ++ 0x22 :: (p.part.filename ++ [0x22])) := by
  have hname : bytes "Content-Disposition: form-data; name=" = bytes "Content-Disposition" ++
      0x3A :: 0x20 :: (bytes "form-data" ++ 0x3B :: 0x20 :: Key.name.needle) := by
    decide
  have hfilename : bytes "; filename=" = 0x3B :: 0x20 :: Key.filename.needle := by
    decide
  rw [hname, hfilename, FormPart.dispositionLine, FormPart.disposition]
  split_ifs <;> simp [parameter]

theorem not_mem_delimiterOf (hb : b ≠ 0x2D) (hnot : b ∉ boundary) : b ∉ delimiterOf boundary := by
  have hdashes : bytes "--" = [0x2D, 0x2D] := by decide
  simp [delimiterOf, hdashes, hb, hnot]

theorem not_infix_nil (boundary : Bytes) : ¬ delimiterOf boundary <:+: [] :=
  fun hinside => delimiterOf_ne_nil boundary (List.infix_nil.mp hinside)

theorem not_infix_of_dashes {text : Bytes} (h : ¬ bytes "--" <:+: text) :
    ¬ delimiterOf boundary <:+: text :=
  fun hinside => h ((List.prefix_append _ _).isInfix.trans hinside)

theorem not_infix_break (hboundary : Plain boundary) {before : Bytes}
    (hbefore : ¬ delimiterOf boundary <:+: before) (hbehind : ¬ delimiterOf boundary <:+: behind) :
    ¬ delimiterOf boundary <:+: before ++ (crlf ++ behind) := by
  intro hinside
  have hreturn := not_mem_delimiterOf (b := 0x0D) (by decide) hboundary.noReturn
  have hnewline := not_mem_delimiterOf (b := 0x0A) (by decide) hboundary.noNewline
  rcases infix_stop hreturn hinside with hinside | hinside
  · exact hbefore hinside
  have hinside : delimiterOf boundary <:+: [] ++ 0x0A :: behind := hinside
  exact (infix_stop hnewline hinside).elim (not_infix_nil boundary) hbehind

theorem FormPart.Free.dispositionLine (hboundary : Plain boundary) (h : p.Free boundary) :
    ¬ delimiterOf boundary <:+: p.dispositionLine := by
  have hquote := not_mem_delimiterOf (b := 0x22) (by decide) hboundary.noQuote
  have hopening : ¬ delimiterOf boundary <:+: bytes "Content-Disposition: form-data; name=" :=
    not_infix_of_dashes (find_eq_none (by decide))
  have hmiddle : ¬ delimiterOf boundary <:+: bytes "; filename=" :=
    not_infix_of_dashes (find_eq_none (by decide))
  rw [dispositionLine_split]
  intro hinside
  rcases infix_stop hquote hinside with hinside | hinside
  · exact hopening hinside
  rcases infix_stop hquote hinside with hinside | hinside
  · exact h.name hinside
  split_ifs at hinside
  · exact not_infix_nil boundary hinside
  rcases infix_stop hquote hinside with hinside | hinside
  · exact hmiddle hinside
  rcases infix_stop hquote hinside with hinside | hinside
  · exact h.filename hinside
  · exact not_infix_nil boundary hinside

theorem delimited_of_free (hboundary : Plain boundary) (h : p.Free boundary) :
    Delimited boundary p := by
  have hlines : ¬ delimiterOf boundary <:+: joinLines p.dispositionLine p.headers := by
    intro hinside
    have hreturn := not_mem_delimiterOf (b := 0x0D) (by decide) hboundary.noReturn
    have hnewline := not_mem_delimiterOf (b := 0x0A) (by decide) hboundary.noNewline
    obtain ⟨line, hline, hinside⟩ := infix_joinLines hreturn hnewline hinside
    rcases List.mem_cons.mp hline with rfl | hline
    · exact h.dispositionLine hboundary hinside
    · exact h.headers line hline hinside
  have hshort : ¬ delimiterOf boundary <:+: (delimiterOf boundary).dropLast := by
    intro hinside
    have hpos := List.length_pos_of_ne_nil (delimiterOf_ne_nil boundary)
    have hle := hinside.length_le
    rw [List.length_dropLast] at hle
    omega
  have hempty : ¬ delimiterOf boundary <:+: [] ++
      (crlf ++ (p.part.data ++ (crlf ++ (delimiterOf boundary).dropLast))) :=
    not_infix_break hboundary (not_infix_nil boundary) (not_infix_break hboundary h.data hshort)
  rw [Delimited, FormPart.text, List.append_assoc, List.append_assoc, List.append_assoc,
    List.append_assoc]
  exact not_infix_break hboundary hlines hempty

/-! ## Round trip -/

/-- Parts are read back in order with their data, if no delimiter begins inside a part; the parser
comes to its end on every body. -/
theorem parseMultipartBody_serialise (boundary : Bytes) (parts : List FormPart) (body : Bytes)
    (h : ∀ p ∈ parts, p.WellFormed ∧ (Delimited boundary p ∨ Plain boundary ∧ p.Free boundary)) :
    parseMultipartBody (serialise boundary parts) boundary = some (parts.map FormPart.part) ∧
      (parseMultipartBody body boundary).isSome = true := by
  refine ⟨?_, parseMultipartBody_isSome body boundary⟩
  have hparts : ∀ p ∈ parts, p.WellFormed ∧ Delimited boundary p := by
    intro p hp
    obtain ⟨hwell, hdelimited⟩ := h p hp
    exact ⟨hwell, hdelimited.elim id fun hfree => delimited_of_free hfree.1 hfree.2⟩
  have hfirst : find (serialise boundary parts) (delimiterOf boundary) = some 0 := by
    have hshort : ¬ delimiterOf boundary <:+: [] ++ (delimiterOf boundary).dropLast := by
      intro hinside
      have hpos := List.length_pos_of_ne_nil (delimiterOf_ne_nil boundary)
      have hle := hinside.length_le
      rw [List.nil_append, List.length_dropLast] at hle
      omega
    have hfind := find_free hshort (behindDelimiter boundary parts)
    rwa [List.nil_append] at hfind
  have hlength := length_le_behindDelimiter boundary parts
  rw [parseMultipartBody, hfirst]
  dsimp only
  rw [Nat.zero_add, serialise, List.drop_left, readParts_behind hparts]
  rw [List.length_append]
  omega

def clipParts : List FormPart :=
  [⟨⟨bytes "model", [], bytes "qwen3-asr"⟩, []⟩,
    ⟨⟨bytes "file", bytes "clip.wav", [0x52, 0x00, 0x0D, 0x0A]⟩, [bytes "Content-Type: audio/wav"]⟩]

theorem parseMultipartBody_serialise_clip :
    parseMultipartBody (serialise (bytes "BOUNDARY") clipParts) (bytes "BOUNDARY") =
      some (clipParts.map FormPart.part) := by
  refine (parseMultipartBody_serialise (bytes "BOUNDARY") clipParts [] ?_).1
  have hboundary : Plain (bytes "BOUNDARY") := ⟨by decide, by decide, by decide⟩
  have hfield : field (bytes "Content-Type: audio/wav") =
      some (bytes "content-type", bytes "audio/wav") := by decide
  intro p hp
  rcases List.mem_cons.mp hp with rfl | hp
  · refine ⟨⟨⟨by decide, by decide, by decide⟩, ⟨by decide, by decide, by decide⟩, by decide,
      by decide, fun _ hline => absurd hline List.not_mem_nil⟩, .inr ⟨hboundary, ?_, ?_, ?_, ?_⟩⟩
    · exact find_eq_none (by decide)
    · exact find_eq_none (by decide)
    · exact fun _ hline => absurd hline List.not_mem_nil
    · exact find_eq_none (by decide)
  · obtain rfl := List.mem_singleton.mp hp
    refine ⟨⟨⟨by decide, by decide, by decide⟩, ⟨by decide, by decide, by decide⟩, by decide,
      by decide, ?_⟩, .inr ⟨hboundary, ?_, ?_, ?_, ?_⟩⟩
    · intro line hline
      obtain rfl := List.mem_singleton.mp hline
      refine ⟨⟨by decide, by decide, by decide⟩, fun f hf => ?_⟩
      rw [hfield] at hf
      cases hf
      decide
    · exact find_eq_none (by decide)
    · exact find_eq_none (by decide)
    · intro line hline
      obtain rfl := List.mem_singleton.mp hline
      exact find_eq_none (by decide)
    · exact find_eq_none (by decide)

/-- A delimiter inside a name. -/
theorem parseMultipartBody_fails : ¬ ∀ (boundary : Bytes) (parts : List FormPart),
    (∀ p ∈ parts, p.WellFormed ∧ ¬ delimiterOf boundary <:+: p.part.data) →
      parseMultipartBody (serialise boundary parts) boundary = some (parts.map FormPart.part) := by
  intro hclaim
  have hread := hclaim (bytes "x") [⟨⟨bytes "a--x", [], bytes "1"⟩, []⟩] (by
    intro p hp
    obtain rfl := List.mem_singleton.mp hp
    exact ⟨⟨⟨by decide, by decide, by decide⟩, ⟨by decide, by decide, by decide⟩, by decide,
      by decide, fun _ hline => absurd hline List.not_mem_nil⟩, find_eq_none (by decide)⟩)
  exact absurd hread (by decide)

end FastTts.Multipart
