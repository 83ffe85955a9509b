import FastTts.Bytes
import FastTts.Ranges

/-!
# Header text

A block of header lines is cut at its newlines, and a line at its first colon. The value of a field
may carry parameters `key=value` or `key="value"`: the first `key=` behind a space or a `;` counts.
-/

namespace FastTts.HeaderText

open Ranges (isPrefixOf_stop)

def crlf : Bytes := [0x0D, 0x0A]

/-! ## Lines and fields -/

/-- `std::getline` until the stream is at its end. -/
def linesFrom (line : Bytes) : Bytes → List Bytes
  | [] => if line.isEmpty then [] else [line]
  | b :: text => if b = 0x0A then line :: linesFrom [] text else linesFrom (line ++ [b]) text

def withoutReturn (line : Bytes) : Bytes :=
  if line.getLast? = some 0x0D then line.dropLast else line

/-- The name of a field in lower case, and its value. -/
def field (line : Bytes) : Option (Bytes × Bytes) :=
  (find line [0x3A]).map fun colon =>
    ((trimmed (line.take colon)).map toLower, trimmed (line.drop (colon + 1)))

def fields (lines : List Bytes) : List (Bytes × Bytes) :=
  lines.filterMap fun line => field (withoutReturn line)

def joinLines (first : Bytes) : List Bytes → Bytes
  | [] => first
  | next :: more => first ++ (crlf ++ joinLines next more)

structure IsLine (line : Bytes) : Prop where
  nonempty : line ≠ []
  noReturn : 0x0D ∉ line
  noNewline : 0x0A ∉ line

variable {text : Bytes} {first : UInt8}

theorem linesFrom_newline (h : 0x0A ∉ text) (line rest : Bytes) :
    linesFrom line (text ++ 0x0A :: rest) = (line ++ text) :: linesFrom [] rest := by
  induction text generalizing line with
  | nil => simp [linesFrom]
  | cons b text ih =>
    rw [List.mem_cons, not_or] at h
    rw [List.cons_append, linesFrom, if_neg (Ne.symm h.1), ih h.2, List.append_assoc,
      List.singleton_append]

theorem linesFrom_last (h : 0x0A ∉ text) (line : Bytes) (hne : line ++ text ≠ []) :
    linesFrom line text = [line ++ text] := by
  induction text generalizing line with
  | nil =>
    rw [List.append_nil] at hne ⊢
    rw [linesFrom, if_neg (by simpa using hne)]
  | cons b text ih =>
    rw [List.mem_cons, not_or] at h
    have hnext : line ++ [b] ++ text = line ++ b :: text := by simp
    rw [linesFrom, if_neg (Ne.symm h.1), ih h.2 _ (by simp), hnext]

theorem withoutReturn_line {line : Bytes} (h : 0x0D ∉ line) : withoutReturn line = line := by
  rw [withoutReturn, if_neg]
  exact fun hlast => h (List.mem_of_getLast? hlast)

theorem withoutReturn_return (line : Bytes) : withoutReturn (line ++ [0x0D]) = line := by
  simp [withoutReturn]

variable {more : List Bytes} {prev : Option UInt8} {b : UInt8}

theorem lines_joinLines {first : Bytes} (h : ∀ line ∈ first :: more, IsLine line) :
    (linesFrom [] (joinLines first more)).map withoutReturn = first :: more := by
  induction more generalizing first with
  | nil =>
    have hfirst := h first List.mem_cons_self
    rw [joinLines, linesFrom_last hfirst.noNewline [] (by simpa using hfirst.nonempty),
      List.nil_append, List.map_singleton, withoutReturn_line hfirst.noReturn]
  | cons next more ih =>
    have hfirst := h first List.mem_cons_self
    have hnewline : 0x0A ∉ first ++ [0x0D] := by simpa using hfirst.noNewline
    have hsplit : joinLines first (next :: more) =
        (first ++ [0x0D]) ++ 0x0A :: joinLines next more := by simp [joinLines, crlf]
    rw [hsplit, linesFrom_newline hnewline, List.nil_append, List.map_cons,
      withoutReturn_return, ih fun line hline => h line (List.mem_cons_of_mem _ hline)]

theorem find_blank {first : Bytes} (h : ∀ line ∈ first :: more, IsLine line) (data : Bytes) :
    find (joinLines first more ++ (crlf ++ (crlf ++ data))) (crlf ++ crlf) =
      some (joinLines first more).length := by
  induction more generalizing first with
  | nil =>
    have hfirst := (h first List.mem_cons_self).noReturn
    have hblank : crlf ++ crlf = 0x0D :: [0x0A, 0x0D, 0x0A] := rfl
    rw [joinLines, hblank, find_skip hfirst]
    simp [find_cons, crlf]
  | cons next more ih =>
    have hfirst := (h first List.mem_cons_self).noReturn
    have hnext := h next (List.mem_cons_of_mem _ List.mem_cons_self)
    have hbehind := ih fun line hline => h line (List.mem_cons_of_mem _ hline)
    obtain ⟨b, line, rfl⟩ := List.exists_cons_of_ne_nil hnext.nonempty
    have hb : b ≠ 0x0D := fun hb => hnext.noReturn (hb ▸ List.mem_cons_self)
    obtain ⟨rest, hrest⟩ : ∃ rest, joinLines (b :: line) more = b :: rest := by
      cases more with
      | nil => exact ⟨line, rfl⟩
      | cons next more => exact ⟨_, rfl⟩
    have htext : joinLines first ((b :: line) :: more) ++ (crlf ++ (crlf ++ data)) =
        first ++ 0x0D :: 0x0A :: (joinLines (b :: line) more ++ (crlf ++ (crlf ++ data))) := by
      simp [joinLines, crlf]
    have hreturn : (crlf ++ crlf).isPrefixOf
        (0x0D :: 0x0A :: (joinLines (b :: line) more ++ (crlf ++ (crlf ++ data)))) = false := by
      simp [hrest, crlf, List.isPrefixOf, Ne.symm hb]
    have hnewline : (crlf ++ crlf).isPrefixOf
        (0x0A :: (joinLines (b :: line) more ++ (crlf ++ (crlf ++ data)))) = false := rfl
    have hskip := find_skip hfirst
      (0x0D :: 0x0A :: (joinLines (b :: line) more ++ (crlf ++ (crlf ++ data)))) [0x0A, 0x0D, 0x0A]
    rw [htext]
    refine hskip.trans ?_
    change (find _ (crlf ++ crlf)).map _ = _
    rw [find_cons, hreturn, find_cons, hnewline, hbehind]
    simp [joinLines, crlf]

/-! ## Parameters -/

/-- The loop of `extract_header_param`: where the next `key=` stands that begins a parameter. -/
def findParam (value needle : Bytes) : ℕ → ℕ → Option ℕ
  | 0, _ => none
  | fuel + 1, pos =>
    match find ((value.map toLower).drop pos) needle with
    | none => none
    | some skipped =>
      if pos + skipped = 0 ∨ value[pos + skipped - 1]? = some 0x20 ∨
          value[pos + skipped - 1]? = some 0x3B then
        some (pos + skipped)
      else findParam value needle fuel (pos + skipped + needle.length)

def extractHeaderParam (value key : Bytes) : Bytes :=
  let needle := key ++ bytes "="
  match findParam value needle (value.length + 1) 0 with
  | none => []
  | some pos =>
    let start := pos + needle.length
    if value[start]? = some 0x22 then
      match find (value.drop (start + 1)) [0x22] with
      | none => value.drop (start + 1)
      | some length => (value.drop (start + 1)).take length
    else
      let stop := (find (value.drop start) [0x3B]).getD (value.length - start)
      trimmed ((value.drop start).take stop)

/-- A parameter may begin behind this byte. -/
def Separates (prev : Option UInt8) : Prop := prev = none ∨ prev = some 0x20 ∨ prev = some 0x3B

instance (prev : Option UInt8) : Decidable (Separates prev) := inferInstanceAs (Decidable (_ ∨ _))

/-- The text behind the first `key=` that begins a parameter; `prev` is the byte in front. -/
def behindParam (needle : Bytes) (prev : Option UInt8) : Bytes → Option Bytes
  | [] => none
  | b :: text =>
    if Separates prev ∧ needle.isPrefixOf ((b :: text).map toLower) then
      some ((b :: text).drop needle.length)
    else behindParam needle (some b) text

/-- A quoted value ends at the next quote, another one at the next `;`. -/
def paramValue (behind : Bytes) : Bytes :=
  if behind.head? = some 0x22 then behind.tail.takeWhile (· ≠ 0x22)
  else trimmed (behind.takeWhile (· ≠ 0x3B))

theorem separates_getLast? (before text : Bytes) :
    (before.length = 0 ∨ (before ++ text)[before.length - 1]? = some 0x20 ∨
      (before ++ text)[before.length - 1]? = some 0x3B) ↔ Separates before.getLast? := by
  induction before using List.reverseRecOn with
  | nil => simp [Separates]
  | append_singleton before b => simp [Separates]

section Behind

variable {needle : Bytes}

theorem behindParam_skip {before text : Bytes} (prev : Option UInt8)
    (h : ∀ early late, before = early ++ late → late ≠ [] →
      needle.isPrefixOf ((late ++ text).map toLower) = false) :
    behindParam needle prev (before ++ text) =
      behindParam needle (before.getLast?.or prev) text := by
  induction before generalizing prev with
  | nil => rfl
  | cons b before ih =>
    have hnot : needle.isPrefixOf ((b :: (before ++ text)).map toLower) = false :=
      h [] (b :: before) rfl (List.cons_ne_nil _ _)
    rw [List.cons_append, behindParam, hnot, if_neg (by simp),
      ih (some b) fun early late hsplit => h (b :: early) late (congrArg (b :: ·) hsplit),
      List.getLast?_cons]
    cases before.getLast? <;> rfl

theorem behindParam_none {text : Bytes} (prev : Option UInt8)
    (h : ¬ needle <:+: text.map toLower) : behindParam needle prev text = none := by
  induction text generalizing prev with
  | nil => rfl
  | cons b text ih =>
    rw [behindParam, if_neg, ih _ fun hinside => h (hinside.trans (List.suffix_cons _ _).isInfix)]
    rintro ⟨-, hprefix⟩
    exact h (List.isPrefixOf_iff_prefix.mp hprefix).isInfix

end Behind

theorem behindParam_other {needle before : Bytes} (h : ∀ b ∈ before, toLower b ≠ first)
    (prev : Option UInt8) (text : Bytes) :
    behindParam (first :: needle) prev (before ++ text) =
      behindParam (first :: needle) (before.getLast?.or prev) text := by
  refine behindParam_skip prev fun early late hsplit hne => ?_
  obtain ⟨b, late, rfl⟩ := List.exists_cons_of_ne_nil hne
  have hb : (first == toLower b) = false := by
    have hmem : b ∈ before := hsplit ▸ List.mem_append_right early List.mem_cons_self
    exact beq_eq_false_iff_ne.mpr (h b hmem).symm
  rw [List.cons_append, List.map_cons, List.isPrefixOf, hb, Bool.false_and]

theorem behindParam_stop {needle : Bytes} {b : UInt8} (h : toLower b ∉ needle)
    (prev : Option UInt8) (value text : Bytes) : behindParam needle prev (value ++ b :: text) =
      match behindParam needle prev value with
      | some behind => some (behind ++ b :: text)
      | none => behindParam needle (value.getLast?.or prev) (b :: text) := by
  induction value generalizing prev with
  | nil => rfl
  | cons first value ih =>
    have hprefix : needle.isPrefixOf ((first :: (value ++ b :: text)).map toLower) =
        needle.isPrefixOf ((first :: value).map toLower) := by
      rw [← List.cons_append, List.map_append]
      exact isPrefixOf_stop h _ _
    rw [List.cons_append, behindParam, hprefix, behindParam]
    split_ifs with hhere
    · have hle := (List.isPrefixOf_iff_prefix.mp hhere.2).length_le
      rw [List.length_map] at hle
      dsimp only
      rw [← List.cons_append, List.drop_append_of_le_length hle]
    · rw [ih, List.getLast?_cons]
      cases behindParam needle (some first) value with
      | none =>
        dsimp only
        cases value.getLast? <;> rfl
      | some behind => rfl

/-- The loop finds the first `key=` that begins a parameter, as none begins inside another one. -/
theorem findParam_behind {needle : Bytes} (h : first ∉ needle) {fuel : ℕ} (before text : Bytes)
    (hfuel : text.length < fuel) :
    (findParam (before ++ text) (first :: needle) fuel before.length).map
        (fun pos => (before ++ text).drop (pos + (needle.length + 1))) =
      behindParam (first :: needle) before.getLast? text := by
  induction fuel generalizing before text with
  | zero => omega
  | succ fuel ih =>
    rw [findParam, List.map_append, List.drop_left' (List.length_map _)]
    cases hfind : find (text.map toLower) (first :: needle) with
    | none => exact (behindParam_none _ (find_eq_none hfind)).symm
    | some skipped =>
      obtain ⟨early, late, hsplit, hearly⟩ := find_split hfind
      obtain ⟨front, rest, rfl, hfront, -⟩ := List.map_eq_append_iff.mp hsplit
      obtain ⟨skip, key, rfl, hskip, hkey⟩ := List.map_eq_append_iff.mp hfront
      have hlength : skip.length = skipped := by rw [← hearly, ← hskip, List.length_map]
      have hkeyLength : key.length = needle.length + 1 := by
        rw [← List.length_map toLower, hkey, List.length_cons]
      have hnone : ∀ front back, skip = front ++ back → back ≠ [] →
          (first :: needle).isPrefixOf ((back ++ (key ++ rest)).map toLower) = false := by
        rintro front back rfl hne
        have hpos := List.length_pos_of_ne_nil hne
        have hnot := (find_spec hfind).2 front.length (by rw [← hlength, List.length_append]; omega)
        rwa [isAt, List.append_assoc, List.append_assoc, List.map_append, List.drop_left'
          (List.length_map _)] at hnot
      have hwhole : before ++ (skip ++ key ++ rest) = (before ++ skip) ++ (key ++ rest) := by simp
      have hpos : before.length + skipped = (before ++ skip).length := by
        rw [List.length_append, hlength]
      dsimp only
      rw [hwhole, List.append_assoc skip key rest, behindParam_skip _ hnone,
        ← List.getLast?_append, hpos]
      obtain ⟨k, key, rfl, hk, htail⟩ := List.map_eq_cons_iff.mp hkey
      by_cases hsep : Separates (before ++ skip).getLast?
      · have hprefix : (first :: needle).isPrefixOf ((k :: (key ++ rest)).map toLower) = true := by
          rw [← List.cons_append, List.map_append, hkey]
          exact List.isPrefixOf_iff_prefix.mpr (List.prefix_append _ _)
        rw [if_pos ((separates_getLast? _ _).mpr hsep), Option.map_some, ← List.drop_drop,
          List.drop_left, List.cons_append, behindParam, if_pos ⟨hsep, hprefix⟩, List.length_cons]
      · have hnext := ih ((before ++ skip) ++ k :: key) rest (by
          simp only [List.length_append] at hfuel
          omega)
        have hother : ∀ b ∈ key, toLower b ≠ first := by
          rintro b hb rfl
          exact h (htail ▸ List.mem_map_of_mem hb)
        rw [if_neg (mt (separates_getLast? _ _).mp hsep), List.length_cons, ← hkeyLength,
          ← List.length_append, List.cons_append, behindParam, if_neg fun hboth => hsep hboth.1,
          behindParam_other hother, hkeyLength, ← List.cons_append, ← List.append_assoc, hnext,
          List.getLast?_append, List.getLast?_cons]
        cases key.getLast? <;> rfl

theorem extractHeaderParam_eq {key needle : Bytes} (hkey : key ++ bytes "=" = first :: needle)
    (h : first ∉ needle) (value : Bytes) :
    extractHeaderParam value key =
      ((behindParam (key ++ bytes "=") none value).map paramValue).getD [] := by
  have hfind := findParam_behind h [] value (Nat.lt_succ_self _)
  rw [List.nil_append, List.length_nil, List.getLast?_nil] at hfind
  rw [extractHeaderParam, hkey, ← hfind]
  cases findParam value (first :: needle) (value.length + 1) 0 with
  | none => rfl
  | some pos =>
    dsimp only
    rw [Option.map_some, Option.map_some, Option.getD_some, paramValue, List.head?_drop,
      List.tail_drop, List.length_cons]
    split_ifs with hquote
    · rw [← take_find_byte, ← Nat.add_assoc]
      cases find (value.drop (pos + needle.length + 1 + 1)) [0x22] with
      | none => exact (List.take_length).symm
      | some length => rfl
    · rw [← take_find_byte, List.length_drop]

theorem behindParam_here {needle : Bytes} (hsep : Separates prev)
    (hlower : (first :: needle).map toLower = first :: needle) (text : Bytes) :
    behindParam (first :: needle) prev (first :: needle ++ text) = some text := by
  have hprefix : (first :: needle).isPrefixOf ((first :: needle ++ text).map toLower) = true := by
    rw [List.map_append, hlower]
    exact List.isPrefixOf_iff_prefix.mpr (List.prefix_append _ _)
  rw [List.cons_append] at hprefix ⊢
  rw [behindParam, if_pos ⟨hsep, hprefix⟩, ← List.cons_append, List.drop_left]

theorem behindParam_suffix {needle behind : Bytes}
    (h : behindParam needle prev text = some behind) : behind <:+ text := by
  induction text generalizing prev with
  | nil => exact nomatch h
  | cons b text ih =>
    rw [behindParam] at h
    split_ifs at h with hhere
    · exact Option.some.inj h ▸ List.drop_suffix _ _
    · exact (ih h).trans (List.suffix_cons b text)

theorem takeWhile_stop {p : UInt8 → Bool} (h : p b = false) (text rest : Bytes) :
    (text ++ b :: rest).takeWhile p = text.takeWhile p := by
  rw [List.takeWhile_append, List.takeWhile_cons_of_neg (by simp [h]), List.append_nil]
  split_ifs with hall
  · exact ((List.takeWhile_prefix p).eq_of_length hall).symm
  · rfl

theorem takeWhile_ne_stop (h : b ∉ text) (rest : Bytes) :
    (text ++ b :: rest).takeWhile (· ≠ b) = text := by
  rw [takeWhile_stop (by simp), List.takeWhile_eq_self_iff]
  intro x hx
  exact decide_eq_true fun hxb => h (hxb ▸ hx)

theorem paramValue_quoted {value : Bytes} (h : 0x22 ∉ value) (rest : Bytes) :
    paramValue (0x22 :: (value ++ 0x22 :: rest)) = value := by
  rw [paramValue, List.head?_cons, if_pos rfl, List.tail_cons, takeWhile_ne_stop h]

end FastTts.HeaderText
