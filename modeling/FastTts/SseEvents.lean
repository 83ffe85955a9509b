import FastTts.Json
import FastTts.JsonParse

/-!
# Events of a response body

`readSseEvents` decodes the reads of a response body, cuts the text at blank lines, and hands the
JSON value of every `data:` line to its callback. What it hands over depends on the text only, not
on where the reads cut it.
-/

namespace FastTts.SseEvents

open JsText JsonParse

variable {N S : Type} (toNumber : Units → N) (decode : S → Bytes → S × Units)

/-- The text up to the first blank line, and the text behind it. -/
def cutFrame : Units → Option (Units × Units)
  | [] => none
  | unit :: rest =>
    if unit == 0x0A && rest.head? == some 0x0A then some ([], rest.tail)
    else (cutFrame rest).map fun cut => (unit :: cut.1, cut.2)

def linePayload (line : Units) : Option Units :=
  if (ascii "data:").isPrefixOf line then
    let payload := trim (line.drop 5)
    if payload.isEmpty || payload == ascii "[DONE]" then none else some payload
  else none

/-- The values that the callback gets for a frame; a malformed one is dropped. -/
def framePayloads (frame : Units) : List (JsonValue N) :=
  (frame.splitOn 0x0A).filterMap fun line => (linePayload line).bind (parse toNumber)

/-- The frames that are complete in the buffer, and what stays in it. -/
def drainWithin : ℕ → Units → List (JsonValue N) × Units
  | 0, buffer => ([], buffer)
  | fuel + 1, buffer => match cutFrame buffer with
    | none => ([], buffer)
    | some (frame, rest) =>
      (framePayloads toNumber frame ++ (drainWithin fuel rest).1, (drainWithin fuel rest).2)

/-- Each frame takes its blank line away, so that there are no more of them than units. -/
def drain (buffer : Units) : List (JsonValue N) × Units :=
  drainWithin toNumber buffer.length buffer

def readLoop : S → Units → List Bytes → List (JsonValue N)
  | _, _, [] => []
  | state, buffer, value :: reads =>
    let buffer := buffer ++ (decode state value).2
    (drain toNumber buffer).1 ++
      readLoop (decode state value).1 (drain toNumber buffer).2 reads

/-- The values that `onPayload` is called with. -/
def readSseEvents (fresh : S) (body : Option (List Bytes)) :
    Except Exception (List (JsonValue N)) :=
  match body with
  | none => .error (bytes "The chat response has no readable body.")
  | some reads => .ok (readLoop toNumber decode fresh [] reads)

/-! ## Buffers that grow -/

variable {buffer last : Units} {values : List (JsonValue N)}

variable {frame rest last' : Units} {values' : List (JsonValue N)}

theorem cutFrame_append (h : cutFrame buffer = some (frame, rest)) (more : Units) :
    cutFrame (buffer ++ more) = some (frame, rest ++ more) := by
  induction buffer generalizing frame with
  | nil => exact nomatch h
  | cons unit buffer ih =>
    rw [cutFrame] at h
    cases buffer with
    | nil =>
      split_ifs at h with hblank
      · simp at hblank
      · exact nomatch h
    | cons next buffer =>
      rw [List.cons_append, cutFrame]
      split_ifs at h with hblank
      · obtain ⟨rfl, rfl⟩ := Prod.mk.inj (Option.some.inj h)
        rw [if_pos (by simpa using hblank)]
        rfl
      · obtain ⟨⟨before, behind⟩, hcut, hpair⟩ := Option.map_eq_some_iff.mp h
        obtain ⟨rfl, rfl⟩ := Prod.mk.inj hpair
        rw [if_neg (by simpa using hblank), ih hcut]
        rfl

theorem cutFrame_line {line : Units} (h : 0x0A ∉ line) (rest : Units) :
    cutFrame (line ++ 0x0A :: 0x0A :: rest) = some (line, rest) := by
  induction line with
  | nil => rfl
  | cons unit line ih =>
    have hunit : unit ≠ 0x0A := fun heq => h (heq ▸ List.mem_cons_self)
    have hline : 0x0A ∉ line := fun hmem => h (List.mem_cons_of_mem unit hmem)
    rw [List.cons_append, cutFrame, if_neg (by simp [hunit]), ih hline]
    rfl

theorem cutFrame_length (h : cutFrame buffer = some (frame, rest)) :
    rest.length < buffer.length := by
  induction buffer generalizing frame with
  | nil => exact nomatch h
  | cons unit buffer ih =>
    rw [cutFrame] at h
    split_ifs at h
    · obtain ⟨-, rfl⟩ := Prod.mk.inj (Option.some.inj h)
      rw [List.length_tail, List.length_cons]
      omega
    · obtain ⟨⟨before, behind⟩, hcut, hpair⟩ := Option.map_eq_some_iff.mp h
      obtain ⟨-, rfl⟩ := Prod.mk.inj hpair
      exact Nat.lt_succ_of_lt (ih hcut)

/-- The frames of a buffer until there is no blank line. -/
inductive Drains : Units → List (JsonValue N) → Units → Prop
  | done {buffer : Units} (h : cutFrame buffer = none) : Drains buffer [] buffer
  | frame {buffer frame rest last : Units} {values : List (JsonValue N)}
      (h : cutFrame buffer = some (frame, rest)) (hrest : Drains rest values last) :
      Drains buffer (framePayloads toNumber frame ++ values) last

variable {toNumber}

theorem drainWithin_drains {fuel : ℕ} (h : buffer.length ≤ fuel) :
    Drains toNumber buffer (drainWithin toNumber fuel buffer).1
      (drainWithin toNumber fuel buffer).2 := by
  induction fuel generalizing buffer with
  | zero =>
    rw [List.length_eq_zero_iff.mp (Nat.le_zero.mp h)]
    exact .done rfl
  | succ fuel ih =>
    rw [drainWithin]
    cases hcut : cutFrame buffer with
    | none => exact .done hcut
    | some cut =>
      obtain ⟨frame, rest⟩ := cut
      have hshort := cutFrame_length hcut
      exact .frame hcut (ih (by omega))

theorem Drains.unique (h : Drains toNumber buffer values last)
    (h' : Drains toNumber buffer values' last') : values = values' := by
  induction h generalizing values' with
  | done hnone =>
    cases h' with
    | done => rfl
    | frame hcut => exact nomatch hnone.symm.trans hcut
  | frame hcut hrest ih =>
    cases h' with
    | done hnone => exact nomatch hnone.symm.trans hcut
    | frame hcut' hrest' =>
      obtain ⟨rfl, rfl⟩ := Prod.mk.inj (Option.some.inj (hcut.symm.trans hcut'))
      rw [ih hrest']

theorem Drains.append {more : Units} (h : Drains toNumber buffer values last)
    (h' : Drains toNumber (last ++ more) values' last') :
    Drains toNumber (buffer ++ more) (values ++ values') last' := by
  induction h with
  | done => exact h'
  | frame hcut hrest ih =>
    rw [List.append_assoc]
    exact .frame (cutFrame_append hcut more) (ih h')

/-! ## Reads -/

def decoded : S → List Bytes → Units
  | _, [] => []
  | state, value :: reads => (decode state value).2 ++ decoded (decode state value).1 reads

variable {decode}

theorem Drains.last_cut (h : Drains toNumber buffer values last) : cutFrame last = none := by
  induction h with
  | done hnone => exact hnone
  | frame hcut hrest ih => exact ih

theorem readLoop_drains (h : cutFrame buffer = none) (state : S) (reads : List Bytes) : ∃ last,
      Drains toNumber (buffer ++ decoded decode state reads)
        (readLoop toNumber decode state buffer reads) last := by
  induction reads generalizing state buffer with
  | nil =>
    rw [decoded, List.append_nil]
    exact ⟨buffer, .done h⟩
  | cons value reads ih =>
    have hfirst : Drains toNumber (buffer ++ (decode state value).2)
        (drain toNumber (buffer ++ (decode state value).2)).1
        (drain toNumber (buffer ++ (decode state value).2)).2 := drainWithin_drains (le_refl _)
    obtain ⟨last, hrest⟩ := ih hfirst.last_cut (decode state value).1
    rw [decoded, ← List.append_assoc]
    exact ⟨last, hfirst.append hrest⟩

/-! ## Framed events -/

def framed (json : List Char) : List Char := "data: ".toList ++ (json ++ "\n\n".toList)

/-- The decoder gives the text of the bytes, in whatever reads they come. -/
def DecodesStream (decode : S → Bytes → S × Units) (fresh : S) (text : List Char) : Prop :=
  ∀ reads : List Bytes, reads.flatten = utf8Of text → decoded decode fresh reads = unitsOf text

theorem unitsOf_append (first second : List Char) :
    unitsOf (first ++ second) = unitsOf first ++ unitsOf second := List.flatMap_append

theorem newline_notMem_utf16 {char : Char} (h : char ≠ '\n') : 0x0A ∉ utf16 char := by
  have hchar : char.toNat ≠ 0x0A := fun heq => h (Char.ext (UInt32.toNat_inj.mp heq))
  have hbound : char.toNat < 0x110000 := by
    have hvalid := char.valid
    rw [← Char.toNat_val]
    simp only [UInt32.isValidChar, Nat.isValidChar] at hvalid
    omega
  have hunit : ∀ code, code < 0x10000 → code ≠ 0x0A → (0x0A : UInt16) ≠ UInt16.ofNat code := by
    intro code hcode hne heq
    have hnat := congrArg UInt16.toNat heq
    rw [UInt16.toNat_ofNat_of_lt' hcode] at hnat
    exact hne hnat.symm
  unfold utf16
  split_ifs with hsmall
  · simpa using hunit _ hsmall hchar
  · simp only [List.mem_cons, List.not_mem_nil, or_false, not_or]
    exact ⟨hunit _ (by omega) (by omega), hunit _ (by omega) (by omega)⟩

theorem newline_notMem_unitsOf {text : List Char} (h : '\n' ∉ text) : 0x0A ∉ unitsOf text := by
  rintro hmem
  obtain ⟨char, hchar, hunit⟩ := List.mem_flatMap.mp hmem
  exact newline_notMem_utf16 (fun heq => h (heq ▸ hchar)) hunit

theorem unitsOf_framed (json rest : List Char) : unitsOf (framed json ++ rest) =
    (ascii "data: " ++ unitsOf json) ++ 0x0A :: 0x0A :: unitsOf rest := by
  have hhead : unitsOf "data: ".toList = ascii "data: " := by decide
  have htail : unitsOf "\n\n".toList = [0x0A, 0x0A] := by decide
  rw [framed, unitsOf_append, unitsOf_append, unitsOf_append, hhead, htail]
  simp

theorem framePayloads_line {json : List Char} {value : JsonValue N} (hline : '\n' ∉ json)
    (hvalue : parse toNumber (unitsOf json) = some value) :
    framePayloads toNumber (ascii "data: " ++ unitsOf json) = [value] := by
  have hnone : (0x0A : UInt16) ∉ ascii "data: " ++ unitsOf json := by
    rw [List.mem_append, not_or]
    exact ⟨by decide, newline_notMem_unitsOf hline⟩
  have hspace : ∀ unit ∈ ascii " ", JsText.isSpace unit = true :=
    List.all_eq_true.mp (by decide)
  obtain ⟨hparse, hne⟩ := parse_trim toNumber hvalue hspace
  have hdone : trim (ascii " " ++ unitsOf json) ≠ ascii "[DONE]" := by
    intro heq
    rw [heq] at hparse
    exact nomatch hparse
  have hsplit : ascii "data: " ++ unitsOf json = ascii "data:" ++ (ascii " " ++ unitsOf json) := by
    rw [← List.append_assoc]
    rfl
  have hpayload : linePayload (ascii "data: " ++ unitsOf json) =
      some (trim (ascii " " ++ unitsOf json)) := by
    have hdrop : (ascii "data:" ++ (ascii " " ++ unitsOf json)).drop 5 =
        ascii " " ++ unitsOf json := rfl
    rw [hsplit, linePayload, if_pos (List.isPrefixOf_iff_prefix.mpr (List.prefix_append _ _)),
      hdrop]
    dsimp only
    rw [if_neg (by simp [hne, hdone])]
  rw [framePayloads, List.splitOn_eq_singleton hnone, List.filterMap_cons, hpayload,
    Option.bind_some, hparse]
  rfl

theorem drains_framed {events : List (List Char × JsonValue N)}
    (h : ∀ event ∈ events, '\n' ∉ event.1 ∧ parse toNumber (unitsOf event.1) = some event.2) :
    Drains toNumber (unitsOf (events.flatMap fun event => framed event.1))
      (events.map Prod.snd) [] := by
  induction events with
  | nil => exact .done rfl
  | cons event events ih =>
    obtain ⟨hline, hvalue⟩ := h event List.mem_cons_self
    have hrest := ih fun other hother => h other (List.mem_cons_of_mem event hother)
    have hnone : (0x0A : UInt16) ∉ ascii "data: " ++ unitsOf event.1 := by
      rw [List.mem_append, not_or]
      exact ⟨by decide, newline_notMem_unitsOf hline⟩
    have hcut := cutFrame_line hnone (unitsOf (events.flatMap fun event => framed event.1))
    have hdrains := Drains.frame hcut hrest
    rw [framePayloads_line hline hvalue] at hdrains
    rw [List.flatMap_cons, unitsOf_framed, List.map_cons]
    exact hdrains

/-- Each event reaches the callback, in order, wherever the reads cut the bytes. -/
theorem readSseEvents_payloads {fresh : S} {events : List (List Char × JsonValue N)}
    (hevents : ∀ event ∈ events,
      '\n' ∉ event.1 ∧ parse toNumber (unitsOf event.1) = some event.2)
    (hdecode : DecodesStream decode fresh (events.flatMap fun event => framed event.1))
    {reads : List Bytes}
    (hreads : reads.flatten = utf8Of (events.flatMap fun event => framed event.1)) :
    readSseEvents toNumber decode fresh (some reads) = .ok (events.map Prod.snd) := by
  have hread : ∃ last, Drains toNumber ([] ++ decoded decode fresh reads)
      (readLoop toNumber decode fresh [] reads) last := readLoop_drains rfl fresh reads
  obtain ⟨last, hdrains⟩ := hread
  rw [List.nil_append, hdecode reads hreads] at hdrains
  rw [readSseEvents, hdrains.unique (drains_framed hevents)]

def decodeAscii (_ : Unit) (value : Bytes) : Unit × Units :=
  ((), value.map fun byte => UInt16.ofNat byte.toNat)

theorem decoded_ascii (reads : List Bytes) : decoded decodeAscii () reads =
    reads.flatten.map fun byte => UInt16.ofNat byte.toNat := by
  induction reads with
  | nil => rfl
  | cons value reads ih =>
    rw [decoded, List.flatten_cons, List.map_append]
    exact congrArg (_ ++ ·) ih

theorem decodesStream_true : DecodesStream decodeAscii () (framed "true".toList) := by
  intro reads hreads
  rw [decoded_ascii, hreads]
  decide

/-- An event whose blank line is cut between its newlines. -/
theorem readSseEvents_payloads_true :
    readSseEvents (N := Units) id decodeAscii () (some [bytes "data: true\n", bytes "\n"]) =
      .ok [.bool true] := by
  have hevents : ∀ event ∈ [("true".toList, (JsonValue.bool true : JsonValue Units))],
      '\n' ∉ event.1 ∧ parse id (unitsOf event.1) = some event.2 := by
    intro event hevent
    rw [List.mem_singleton.mp hevent]
    exact ⟨by decide, rfl⟩
  exact readSseEvents_payloads hevents decodesStream_true (by decide)

end FastTts.SseEvents
