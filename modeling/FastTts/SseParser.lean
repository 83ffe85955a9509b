import FastTts.Json
import FastTts.Slices

/-!
# Server-sent events

`SseDeltaParser` takes the stream of a language model in slices, cuts it into lines, gathers the
`data` lines up to a blank one and parses what they say. The JSON parser is a parameter.
-/

namespace FastTts.Sse

open Slices

variable {N : Type} [Double N]

structure Event (N : Type) where
  delta : Bytes
  finishReason : Bytes
  done : Bool
  error : Bytes
  promptN : N
  promptMs : N
  predictedN : N
  predictedMs : N
  deriving DecidableEq, Repr

def Event.blank : Event N :=
  ⟨[], [], false, [], Double.lit (-1), Double.lit (-1), Double.lit (-1), Double.lit (-1)⟩

def nestedText (value : Json N) (outer inner : Bytes) : Option Bytes :=
  ((value.find outer).bind fun found => found.find inner).bind Json.string?

def timing (value : Json N) (key : Bytes) : N :=
  (((value.find (bytes "timings")).bind fun timings => timings.find key).bind Json.number?).getD
    (Double.lit (-1))

def readEvent (value : Json N) : Event N :=
  match value.find (bytes "error") with
  | some error =>
    { (Event.blank : Event N) with
      error := ((error.find (bytes "message")).bind Json.string?).getD (bytes "LLM stream error") }
  | none =>
    let choice := ((value.find (bytes "choices")).bind Json.array?).bind List.head?
    { (Event.blank : Event N) with
      delta := (choice.bind fun c => nestedText c (bytes "delta") (bytes "content")).getD []
      finishReason :=
        (choice.bind fun c => (c.find (bytes "finish_reason")).bind Json.string?).getD []
      promptN := timing value (bytes "prompt_n")
      promptMs := timing value (bytes "prompt_ms")
      predictedN := timing value (bytes "predicted_n")
      predictedMs := timing value (bytes "predicted_ms") }

/-- A malformed frame is dropped rather than killing the stream. -/
def parsePayload (parse : Bytes → Except Exception (Json N)) (payload : Bytes) : Event N :=
  if payload = bytes "[DONE]" then { Event.blank with done := true }
  else match parse payload with
    | .ok value => readEvent value
    | .error _ => Event.blank

/-! ## Lines -/

/-- A parser keeps the line that has not ended yet. -/
structure SseDeltaParser where
  buffer : Bytes
  eventData : Bytes
  unended : 0x0A ∉ buffer
  deriving DecidableEq

def SseDeltaParser.fresh : SseDeltaParser := ⟨[], [], List.not_mem_nil⟩

def withoutCr (line : Bytes) : Bytes := if line.getLast? = some 0x0D then line.dropLast else line

def dataField : Bytes := bytes "data:"

variable (parse : Bytes → Except Exception (Json N))

/-- What a line makes of the gathered data: a blank one dispatches them, a `data` one adds to them,
others are ignored. -/
def acceptLine (eventData line : Bytes) : List (Event N) × Bytes :=
  let line := withoutCr line
  if line.isEmpty then
    if eventData.isEmpty then ([], eventData) else ([parsePayload parse eventData], [])
  else if dataField.isPrefixOf line then
    let payload := line.drop 5
    let payload := if payload.head? = some 0x20 then payload.tail else payload
    ([], (if eventData.isEmpty then eventData else eventData ++ [0x0A]) ++ payload)
  else ([], eventData)

/-- Goes through the lines of a text; what is left has no end. -/
def feedLoop : ℕ → Bytes → Bytes → List (Event N) × SseDeltaParser
  | fuel, eventData, text =>
    if h : 0x0A ∈ text then
      match fuel with
      | 0 => ([], ⟨[], eventData, List.not_mem_nil⟩)
      | fuel + 1 =>
        let newline := text.idxOf 0x0A
        let accepted := acceptLine parse eventData (text.take newline)
        let more := feedLoop fuel accepted.2 (text.drop (newline + 1))
        (accepted.1 ++ more.1, more.2)
    else ([], ⟨text, eventData, h⟩)

variable (parser : SseDeltaParser)

/-- Every line has an end, so the length of the text is enough fuel. -/
def feed (slice : Bytes) : List (Event N) × SseDeltaParser :=
  feedLoop parse (parser.buffer ++ slice).length parser.eventData (parser.buffer ++ slice)

/-! ## One byte after the other -/

def byteStep (ch : UInt8) : List (Event N) × SseDeltaParser :=
  if h : ch = 0x0A then
    let accepted := acceptLine parse parser.eventData parser.buffer
    (accepted.1, ⟨[], accepted.2, List.not_mem_nil⟩)
  else
    ([], ⟨parser.buffer ++ [ch], parser.eventData, by
      rw [List.mem_append, List.mem_singleton, not_or]
      exact ⟨parser.unended, fun hch => h hch.symm⟩⟩)

theorem scan_open {text : Bytes} (h : 0x0A ∉ parser.buffer ++ text) :
    scan (byteStep parse) parser text = ([], ⟨parser.buffer ++ text, parser.eventData, h⟩) := by
  induction text generalizing parser with
  | nil =>
    obtain ⟨buffer, eventData, unended⟩ := parser
    simp [scan]
  | cons ch text ih =>
    have hne : ¬ ch = 0x0A := by
      rintro rfl
      exact h (List.mem_append_right _ List.mem_cons_self)
    have hassoc : (parser.buffer ++ [ch]) ++ text = parser.buffer ++ ch :: text := by simp
    rw [scan, byteStep, dif_neg hne]
    have hunended : 0x0A ∉ parser.buffer ++ [ch] := by
      rw [List.mem_append, List.mem_singleton, not_or]
      exact ⟨parser.unended, fun hch => hne hch.symm⟩
    have hrest := ih ⟨parser.buffer ++ [ch], parser.eventData, hunended⟩ (by rw [hassoc]; exact h)
    rw [hrest]
    simp

theorem scan_line {line : Bytes} (hline : 0x0A ∉ line) :
    scan (byteStep parse) parser (line ++ [0x0A]) =
      ((acceptLine parse parser.eventData (parser.buffer ++ line)).1,
        ⟨[], (acceptLine parse parser.eventData (parser.buffer ++ line)).2, List.not_mem_nil⟩) := by
  have hopen : 0x0A ∉ parser.buffer ++ line := by
    rw [List.mem_append, not_or]
    exact ⟨parser.unended, hline⟩
  rw [scan_append, scan_open parse _ hopen]
  simp [scan, byteStep]

theorem split_at_newline {text : Bytes} (h : 0x0A ∈ text) :
    0x0A ∉ text.take (text.idxOf 0x0A) ∧
      text = text.take (text.idxOf 0x0A) ++ [0x0A] ++ text.drop (text.idxOf 0x0A + 1) := by
  have hlt := List.idxOf_lt_length_of_mem h
  constructor
  · intro hmem
    obtain ⟨i, hi, hget⟩ := List.mem_iff_getElem.mp hmem
    rw [List.length_take] at hi
    rw [List.getElem_take] at hget
    have hfirst : i < text.findIdx fun ch => ch == 0x0A := by
      rw [List.idxOf] at hi
      omega
    have hnot := List.not_of_lt_findIdx hfirst
    simp [hget] at hnot
  · have hget : text[text.idxOf 0x0A] = 0x0A := List.getElem_idxOf hlt
    conv_lhs => rw [← List.take_append_drop (text.idxOf 0x0A) text,
      List.drop_eq_getElem_cons hlt, hget]
    simp

theorem feedLoop_eq_scan (fuel : ℕ) (eventData text : Bytes) (hfuel : text.length ≤ fuel) :
    feedLoop parse fuel eventData text =
      scan (byteStep parse) ⟨[], eventData, List.not_mem_nil⟩ text := by
  induction fuel generalizing eventData text with
  | zero =>
    have hnil : text = [] := List.length_eq_zero_iff.mp (by omega)
    subst hnil
    rfl
  | succ fuel ih =>
    rw [feedLoop]
    by_cases hmem : 0x0A ∈ text
    · obtain ⟨hline, hsplit⟩ := split_at_newline hmem
      have hlt := List.idxOf_lt_length_of_mem hmem
      have hdrop : (text.drop (text.idxOf 0x0A + 1)).length ≤ fuel := by
        rw [List.length_drop]
        omega
      rw [dif_pos hmem]
      conv_rhs => rw [hsplit, scan_append, scan_line parse _ hline]
      simp only [List.nil_append, ih _ _ hdrop]
    · rw [dif_neg hmem, scan_open parse _ hmem]
      rfl

theorem feed_eq_scan (slice : Bytes) :
    feed parse parser slice = scan (byteStep parse) parser slice := by
  have hbuffer : scan (byteStep parse) ⟨[], parser.eventData, List.not_mem_nil⟩ parser.buffer =
      ([], parser) := by
    rw [scan_open parse ⟨[], parser.eventData, List.not_mem_nil⟩ parser.unended]
    rfl
  rw [feed, feedLoop_eq_scan parse _ _ _ le_rfl, scan_append, hbuffer]
  rfl

/-! ## Frames -/

inductive LineEnd
  | lf
  | crlf
  deriving DecidableEq, Repr

def LineEnd.text : LineEnd → Bytes
  | .lf => [0x0A]
  | .crlf => [0x0D, 0x0A]

/-- A payload with the ends of its line and of the blank line after it. -/
structure Frame where
  payload : Bytes
  dataEnd : LineEnd
  blankEnd : LineEnd
  deriving DecidableEq, Repr

namespace Frame

def text (frame : Frame) : Bytes :=
  bytes "data: " ++ frame.payload ++ frame.dataEnd.text ++ frame.blankEnd.text

/-- A `\r` at the end of the payload would belong to the end of its line. -/
structure WellFormed (frame : Frame) : Prop where
  nonempty : frame.payload ≠ []
  newlineFree : 0x0A ∉ frame.payload
  unambiguous : frame.dataEnd = .lf → frame.payload.getLast? ≠ some 0x0D

end Frame

def LineEnd.cr : LineEnd → Bytes
  | .lf => []
  | .crlf => [0x0D]

theorem lineEnd_text (lineEnd : LineEnd) : lineEnd.text = lineEnd.cr ++ [0x0A] := by
  cases lineEnd <;> rfl

theorem newline_notMem_cr (lineEnd : LineEnd) : 0x0A ∉ lineEnd.cr := by
  cases lineEnd <;> decide

variable {frame : Frame}

theorem withoutCr_data (h : frame.WellFormed) :
    withoutCr (bytes "data: " ++ frame.payload ++ frame.dataEnd.cr) =
      bytes "data: " ++ frame.payload := by
  rw [withoutCr]
  cases hend : frame.dataEnd with
  | lf =>
    have hlast := h.unambiguous hend
    rw [LineEnd.cr, List.append_nil, List.getLast?_append_of_ne_nil _ h.nonempty, if_neg hlast]
  | crlf => simp [LineEnd.cr]

theorem acceptLine_data (h : frame.WellFormed) :
    acceptLine parse [] (bytes "data: " ++ frame.payload ++ frame.dataEnd.cr) =
      ([], frame.payload) := by
  rw [acceptLine, withoutCr_data h]
  rfl

theorem acceptLine_blank {payload : Bytes} (h : payload ≠ []) (lineEnd : LineEnd) :
    acceptLine parse payload lineEnd.cr = ([parsePayload parse payload], []) := by
  have hblank : withoutCr lineEnd.cr = [] := by
    cases lineEnd <;> rfl
  have hne : ¬ payload.isEmpty = true := fun hempty => h (List.isEmpty_iff.mp hempty)
  rw [acceptLine, hblank]
  simp [hne]

theorem scan_frame (h : frame.WellFormed) :
    scan (byteStep parse) .fresh frame.text = ([parsePayload parse frame.payload], .fresh) := by
  have hline : 0x0A ∉ bytes "data: " ++ frame.payload ++ frame.dataEnd.cr := by
    simp only [List.mem_append, not_or]
    exact ⟨⟨by decide, h.newlineFree⟩, newline_notMem_cr _⟩
  have hsplit : frame.text = (bytes "data: " ++ frame.payload ++ frame.dataEnd.cr ++ [0x0A]) ++
      (frame.blankEnd.cr ++ [0x0A]) := by
    rw [Frame.text, lineEnd_text, lineEnd_text]
    simp only [List.append_assoc]
  have hdata := scan_line parse .fresh hline
  have hblank : scan (byteStep parse) ⟨[], frame.payload, List.not_mem_nil⟩
      (frame.blankEnd.cr ++ [0x0A]) = _ := scan_line parse _ (newline_notMem_cr frame.blankEnd)
  simp only [SseDeltaParser.fresh, List.nil_append, acceptLine_data parse h] at hdata
  simp only [List.nil_append, acceptLine_blank parse h.nonempty] at hblank
  rw [hsplit, scan_append, SseDeltaParser.fresh, hdata]
  simp only [hblank, List.nil_append]

theorem scan_frames {frames : List Frame} (h : ∀ frame ∈ frames, frame.WellFormed) :
    scan (byteStep parse) .fresh (frames.flatMap Frame.text) =
      (frames.map fun frame => parsePayload parse frame.payload, .fresh) := by
  induction frames with
  | nil => rfl
  | cons frame frames ih =>
    have hframe := h frame List.mem_cons_self
    have hrest := ih fun f hf => h f (List.mem_cons_of_mem _ hf)
    rw [List.flatMap_cons, scan_append, scan_frame parse hframe, hrest]
    rfl

/-- The events depend on the bytes and not on the slices they come in, and each frame is one
event. -/
theorem feed_reads_frames :
    (∀ (parser : SseDeltaParser) (slices : List Bytes),
      feedAll (feed parse) parser slices = feed parse parser slices.flatten) ∧
    (∀ frames : List Frame, (∀ frame ∈ frames, frame.WellFormed) →
      (feed parse .fresh (frames.flatMap Frame.text)).1 =
        frames.map fun frame => parsePayload parse frame.payload) := by
  constructor
  · intro parser slices
    rw [feedAll_eq_scan (feed_eq_scan parse), feed_eq_scan]
  · intro frames h
    rw [feed_eq_scan, scan_frames parse h]

def noJson : Bytes → Except Exception (Json ℚ) := fun _ => .error []

theorem feed_reads_frames_done :
    (feed noJson .fresh ([⟨bytes "[DONE]", .crlf, .lf⟩].flatMap Frame.text)).1 =
      [{ (Event.blank : Event ℚ) with done := true }] := by
  refine ((feed_reads_frames noJson).2 [⟨bytes "[DONE]", .crlf, .lf⟩] ?_).trans rfl
  intro frame hframe
  rw [List.mem_singleton] at hframe
  subst hframe
  exact ⟨by decide, by decide, nofun⟩

/-- A payload that is a single `\r` goes with the end of its line. -/
theorem cr_payload_is_dropped : ¬ ∀ frames : List Frame,
    (∀ frame ∈ frames, frame.payload ≠ [] ∧ 0x0A ∉ frame.payload) →
    (feed noJson .fresh (frames.flatMap Frame.text)).1.length = frames.length := by
  intro hall
  have hone := hall [⟨[0x0D], .lf, .lf⟩] (by
    intro frame hframe
    rw [List.mem_singleton] at hframe
    subst hframe
    exact ⟨by decide, by decide⟩)
  have hnone : (feed noJson .fresh (List.flatMap Frame.text [⟨[0x0D], .lf, .lf⟩])).1.length = 0 := by
    decide
  rw [hnone] at hone
  exact absurd hone (by decide)

end FastTts.Sse
