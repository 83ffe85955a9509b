import FastTts.ChunkedBody
import FastTts.SseParser

/-!
# The stream of the language model

`chat_stream` decodes what it receives, feeds it to the parser and handles the events, until one of
them or the last chunk ends the stream. How an event is handled is a parameter.
-/

namespace FastTts.LlmStream

open Slices Chunked Sse

variable {N τ : Type}

section

variable (handle : τ → Event N → Bool × τ)

def handleEvents (state : τ) : List (Event N) → Bool × τ
  | [] => (true, state)
  | event :: events =>
    let next := handle state event
    if next.1 then handleEvents next.2 events else next

variable [Double N] (parse : Bytes → Except Exception (Json N)) (chunked : Bool)

/-- The rounds of `consume`. -/
def readStream : ChunkedBodyDecoder → SseDeltaParser → τ → List Bytes → τ
  | _, _, state, [] => state
  | decoder, parser, state, slice :: slices =>
    let decoded := if chunked then decoder.feed slice else (slice, decoder)
    let fed := feed parse parser decoded.1
    let next := handleEvents handle state fed.1
    if next.1 && !(chunked && decoded.2.finished) then
      readStream decoded.2 fed.2 next.2 slices
    else next.2

end

variable {handle : τ → Event N → Bool × τ}

theorem handleEvents_append (state : τ) (events more : List (Event N)) :
    handleEvents handle state (events ++ more) =
      if (handleEvents handle state events).1 then
        handleEvents handle (handleEvents handle state events).2 more
      else handleEvents handle state events := by
  induction events generalizing state with
  | nil => rfl
  | cons event events ih =>
    rw [List.cons_append, handleEvents, handleEvents, ih]
    by_cases hnext : (handle state event).1 = true
    · simp only [if_pos hnext]
    · simp only [if_neg hnext]

variable [Double N] {parse : Bytes → Except Exception (Json N)}

/-- After the last chunk nothing is decoded, so that no event is lost. -/
theorem readStream_eq (decoder : ChunkedBodyDecoder) (parser : SseDeltaParser) (state : τ)
    (slices : List Bytes) :
    readStream handle parse true decoder parser state slices = (handleEvents handle state
      (feed parse parser (feedAll ChunkedBodyDecoder.feed decoder slices).1).1).2 := by
  induction slices generalizing decoder parser state with
  | nil =>
    rw [feedAll, feed_eq_scan]
    rfl
  | cons slice slices ih =>
    simp only [feed_eq_scan] at ih
    simp only [readStream, feedAll, if_true, Bool.true_and, feed_eq_scan, scan_append,
      handleEvents_append]
    split_ifs with hgo hmore hmore
    · exact ih _ _ _
    · simp_all
    · have hdone : (decoder.feed slice).2.state = .done := by simp_all [ChunkedBodyDecoder.finished]
      rw [feedAll_eq_scan ChunkedBodyDecoder.feed_eq_scan, ChunkedBodyDecoder.scan_done hdone]
      rfl
    · rfl

/-- Frames that are written in any pieces and received in any slices are handled in order, up to the
one that ends the stream. -/
theorem readStream_frames {frames : List Frame} (hframes : ∀ frame ∈ frames, frame.WellFormed)
    {writes : List StringView} (hwrites : (writes.map StringView.data).flatten =
      frames.flatMap Frame.text) {slices : List Bytes} (hslices : slices.flatten = written writes)
    (state : τ) : readStream handle parse true .fresh .fresh state slices =
      (handleEvents handle state (frames.map fun frame => parsePayload parse frame.payload)).2 := by
  obtain ⟨after, hbody⟩ := scan_writes writes 0
  have hidle : ChunkedBodyDecoder.fresh = idle 0 := rfl
  rw [readStream_eq, feedAll_eq_scan ChunkedBodyDecoder.feed_eq_scan, hslices, written,
    scan_append, hidle, hbody, hwrites, feed_eq_scan]
  have hend : (scan ChunkedBodyDecoder.byteStep (idle after) finish).1 = [] := rfl
  rw [hend, List.append_nil, scan_frames parse hframes]

/-- One event in two writes, received in two slices. -/
theorem readStream_frames_done :
    readStream (fun count event => (!event.done, count + 1)) noJson true .fresh .fresh 0
      [bytes "8\r\ndata: [D\r", bytes "\n6\r\nONE]\n\n\r\n0\r\n\r\n"] = 1 := by
  have hframes : ∀ frame ∈ [(⟨bytes "[DONE]", .lf, .lf⟩ : Frame)], frame.WellFormed := by
    intro frame hframe
    obtain rfl := List.mem_singleton.mp hframe
    exact ⟨by decide, by decide, by decide⟩
  have hwrites : ([⟨bytes "data: [D", by decide⟩, ⟨bytes "ONE]\n\n", by decide⟩].map
      StringView.data).flatten = [⟨bytes "[DONE]", .lf, .lf⟩].flatMap Frame.text := by decide
  exact (readStream_frames hframes hwrites (by decide) 0).trans rfl

end FastTts.LlmStream
