import FastTts.LiveDeframe

/-!
# The outcome of reading a live body

The current chunk is handed out window by window and the next one is fetched when nothing is left
of it, so that the caller reads the data of one chunk after the other.
-/

namespace FastTts.LiveBody

open Chunked (crlf)
open Pieces

/-- The reader once the caller has been handed all of the current chunk. -/
def Reader.spent (r : Reader) : Reader := { r with window := [], chunkPos := r.chunk.length }

/-- Nothing is left of the current chunk, and the body goes on. -/
structure Reader.Drained (r : Reader) : Prop where
  window : r.window = []
  chunk : r.chunk.length ≤ r.chunkPos
  unfinished : r.finished = false

theorem ok_bind {β γ : Type} (a : β) (next : β → Except Exception γ) :
    (Except.ok a >>= next) = next a := rfl

theorem withinBodyCap {limits : Limits} {r : Reader} {pieces : List Bytes} {wire : Bytes}
    (h : Holds limits r pieces wire) : requireWithinBodyCap limits r = .ok () := by
  rw [requireWithinBodyCap, if_neg]
  rintro ⟨hpos, hexceeds⟩
  have hbody := h.body
  omega

variable {feed : List Receive}

theorem reads_congr {limits : Limits} {feed' : List Receive} {r r' : Reader} {data : Bytes}
    {outcome : Outcome} (hread : readByte limits feed r = readByte limits feed' r')
    (h : Reads limits feed' r' data outcome) : Reads limits feed r data outcome := by
  cases h with
  | eof heof => exact .eof (hread.trans heof)
  | throws hthrows => exact .throws (hread.trans hthrows)
  | byte hbyte hrest => exact .byte (hread.trans hbyte) hrest

theorem readByte_window {limits : Limits} {r : Reader} {ch : UInt8} {window : Bytes}
    (h : r.window = ch :: window) :
    readByte limits feed r = .ok (some ch, { r with window := window }, feed) := by
  have hsome : ¬ r.window.isEmpty = true := by
    rw [h]
    exact Bool.false_ne_true
  rw [readByte, if_neg hsome, ok_bind]
  simp only [h]
  rfl

section Serve

variable {limits : Limits} (hlate : ∀ r, limits.late r = false) {r : Reader} {wire : Bytes}
  {pieces : List Bytes}

include hlate

theorem readByte_out (h : Holds limits r pieces wire) (hposition : r.chunkPos ≤ r.chunk.length)
    {ch : UInt8} {out : Bytes} (hout : r.out = ch :: out) :
    ∃ r', readByte limits (feedOf pieces) r = .ok (some ch, r', feedOf pieces) ∧ r'.out = out ∧
      r'.spent = r.spent ∧ r'.chunkPos ≤ r'.chunk.length ∧ Holds limits r' pieces wire := by
  cases hwindow : r.window with
  | cons first window =>
    rw [Reader.out, hwindow, List.cons_append] at hout
    injection hout with hfirst hrest
    refine ⟨{ r with window := window }, ?_, hrest, rfl, hposition, h.replace rfl h.position rfl⟩
    rw [readByte_window hwindow, hfirst]
  | nil =>
    rw [Reader.out, hwindow, List.nil_append] at hout
    have hlen := congrArg List.length hout
    rw [List.length_drop, List.length_cons] at hlen
    have hmore : ¬ r.chunk.length ≤ r.chunkPos := by omega
    let count := min windowBytes (r.chunk.length - r.chunkPos)
    let published : Reader := { r with
      window := (r.chunk.drop r.chunkPos).take count
      chunkPos := r.chunkPos + count }
    have hpublish : publishWindow limits r = .ok (some published) := by
      rw [publishWindow, if_neg hmore, inTime hlate]
      rfl
    have hpublished : published.window = ch :: out.take (count - 1) := by
      have hpos : count = count - 1 + 1 := by
        have hwindowBytes : 0 < windowBytes := by decide
        omega
      change (r.chunk.drop r.chunkPos).take count = _
      rw [hout, hpos]
      rfl
    refine ⟨{ published with window := out.take (count - 1) }, ?_, ?_, rfl, ?_,
      h.replace rfl h.position rfl⟩
    · have hempty : r.window.isEmpty = true := by rw [hwindow, List.isEmpty_nil]
      have hfill : underflow limits (feedOf pieces) r = .ok (published, feedOf pieces) := by
        rw [underflow, withinBodyCap h]
        change (publishWindow limits r >>= _) = _
        rw [hpublish]
        rfl
      rw [readByte, if_pos hempty, hfill, ok_bind]
      simp only [hpublished]
      rfl
    · have hsplit : published.window ++ r.chunk.drop (r.chunkPos + count) = ch :: out := by
        rw [← hout, ← List.drop_drop]
        exact List.take_append_drop _ _
      rw [hpublished, List.cons_append] at hsplit
      injection hsplit
    · change r.chunkPos + count ≤ r.chunk.length
      omega

variable {rest data tail : Bytes} {outcome : Outcome}

theorem reads_out (h : Holds limits r pieces wire) (hposition : r.chunkPos ≤ r.chunk.length)
    (hrest : Reads limits (feedOf pieces) r.spent rest outcome) :
    Reads limits (feedOf pieces) r (r.out ++ rest) outcome := by
  generalize hout : r.out = out
  induction out generalizing r with
  | nil =>
    rw [Reader.out, List.append_eq_nil_iff, List.drop_eq_nil_iff] at hout
    have hspent : r.spent = r := by
      rw [Reader.spent, ← hout.1, ← Nat.le_antisymm hposition hout.2]
    rwa [hspent] at hrest
  | cons ch out ih =>
    obtain ⟨r', hread, hout', hspent, hposition', hholds⟩ := readByte_out hlate h hposition hout
    rw [← hspent] at hrest
    exact .byte hread (ih hholds hposition' hrest hout')

omit hlate in
theorem readByte_drained (h : Holds limits r pieces wire) (hdrained : r.Drained) :
    readByte limits (feedOf pieces) r = nextChunk limits (feedOf pieces) r >>= fun filled =>
      match filled.1.window with
      | [] => .ok (none, filled)
      | ch :: window => .ok (some ch, { filled.1 with window := window }, filled.2) := by
  have hempty : r.window.isEmpty = true := by rw [hdrained.window, List.isEmpty_nil]
  have hfill : underflow limits (feedOf pieces) r = nextChunk limits (feedOf pieces) r := by
    rw [underflow, withinBodyCap h, ok_bind, publishWindow, if_pos hdrained.chunk]
    rfl
  rw [readByte, if_pos hempty, hfill]
  rfl

theorem reads_fetched {r' : Reader} {pieces' : List Bytes} (h : Holds limits r pieces wire)
    (hdrained : r.Drained) (hnext : nextChunk limits (feedOf pieces) r = .ok (r', feedOf pieces'))
    (hfetched : Fetched limits r' pieces' data tail)
    (hrest : Reads limits (feedOf pieces') r'.spent rest outcome) :
    Reads limits (feedOf pieces) r (data ++ rest) outcome := by
  have hserved := reads_out hlate hfetched.holds hfetched.position hrest
  rw [hfetched.out] at hserved
  refine reads_congr ?_ hserved
  rw [readByte_drained h hdrained, hnext, ok_bind]
  cases hwindow : r'.window with
  | nil => exact absurd hwindow hfetched.window
  | cons ch window => rw [readByte_window hwindow]

omit hlate in
theorem drained_spent (hfetched : Fetched limits r pieces data tail) :
    r.spent.Drained ∧ Holds limits r.spent pieces tail :=
  ⟨⟨rfl, le_rfl, hfetched.unfinished⟩,
    hfetched.holds.replace rfl hfetched.holds.position rfl⟩

/-! ## Bodies -/

variable {chunks : List Chunk} {last : Bytes} {trailers : List Bytes}
  (hchunks : ∀ chunk ∈ chunks, chunk.WellFormed limits.chunkCap) (hlast : IsHeader last 0)
  (htrailers : AreTrailers trailers)

include hchunks hlast htrailers

theorem reads_whole
    (h : Holds limits r pieces ((chunks.flatMap Chunk.segments ++
      .line last :: trailerSegments trailers).flatMap Segment.wire)) (hdrained : r.Drained)
    (hcut : ¬ CutsLongLine (Boundary r.ahead.length pieces)
      (chunks.flatMap Chunk.segments ++ .line last :: trailerSegments trailers)) :
    Reads limits (feedOf pieces) r (chunks.flatMap Chunk.data) .eof := by
  induction chunks generalizing r pieces with
  | nil =>
    obtain ⟨r', pieces', hnext, hwindow⟩ :=
      nextChunk_last hlate hlast htrailers h hdrained.unfinished hcut
    apply Reads.eof
    rw [readByte_drained h hdrained, hnext, ok_bind]
    simp only [hwindow, hdrained.window]
    rfl
  | cons chunk chunks ih =>
    rw [List.flatMap_cons, List.append_assoc] at h hcut
    rw [List.flatMap_append] at h
    obtain ⟨r', pieces', hnext, hfetched, hcut'⟩ := nextChunk_whole hlate
      (hchunks chunk List.mem_cons_self) h hdrained.unfinished hcut
    obtain ⟨hdrained', hholds⟩ := drained_spent hfetched
    have hrest := ih (fun c hc => hchunks c (List.mem_cons_of_mem _ hc)) hholds hdrained' hcut'
    exact reads_fetched hlate h hdrained hnext hfetched hrest

theorem reads_fails (h : Holds limits r pieces wire) (hdrained : r.Drained)
    (hfails : Fails (Boundary r.ahead.length pieces)
      (chunks.flatMap Chunk.segments ++ .line last :: trailerSegments trailers) wire) :
    ∃ data what, Reads limits (feedOf pieces) r data (.throws what) := by
  induction chunks generalizing r pieces wire with
  | nil =>
    obtain ⟨what, hnext⟩ :=
      nextChunk_last_fails hlate hlast htrailers h hdrained.unfinished hfails
    refine ⟨[], what, .throws ?_⟩
    rw [readByte_drained h hdrained, hnext]
    rfl
  | cons chunk chunks ih =>
    rw [List.flatMap_cons, List.append_assoc] at hfails
    rcases nextChunk_fails hlate (hchunks chunk List.mem_cons_self) h hdrained.unfinished hfails
      with ⟨what, hnext⟩ | ⟨r', pieces', tail, hnext, hfetched, hrest⟩
    · refine ⟨[], what, .throws ?_⟩
      rw [readByte_drained h hdrained, hnext]
      rfl
    · obtain ⟨hdrained', hholds⟩ := drained_spent hfetched
      obtain ⟨data, what, hreads⟩ :=
        ih (fun c hc => hchunks c (List.mem_cons_of_mem _ hc)) hholds hdrained' hrest
      exact ⟨_, what, reads_fetched hlate h hdrained hnext hfetched hreads⟩

end Serve

/-! ## The outcome -/

/-- A live body is read whole whatever receives it comes in, unless one of them cuts the end of a
line of the greatest length; a body that the peer does not finish gives an exception. -/
theorem reads_body_or_throws (limits : Limits) (hlate : ∀ r, limits.late r = false) (body : Body)
    (hbody : body.WellFormed limits)
    (hcap : limits.maxBodyBytes = 0 ∨ body.wire.length ≤ limits.maxBodyBytes)
    (prefetched : Bytes) (pieces : List Bytes) (hpieces : ∀ piece ∈ pieces, piece ≠ [])
    (hwire : prefetched ++ pieces.flatten <+: body.wire) :
    (prefetched ++ pieces.flatten = body.wire →
      (Reads limits (feedOf pieces) (start prefetched) body.data .eof ↔
        ¬ CutsLongLine (Boundary prefetched.length pieces) body.segments)) ∧
    (prefetched ++ pieces.flatten ≠ body.wire →
      ∃ data what, Reads limits (feedOf pieces) (start prefetched) data (.throws what)) := by
  have hahead : (start prefetched).ahead = prefetched := List.drop_zero
  have hlen := hwire.length_le
  rw [List.length_append] at hlen
  have hholds : Holds limits (start prefetched) pieces (prefetched ++ pieces.flatten) := by
    refine ⟨Nat.zero_le _, by rw [hahead], hpieces, ?_⟩
    change limits.maxBodyBytes = 0 ∨ prefetched.length + _ ≤ _
    omega
  have hdrained : (start prefetched).Drained := ⟨rfl, Nat.zero_le _, rfl⟩
  have hthrows : (prefetched ++ pieces.flatten = body.wire →
      CutsLongLine (Boundary prefetched.length pieces) body.segments) →
      ∃ data what, Reads limits (feedOf pieces) (start prefetched) data (.throws what) := by
    intro hcuts
    apply reads_fails hlate hbody.chunks hbody.last hbody.trailers hholds hdrained
    rw [hahead]
    exact ⟨hwire, hcuts⟩
  constructor
  · intro hall
    constructor
    · intro hreads hcuts
      obtain ⟨data, what, hthrow⟩ := hthrows fun _ => hcuts
      exact absurd (hreads.unique hthrow).2 (by simp)
    · intro hcut
      rw [hall] at hholds
      apply reads_whole hlate hbody.chunks hbody.last hbody.trailers hholds hdrained
      rw [hahead]
      exact hcut
  · intro hpart
    exact hthrows fun hall => absurd hall hpart

def greeting : Body := ⟨[⟨bytes "5;part=one", bytes "hello"⟩], bytes "0", [bytes "a: b"]⟩

theorem greeting_wellFormed : greeting.WellFormed ⟨40, 0, fun _ => false⟩ := by
  refine ⟨?_, ⟨by decide, by decide, by decide, List.all_eq_true.mp (by decide), by decide⟩,
    ⟨by decide, by decide, by decide⟩⟩
  intro chunk hchunk
  obtain rfl := List.mem_singleton.mp hchunk
  refine ⟨⟨by decide, by decide, by decide, ?_, by decide⟩, by decide, by decide⟩
  exact List.all_eq_true.mp (by decide)

/-- The greeting comes in two receives that split its first line end, or stops in its trailer. -/
theorem reads_body_or_throws_greeting :
    Reads ⟨40, 0, fun _ => false⟩ (feedOf [greeting.wire.drop 11]) (start (greeting.wire.take 11))
      (bytes "hello") .eof ∧
    ∃ data what, Reads ⟨40, 0, fun _ => false⟩ (feedOf []) (start (greeting.wire.take 27)) data
      (.throws what) := by
  constructor
  · apply ((reads_body_or_throws _ (fun _ => rfl) greeting greeting_wellFormed (by decide) _ _
      (by decide) (by decide)).1 (by decide)).mpr
    rintro ⟨before, text, after, hsplit, hlen, _⟩
    have hmem : Segment.line text ∈ greeting.segments := by
      rw [hsplit]
      exact List.mem_append_right _ List.mem_cons_self
    have hshort : ∀ text, Segment.line text ∈ greeting.segments → text.length < maxLineBytes := by
      intro text htext
      simp [greeting, Body.segments, Chunk.segments, trailerSegments] at htext
      rcases htext with rfl | rfl | rfl | rfl <;> decide
    exact absurd hlen (Nat.ne_of_lt (hshort text hmem))
  · exact (reads_body_or_throws _ (fun _ => rfl) greeting greeting_wellFormed (by decide) _ _
      (by decide) (by decide)).2 (by decide)

theorem throws_of_cut_header (limits : Limits) (hlate : ∀ r, limits.late r = false)
    (hcap : limits.maxBodyBytes = 0) {header : Bytes} (hbody : Body.WellFormed limits ⟨[], header, []⟩)
    (hlen : header.length = maxLineBytes) :
    header ++ [0x0D] ++ [[0x0A, 0x0D, 0x0A]].flatten = Body.wire ⟨[], header, []⟩ ∧
      ∃ data what, Reads limits (feedOf [[0x0A, 0x0D, 0x0A]]) (start (header ++ [0x0D])) data
        (.throws what) := by
  have hwhole : header ++ [0x0D] ++ [[0x0A, 0x0D, 0x0A]].flatten = Body.wire ⟨[], header, []⟩ := by
    simp [Body.wire, Body.segments, Segment.wire, trailerSegments, crlf]
  have hahead : (start (header ++ [0x0D])).ahead = header ++ [0x0D] := List.drop_zero
  have hholds : Holds limits (start (header ++ [0x0D])) [[0x0A, 0x0D, 0x0A]]
      (Body.wire ⟨[], header, []⟩) := by
    refine ⟨Nat.zero_le _, ?_, by simp, .inl hcap⟩
    rw [hahead]
    exact hwhole
  refine ⟨hwhole, reads_fails hlate hbody.chunks hbody.last hbody.trailers hholds
    ⟨rfl, Nat.zero_le _, rfl⟩ ⟨List.prefix_rfl, fun _ => ?_⟩⟩
  refine ⟨[], header, trailerSegments [], rfl, hlen, .inl ?_⟩
  rw [hahead]
  simp

/-- A last chunk whose header has the greatest length. -/
def longHeader : Bytes := bytes "0;" ++ List.replicate 8190 0x78

theorem longHeader_length : longHeader.length = maxLineBytes := by
  rw [longHeader, List.length_append, List.length_replicate]
  rfl

theorem longHeader_wellFormed (limits : Limits) : Body.WellFormed limits ⟨[], longHeader, []⟩ := by
  have hsize : sizeText longHeader = [0x30] := by decide
  refine ⟨by simp, ⟨?_, longHeader_length.le, ?_, ?_, ?_⟩, ⟨by simp, by simp, by simp⟩⟩
  · rw [find_crlf_eq_none]
    rintro i ⟨hcr, _⟩
    have hmem := List.mem_of_getElem? hcr
    rw [longHeader, List.mem_append, List.mem_replicate] at hmem
    revert hmem
    decide
  · rw [hsize]
    decide
  · rw [hsize]
    exact List.all_eq_true.mp (by decide)
  · rw [hsize]
    decide

/-- The line is within the limit, and refused because its end comes in two receives. -/
theorem long_header_is_refused :
    ¬ ∀ (limits : Limits) (body : Body) (prefetched : Bytes) (pieces : List Bytes),
      (∀ r, limits.late r = false) → body.WellFormed limits →
      (limits.maxBodyBytes = 0 ∨ body.wire.length ≤ limits.maxBodyBytes) →
      (∀ piece ∈ pieces, piece ≠ []) → prefetched ++ pieces.flatten = body.wire →
      Reads limits (feedOf pieces) (start prefetched) body.data .eof := by
  intro h
  obtain ⟨hwhole, data, what, hthrow⟩ := throws_of_cut_header ⟨0, 0, fun _ => false⟩
    (fun _ => rfl) rfl (longHeader_wellFormed _) longHeader_length
  have hread := h ⟨0, 0, fun _ => false⟩ ⟨[], longHeader, []⟩ (longHeader ++ [0x0D])
    [[0x0A, 0x0D, 0x0A]] (fun _ => rfl) (longHeader_wellFormed _) (.inl rfl) (by simp) hwhole
  exact absurd (hread.unique hthrow).2 (by simp)

end FastTts.LiveBody
