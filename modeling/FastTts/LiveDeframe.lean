import FastTts.LiveReads

/-!
# A live body read to its end

The wire of a chunked body is a list of lines and data. Read whole it gives the data of its chunks
and then the end; cut short it gives an exception, wherever it is cut. The one way to fail on a
whole body is a receive that ends between the two bytes of the end of a line of the greatest
length allowed.
-/

namespace FastTts.LiveBody

open Chunked (crlf)
open Pieces

/-! ## Bodies -/

structure Chunk where
  header : Bytes
  data : Bytes
  deriving DecidableEq, Repr

structure Body where
  chunks : List Chunk
  last : Bytes
  trailers : List Bytes
  deriving DecidableEq, Repr

def hexNumber (digits : Bytes) : ℕ :=
  digits.foldl (fun size digit => size * 16 + (hexDigitValue digit).getD 0) 0

/-- The header line of a chunk of `size` bytes, with any extension. -/
structure IsHeader (header : Bytes) (size : ℕ) : Prop where
  line : find header crlf = none
  length : header.length ≤ maxLineBytes
  nonempty : sizeText header ≠ []
  digits : ∀ digit ∈ sizeText header, (hexDigitValue digit).isSome = true
  size : hexNumber (sizeText header) = size

structure Chunk.WellFormed (cap : ℕ) (chunk : Chunk) : Prop where
  header : IsHeader chunk.header chunk.data.length
  nonempty : chunk.data ≠ []
  cap : chunk.data.length ≤ cap

structure AreTrailers (trailers : List Bytes) : Prop where
  lines : ∀ trailer ∈ trailers, find trailer crlf = none
  nonempty : ∀ trailer ∈ trailers, trailer ≠ []
  length : trailers.flatten.length ≤ maxTrailerBytes

structure Body.WellFormed (limits : Limits) (body : Body) : Prop where
  chunks : ∀ chunk ∈ body.chunks, chunk.WellFormed limits.chunkCap
  last : IsHeader body.last 0
  trailers : AreTrailers body.trailers

inductive Segment
  | line (text : Bytes)
  | data (text : Bytes)
  deriving DecidableEq, Repr

def Segment.wire : Segment → Bytes
  | .line text | .data text => text ++ crlf

def Chunk.segments (chunk : Chunk) : List Segment := [.line chunk.header, .data chunk.data]

/-- The lines of the trailer section, the empty one included. -/
def trailerSegments (trailers : List Bytes) : List Segment := trailers.map .line ++ [.line []]

def Body.segments (body : Body) : List Segment :=
  body.chunks.flatMap Chunk.segments ++ .line body.last :: trailerSegments body.trailers

def Body.wire (body : Body) : Bytes := body.segments.flatMap Segment.wire

def Body.data (body : Body) : Bytes := body.chunks.flatMap Chunk.data

/-- A line of the greatest length has one of the positions in `cuts` between the two bytes of its
end. -/
def CutsLongLine (cuts : ℕ → Prop) (segments : List Segment) : Prop :=
  ∃ before text after, segments = before ++ .line text :: after ∧ text.length = maxLineBytes ∧
    cuts ((before.flatMap Segment.wire).length + (text.length + 1))

theorem cutsLongLine_cons (cuts : ℕ → Prop) (segment : Segment) (segments : List Segment) :
    CutsLongLine cuts (segment :: segments) ↔
      (∃ text, segment = .line text ∧ text.length = maxLineBytes ∧ cuts (text.length + 1)) ∨
        CutsLongLine (fun p => cuts (segment.wire.length + p)) segments := by
  constructor
  · rintro ⟨before, text, after, hsplit, hlen, hcut⟩
    cases before with
    | nil =>
      cases hsplit
      rw [List.flatMap_nil, List.length_nil, Nat.zero_add] at hcut
      exact .inl ⟨text, rfl, hlen, hcut⟩
    | cons first before =>
      cases hsplit
      rw [List.flatMap_cons, List.length_append, Nat.add_assoc] at hcut
      exact .inr ⟨before, text, after, rfl, hlen, hcut⟩
  · rintro (⟨text, rfl, hlen, hcut⟩ | ⟨before, text, after, rfl, hlen, hcut⟩)
    · exact ⟨[], text, segments, rfl, hlen, by simpa using hcut⟩
    · refine ⟨segment :: before, text, after, rfl, hlen, ?_⟩
      rw [List.flatMap_cons, List.length_append, Nat.add_assoc]
      exact hcut

theorem cutsLongLine_congr {cuts cuts' : ℕ → Prop} (h : ∀ p, cuts p ↔ cuts' p)
    (segments : List Segment) : CutsLongLine cuts segments ↔ CutsLongLine cuts' segments := by
  have heq : cuts = cuts' := funext fun p => propext (h p)
  rw [heq]

/-! ## Sizes -/

theorem foldl_hexNumber_le (digits : Bytes) (size : ℕ) :
    size ≤ digits.foldl (fun size digit => size * 16 + (hexDigitValue digit).getD 0) size := by
  induction digits generalizing size with
  | nil => exact le_rfl
  | cons digit digits ih =>
    rw [List.foldl_cons]
    refine le_trans ?_ (ih _)
    omega

theorem foldlM_sizeStep {cap : ℕ} (header digits : Bytes) (size : ℕ)
    (hdigits : ∀ digit ∈ digits, (hexDigitValue digit).isSome = true)
    (hcap : digits.foldl (fun size digit => size * 16 + (hexDigitValue digit).getD 0) size ≤ cap) :
    digits.foldlM (sizeStep cap header) size =
      .ok (digits.foldl (fun size digit => size * 16 + (hexDigitValue digit).getD 0) size) := by
  induction digits generalizing size with
  | nil => rfl
  | cons digit digits ih =>
    obtain ⟨value, hvalue⟩ := Option.isSome_iff_exists.mp (hdigits digit List.mem_cons_self)
    rw [List.foldl_cons, hvalue, Option.getD_some] at hcap
    have hle := (foldl_hexNumber_le digits (size * 16 + value)).trans hcap
    have hstep : sizeStep cap header size digit = .ok (size * 16 + value) := by
      rw [sizeStep, hvalue]
      dsimp only
      rw [if_neg (by omega), if_neg (by omega)]
    rw [List.foldlM_cons, hstep, List.foldl_cons, hvalue, Option.getD_some]
    exact ih _ (fun d hd => hdigits d (List.mem_cons_of_mem _ hd)) hcap

theorem parseSize_ok (limits : Limits) {header : Bytes} {size : ℕ} (h : IsHeader header size)
    (hcap : size ≤ limits.chunkCap) : parseSize limits (sizeText header) = .ok size := by
  have hne : ¬ (sizeText header).isEmpty = true := by
    rw [List.isEmpty_iff]
    exact h.nonempty
  have hfold := foldlM_sizeStep (sizeText header) (sizeText header) 0 h.digits
    (h.size.trans_le hcap)
  rw [parseSize, if_neg hne, hfold]
  exact congrArg Except.ok h.size

/-! ## One line -/

/-- The wire is cut short, or a long line is cut. -/
def Fails (cuts : ℕ → Prop) (segments : List Segment) (wire : Bytes) : Prop :=
  wire <+: segments.flatMap Segment.wire ∧
    (wire = segments.flatMap Segment.wire → CutsLongLine cuts segments)

section Lines

variable {limits : Limits} (hlate : ∀ r, limits.late r = false) {r : Reader} {wire : Bytes}
  {pieces : List Bytes} {segments : List Segment} {line : Bytes}

include hlate

variable {tail : Bytes} {trailers : List Bytes}

section

variable (hline : find line crlf = none) (hlen : line.length ≤ maxLineBytes)
include hline hlen

theorem readLine_whole (h : Holds limits r pieces (line ++ crlf ++ tail))
    (hcut : ¬ CutsLongLine (Boundary r.ahead.length pieces) (.line line :: segments)) :
    ∃ r' pieces', readLine limits (feedOf pieces) r = .ok (some (line, r', feedOf pieces')) ∧
      After limits r r' pieces pieces' tail (line.length + 2) ∧
      ¬ CutsLongLine (Boundary r'.ahead.length pieces') segments := by
  rw [cutsLongLine_cons, not_or] at hcut
  have hown : ¬ (line.length = maxLineBytes ∧
      Boundary r.ahead.length pieces (line.length + 1)) :=
    fun hb => hcut.1 ⟨line, rfl, hb.1, hb.2⟩
  obtain ⟨r', pieces', hread, hafter⟩ := readLine_ok hlate hline hlen h hown
  refine ⟨r', pieces', hread, hafter, ?_⟩
  rw [cutsLongLine_congr hafter.boundary]
  simpa [Segment.wire, crlf] using hcut.2

theorem readLine_fails (h : Holds limits r pieces wire)
    (hfails : Fails (Boundary r.ahead.length pieces) (.line line :: segments) wire) :
    (∃ what, readLine limits (feedOf pieces) r = .error what) ∨
      readLine limits (feedOf pieces) r = .ok none ∨
      ∃ r' pieces' tail, readLine limits (feedOf pieces) r = .ok (some (line, r', feedOf pieces')) ∧
        After limits r r' pieces pieces' tail (line.length + 2) ∧
        Fails (Boundary r'.ahead.length pieces') segments tail := by
  obtain ⟨hpart, hwhole⟩ := hfails
  rw [List.flatMap_cons, Segment.wire] at hpart hwhole
  rcases Nat.lt_or_ge wire.length (line ++ crlf).length with hshort | hlong
  · -- The wire ends within the line or its end.
    have hcr : line ++ [0x0D] <+: line ++ crlf ++ segments.flatMap Segment.wire :=
      ⟨0x0A :: segments.flatMap Segment.wire, by simp [crlf]⟩
    have hwire : wire <+: line ++ [0x0D] := by
      apply List.prefix_of_prefix_length_le hpart hcr
      simp [crlf] at hshort
      simp
      omega
    rcases readLine_short hlate hline h hwire with herror | hnone
    · exact .inl herror
    · exact .inr (.inl hnone)
  · obtain ⟨tail, rfl⟩ := List.prefix_of_prefix_length_le (List.prefix_append _ _) hpart hlong
    have htail := (List.prefix_append_right_inj _).mp hpart
    by_cases hown : line.length = maxLineBytes ∧ Boundary r.ahead.length pieces (line.length + 1)
    · exact .inl ⟨_, readLine_cut hlate hline hown.1 h hown.2⟩
    · obtain ⟨r', pieces', hread, hafter⟩ := readLine_ok hlate hline hlen h hown
      refine .inr (.inr ⟨r', pieces', tail, hread, hafter, htail, fun hall => ?_⟩)
      have hcuts := hwhole (by rw [hall])
      rw [cutsLongLine_congr hafter.boundary]
      rcases (cutsLongLine_cons _ _ _).mp hcuts with ⟨text, htext, hmax, hb⟩ | hrest
      · cases htext
        exact absurd ⟨hmax, hb⟩ hown
      · simpa [Segment.wire, crlf] using hrest

end

/-! ## The trailer section -/

section

variable {fuel trailerBytes : ℕ} (hlines : ∀ trailer ∈ trailers, find trailer crlf = none)
  (hnonempty : ∀ trailer ∈ trailers, trailer ≠ [])
  (hbytes : trailerBytes + trailers.flatten.length ≤ maxTrailerBytes)
include hlines hnonempty hbytes

theorem readTrailers_ok (hfuel : maxTrailerBytes < fuel + trailerBytes)
    (h : Holds limits r pieces ((trailerSegments trailers).flatMap Segment.wire))
    (hcut : ¬ CutsLongLine (Boundary r.ahead.length pieces) (trailerSegments trailers)) :
    ∃ r' pieces', readTrailers limits fuel trailerBytes (feedOf pieces) r =
        .ok (r', feedOf pieces') ∧ SameServed r r' := by
  induction trailers generalizing r pieces fuel trailerBytes with
  | nil =>
    obtain ⟨fuel, rfl⟩ := Nat.exists_eq_add_one_of_ne_zero (n := fuel) (by omega)
    have hnil : find [] crlf = none := by decide
    have hwire : Holds limits r pieces ([] ++ crlf ++ []) := h
    obtain ⟨r', pieces', hread, hafter, _⟩ := readLine_whole hlate hnil (Nat.zero_le _) hwire hcut
    refine ⟨r', pieces', ?_, hafter.served⟩
    rw [readTrailers, hread]
    rfl
  | cons trailer trailers ih =>
    obtain ⟨fuel, rfl⟩ := Nat.exists_eq_add_one_of_ne_zero (n := fuel) (by omega)
    rw [List.flatten_cons, List.length_append] at hbytes
    have hne := hnonempty trailer List.mem_cons_self
    have hpos := List.length_pos_iff.mpr hne
    have hempty : ¬ trailer.isEmpty = true := fun he => hne (List.isEmpty_iff.mp he)
    have hmax : maxTrailerBytes = maxLineBytes := rfl
    have hwire : Holds limits r pieces
        (trailer ++ crlf ++ (trailerSegments trailers).flatMap Segment.wire) := h
    obtain ⟨r', pieces', hread, hafter, hrest⟩ := readLine_whole hlate
      (hlines trailer List.mem_cons_self) (by omega) hwire hcut
    have hbytes' : trailerBytes + trailer.length + trailers.flatten.length ≤ maxTrailerBytes := by
      omega
    have hfuel' : maxTrailerBytes < fuel + (trailerBytes + trailer.length) := by omega
    obtain ⟨r'', pieces'', htrailers, hserved⟩ := ih
      (fun t ht => hlines t (List.mem_cons_of_mem _ ht))
      (fun t ht => hnonempty t (List.mem_cons_of_mem _ ht)) hbytes' hfuel' hafter.holds hrest
    refine ⟨r'', pieces'', ?_, hafter.served.trans hserved⟩
    have hfits : ¬ maxTrailerBytes < trailerBytes + trailer.length := by omega
    rw [readTrailers, hread]
    simp only [if_neg hempty, if_neg hfits, htrailers]

theorem readTrailers_fails (h : Holds limits r pieces wire)
    (hfails : Fails (Boundary r.ahead.length pieces) (trailerSegments trailers) wire) :
    ∃ what, readTrailers limits fuel trailerBytes (feedOf pieces) r = .error what := by
  induction trailers generalizing r pieces wire fuel trailerBytes with
  | nil =>
    cases fuel with
    | zero => exact ⟨_, rfl⟩
    | succ fuel =>
      have hnil : find [] crlf = none := by decide
      rw [readTrailers]
      rcases readLine_fails hlate hnil (Nat.zero_le _) h hfails with
        ⟨what, hread⟩ | hread | ⟨r', pieces', tail, _, _, hpart, hwhole⟩
      · rw [hread]
        exact ⟨_, rfl⟩
      · rw [hread]
        exact ⟨_, rfl⟩
      · -- Nothing is left that could be cut.
        have htail : tail = [] := List.prefix_nil.mp hpart
        obtain ⟨before, text, after, hsplit, _⟩ := hwhole htail
        exact absurd hsplit (by simp)
  | cons trailer trailers ih =>
    cases fuel with
    | zero => exact ⟨_, rfl⟩
    | succ fuel =>
      rw [List.flatten_cons, List.length_append] at hbytes
      have hmax : maxTrailerBytes = maxLineBytes := rfl
      rw [readTrailers]
      rcases readLine_fails hlate (hlines trailer List.mem_cons_self) (by omega) h hfails with
        ⟨what, hread⟩ | hread | ⟨r', pieces', tail, hread, hafter, hrest⟩
      · rw [hread]
        exact ⟨_, rfl⟩
      · rw [hread]
        exact ⟨_, rfl⟩
      · rw [hread]
        have hempty : ¬ trailer.isEmpty = true := fun he =>
          hnonempty trailer List.mem_cons_self (List.isEmpty_iff.mp he)
        have hfits : ¬ maxTrailerBytes < trailerBytes + trailer.length := by omega
        simp only [if_neg hempty, if_neg hfits]
        exact ih (fun t ht => hlines t (List.mem_cons_of_mem _ ht))
          (fun t ht => hnonempty t (List.mem_cons_of_mem _ ht)) (by omega) hafter.holds hrest

end

/-! ## One chunk -/

variable {r' : Reader} {size : ℕ} {chunk : Chunk} {last : Bytes}

omit hlate in
theorem Holds.replace (h : Holds limits r pieces wire) (hahead : r'.ahead = r.ahead)
    (hposition : r'.pendingPos ≤ r'.pending.length)
    (hreceived : r'.receivedBytes = r.receivedBytes) : Holds limits r' pieces wire := by
  constructor
  · exact hposition
  · rw [hahead]
    exact h.wire
  · exact h.nonempty
  · rw [hreceived]
    exact h.body

omit hlate in
theorem ahead_compacted (r : Reader) : r.compacted.ahead = r.ahead := by
  rw [Reader.compacted]
  split_ifs
  · exact List.drop_zero
  · rfl

omit hlate in
theorem position_compacted (h : r.pendingPos ≤ r.pending.length) :
    r.compacted.pendingPos ≤ r.compacted.pending.length := by
  rw [Reader.compacted]
  split_ifs
  · exact Nat.zero_le _
  · exact h

omit hlate in
theorem compacted_served (r : Reader) :
    r.compacted.receivedBytes = r.receivedBytes ∧ r.compacted.chunk = r.chunk ∧
      r.compacted.finished = r.finished := by
  rw [Reader.compacted]
  split_ifs <;> exact ⟨rfl, rfl, rfl⟩

/-- What the caller is still to be handed out of the current chunk. -/
def Reader.out (r : Reader) : Bytes := r.window ++ r.chunk.drop r.chunkPos

/-- The reader holds a chunk with a window on its first bytes. -/
structure Fetched (limits : Limits) (r : Reader) (pieces : List Bytes) (data tail : Bytes) :
    Prop where
  holds : Holds limits r pieces tail
  out : r.out = data
  window : r.window ≠ []
  position : r.chunkPos ≤ r.chunk.length
  unfinished : r.finished = false

theorem takeChunk_whole {data : Bytes} (hdata : data ≠ [])
    (h : Holds limits r pieces (data ++ crlf ++ tail)) (hfinished : r.finished = false) :
    ∃ r' pieces', takeChunk limits data.length (feedOf pieces) r = .ok (r', feedOf pieces') ∧
      Fetched limits r' pieces' data tail ∧ ∀ p, Boundary r'.ahead.length pieces' p ↔
        Boundary r.ahead.length pieces (data.length + 2 + p) := by
  have hcount : data.length + 2 ≤ (data ++ crlf ++ tail).length := by simp [crlf]
  obtain ⟨r₁, pieces₁, hensure, hholds, hserved, hlen, hboundary⟩ :=
    ensureAvailable_ok hlate h hcount
  obtain ⟨more, hmore⟩ : data ++ crlf <+: r₁.ahead := by
    apply List.prefix_of_prefix_length_le (List.prefix_append _ tail) (ahead_initial hholds)
    rw [List.length_append]
    exact hlen
  have htake : (r₁.pending.drop r₁.pendingPos).take data.length = data := by
    change r₁.ahead.take data.length = data
    rw [← hmore, List.append_assoc, List.take_left]
  have hend : (r₁.pending.drop (r₁.pendingPos + data.length)).take 2 = crlf := by
    rw [← List.drop_drop]
    change (r₁.ahead.drop data.length).take 2 = crlf
    rw [← hmore, List.append_assoc, List.drop_left]
    rfl
  have hafter := after_consumed hholds hlen
  have hdrop : (data ++ crlf ++ tail).drop (data.length + 2) = tail := by
    rw [show data.length + 2 = (data ++ crlf).length from by simp [crlf], List.drop_left]
  rw [hdrop] at hafter
  let read : Reader :=
    { r₁ with window := [], chunk := data, pendingPos := r₁.pendingPos + (data.length + 2) }
  have hread : read.ahead = (r₁.consumed (data.length + 2)).ahead := rfl
  obtain ⟨hreceived, hchunk, hunfinished⟩ := compacted_served read
  have hpos := List.length_pos_iff.mpr hdata
  have hpublish : publishWindow limits { read.compacted with chunkPos := 0 } =
      .ok (some { read.compacted with
        window := data.take (min windowBytes data.length)
        chunkPos := min windowBytes data.length }) := by
    have hsome : ¬ data.length ≤ 0 := by omega
    rw [publishWindow]
    simp only [hchunk, read, if_neg hsome, inTime hlate, List.drop_zero, Nat.sub_zero,
      Nat.zero_add]
    rfl
  let served : Reader := { read.compacted with
    window := data.take (min windowBytes data.length)
    chunkPos := min windowBytes data.length }
  refine ⟨served, pieces₁, ?_, ⟨?_, ?_, ?_, ?_, ?_⟩, ?_⟩
  · rw [takeChunk, hensure]
    simp only [hend, htake, ne_eq, not_true_eq_false, if_false]
    change (publishWindow limits { read.compacted with chunkPos := 0 } >>= fun published =>
      Except.ok (published.getD { read.compacted with chunkPos := 0 }, feedOf pieces₁)) = _
    rw [hpublish]
    rfl
  · refine hafter.holds.replace ?_ ?_ hreceived
    · exact (ahead_compacted read).trans hread
    · exact position_compacted hafter.holds.position
  · change data.take (min windowBytes data.length) ++
      read.compacted.chunk.drop (min windowBytes data.length) = data
    rw [hchunk]
    exact List.take_append_drop _ _
  · intro hnil
    have hzero : (data.take (min windowBytes data.length)).length = 0 :=
      List.length_eq_zero_iff.mpr hnil
    have hwindow : 0 < windowBytes := by decide
    rw [List.length_take] at hzero
    omega
  · change min windowBytes data.length ≤ read.compacted.chunk.length
    rw [hchunk]
    exact min_le_right _ _
  · exact hunfinished.trans (hserved.finished.trans hfinished)
  · intro p
    change Boundary read.compacted.ahead.length pieces₁ p ↔ _
    rw [ahead_compacted, hread, hafter.boundary]
    exact hboundary _ (Nat.le_add_right _ _)

theorem takeChunk_short (h : Holds limits r pieces wire) (hwire : wire.length < size + 2) :
    ∃ what, takeChunk limits size (feedOf pieces) r = .error what := by
  rw [takeChunk, ensureAvailable_closed hlate h hwire]
  exact ⟨_, rfl⟩

theorem nextChunk_read {header : Bytes} {feed feed' : List Receive} (hfinished : r.finished = false)
    (hread : readLine limits feed r = .ok (some (header, r', feed')))
    (hsize : parseSize limits (sizeText header) = .ok size) :
    nextChunk limits feed r =
      if size = 0 then readTrailers limits (maxTrailerBytes + 1) 0 feed' { r' with finished := true }
      else takeChunk limits size feed' r' := by
  rw [nextChunk, hfinished, inTime hlate, hread]
  simp only [Bool.false_eq_true, if_false]
  change (parseSize limits (sizeText header) >>= fun size => if size = 0 then
    readTrailers limits (maxTrailerBytes + 1) 0 feed' { r' with finished := true }
    else takeChunk limits size feed' r') = _
  rw [hsize]
  rfl

theorem nextChunk_whole (hchunk : chunk.WellFormed limits.chunkCap)
    (h : Holds limits r pieces (chunk.segments.flatMap Segment.wire ++ tail))
    (hfinished : r.finished = false)
    (hcut : ¬ CutsLongLine (Boundary r.ahead.length pieces) (chunk.segments ++ segments)) :
    ∃ r' pieces', nextChunk limits (feedOf pieces) r = .ok (r', feedOf pieces') ∧
      Fetched limits r' pieces' chunk.data tail ∧
      ¬ CutsLongLine (Boundary r'.ahead.length pieces') segments := by
  have hwire : Holds limits r pieces
      (chunk.header ++ crlf ++ (chunk.data ++ crlf ++ tail)) := by
    simpa [Chunk.segments, Segment.wire] using h
  obtain ⟨r₁, pieces₁, hread, hafter, hcut₁⟩ :=
    readLine_whole hlate hchunk.header.line hchunk.header.length hwire hcut
  obtain ⟨r', pieces', htake, hfetched, hboundary⟩ := takeChunk_whole hlate hchunk.nonempty
    hafter.holds (hafter.served.finished.trans hfinished)
  refine ⟨r', pieces', ?_, hfetched, ?_⟩
  · have hsize : chunk.data.length ≠ 0 := fun hzero =>
      hchunk.nonempty (List.length_eq_zero_iff.mp hzero)
    rw [nextChunk_read hlate hfinished hread (parseSize_ok limits hchunk.header hchunk.cap),
      if_neg hsize, htake]
  · rw [cutsLongLine_congr hboundary]
    intro hcuts
    refine hcut₁ ((cutsLongLine_cons _ _ _).mpr (.inr ?_))
    simpa [Segment.wire, crlf] using hcuts

theorem nextChunk_last (hlast : IsHeader last 0) (htrailers : AreTrailers trailers)
    (h : Holds limits r pieces (last ++ crlf ++ (trailerSegments trailers).flatMap Segment.wire))
    (hfinished : r.finished = false)
    (hcut : ¬ CutsLongLine (Boundary r.ahead.length pieces)
      (.line last :: trailerSegments trailers)) :
    ∃ r' pieces', nextChunk limits (feedOf pieces) r = .ok (r', feedOf pieces') ∧
      r'.window = r.window := by
  obtain ⟨r₁, pieces₁, hread, hafter, hcut₁⟩ :=
    readLine_whole hlate hlast.line hlast.length h hcut
  have hholds : Holds limits { r₁ with finished := true } pieces₁
      ((trailerSegments trailers).flatMap Segment.wire) :=
    hafter.holds.replace rfl hafter.holds.position rfl
  have hbytes : 0 + trailers.flatten.length ≤ maxTrailerBytes := by
    rw [Nat.zero_add]
    exact htrailers.length
  obtain ⟨r', pieces', hrest, hserved⟩ := readTrailers_ok hlate htrailers.lines
    htrailers.nonempty hbytes (Nat.lt_succ_self maxTrailerBytes) hholds hcut₁
  refine ⟨r', pieces', ?_, hserved.window.trans hafter.served.window⟩
  rw [nextChunk_read hlate hfinished hread (parseSize_ok limits hlast (Nat.zero_le _)), if_pos rfl,
    hrest]

theorem nextChunk_fails (hchunk : chunk.WellFormed limits.chunkCap) (h : Holds limits r pieces wire)
    (hfinished : r.finished = false)
    (hfails : Fails (Boundary r.ahead.length pieces) (chunk.segments ++ segments) wire) :
    (∃ what, nextChunk limits (feedOf pieces) r = .error what) ∨
      ∃ r' pieces' tail, nextChunk limits (feedOf pieces) r = .ok (r', feedOf pieces') ∧
        Fetched limits r' pieces' chunk.data tail ∧
        Fails (Boundary r'.ahead.length pieces') segments tail := by
  rcases readLine_fails hlate hchunk.header.line hchunk.header.length h hfails with
    ⟨what, hread⟩ | hread | ⟨r₁, pieces₁, tail, hread, hafter, hpart, hwhole⟩
  · left
    rw [nextChunk, hfinished, inTime hlate, hread]
    exact ⟨_, rfl⟩
  · left
    rw [nextChunk, hfinished, inTime hlate, hread]
    exact ⟨_, rfl⟩
  · have hsize : chunk.data.length ≠ 0 := fun hzero =>
      hchunk.nonempty (List.length_eq_zero_iff.mp hzero)
    rw [nextChunk_read hlate hfinished hread (parseSize_ok limits hchunk.header hchunk.cap),
      if_neg hsize]
    change tail <+: chunk.data ++ crlf ++ segments.flatMap Segment.wire at hpart
    change tail = chunk.data ++ crlf ++ segments.flatMap Segment.wire →
      CutsLongLine _ (.data chunk.data :: segments) at hwhole
    rcases Nat.lt_or_ge tail.length (chunk.data.length + 2) with hshort | hlong
    · exact .inl (takeChunk_short hlate hafter.holds hshort)
    · have hlen : (chunk.data ++ crlf).length ≤ tail.length := by simpa [crlf] using hlong
      obtain ⟨tail', rfl⟩ := List.prefix_of_prefix_length_le (List.prefix_append _ _) hpart hlen
      have hpart' := (List.prefix_append_right_inj _).mp hpart
      obtain ⟨r', pieces', htake, hfetched, hboundary⟩ := takeChunk_whole hlate hchunk.nonempty
        hafter.holds (hafter.served.finished.trans hfinished)
      refine .inr ⟨r', pieces', tail', htake, hfetched, hpart', fun hall => ?_⟩
      rw [cutsLongLine_congr hboundary]
      rcases (cutsLongLine_cons _ _ _).mp (hwhole (by rw [hall])) with ⟨text, htext, _⟩ | hrest
      · cases htext
      · simpa [Segment.wire, crlf] using hrest

theorem nextChunk_last_fails (hlast : IsHeader last 0) (htrailers : AreTrailers trailers)
    (h : Holds limits r pieces wire) (hfinished : r.finished = false)
    (hfails : Fails (Boundary r.ahead.length pieces) (.line last :: trailerSegments trailers) wire) :
    ∃ what, nextChunk limits (feedOf pieces) r = .error what := by
  rcases readLine_fails hlate hlast.line hlast.length h hfails with
    ⟨what, hread⟩ | hread | ⟨r₁, pieces₁, tail, hread, hafter, hrest⟩
  · rw [nextChunk, hfinished, inTime hlate, hread]
    exact ⟨_, rfl⟩
  · rw [nextChunk, hfinished, inTime hlate, hread]
    exact ⟨_, rfl⟩
  · have hholds : Holds limits { r₁ with finished := true } pieces₁ tail :=
      hafter.holds.replace rfl hafter.holds.position rfl
    have hbytes : 0 + trailers.flatten.length ≤ maxTrailerBytes := by
      rw [Nat.zero_add]
      exact htrailers.length
    rw [nextChunk_read hlate hfinished hread (parseSize_ok limits hlast (Nat.zero_le _)),
      if_pos rfl]
    exact readTrailers_fails hlate htrailers.lines htrailers.nonempty hbytes hholds hrest

end Lines

end FastTts.LiveBody
