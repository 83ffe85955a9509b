import FastTts.LiveBody
import FastTts.Pieces

/-!
# What the reader takes from its buffer

A line that fits is read whatever receives it comes in, unless it has the greatest length allowed
and a receive ends between the two bytes of its end: then the reader counts the first of them to
the line. A chunk is taken as soon as it is there.
-/

namespace FastTts.LiveBody

open Chunked (crlf)
open Pieces

/-! ## The first line end of a text -/

theorem isAt_crlf (text : Bytes) (i : ℕ) :
    isAt text i crlf = true ↔ text[i]? = some 0x0D ∧ text[i + 1]? = some 0x0A := by
  have hget : ∀ j, text[i + j]? = (text.drop i)[j]? := fun j => List.getElem?_drop.symm
  rw [isAt, ← Nat.add_zero i, hget 0, Nat.add_zero, hget 1]
  generalize text.drop i = rest
  rcases rest with _ | ⟨a, _ | ⟨b, more⟩⟩
  · simp [crlf]
  · simp [crlf]
  · simp only [crlf, List.isPrefixOf, Bool.and_true, Bool.and_eq_true, beq_iff_eq,
      List.getElem?_cons_zero, List.getElem?_cons_succ, Option.some.injEq]
    exact and_congr eq_comm eq_comm

variable {text : Bytes}

theorem find_crlf_eq_none :
    find text crlf = none ↔
      ∀ i, ¬ (text[i]? = some (0x0D : UInt8) ∧ text[i + 1]? = some (0x0A : UInt8)) := by
  rw [find, List.find?_eq_none]
  constructor
  · intro h i hi
    have hlt : i < text.length + 1 := by
      have := (List.getElem?_eq_some_iff.mp hi.1).1
      omega
    exact h i (List.mem_range.mpr hlt) ((isAt_crlf text i).mpr hi)
  · intro h i _ hat
    exact h i ((isAt_crlf text i).mp hat)

theorem find_crlf_line {line : Bytes} (hline : find line crlf = none)
    (htext : line ++ crlf <+: text) : find text crlf = some line.length := by
  obtain ⟨more, rfl⟩ := htext
  rw [find_crlf_eq_none] at hline
  have hget : ∀ i < line.length, (line ++ crlf ++ more)[i]? = (line : Bytes)[i]? := by
    intro i hi
    rw [List.append_assoc, List.getElem?_append_left hi]
  have hend : (line ++ crlf ++ more)[line.length]? = some 0x0D := by
    rw [List.append_assoc, List.getElem?_append_right le_rfl, Nat.sub_self]
    rfl
  have hend' : (line ++ crlf ++ more)[line.length + 1]? = some 0x0A := by
    have hone : line.length + 1 - line.length = 1 := by omega
    rw [List.append_assoc, List.getElem?_append_right (Nat.le_succ _), hone]
    rfl
  rw [find, List.find?_range_eq_some]
  refine ⟨(isAt_crlf _ _).mpr ⟨hend, hend'⟩, ?_, ?_⟩
  · rw [List.mem_range, List.length_append, List.length_append]
    omega
  · intro i hi
    rw [Bool.not_eq_true', Bool.eq_false_iff]
    intro hat
    obtain ⟨hcr, hlf⟩ := (isAt_crlf _ _).mp hat
    rw [hget i hi] at hcr
    rcases Nat.lt_or_ge (i + 1) line.length with hlt | hge
    · rw [hget _ hlt] at hlf
      exact hline i ⟨hcr, hlf⟩
    · have hlast : i + 1 = line.length := by omega
      rw [hlast, hend] at hlf
      exact absurd hlf (by decide)

theorem find_crlf_part {line : Bytes} (hline : find line crlf = none)
    (htext : text <+: line ++ [0x0D]) : find text crlf = none := by
  rw [find_crlf_eq_none] at hline ⊢
  rintro i ⟨hcr, hlf⟩
  have hlt := (List.getElem?_eq_some_iff.mp hlf).1
  have hlen := htext.length_le
  rw [List.length_append, List.length_singleton] at hlen
  obtain ⟨more, hmore⟩ := htext
  have hcr' : (line ++ [0x0D])[i]? = some 0x0D := by
    rw [← hmore, List.getElem?_append_left (by omega), hcr]
  have hlf' : (line ++ [0x0D])[i + 1]? = some 0x0A := by
    rw [← hmore, List.getElem?_append_left hlt, hlf]
  rw [List.getElem?_append_left (by omega)] at hcr'
  rcases Nat.lt_or_ge (i + 1) line.length with hin | hout
  · rw [List.getElem?_append_left hin] at hlf'
    exact hline i ⟨hcr', hlf'⟩
  · have hlast : i + 1 = line.length := by omega
    rw [hlast, List.getElem?_append_right le_rfl, Nat.sub_self] at hlf'
    exact absurd hlf' (by decide)

/-! ## What the reader holds -/

def Reader.ahead (r : Reader) : Bytes := r.pending.drop r.pendingPos

def Reader.received (r : Reader) (piece : Bytes) : Reader :=
  { r with pending := r.pending ++ piece, receivedBytes := r.receivedBytes + piece.length }

def feedOf (pieces : List Bytes) : List Receive := pieces.map .data

/-- What is ahead of the reader and what it will receive make up `wire`, within the cap. -/
structure Holds (limits : Limits) (r : Reader) (pieces : List Bytes) (wire : Bytes) : Prop where
  position : r.pendingPos ≤ r.pending.length
  wire : r.ahead ++ pieces.flatten = wire
  nonempty : ∀ piece ∈ pieces, piece ≠ []
  body : limits.maxBodyBytes = 0 ∨ r.receivedBytes + pieces.flatten.length ≤ limits.maxBodyBytes

/-- The part of the reader that the caller is served from is the same. -/
structure SameServed (r r' : Reader) : Prop where
  chunk : r'.chunk = r.chunk
  chunkPos : r'.chunkPos = r.chunkPos
  window : r'.window = r.window
  finished : r'.finished = r.finished

theorem SameServed.refl (r : Reader) : SameServed r r := ⟨rfl, rfl, rfl, rfl⟩

theorem SameServed.trans {r r' r'' : Reader} (h : SameServed r r') (h' : SameServed r' r'') :
    SameServed r r'' :=
  ⟨h'.chunk.trans h.chunk, h'.chunkPos.trans h.chunkPos, h'.window.trans h.window,
    h'.finished.trans h.finished⟩

theorem sameServed_received (r : Reader) (piece : Bytes) : SameServed r (r.received piece) :=
  ⟨rfl, rfl, rfl, rfl⟩

theorem length_ahead (r : Reader) : r.ahead.length = r.pending.length - r.pendingPos :=
  List.length_drop

section Reads

variable {limits : Limits} (hlate : ∀ r, limits.late r = false) {r : Reader}
  {piece wire : Bytes} {pieces : List Bytes}

include hlate

theorem inTime (r : Reader) : requireWithinDeadline limits r = .ok () := by
  rw [requireWithinDeadline, hlate, if_neg Bool.false_ne_true]

theorem receiveMore_closed (r : Reader) : receiveMore limits r none = .ok none := by
  rw [receiveMore, inTime hlate]
  rfl

theorem receiveMore_piece (h : Holds limits r (piece :: pieces) wire) :
    receiveMore limits r (some (.data piece)) = .ok (some (r.received piece)) := by
  cases hpiece : piece with
  | nil => exact absurd hpiece (h.nonempty piece List.mem_cons_self)
  | cons ch rest =>
    rw [← hpiece]
    have hcap : requireWithinBodyCap limits (r.received piece) = .ok () := by
      rw [requireWithinBodyCap, if_neg]
      rintro ⟨hpos, hexceeds⟩
      have hbody := h.body
      rw [List.flatten_cons, List.length_append] at hbody
      simp only [Reader.received] at hexceeds
      omega
    rw [hpiece] at hcap ⊢
    unfold receiveMore
    rw [inTime hlate]
    change (requireWithinBodyCap limits (r.received (ch :: rest)) >>= fun _ =>
      Except.ok (some (r.received (ch :: rest)))) = _
    rw [hcap]
    rfl

omit hlate in
theorem ahead_received (h : r.pendingPos ≤ r.pending.length) :
    (r.received piece).ahead = r.ahead ++ piece :=
  List.drop_append_of_le_length h

omit hlate in
theorem holds_received (h : Holds limits r (piece :: pieces) wire) :
    Holds limits (r.received piece) pieces wire := by
  constructor
  · simp only [Reader.received, List.length_append]
    exact Nat.le_add_right_of_le h.position
  · rw [ahead_received h.position, List.append_assoc]
    exact h.wire
  · exact fun p hp => h.nonempty p (List.mem_cons_of_mem _ hp)
  · have hbody := h.body
    rw [List.flatten_cons, List.length_append] at hbody
    simp only [Reader.received]
    omega

/-! ## Enough bytes -/

variable {count : ℕ} {line : Bytes}

theorem ensureAvailable_ok (h : Holds limits r pieces wire) (hcount : count ≤ wire.length) :
    ∃ r' pieces', ensureAvailable limits count (feedOf pieces) r = .ok (some (r', feedOf pieces')) ∧
      Holds limits r' pieces' wire ∧ SameServed r r' ∧ count ≤ r'.ahead.length ∧ ∀ p, count ≤ p →
        (Boundary r'.ahead.length pieces' p ↔ Boundary r.ahead.length pieces p) := by
  induction pieces generalizing r with
  | nil =>
    have hwire := h.wire
    rw [List.flatten_nil, List.append_nil] at hwire
    have hthere : count ≤ r.pending.length - r.pendingPos := by
      rw [← length_ahead, hwire]
      exact hcount
    rw [feedOf, List.map_nil, ensureAvailable, if_pos hthere]
    refine ⟨r, [], rfl, h, .refl r, ?_, fun p _ => Iff.rfl⟩
    rw [length_ahead]
    exact hthere
  | cons piece pieces ih =>
    rw [feedOf, List.map_cons, ensureAvailable]
    by_cases hthere : count ≤ r.pending.length - r.pendingPos
    · rw [if_pos hthere]
      refine ⟨r, piece :: pieces, rfl, h, .refl r, ?_, fun p _ => Iff.rfl⟩
      rw [length_ahead]
      exact hthere
    · rw [if_neg hthere]
      simp only [receiveMore_piece hlate h]
      obtain ⟨r', pieces', hensure, hholds, hserved, hlen, hboundary⟩ := ih (holds_received h)
      refine ⟨r', pieces', hensure, hholds, (sameServed_received r piece).trans hserved, hlen, ?_⟩
      intro p hp
      have hbefore : r.ahead.length < p := by
        rw [length_ahead]
        omega
      rw [hboundary p hp, ahead_received h.position, List.length_append]
      exact boundary_cons_of_lt hbefore piece pieces

theorem ensureAvailable_closed (h : Holds limits r pieces wire) (hcount : wire.length < count) :
    ensureAvailable limits count (feedOf pieces) r = .ok none := by
  induction pieces generalizing r with
  | nil =>
    have hwire := h.wire
    rw [List.flatten_nil, List.append_nil] at hwire
    have hmissing : ¬ count ≤ r.pending.length - r.pendingPos := by
      rw [← length_ahead, hwire]
      omega
    rw [feedOf, List.map_nil, ensureAvailable, if_neg hmissing]
    simp only [receiveMore_closed hlate]
    rfl
  | cons piece pieces ih =>
    have hmissing : ¬ count ≤ r.pending.length - r.pendingPos := by
      have hwire := congrArg List.length h.wire
      rw [List.length_append] at hwire
      rw [← length_ahead]
      omega
    rw [feedOf, List.map_cons, ensureAvailable, if_neg hmissing]
    simp only [receiveMore_piece hlate h]
    exact ih (holds_received h)

/-! ## Lines -/

/-- `r'` has read `count` bytes more than `r`. -/
structure After (limits : Limits) (r r' : Reader) (pieces pieces' : List Bytes) (wire : Bytes)
    (count : ℕ) : Prop where
  holds : Holds limits r' pieces' wire
  served : SameServed r r'
  boundary : ∀ p, Boundary r'.ahead.length pieces' p ↔
    Boundary r.ahead.length pieces (count + p)

def Reader.consumed (r : Reader) (count : ℕ) : Reader :=
  { r with pendingPos := r.pendingPos + count }

omit hlate in
theorem ahead_consumed (r : Reader) (count : ℕ) : (r.consumed count).ahead = r.ahead.drop count := by
  simp [Reader.ahead, Reader.consumed, List.drop_drop]

omit hlate in
theorem after_consumed (h : Holds limits r pieces wire) (hcount : count ≤ r.ahead.length) :
    After limits r (r.consumed count) pieces pieces (wire.drop count) count := by
  constructor
  · constructor
    · have hposition := h.position
      rw [length_ahead] at hcount
      simp only [Reader.consumed]
      omega
    · rw [ahead_consumed, ← h.wire, List.drop_append_of_le_length hcount]
    · exact h.nonempty
    · exact h.body
  · exact ⟨rfl, rfl, rfl, rfl⟩
  · intro p
    rw [ahead_consumed, List.length_drop]
    exact boundary_sub hcount pieces p

omit hlate in
theorem After.received (h : Holds limits r (piece :: pieces) wire) {r' : Reader}
    {pieces' : List Bytes} {wire' : Bytes} (hcount : r.ahead.length < count)
    (hafter : After limits (r.received piece) r' pieces pieces' wire' count) :
    After limits r r' (piece :: pieces) pieces' wire' count := by
  refine ⟨hafter.holds, (sameServed_received r piece).trans hafter.served, fun p => ?_⟩
  rw [hafter.boundary, ahead_received h.position, List.length_append]
  exact boundary_cons_of_lt (by omega) piece pieces

omit hlate in
theorem ahead_initial (h : Holds limits r pieces wire) : r.ahead <+: wire := by
  rw [← h.wire]
  exact List.prefix_append _ _

omit hlate in
theorem find_unended (h : Holds limits r pieces wire) (hline : find line crlf = none)
    (hwire : line ++ [0x0D] <+: wire ∨ wire <+: line ++ [0x0D])
    (hlen : r.ahead.length ≤ line.length + 1) : find r.ahead crlf = none := by
  apply find_crlf_part hline
  rcases hwire with hlong | hshort
  · apply List.prefix_of_prefix_length_le (ahead_initial h) hlong
    rw [List.length_append, List.length_singleton]
    exact hlen
  · exact (ahead_initial h).trans hshort

theorem readLine_ok {tail : Bytes} (hline : find line crlf = none)
    (hlen : line.length ≤ maxLineBytes) (h : Holds limits r pieces (line ++ crlf ++ tail))
    (hcut : ¬ (line.length = maxLineBytes ∧ Boundary r.ahead.length pieces (line.length + 1))) :
    ∃ r' pieces', readLine limits (feedOf pieces) r = .ok (some (line, r', feedOf pieces')) ∧
      After limits r r' pieces pieces' tail (line.length + 2) := by
  have hcr : line ++ [0x0D] <+: line ++ crlf ++ tail := ⟨0x0A :: tail, by simp [crlf]⟩
  induction pieces generalizing r with
  | nil =>
    have hwire := h.wire
    rw [List.flatten_nil, List.append_nil] at hwire
    have hfind : find (r.pending.drop r.pendingPos) crlf = some line.length := by
      apply find_crlf_line hline
      change line ++ crlf <+: r.ahead
      rw [hwire]
      exact List.prefix_append _ _
    have htake : (r.pending.drop r.pendingPos).take line.length = line := by
      change r.ahead.take line.length = line
      rw [hwire, List.append_assoc, List.take_left]
    have hcount : line.length + 2 ≤ r.ahead.length := by
      rw [hwire]
      simp [crlf]
    have hafter := after_consumed h hcount
    have hdrop : (line ++ crlf ++ tail).drop (line.length + 2) = tail := by
      rw [show line.length + 2 = (line ++ crlf).length from by simp [crlf], List.drop_left]
    rw [hdrop] at hafter
    rw [feedOf, List.map_nil, readLine]
    simp only [hfind, htake, if_neg (Nat.not_lt.mpr hlen)]
    exact ⟨_, [], rfl, hafter⟩
  | cons piece pieces ih =>
    rcases Nat.lt_or_ge r.ahead.length (line.length + 2) with hlt | hge
    · have hfind : find (r.pending.drop r.pendingPos) crlf = none :=
        find_unended h hline (.inl hcr) (by omega)
      have hfits : ¬ maxLineBytes < r.pending.length - r.pendingPos := by
        rw [← length_ahead]
        intro hlong
        have hlast : r.ahead.length = line.length + 1 := by omega
        refine hcut ⟨by omega, ?_⟩
        rw [← hlast]
        exact Boundary.here _ _
      have hcut' : ¬ (line.length = maxLineBytes ∧
          Boundary (r.received piece).ahead.length pieces (line.length + 1)) := by
        rw [ahead_received h.position, List.length_append]
        exact fun hb => hcut ⟨hb.1, .inr hb.2⟩
      obtain ⟨r', pieces', hread, hafter⟩ := ih (holds_received h) hcut'
      rw [feedOf, List.map_cons, readLine]
      simp only [hfind, if_neg hfits, receiveMore_piece hlate h]
      exact ⟨r', pieces', hread, hafter.received h hlt⟩
    · have hfind : find (r.pending.drop r.pendingPos) crlf = some line.length := by
        apply find_crlf_line hline
        apply List.prefix_of_prefix_length_le (List.prefix_append _ tail) (ahead_initial h)
        rw [List.length_append]
        exact hge
      have htake : (r.pending.drop r.pendingPos).take line.length = line := by
        have hwhole : line <+: line ++ crlf ++ tail := by
          rw [List.append_assoc]
          exact List.prefix_append _ _
        have hpart : line <+: r.ahead :=
          List.prefix_of_prefix_length_le hwhole (ahead_initial h) (by omega)
        exact (List.prefix_iff_eq_take.mp hpart).symm
      have hafter := after_consumed h hge
      have hdrop : (line ++ crlf ++ tail).drop (line.length + 2) = tail := by
        rw [show line.length + 2 = (line ++ crlf).length from by simp [crlf], List.drop_left]
      rw [hdrop] at hafter
      rw [feedOf, List.map_cons, readLine]
      simp only [hfind, htake, if_neg (Nat.not_lt.mpr hlen)]
      exact ⟨_, piece :: pieces, rfl, hafter⟩

theorem readLine_cut {tail : Bytes} (hline : find line crlf = none)
    (hlen : line.length = maxLineBytes) (h : Holds limits r pieces (line ++ crlf ++ tail))
    (hcut : Boundary r.ahead.length pieces (line.length + 1)) :
    readLine limits (feedOf pieces) r = .error oversized := by
  have hcr : line ++ [0x0D] <+: line ++ crlf ++ tail := ⟨0x0A :: tail, by simp [crlf]⟩
  induction pieces generalizing r with
  | nil =>
    have hwire := congrArg List.length h.wire
    have hhere : r.ahead.length = line.length + 1 := hcut
    simp [crlf] at hwire
    omega
  | cons piece pieces ih =>
    have hfind : find (r.pending.drop r.pendingPos) crlf = none :=
      find_unended h hline (.inl hcr) hcut.le
    rw [feedOf, List.map_cons, readLine]
    by_cases hlong : maxLineBytes < r.pending.length - r.pendingPos
    · simp only [hfind, if_pos hlong]
    · simp only [hfind, if_neg hlong, receiveMore_piece hlate h]
      apply ih (holds_received h)
      rw [← length_ahead] at hlong
      rw [ahead_received h.position, List.length_append]
      exact (boundary_cons_of_lt (by omega) piece pieces).mpr hcut

theorem readLine_short (hline : find line crlf = none) (h : Holds limits r pieces wire)
    (hwire : wire <+: line ++ [0x0D]) :
    (∃ what, readLine limits (feedOf pieces) r = .error what) ∨
      readLine limits (feedOf pieces) r = .ok none := by
  have hfind : ∀ {r : Reader} {pieces : List Bytes}, Holds limits r pieces wire →
      find (r.pending.drop r.pendingPos) crlf = none := by
    intro r pieces h
    apply find_unended h hline (.inr hwire)
    have hpart := ((ahead_initial h).trans hwire).length_le
    rwa [List.length_append, List.length_singleton] at hpart
  induction pieces generalizing r with
  | nil =>
    rw [feedOf, List.map_nil, readLine]
    by_cases hlong : maxLineBytes < r.pending.length - r.pendingPos
    · simp only [hfind h, if_pos hlong]
      exact .inl ⟨_, rfl⟩
    · simp only [hfind h, if_neg hlong, receiveMore_closed hlate]
      exact .inr rfl
  | cons piece pieces ih =>
    rw [feedOf, List.map_cons, readLine]
    by_cases hlong : maxLineBytes < r.pending.length - r.pendingPos
    · simp only [hfind h, if_pos hlong]
      exact .inl ⟨_, rfl⟩
    · simp only [hfind h, if_neg hlong, receiveMore_piece hlate h]
      exact ih (holds_received h)

end Reads

end FastTts.LiveBody
