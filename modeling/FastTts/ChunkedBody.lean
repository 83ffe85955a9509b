import FastTts.Json
import FastTts.Slices
import Mathlib.Data.Nat.Digits.Lemmas

/-!
# Chunked bodies

`ChunkedHttpStreamWriter` frames what is written to it, and `ChunkedBodyDecoder` takes the frames
apart, in slices as they come off a socket.
-/

namespace FastTts.Chunked

open Slices

def crlf : Bytes := [0x0D, 0x0A]

/-! ## Hexadecimal sizes -/

def hexValue (ch : UInt8) : Option ℕ :=
  if isDigit ch then some (ch.toNat - 0x30)
  else if 0x61 ≤ ch ∧ ch ≤ 0x66 then some (ch.toNat - 0x61 + 10)
  else none

/-- `std::hex`. -/
def hexText (n : ℕ) : Bytes := if n = 0 then [0x30] else ((Nat.digits 16 n).map hexDigit).reverse

/-! ## The writer -/

/-- The argument of `write`: its length is a `size_t`. -/
structure StringView where
  data : Bytes
  size_lt : data.length < 2 ^ 64

def write (text : StringView) : Bytes :=
  if text.data.isEmpty then []
  else hexText text.data.length ++ crlf ++ text.data ++ crlf

def finish : Bytes := bytes "0\r\n\r\n"

variable (writes : List StringView)

/-- What is sent for a sequence of writes and the end. -/
def written : Bytes := writes.flatMap write ++ finish

/-! ## The decoder -/

inductive State
  | size
  | sizeLf
  | data
  | dataCr
  | dataLf
  | trailerCr
  | done
  deriving DecidableEq, Repr

/-- A decoder inside of a chunk waits for a byte at least. -/
structure ChunkedBodyDecoder where
  state : State
  sizeLine : Bytes
  remaining : ℕ
  waiting : state = .data → 0 < remaining
  deriving DecidableEq

/-- The digits before a semicolon; other characters are skipped. -/
def sizeOf (sizeLine : Bytes) : ℕ :=
  (sizeLine.takeWhile fun ch => ch ≠ 0x3B).foldl (fun size digit =>
    match hexValue (toLower digit) with
    | some value => (size * 16 + value) % 2 ^ 64
    | none => size) 0

namespace ChunkedBodyDecoder

def fresh : ChunkedBodyDecoder := ⟨.size, [], 0, nofun⟩

def finished (decoder : ChunkedBodyDecoder) : Bool := decide (decoder.state = .done)

def taken (decoder : ChunkedBodyDecoder) (count : ℕ) : ChunkedBodyDecoder :=
  if h : decoder.remaining - count = 0 then ⟨.dataCr, decoder.sizeLine, 0, nofun⟩
  else ⟨.data, decoder.sizeLine, decoder.remaining - count, fun _ => Nat.pos_of_ne_zero h⟩

def control (decoder : ChunkedBodyDecoder) (ch : UInt8) : ChunkedBodyDecoder :=
  match decoder.state with
  | .size =>
    if ch = 0x0D then ⟨.sizeLf, decoder.sizeLine, decoder.remaining, nofun⟩
    else ⟨.size, decoder.sizeLine ++ [ch], decoder.remaining, nofun⟩
  | .sizeLf =>
    let remaining := sizeOf decoder.sizeLine
    if h : remaining = 0 then ⟨.trailerCr, [], 0, nofun⟩
    else ⟨.data, [], remaining, fun _ => Nat.pos_of_ne_zero h⟩
  | .dataCr => ⟨.dataLf, decoder.sizeLine, decoder.remaining, nofun⟩
  | .dataLf => ⟨.size, decoder.sizeLine, decoder.remaining, nofun⟩
  | .trailerCr =>
    if ch = 0x0A then ⟨.done, decoder.sizeLine, decoder.remaining, nofun⟩ else decoder
  | .data | .done => decoder

/-- Each turn takes a byte at least, so the length of the slice is enough fuel. -/
def feedLoop : ℕ → ChunkedBodyDecoder → Bytes → Bytes × ChunkedBodyDecoder
  | fuel + 1, decoder, ch :: rest =>
    match decoder.state with
    | .done => ([], decoder)
    | .data =>
      let take := min decoder.remaining (ch :: rest).length
      let more := feedLoop fuel (decoder.taken take) ((ch :: rest).drop take)
      ((ch :: rest).take take ++ more.1, more.2)
    | _ => feedLoop fuel (decoder.control ch) rest
  | _, decoder, _ => ([], decoder)

def feed (decoder : ChunkedBodyDecoder) (slice : Bytes) : Bytes × ChunkedBodyDecoder :=
  feedLoop slice.length decoder slice

/-! ## One byte after the other -/

def byteStep (decoder : ChunkedBodyDecoder) (ch : UInt8) : Bytes × ChunkedBodyDecoder :=
  if decoder.state = .data then ([ch], decoder.taken 1) else ([], decoder.control ch)

variable {decoder : ChunkedBodyDecoder}

theorem taken_zero (h : decoder.state = .data) : decoder.taken 0 = decoder := by
  obtain ⟨state, sizeLine, remaining, waiting⟩ := decoder
  subst h
  have hpos := waiting rfl
  have hne : ¬ remaining - 0 = 0 := by omega
  rw [taken, dif_neg hne]
  rfl

theorem taken_taken (m n : ℕ) (h : m < decoder.remaining) :
    (decoder.taken m).taken n = decoder.taken (m + n) := by
  have hne : ¬ decoder.remaining - m = 0 := by omega
  rw [taken.eq_def decoder m, dif_neg hne, taken, taken]
  simp only [Nat.sub_sub]

theorem state_taken {n : ℕ} (h : n < decoder.remaining) : (decoder.taken n).state = .data := by
  have hne : ¬ decoder.remaining - n = 0 := by omega
  rw [taken, dif_neg hne]

theorem scan_data (hstate : decoder.state = .data) (data : Bytes)
    (hlen : data.length ≤ decoder.remaining) :
    scan byteStep decoder data = (data, decoder.taken data.length) := by
  induction data generalizing decoder with
  | nil => rw [scan, List.length_nil, taken_zero hstate]
  | cons ch data ih =>
    rw [List.length_cons] at hlen
    rw [scan, byteStep, if_pos hstate]
    cases data with
    | nil => rfl
    | cons next data =>
      rw [List.length_cons] at hlen
      have hone : 1 < decoder.remaining := by omega
      have hrest : (next :: data).length ≤ (decoder.taken 1).remaining := by
        have hne : ¬ decoder.remaining - 1 = 0 := by omega
        rw [taken, dif_neg hne, List.length_cons]
        simp only
        omega
      rw [ih (state_taken hone) hrest, taken_taken 1 _ hone, List.length_cons, List.length_cons,
        Nat.add_comm 1]
      rfl

theorem scan_done (h : decoder.state = .done) (slice : Bytes) :
    scan byteStep decoder slice = ([], decoder) := by
  apply scan_of_still
  intro ch
  rw [byteStep, if_neg (by rw [h]; decide), control, h]

theorem feedLoop_eq_scan (fuel : ℕ) (decoder : ChunkedBodyDecoder) (slice : Bytes)
    (hfuel : slice.length ≤ fuel) : feedLoop fuel decoder slice = scan byteStep decoder slice := by
  induction fuel generalizing decoder slice with
  | zero =>
    have hnil : slice = [] := List.length_eq_zero_iff.mp (by omega)
    subst hnil
    rfl
  | succ fuel ih =>
    cases slice with
    | nil => rfl
    | cons ch rest =>
      rw [List.length_cons] at hfuel
      rw [feedLoop]
      by_cases hdata : decoder.state = .data
      · have hpos := decoder.waiting hdata
        rw [hdata]
        dsimp only
        have hdrop : ((ch :: rest).drop (min decoder.remaining (ch :: rest).length)).length ≤
            fuel := by
          rw [List.length_drop, List.length_cons]
          omega
        rw [ih _ _ hdrop]
        conv_rhs => rw [← List.take_append_drop (min decoder.remaining (ch :: rest).length)
          (ch :: rest), scan_append]
        have htake : ((ch :: rest).take (min decoder.remaining (ch :: rest).length)).length =
            min decoder.remaining (ch :: rest).length := by
          rw [List.length_take]
          omega
        rw [scan_data hdata _ (by omega), htake]
      · by_cases hdone : decoder.state = .done
        · rw [scan_done hdone, hdone]
        · have hcontrol := ih (decoder.control ch) rest (by omega)
          rw [scan, byteStep, if_neg hdata]
          cases hstate : decoder.state with
          | data => exact absurd hstate hdata
          | done => exact absurd hstate hdone
          | size | sizeLf | dataCr | dataLf | trailerCr => simp [hcontrol]

theorem feed_eq_scan (decoder : ChunkedBodyDecoder) (slice : Bytes) :
    feed decoder slice = scan byteStep decoder slice :=
  feedLoop_eq_scan _ decoder slice le_rfl

end ChunkedBodyDecoder

/-! ## Sizes are read back -/

variable {digit n : ℕ} {line : Bytes}

theorem hexValue_hexDigit (h : digit < 16) : hexValue (toLower (hexDigit digit)) = some digit := by
  revert digit
  decide

theorem hexDigit_plain (h : digit < 16) : hexDigit digit ≠ 0x0D ∧ hexDigit digit ≠ 0x3B := by
  revert digit
  decide

theorem hexText_plain {ch : UInt8} (h : ch ∈ hexText n) : ch ≠ 0x0D ∧ ch ≠ 0x3B := by
  rw [hexText] at h
  split_ifs at h with hn
  · rw [List.mem_singleton] at h
    subst h
    decide
  · rw [List.mem_reverse, List.mem_map] at h
    obtain ⟨digit, hdigit, rfl⟩ := h
    exact hexDigit_plain (Nat.digits_lt_base (by decide) hdigit)

theorem foldr_hexDigit {digits : List ℕ} (h : ∀ digit ∈ digits, digit < 16) :
    (digits.map hexDigit).foldr (fun digit size => match hexValue (toLower digit) with
      | some value => (size * 16 + value) % 2 ^ 64
      | none => size) 0 = Nat.ofDigits 16 digits % 2 ^ 64 := by
  induction digits with
  | nil => rfl
  | cons digit digits ih =>
    have hdigit := h digit List.mem_cons_self
    have hrest := ih fun d hd => h d (List.mem_cons_of_mem _ hd)
    rw [List.map_cons, List.foldr_cons, hrest, hexValue_hexDigit hdigit, Nat.ofDigits_cons]
    have hdigits : digit + 16 * Nat.ofDigits 16 digits = Nat.ofDigits 16 digits * 16 + digit := by
      omega
    rw [hdigits]
    exact Nat.ModEq.add_right digit (Nat.ModEq.mul_right 16 (Nat.mod_modEq _ _))

theorem sizeOf_hexText (hn : n < 2 ^ 64) : sizeOf (hexText n) = n := by
  have hall : (hexText n).takeWhile (fun ch => decide (ch ≠ 0x3B)) = hexText n := by
    rw [List.takeWhile_eq_self_iff]
    intro ch hch
    exact decide_eq_true (hexText_plain hch).2
  rw [sizeOf, hall, hexText]
  split_ifs with hzero
  · rw [hzero]
    rfl
  · rw [List.foldl_reverse, foldr_hexDigit, Nat.ofDigits_digits, Nat.mod_eq_of_lt hn]
    intro digit hdigit
    exact Nat.digits_lt_base (by decide) hdigit

/-! ## What the decoder makes of what the writer sends -/

open ChunkedBodyDecoder

def idle (remaining : ℕ) : ChunkedBodyDecoder := ⟨.size, [], remaining, nofun⟩

theorem scan_sizeLine (hline : 0x0D ∉ line) (before : Bytes) (remaining : ℕ) :
    scan byteStep ⟨.size, before, remaining, nofun⟩ line =
      ([], ⟨.size, before ++ line, remaining, nofun⟩) := by
  induction line generalizing before with
  | nil => simp [scan]
  | cons ch line ih =>
    rw [List.mem_cons, not_or] at hline
    have hne : ¬ ch = 0x0D := fun h => hline.1 h.symm
    have hstep : byteStep ⟨.size, before, remaining, nofun⟩ ch =
        ([], ⟨.size, before ++ [ch], remaining, nofun⟩) := by
      simp [byteStep, ChunkedBodyDecoder.control, hne]
    rw [scan, hstep, ih hline.2, List.append_assoc]
    rfl

theorem scan_sizeEnd {remaining : ℕ} (hsize : 0 < sizeOf line) :
    scan byteStep ⟨.size, line, remaining, nofun⟩ crlf =
      ([], ⟨.data, [], sizeOf line, fun _ => hsize⟩) := by
  have hne : ¬ sizeOf line = 0 := by omega
  simp [scan, crlf, byteStep, ChunkedBodyDecoder.control, hne]

theorem scan_dataEnd (line : Bytes) (remaining : ℕ) :
    scan byteStep ⟨.dataCr, line, remaining, nofun⟩ crlf =
      ([], ⟨.size, line, remaining, nofun⟩) := rfl

theorem scan_write (text : StringView) (remaining : ℕ) : ∃ after,
    scan byteStep (idle remaining) (write text) = (text.data, idle after) := by
  rw [write]
  by_cases hempty : text.data.isEmpty = true
  · rw [if_pos hempty, List.isEmpty_iff.mp hempty]
    exact ⟨remaining, rfl⟩
  · rw [if_neg hempty]
    have hpos : 0 < text.data.length := by
      rw [List.length_pos_iff]
      exact fun hnil => hempty (List.isEmpty_iff.mpr hnil)
    have hsize := sizeOf_hexText text.size_lt
    have hcr : 0x0D ∉ hexText text.data.length := fun h => (hexText_plain h).1 rfl
    have hline : 0 < sizeOf (hexText text.data.length) := by omega
    have hdata : scan byteStep ⟨.data, [], sizeOf (hexText text.data.length), fun _ => hline⟩
        text.data = _ := scan_data rfl text.data hsize.ge
    rw [taken, dif_pos (Nat.sub_eq_zero_of_le hsize.le)] at hdata
    refine ⟨0, ?_⟩
    rw [scan_append, scan_append, scan_append, idle, scan_sizeLine hcr]
    simp only [List.nil_append, scan_sizeEnd hline, hdata, scan_dataEnd, List.append_nil]
    rfl

theorem scan_writes (remaining : ℕ) : ∃ after,
    scan byteStep (idle remaining) (writes.flatMap write) =
      ((writes.map StringView.data).flatten, idle after) := by
  induction writes generalizing remaining with
  | nil => exact ⟨remaining, rfl⟩
  | cons text writes ih =>
    obtain ⟨between, hwrite⟩ := scan_write text remaining
    obtain ⟨after, hrest⟩ := ih between
    refine ⟨after, ?_⟩
    rw [List.flatMap_cons, scan_append, hwrite, hrest, List.map_cons, List.flatten_cons]

def flags : ChunkedBodyDecoder → List Bytes → List Bool
  | _, [] => []
  | decoder, slice :: slices => (feed decoder slice).2.finished :: flags (feed decoder slice).2 slices

theorem flags_eq (decoder : ChunkedBodyDecoder) (slices : List Bytes) {i : ℕ}
    (hi : i < slices.length) : (flags decoder slices)[i]? =
      some (scan byteStep decoder (slices.take (i + 1)).flatten).2.finished := by
  induction slices generalizing decoder i with
  | nil => cases hi
  | cons slice slices ih =>
    rw [flags, feed_eq_scan]
    cases i with
    | zero => simp
    | succ i =>
      rw [List.length_cons] at hi
      rw [List.getElem?_cons_succ, ih _ (by omega), List.take_succ_cons, List.flatten_cons,
        scan_append]

theorem finished_iff {part : Bytes} (hpart : part <+: written writes) :
    (scan byteStep fresh part).2.finished = true ↔ part = written writes := by
  obtain ⟨after, hwrites⟩ := scan_writes writes 0
  have hopen : (scan byteStep fresh (writes.flatMap write ++ bytes "0\r\n\r")).2.state =
      .trailerCr := by
    have hidle : fresh = idle 0 := rfl
    rw [hidle, scan_append, hwrites]
    rfl
  have hsplit : written writes = writes.flatMap write ++ bytes "0\r\n\r" ++ [0x0A] := by
    rw [written, List.append_assoc]
    rfl
  rw [finished, decide_eq_true_iff]
  constructor
  · intro hdone
    rw [hsplit, List.prefix_concat_iff] at hpart
    rcases hpart with hall | ⟨rest, hrest⟩
    · rw [hall, hsplit]
    · rw [← hrest, scan_append, scan_done hdone, hdone] at hopen
      cases hopen
  · intro hall
    rw [hall, hsplit, scan_append, scan, scan, byteStep, if_neg (by rw [hopen]; decide),
      ChunkedBodyDecoder.control,
      hopen]
    rfl

/-- The decoder writes what was written, and says so with the last byte of the terminating
chunk. -/
theorem decoder_reads_writer (writes : List StringView) {slices : List Bytes}
    (hslices : slices.flatten = written writes) :
    (feedAll feed fresh slices).1 = (writes.map StringView.data).flatten ∧
      ∀ i < slices.length, (flags fresh slices)[i]? =
        some (decide ((slices.take (i + 1)).flatten = written writes)) := by
  constructor
  · obtain ⟨after, hwrites⟩ := scan_writes writes 0
    have hidle : fresh = idle 0 := rfl
    rw [feedAll_eq_scan feed_eq_scan, hslices, written, scan_append, hidle, hwrites]
    exact List.append_nil _
  · intro i hi
    have hpart : (slices.take (i + 1)).flatten <+: written writes := by
      rw [← hslices]
      conv_rhs => rw [← List.take_append_drop (i + 1) slices, List.flatten_append]
      exact List.prefix_append _ _
    rw [flags_eq fresh slices hi, Option.some.injEq, Bool.eq_iff_iff, finished_iff writes hpart,
      decide_eq_true_iff]

/-- Data that look like the end of a body, sent one byte at a time. -/
theorem decoder_reads_writer_bytes :
    (feedAll feed fresh ((written [⟨bytes "0\r\n\r\n", by decide⟩, ⟨[], by decide⟩]).map
      fun ch => [ch])).1 = bytes "0\r\n\r\n" :=
  (decoder_reads_writer [⟨bytes "0\r\n\r\n", by decide⟩, ⟨[], by decide⟩] (by decide)).1

end FastTts.Chunked
