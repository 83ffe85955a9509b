import FastTts.ChunkedBody

/-!
# Live request bodies

`ChunkedSocketStreambuf` takes a chunked body apart while it is still arriving. It keeps what has
been received and a position in it, receives more when a line or a chunk is not there yet, and
hands a chunk out in windows. What the socket delivers is a list of receives; after the last one
the peer has closed. Whether the deadline has passed is a question that any state may answer.
-/

namespace FastTts.LiveBody

open Chunked (crlf)

/-! ## The reader -/

structure Reader where
  pending : Bytes
  pendingPos : ℕ
  chunk : Bytes
  chunkPos : ℕ
  window : Bytes
  receivedBytes : ℕ
  finished : Bool
  deriving DecidableEq, Repr

def start (prefetched : Bytes) : Reader := ⟨prefetched, 0, [], 0, [], prefetched.length, false⟩

structure Limits where
  maxBodyBytes : ℕ
  maxChunkBytes : ℕ
  late : Reader → Bool

def defaultMaxChunkBytes : ℕ := 8 * 1024 * 1024

/-- A cap on a chunk cannot be disabled. -/
def Limits.chunkCap (limits : Limits) : ℕ :=
  if 0 < limits.maxChunkBytes then limits.maxChunkBytes else defaultMaxChunkBytes

inductive Receive
  | data (bytes : Bytes)
  | stalled
  deriving DecidableEq, Repr

variable (limits : Limits) (r : Reader)

def requireWithinBodyCap : Except Exception Unit :=
  if 0 < limits.maxBodyBytes ∧ limits.maxBodyBytes < r.receivedBytes then
    .error (bytes "live request body exceeded its maximum size")
  else .ok ()

def requireWithinDeadline : Except Exception Unit :=
  if limits.late r then .error (bytes "live request body exceeded its total deadline") else .ok ()

/-- `none` is a half-close. -/
def receiveMore (next : Option Receive) : Except Exception (Option Reader) := do
  requireWithinDeadline limits r
  match next with
  | some .stalled => .error (bytes "live request body stalled: no data within the idle timeout")
  | none | some (.data []) => return none
  | some (.data (ch :: received)) =>
    let counted := { r with receivedBytes := r.receivedBytes + (ch :: received).length }
    requireWithinBodyCap limits counted
    return some { counted with pending := r.pending ++ ch :: received }

def ensureAvailable (count : ℕ) :
    List Receive → Reader → Except Exception (Option (Reader × List Receive))
  | feed, r =>
    if count ≤ r.pending.length - r.pendingPos then .ok (some (r, feed))
    else match feed with
      | [] => (receiveMore limits r none).map fun _ => none
      | next :: feed =>
        match receiveMore limits r (some next) with
        | .error what => .error what
        | .ok none => .ok none
        | .ok (some r) => ensureAvailable count feed r

def maxLineBytes : ℕ := 8192

def oversized : Exception := bytes "chunked request body: oversized chunk header"

def readLine : List Receive → Reader → Except Exception (Option (Bytes × Reader × List Receive))
  | feed, r =>
    match find (r.pending.drop r.pendingPos) crlf with
    | some eol =>
      if maxLineBytes < eol then .error oversized
      else .ok (some ((r.pending.drop r.pendingPos).take eol,
        { r with pendingPos := r.pendingPos + eol + 2 }, feed))
    | none =>
      if maxLineBytes < r.pending.length - r.pendingPos then .error oversized
      else match feed with
        | [] => (receiveMore limits r none).map fun _ => none
        | next :: feed =>
          match receiveMore limits r (some next) with
          | .error what => .error what
          | .ok none => .ok none
          | .ok (some r) => readLine feed r

def hexDigitValue (digit : UInt8) : Option ℕ :=
  if isDigit digit then some (digit.toNat - 0x30)
  else if 0x61 ≤ digit ∧ digit ≤ 0x66 then some (digit.toNat - 0x61 + 10)
  else if 0x41 ≤ digit ∧ digit ≤ 0x46 then some (digit.toNat - 0x41 + 10)
  else none

/-- Checked before each step, so that no intermediate value exceeds the cap. -/
def sizeStep (cap : ℕ) (header : Bytes) (size : ℕ) (digit : UInt8) : Except Exception ℕ :=
  let exceeds := bytes "chunked request body: chunk size exceeds the maximum"
  match hexDigitValue digit with
  | none => .error (bytes "chunked request body: invalid chunk size \"" ++ header ++ bytes "\"")
  | some value =>
    if cap / 16 < size then .error exceeds
    else if cap - size * 16 < value then .error exceeds
    else .ok (size * 16 + value)

/-- What is read of a header: the size, without an extension. -/
def sizeText (header : Bytes) : Bytes := trimmed (header.takeWhile fun ch => ch ≠ 0x3B)

def parseSize (header : Bytes) : Except Exception ℕ :=
  if header.isEmpty then .error (bytes "chunked request body: empty chunk size")
  else header.foldlM (sizeStep limits.chunkCap header) 0

def maxTrailerBytes : ℕ := 8192

/-- Each trailer counts a byte at least, so there are no more turns than bytes allowed. -/
def readTrailers : ℕ → ℕ → List Receive → Reader → Except Exception (Reader × List Receive)
  | 0, _, _, _ => .error (bytes "chunked request body: trailer section too large")
  | fuel + 1, trailerBytes, feed, r =>
    match readLine limits feed r with
    | .error what => .error what
    | .ok none => .error (bytes "chunked request body: connection closed inside the trailer")
    | .ok (some (trailer, r, feed)) =>
      if trailer.isEmpty then .ok (r, feed)
      else if maxTrailerBytes < trailerBytes + trailer.length then
        .error (bytes "chunked request body: trailer section too large")
      else readTrailers fuel (trailerBytes + trailer.length) feed r

def windowBytes : ℕ := 64 * 1024

/-- Exposes the next slice of the current chunk, if there is one. -/
def publishWindow : Except Exception (Option Reader) :=
  if r.chunk.length ≤ r.chunkPos then .ok none
  else do
    requireWithinDeadline limits r
    let window := min windowBytes (r.chunk.length - r.chunkPos)
    return some { r with
      window := (r.chunk.drop r.chunkPos).take window
      chunkPos := r.chunkPos + window }

/-- What has been consumed goes, past 64 KiB of it. -/
def Reader.compacted : Reader :=
  if 64 * 1024 < r.pendingPos then { r with pending := r.pending.drop r.pendingPos, pendingPos := 0 }
  else r

def takeChunk (size : ℕ) (feed : List Receive) (r : Reader) :
    Except Exception (Reader × List Receive) :=
  match ensureAvailable limits (size + 2) feed r with
  | .error what => .error what
  | .ok none => .error (bytes "chunked request body: connection closed mid-chunk")
  | .ok (some (r, feed)) =>
    if ((r.pending.drop (r.pendingPos + size)).take 2) ≠ crlf then
      .error (bytes "chunked request body: chunk data not terminated by CRLF")
    else do
      let held := { r with
        window := []
        chunk := (r.pending.drop r.pendingPos).take size
        pendingPos := r.pendingPos + (size + 2) }.compacted
      let published ← publishWindow limits { held with chunkPos := 0 }
      return (published.getD { held with chunkPos := 0 }, feed)

def closedEarly : Exception :=
  bytes "chunked request body: connection closed before the terminating chunk"

/-- The end of the body leaves the window empty. -/
def nextChunk (feed : List Receive) (r : Reader) : Except Exception (Reader × List Receive) :=
  if r.finished then .ok (r, feed)
  else do
    requireWithinDeadline limits r
    match readLine limits feed r with
    | .error what => .error what
    | .ok none => .error closedEarly
    | .ok (some (header, r, feed)) =>
      let size ← parseSize limits (sizeText header)
      if size = 0 then
        readTrailers limits (maxTrailerBytes + 1) 0 feed { r with finished := true }
      else takeChunk limits size feed r

def underflow (feed : List Receive) (r : Reader) : Except Exception (Reader × List Receive) := do
  requireWithinBodyCap limits r
  match ← publishWindow limits r with
  | some r => return (r, feed)
  | none => nextChunk limits feed r

def readByte (feed : List Receive) (r : Reader) :
    Except Exception (Option UInt8 × Reader × List Receive) := do
  let filled ← if r.window.isEmpty then underflow limits feed r else .ok (r, feed)
  match filled.1.window with
  | [] => return (none, filled)
  | ch :: window => return (some ch, { filled.1 with window := window }, filled.2)

/-! ## Reading to the end -/

inductive Outcome
  | eof
  | throws (what : Exception)
  deriving DecidableEq, Repr

/-- The bytes that are read until the end or an exception. -/
inductive Reads : List Receive → Reader → Bytes → Outcome → Prop
  | eof {feed feed' r r'} : readByte limits feed r = .ok (none, r', feed') → Reads feed r [] .eof
  | throws {feed r what} : readByte limits feed r = .error what → Reads feed r [] (.throws what)
  | byte {feed feed' r r' ch data outcome} : readByte limits feed r = .ok (some ch, r', feed') →
      Reads feed' r' data outcome → Reads feed r (ch :: data) outcome

variable {limits}

theorem Reads.unique {feed : List Receive} {r : Reader} {data data' : Bytes}
    {outcome outcome' : Outcome} (h : Reads limits feed r data outcome)
    (h' : Reads limits feed r data' outcome') : data = data' ∧ outcome = outcome' := by
  induction h generalizing data' with
  | eof heof =>
    cases h' with
    | eof _ => exact ⟨rfl, rfl⟩
    | throws hthrows =>
      rw [heof] at hthrows
      cases hthrows
    | byte hbyte _ =>
      rw [heof] at hbyte
      cases hbyte
  | throws hthrows =>
    cases h' with
    | eof heof =>
      rw [hthrows] at heof
      cases heof
    | throws hthrows' =>
      rw [hthrows] at hthrows'
      cases hthrows'
      exact ⟨rfl, rfl⟩
    | byte hbyte _ =>
      rw [hthrows] at hbyte
      cases hbyte
  | byte hbyte _ ih =>
    cases h' with
    | eof heof =>
      rw [hbyte] at heof
      cases heof
    | throws hthrows =>
      rw [hbyte] at hthrows
      cases hthrows
    | byte hbyte' hrest =>
      rw [hbyte] at hbyte'
      cases hbyte'
      obtain ⟨rfl, rfl⟩ := ih hrest
      exact ⟨rfl, rfl⟩

end FastTts.LiveBody
