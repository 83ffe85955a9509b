import FastTts.PcmSource

/-!
# WAV from memory and from a file

`read_wav_f32` walks over the chunks of a stream. The stream over memory does not seek behind its
end, the stream over a file does, and reads nothing there.
-/

namespace FastTts.WavReader

open PcmSource (Sample binary32 decodeS16le decodeF32le)

/-- A stream over bytes; a file may have its position behind the end. -/
structure Stream where
  data : Bytes
  position : ℕ

inductive Source
  | memory
  | file
  deriving DecidableEq, Repr

def Stream.ahead (s : Stream) : Bytes := s.data.drop s.position

def Stream.skip (s : Stream) (count : ℕ) : Stream := ⟨s.data, s.position + count⟩

/-- `seekoff` from the position. -/
def seekoff (source : Source) (s : Stream) (offset : ℕ) : Option Stream :=
  match source with
  | .memory => if s.position + offset > s.data.length then none else some (s.skip offset)
  | .file => some (s.skip offset)

/-- `read`, which fails where too few bytes are ahead. -/
def Stream.read (s : Stream) (count : ℕ) : Option (Bytes × Stream) :=
  if s.ahead.length < count then none else some (s.ahead.take count, s.skip count)

/-- The number that bytes make, the lowest one first. -/
def number (raw : Bytes) : ℕ := raw.foldr (fun b value => b.toNat + 256 * value) 0

def readScalar (size : ℕ) (s : Stream) : Except Exception (ℕ × Stream) :=
  match s.read size with
  | none => .error (bytes "failed to read WAV scalar")
  | some (raw, s) => .ok (number raw, s)

def skipBytes (source : Source) (count : ℕ) (s : Stream) : Except Exception Stream :=
  match seekoff source s count with
  | none => .error (bytes "failed to seek inside WAV file")
  | some s => .ok s

/-- What the walk has read. -/
structure Wav where
  audioFormat : ℕ
  channels : ℕ
  sampleRate : ℕ
  bitsPerSample : ℕ
  data : Bytes
  deriving DecidableEq, Repr

def Wav.empty : Wav := ⟨0, 0, 0, 0, []⟩

def skipRest (source : Source) (chunkSize : ℕ) (s : Stream) : Except Exception Stream :=
  if chunkSize > 16 then skipBytes source (chunkSize - 16) s else .ok s

def readFmt (source : Source) (chunkSize : ℕ) (wav : Wav) (s : Stream) :
    Except Exception (Wav × Stream) := do
  let (audioFormat, s) ← readScalar 2 s
  let (channels, s) ← readScalar 2 s
  let (sampleRate, s) ← readScalar 4 s
  let s ← skipBytes source 6 s
  let (bitsPerSample, s) ← readScalar 2 s
  let s ← skipRest source chunkSize s
  .ok (⟨audioFormat, channels, sampleRate, bitsPerSample, wav.data⟩, s)

def kReadBlock : ℕ := 1 <<< 20

def readBlocks (remaining : ℕ) (data : Bytes) (s : Stream) : Except Exception (Bytes × Stream) :=
  if remaining = 0 then .ok (data, s)
  else
    let step := min remaining kReadBlock
    match s.read step with
    | none => .error (bytes "failed to read WAV data chunk")
    | some (raw, s) => readBlocks (remaining - step) (data ++ raw) s
termination_by remaining
decreasing_by
  have : 0 < kReadBlock := by decide
  omega

def readBody (source : Source) (id : Bytes) (chunkSize : ℕ) (wav : Wav) (s : Stream) :
    Except Exception (Wav × Stream) :=
  if id = bytes "fmt " then readFmt source chunkSize wav s
  else if id = bytes "data" then
    (readBlocks chunkSize [] s).map fun (data, s) => ({ wav with data := data }, s)
  else (skipBytes source chunkSize s).map fun s => (wav, s)

def skipPad (source : Source) (chunkSize : ℕ) (s : Stream) : Except Exception Stream :=
  if chunkSize % 2 = 1 then skipBytes source 1 s else .ok s

def readChunk (source : Source) (wav : Wav) (s : Stream) :
    Except Exception (Option (Wav × Stream)) :=
  match s.read 4 with
  | none => .ok none
  | some (id, s) => do
    let (chunkSize, s) ← readScalar 4 s
    let (wav, s) ← readBody source id chunkSize wav s
    let s ← skipPad source chunkSize s
    .ok (some (wav, s))

/-! ## A chunk of the bytes ahead -/

theorem ahead_skip (s : Stream) (count : ℕ) : (s.skip count).ahead = s.ahead.drop count :=
  List.drop_drop.symm

theorem skip_skip (s : Stream) (a b : ℕ) : (s.skip a).skip b = s.skip (a + b) := by
  simp [Stream.skip, Nat.add_assoc]

theorem length_ahead (s : Stream) : s.ahead.length = s.data.length - s.position :=
  List.length_drop

variable {count : ℕ} {s' : Stream} {data : Bytes}

theorem read_some {s : Stream} (h : count ≤ s.ahead.length) :
    s.read count = some (s.ahead.take count, s.skip count) :=
  if_neg (Nat.not_lt.mpr h)

theorem read_none {s : Stream} (h : s.ahead.length < count) : s.read count = none :=
  if_pos h

theorem readScalar_ok {s : Stream} {size : ℕ} (h : size ≤ s.ahead.length) :
    readScalar size s = .ok (number (s.ahead.take size), s.skip size) := by
  rw [readScalar, read_some h]

theorem readScalar_inv {s : Stream} {size value : ℕ} (h : readScalar size s = .ok (value, s')) :
    size ≤ s.ahead.length ∧ s' = s.skip size := by
  rcases Nat.lt_or_ge s.ahead.length size with hlt | hle
  · rw [readScalar, read_none hlt] at h
    cases h
  · rw [readScalar_ok hle] at h
    cases h
    exact ⟨hle, rfl⟩

/-- How far a stream seeks: a file everywhere, memory as far as its bytes go. -/
def Seeks (source : Source) (s : Stream) (count : ℕ) : Prop :=
  source = .file ∨ s.position + count ≤ s.data.length

theorem skipBytes_ok {source : Source} {s : Stream} (h : Seeks source s count) :
    skipBytes source count s = .ok (s.skip count) := by
  unfold skipBytes seekoff
  cases source with
  | file => rfl
  | memory =>
    have hle : s.position + count ≤ s.data.length := h.resolve_left (by simp)
    simp only [if_neg (Nat.not_lt.mpr hle)]

theorem skipBytes_inv {source : Source} {s : Stream} (h : skipBytes source count s = .ok s') :
    Seeks source s count ∧ s' = s.skip count := by
  unfold skipBytes seekoff at h
  cases source with
  | file =>
    cases h
    exact ⟨.inl rfl, rfl⟩
  | memory =>
    simp only at h
    split_ifs at h with hlt
    cases h
    exact ⟨.inr (Nat.not_lt.mp hlt), rfl⟩

theorem readBlocks_eq (remaining : ℕ) (data : Bytes) (s : Stream) :
    readBlocks remaining data s = if remaining ≤ s.ahead.length then
        .ok (data ++ s.ahead.take remaining, s.skip remaining)
      else .error (bytes "failed to read WAV data chunk") := by
  induction remaining using Nat.strong_induction_on generalizing data s with
  | _ remaining ih =>
    rw [readBlocks]
    split_ifs with hzero hle hle
    · simp [hzero, Stream.skip]
    · omega
    · have hblock : 0 < kReadBlock := by decide
      have hstep : min remaining kReadBlock + (remaining - min remaining kReadBlock) = remaining := by
        omega
      have hrest : remaining - min remaining kReadBlock ≤
          (s.skip (min remaining kReadBlock)).ahead.length := by
        rw [ahead_skip, List.length_drop]
        omega
      simp only
      rw [read_some (by omega)]
      simp only
      rw [ih _ (by omega), if_pos hrest, skip_skip, ahead_skip, List.append_assoc, ← List.take_add,
        hstep]
    · have hblock : 0 < kReadBlock := by decide
      simp only
      rcases Nat.lt_or_ge s.ahead.length (min remaining kReadBlock) with hlt | hge
      · rw [read_none hlt]
      · have hrest : ¬ remaining - min remaining kReadBlock ≤
            (s.skip (min remaining kReadBlock)).ahead.length := by
          rw [ahead_skip, List.length_drop]
          omega
        rw [read_some hge]
        simp only
        rw [ih _ (by omega), if_neg hrest]

def fmtFields (wav : Wav) (body : Bytes) : Wav :=
  ⟨number (body.take 2), number ((body.drop 2).take 2), number ((body.drop 4).take 4),
    number ((body.drop 14).take 2), wav.data⟩

variable {a b : ℕ} {result : Wav × Stream} {wav' : Wav} {tag : String} {error : Exception}

section

variable {source : Source}

theorem seeks_skip {s : Stream} : Seeks source (s.skip a) b ↔ Seeks source s (a + b) := by
  unfold Seeks Stream.skip
  rw [Nat.add_assoc]

theorem Seeks.le {s : Stream} (h : Seeks source s b) (hle : a ≤ b) : Seeks source s a := by
  rcases h with hfile | hin
  · exact .inl hfile
  · exact .inr (by omega)

theorem skipRest_ok {size : ℕ} {s : Stream} (h : Seeks source s (max 16 size)) :
    skipRest source size (s.skip 16) = .ok (s.skip (max 16 size)) := by
  unfold skipRest
  split_ifs with hsize
  · have hmax : max 16 size = 16 + (size - 16) := by omega
    rw [hmax] at h ⊢
    rw [skipBytes_ok (seeks_skip.mpr h), skip_skip]
  · rw [max_eq_left (Nat.not_lt.mp hsize)]

theorem skipRest_inv {size : ℕ} {s : Stream} (hfields : 16 ≤ s.ahead.length)
    (h : skipRest source size (s.skip 16) = .ok s') : Seeks source s (max 16 size) := by
  have hlength := length_ahead s
  unfold skipRest at h
  split_ifs at h with hsize
  · rw [show max 16 size = 16 + (size - 16) by omega]
    exact seeks_skip.mp (skipBytes_inv h).1
  · right
    omega

theorem readFmt_ok {size : ℕ} {wav : Wav} {s : Stream}
    (hfields : 16 ≤ s.ahead.length) (hseeks : Seeks source s (max 16 size)) :
    readFmt source size wav s = .ok (fmtFields wav s.ahead, s.skip (max 16 size)) := by
  have hahead : ∀ n, (s.skip n).ahead.length = s.ahead.length - n := fun n => by
    rw [ahead_skip, List.length_drop]
  have hinner : Seeks source (s.skip 8) 6 := seeks_skip.mpr (hseeks.le (by omega))
  unfold readFmt
  rw [readScalar_ok (by omega)]
  simp only [bind, Except.bind]
  rw [readScalar_ok (by rw [hahead]; omega)]
  simp only [skip_skip]
  rw [readScalar_ok (by rw [hahead]; omega)]
  simp only [skip_skip]
  rw [skipBytes_ok hinner]
  simp only [skip_skip]
  rw [readScalar_ok (by rw [hahead]; omega)]
  simp only [skip_skip]
  rw [skipRest_ok hseeks]
  simp only [ahead_skip, fmtFields]

theorem readFmt_inv {size : ℕ} {wav : Wav} {s : Stream}
    (h : readFmt source size wav s = .ok result) :
    16 ≤ s.ahead.length ∧ Seeks source s (max 16 size) := by
  unfold readFmt at h
  obtain ⟨⟨format, s₁⟩, h₁, h⟩ := except_bind_ok h
  obtain ⟨⟨channels, s₂⟩, h₂, h⟩ := except_bind_ok h
  obtain ⟨⟨rate, s₃⟩, h₃, h⟩ := except_bind_ok h
  obtain ⟨s₄, h₄, h⟩ := except_bind_ok h
  obtain ⟨⟨bits, s₅⟩, h₅, h⟩ := except_bind_ok h
  obtain ⟨s₆, h₆, -⟩ := except_bind_ok h
  obtain ⟨-, rfl⟩ := readScalar_inv h₁
  obtain ⟨-, rfl⟩ := readScalar_inv h₂
  obtain ⟨-, rfl⟩ := readScalar_inv h₃
  obtain ⟨-, rfl⟩ := skipBytes_inv h₄
  obtain ⟨hle, rfl⟩ := readScalar_inv h₅
  simp only [skip_skip, ahead_skip, List.length_drop] at hle h₆
  have hfields : 16 ≤ s.ahead.length := by omega
  exact ⟨hfields, skipRest_inv hfields h₆⟩

theorem skipPad_ok {size : ℕ} {s : Stream} (h : Seeks source s (count + size % 2)) :
    skipPad source size (s.skip count) = .ok (s.skip (count + size % 2)) := by
  unfold skipPad
  split_ifs with hodd
  · rw [hodd] at h ⊢
    rw [skipBytes_ok (seeks_skip.mpr h), skip_skip]
  · rw [show size % 2 = 0 by omega, Nat.add_zero]

theorem skipPad_inv {size : ℕ} {s : Stream} (hseeks : Seeks source s count)
    (h : skipPad source size (s.skip count) = .ok s') : Seeks source s (count + size % 2) := by
  unfold skipPad at h
  split_ifs at h with hodd
  · rw [hodd]
    exact seeks_skip.mp (skipBytes_inv h).1
  · rwa [show size % 2 = 0 by omega, Nat.add_zero]

end

section Body

variable (id : Bytes) (size : ℕ)

def bodyNeeded : ℕ :=
  if id = bytes "fmt " then 16 else if id = bytes "data" then size else 0

/-- The bytes that the walk goes over, with the rest of a long format. -/
def bodySpan : ℕ := if id = bytes "fmt " then max 16 size else size

def bodyRead (wav : Wav) (body : Bytes) : Wav :=
  if id = bytes "fmt " then fmtFields wav body
  else if id = bytes "data" then { wav with data := body.take size }
  else wav

variable {id size} {source : Source} {wav : Wav} {s : Stream}

theorem readBody_ok (hneeded : bodyNeeded id size ≤ s.ahead.length)
    (hseeks : Seeks source s (bodySpan id size)) :
    readBody source id size wav s =
      .ok (bodyRead id size wav s.ahead, s.skip (bodySpan id size)) := by
  unfold bodyNeeded at hneeded
  unfold bodySpan at hseeks ⊢
  unfold readBody bodyRead
  split_ifs at hneeded hseeks ⊢ with hfmt hdata
  · exact readFmt_ok hneeded hseeks
  · rw [readBlocks_eq, if_pos hneeded]
    rfl
  · rw [skipBytes_ok hseeks]
    rfl

theorem readBody_inv {result : Wav × Stream} (hin : s.position ≤ s.data.length)
    (h : readBody source id size wav s = .ok result) :
    bodyNeeded id size ≤ s.ahead.length ∧ Seeks source s (bodySpan id size) := by
  have hlength := length_ahead s
  unfold readBody at h
  unfold bodyNeeded bodySpan
  split_ifs at h ⊢ with hfmt hdata
  · exact readFmt_inv h
  · rw [readBlocks_eq] at h
    split_ifs at h with hle
    · exact ⟨hle, .inr (by omega)⟩
    · cases h
  · cases hskip : skipBytes source size s with
    | error e =>
      rw [hskip] at h
      cases h
    | ok s' => exact ⟨Nat.zero_le _, (skipBytes_inv hskip).1⟩

end Body

variable (rest : Bytes)

def chunkId : Bytes := rest.take 4

def chunkSize : ℕ := number ((rest.drop 4).take 4)

/-- The bytes of the chunk ahead that must be there. -/
def needed : ℕ := 8 + bodyNeeded (chunkId rest) (chunkSize rest)

def span : ℕ :=
  8 + bodySpan (chunkId rest) (chunkSize rest) + chunkSize rest % 2

def after (wav : Wav) : Wav :=
  bodyRead (chunkId rest) (chunkSize rest) wav (rest.drop 8)

theorem readChunk_eq {source : Source} {wav : Wav} {s : Stream} (h : 8 ≤ s.ahead.length) :
    readChunk source wav s =
      (readBody source (chunkId s.ahead) (chunkSize s.ahead) wav (s.skip 8)).bind fun read =>
        (skipPad source (chunkSize s.ahead) read.2).bind fun s => .ok (some (read.1, s)) := by
  have hsize : 4 ≤ (s.skip 4).ahead.length := by
    rw [ahead_skip, List.length_drop]
    omega
  unfold readChunk
  rw [read_some (by omega)]
  simp only [bind]
  rw [readScalar_ok hsize, ahead_skip, skip_skip]
  rfl

theorem length_body (s : Stream) : (s.skip 8).ahead.length = s.ahead.length - 8 := by
  rw [ahead_skip, List.length_drop]

theorem readChunk_ok {source : Source} (wav : Wav) {s : Stream}
    (hneeded : needed s.ahead ≤ s.ahead.length) (hseeks : Seeks source s (span s.ahead)) :
    readChunk source wav s = .ok (some (after s.ahead wav, s.skip (span s.ahead))) := by
  have hlength := length_body s
  unfold needed at hneeded
  unfold span at hseeks ⊢
  have hspan : Seeks source (s.skip 8) (bodySpan (chunkId s.ahead) (chunkSize s.ahead)) :=
    seeks_skip.mpr (hseeks.le (Nat.le_add_right _ _))
  rw [readChunk_eq (by omega), readBody_ok (by omega) hspan]
  simp only [Except.bind]
  rw [skip_skip, skipPad_ok hseeks, ahead_skip]
  rfl

theorem readChunk_inv {source : Source} {wav : Wav} {s : Stream}
    (h : readChunk source wav s = .ok (some result)) :
    needed s.ahead ≤ s.ahead.length ∧ Seeks source s (span s.ahead) := by
  have hbody := length_body s
  have hahead := length_ahead s
  rcases Nat.lt_or_ge s.ahead.length 8 with hlt | hheader
  · exfalso
    unfold readChunk at h
    rcases Nat.lt_or_ge s.ahead.length 4 with hlt | hge
    · rw [read_none hlt] at h
      cases h
    · rw [read_some hge] at h
      obtain ⟨⟨size, s₁⟩, hscalar, -⟩ := except_bind_ok h
      have hsize := (readScalar_inv hscalar).1
      rw [ahead_skip, List.length_drop] at hsize
      omega
  · rw [readChunk_eq hheader] at h
    obtain ⟨⟨read, s₁⟩, hread, h⟩ := except_bind_ok h
    obtain ⟨s₂, hpad, -⟩ := except_bind_ok h
    obtain ⟨hneeded, hseeks⟩ := readBody_inv (by simp only [Stream.skip]; omega) hread
    rw [readBody_ok hneeded hseeks] at hread
    cases hread
    rw [skip_skip] at hpad
    unfold needed span
    exact ⟨by omega, skipPad_inv (seeks_skip.mp hseeks) hpad⟩

theorem readChunk_none {source : Source} {wav : Wav} {s : Stream} :
    readChunk source wav s = .ok none ↔ s.ahead.length < 4 := by
  constructor
  · intro h
    by_contra hge
    unfold readChunk at h
    rw [read_some (Nat.not_lt.mp hge)] at h
    obtain ⟨_, -, h⟩ := except_bind_ok h
    obtain ⟨_, -, h⟩ := except_bind_ok h
    obtain ⟨_, -, h⟩ := except_bind_ok h
    cases h
  · intro h
    rw [readChunk, read_none h]

theorem readChunk_shrinks {source : Source} {wav : Wav} {s : Stream}
    (h : readChunk source wav s = .ok (some (wav', s'))) : s'.ahead.length < s.ahead.length := by
  obtain ⟨hneeded, hseeks⟩ := readChunk_inv h
  rw [readChunk_ok wav hneeded hseeks] at h
  cases h
  rw [ahead_skip, List.length_drop]
  unfold needed at hneeded
  unfold span
  omega

/-! ## The walk -/

def walk (source : Source) (wav : Wav) (s : Stream) : Except Exception Wav :=
  match _h : readChunk source wav s with
  | .error e => .error e
  | .ok none => .ok wav
  | .ok (some (wav, s)) => walk source wav s
termination_by s.ahead.length
decreasing_by exact readChunk_shrinks _h

structure WavData where
  sampleRate : ℤ
  channels : ℤ
  samples : List Sample

/-- The `int` of an unsigned number. -/
def toInt (value : ℕ) : ℤ := (value : ℤ).bmod (2 ^ 32)

def samplesOf (width : ℕ) (decode : Bytes → Sample) (data : Bytes) : List Sample :=
  (List.range (data.length / width)).map fun i => decode ((data.drop (i * width)).take width)

def decodeS24le (raw : Bytes) : Sample :=
  binary32.ofRat (((number raw : ℤ).bmod (2 ^ 24) : ℤ) / 8388608)

def finish (wav : Wav) : Except Exception WavData :=
  let result (samples : List Sample) : Except Exception WavData :=
    .ok ⟨toInt wav.sampleRate, toInt wav.channels, samples⟩
  if wav.channels = 0 ∨ wav.sampleRate = 0 ∨ wav.bitsPerSample = 0 ∨ wav.data.isEmpty then
    .error (bytes "incomplete WAV file")
  else if wav.audioFormat = 1 ∧ wav.bitsPerSample = 16 then
    result (samplesOf 2 decodeS16le wav.data)
  else if wav.audioFormat = 1 ∧ wav.bitsPerSample = 24 then
    if wav.data.length % 3 ≠ 0 then .error (bytes "malformed PCM24 WAV data chunk")
    else result (samplesOf 3 decodeS24le wav.data)
  else if wav.audioFormat = 3 ∧ wav.bitsPerSample = 32 then
    result (samplesOf 4 decodeF32le wav.data)
  else .error (bytes "unsupported WAV encoding (need PCM16, PCM24, or float32)")

def readTag (tag : String) (error : Exception) (s : Stream) : Except Exception Stream :=
  match s.read 4 with
  | none => .error error
  | some (raw, s) => if raw = bytes tag then .ok s else .error error

def readWavF32 (source : Source) (data : Bytes) : Except Exception WavData := do
  let s ← readTag "RIFF" (bytes "invalid WAV RIFF header") ⟨data, 0⟩
  let s ← skipBytes source 4 s
  let s ← readTag "WAVE" (bytes "invalid WAV WAVE header") s
  let wav ← walk source Wav.empty s
  finish wav

/-! ## Skips behind the end -/

/-- The walk goes over the end of the bytes ahead: behind an unknown chunk, the rest of a long
format or the padding of an odd chunk. What it has read until then is given. -/
inductive Overruns : Wav → Bytes → Wav → Prop
  | here {wav : Wav} {rest : Bytes} (hneeded : needed rest ≤ rest.length)
      (hspan : rest.length < span rest) : Overruns wav rest (after rest wav)
  | later {wav wav' : Wav} {rest : Bytes} (hspan : span rest ≤ rest.length)
      (h : Overruns (after rest wav) (rest.drop (span rest)) wav') : Overruns wav rest wav'

def Supported (wav : Wav) : Prop :=
  wav.channels ≠ 0 ∧ wav.sampleRate ≠ 0 ∧ wav.bitsPerSample ≠ 0 ∧ wav.data ≠ [] ∧
    (wav.audioFormat = 1 ∧ wav.bitsPerSample = 16 ∨
      wav.audioFormat = 1 ∧ wav.bitsPerSample = 24 ∧ wav.data.length % 3 = 0 ∨
      wav.audioFormat = 3 ∧ wav.bitsPerSample = 32)

instance decidableSupported (wav : Wav) : Decidable (Supported wav) :=
  inferInstanceAs (Decidable (_ ∧ _))

def HasHeader (data : Bytes) : Prop :=
  12 ≤ data.length ∧ data.take 4 = bytes "RIFF" ∧ (data.drop 8).take 4 = bytes "WAVE"

theorem finish_toOption (wav : Wav) : (finish wav).toOption.isSome = true ↔ Supported wav := by
  unfold finish Supported
  simp only [List.isEmpty_iff]
  split_ifs with hincomplete h16 h24 hpartial h32
  all_goals simp only [Except.toOption, Option.isSome_none, Option.isSome_some]
  all_goals grind

section Walk

variable {source : Source} {wav : Wav} {s : Stream}

theorem walk_end (h : s.ahead.length < 4) : walk source wav s = .ok wav := by
  rw [walk]
  split <;> simp_all [readChunk_none.mpr h]

theorem walk_step (hneeded : needed s.ahead ≤ s.ahead.length)
    (hseeks : Seeks source s (span s.ahead)) :
    walk source wav s = walk source (after s.ahead wav) (s.skip (span s.ahead)) := by
  have hchunk := readChunk_ok wav hneeded hseeks
  rw [walk]
  split <;> simp_all

theorem walk_error (h : 4 ≤ s.ahead.length)
    (hchunk : ¬ (needed s.ahead ≤ s.ahead.length ∧ Seeks source s (span s.ahead))) :
    (walk source wav s).toOption = none := by
  rw [walk]
  split
  · rfl
  · next hnone => exact absurd (readChunk_none.mp hnone) (Nat.not_lt.mpr h)
  · next hsome => exact absurd (readChunk_inv hsome) hchunk

end Walk

theorem seeks_memory {s : Stream} (hin : s.position ≤ s.data.length) :
    Seeks .memory s count ↔ count ≤ s.ahead.length := by
  have hlength := length_ahead s
  constructor
  · rintro (hfile | hle)
    · cases hfile
    · omega
  · intro hle
    right
    omega

theorem needed_le_span : 8 ≤ needed rest ∧ needed rest ≤ span rest := by
  unfold needed span bodyNeeded bodySpan
  split_ifs <;> omega

theorem walk_overruns {wav : Wav} {rest : Bytes} (h : Overruns wav rest wav') (s : Stream)
    (hrest : s.ahead = rest) (hin : s.position ≤ s.data.length) :
    walk .file wav s = .ok wav' ∧ (walk .memory wav s).toOption = none := by
  induction h generalizing s with
  | @here wav rest hneeded hspan =>
    subst hrest
    have hbound := needed_le_span s.ahead
    constructor
    · rw [walk_step hneeded (.inl rfl), walk_end]
      rw [ahead_skip, List.length_drop]
      omega
    · apply walk_error (by omega)
      rw [seeks_memory hin]
      omega
  | @later wav wav' rest hspan hlater ih =>
    subst hrest
    have hbound := needed_le_span s.ahead
    have hahead := length_ahead s
    have hin' : (s.skip (span s.ahead)).position ≤ (s.skip (span s.ahead)).data.length := by
      simp only [Stream.skip]
      omega
    rw [walk_step (by omega) (.inl rfl), walk_step (by omega) ((seeks_memory hin).mpr hspan)]
    exact ih _ (ahead_skip s _) hin'

theorem walk_same {wav : Wav} (s : Stream) (hin : s.position ≤ s.data.length)
    (h : ∀ wav', ¬ Overruns wav s.ahead wav') :
    (walk .memory wav s).toOption = (walk .file wav s).toOption := by
  induction hlength : s.ahead.length using Nat.strong_induction_on generalizing wav s with
  | _ length ih =>
    have hbound := needed_le_span s.ahead
    have hahead := length_ahead s
    rcases Nat.lt_or_ge s.ahead.length 4 with hend | hmore
    · rw [walk_end hend, walk_end hend]
    rcases Nat.lt_or_ge s.ahead.length (needed s.ahead) with hcut | hneeded
    · rw [walk_error hmore fun hchunk => by omega, walk_error hmore fun hchunk => by omega]
    rcases Nat.lt_or_ge s.ahead.length (span s.ahead) with hover | hspan
    · exact absurd (.here hneeded hover) (h _)
    · have hin' : (s.skip (span s.ahead)).position ≤ (s.skip (span s.ahead)).data.length := by
        simp only [Stream.skip]
        omega
      rw [walk_step hneeded (.inl rfl), walk_step hneeded ((seeks_memory hin).mpr hspan)]
      refine ih _ ?_ _ hin' ?_ rfl
      · rw [ahead_skip, List.length_drop]
        omega
      · intro wav' hlater
        rw [ahead_skip] at hlater
        exact h wav' (.later hspan hlater)

theorem readTag_ok {s : Stream} (hlength : 4 ≤ s.ahead.length) (htag : s.ahead.take 4 = bytes tag) :
    readTag tag error s = .ok (s.skip 4) := by
  unfold readTag
  rw [read_some hlength]
  simp only [htag, if_true]

theorem readTag_inv {s : Stream} (h : readTag tag error s = .ok s') :
    4 ≤ s.ahead.length ∧ s.ahead.take 4 = bytes tag ∧ s' = s.skip 4 := by
  unfold readTag at h
  rcases Nat.lt_or_ge s.ahead.length 4 with hlt | hge
  · rw [read_none hlt] at h
    cases h
  · rw [read_some hge] at h
    simp only at h
    split_ifs at h with htag
    cases h
    exact ⟨hge, htag, rfl⟩

theorem readWavF32_header (source : Source) (h : HasHeader data) :
    readWavF32 source data = (walk source Wav.empty ⟨data, 12⟩).bind finish := by
  obtain ⟨hlength, hriff, hwave⟩ := h
  have hstart : Stream.ahead ⟨data, 0⟩ = data := rfl
  have hriff' : (Stream.ahead ⟨data, 0⟩).take 4 = bytes "RIFF" := by
    rw [hstart, hriff]
  have hwave' : ((Stream.skip ⟨data, 0⟩ 8).ahead).take 4 = bytes "WAVE" := by
    rw [ahead_skip, hstart, hwave]
  unfold readWavF32
  rw [readTag_ok (by rw [hstart]; omega) hriff']
  simp only [bind, Except.bind]
  rw [skipBytes_ok (.inr (by simp only [Stream.skip]; omega))]
  simp only [skip_skip]
  rw [readTag_ok (by rw [ahead_skip, hstart, List.length_drop]; omega) hwave']
  rfl

theorem readWavF32_no_header (source : Source) (h : ¬ HasHeader data) :
    (readWavF32 source data).toOption = none := by
  cases hread : readWavF32 source data with
  | error e => rfl
  | ok result =>
    unfold readWavF32 at hread
    obtain ⟨s₁, h₁, hread⟩ := except_bind_ok hread
    obtain ⟨s₂, h₂, hread⟩ := except_bind_ok hread
    obtain ⟨s₃, h₃, -⟩ := except_bind_ok hread
    obtain ⟨-, hriff, rfl⟩ := readTag_inv h₁
    obtain ⟨-, rfl⟩ := skipBytes_inv h₂
    obtain ⟨hlength, hwave, -⟩ := readTag_inv h₃
    have hstart : Stream.ahead ⟨data, 0⟩ = data := rfl
    rw [skip_skip, ahead_skip, hstart] at hlength hwave
    rw [List.length_drop] at hlength
    exact absurd ⟨by omega, hriff, hwave⟩ h

theorem bind_finish_toOption (result : Except Exception Wav) :
    (result.bind finish).toOption = result.toOption.bind fun wav => (finish wav).toOption := by
  cases result <;> rfl

theorem readWavF32_differs {wav : Wav} (hheader : HasHeader data)
    (hover : Overruns Wav.empty (data.drop 12) wav) (hsupported : Supported wav) :
    (readWavF32 .memory data).toOption = none ∧ (readWavF32 .file data).toOption.isSome = true := by
  obtain ⟨hfile, hmemory⟩ := walk_overruns hover ⟨data, 12⟩ rfl hheader.1
  rw [readWavF32_header _ hheader, readWavF32_header _ hheader, bind_finish_toOption, hmemory, hfile]
  exact ⟨rfl, (finish_toOption wav).mpr hsupported⟩

theorem readWavF32_same (hheader : HasHeader data)
    (h : ∀ wav, Overruns Wav.empty (data.drop 12) wav → ¬ Supported wav) :
    (readWavF32 .memory data).toOption = (readWavF32 .file data).toOption := by
  rw [readWavF32_header _ hheader, readWavF32_header _ hheader, bind_finish_toOption,
    bind_finish_toOption]
  by_cases hover : ∃ wav, Overruns Wav.empty (data.drop 12) wav
  · obtain ⟨wav, hover⟩ := hover
    obtain ⟨hfile, hmemory⟩ := walk_overruns hover ⟨data, 12⟩ rfl hheader.1
    have hrejected : (finish wav).toOption = none := by
      rw [← Option.not_isSome_iff_eq_none, finish_toOption]
      exact h wav hover
    rw [hmemory, hfile]
    exact hrejected.symm
  · rw [walk_same ⟨data, 12⟩ hheader.1 fun wav hwav => hover ⟨wav, hwav⟩]

/-- Memory and a file give the same unless a skip goes over the end behind all that makes a WAV. -/
theorem readWavF32_agree_iff (data : Bytes) :
    (readWavF32 .memory data).toOption = (readWavF32 .file data).toOption ↔
      ¬ (HasHeader data ∧
        ∃ wav, Overruns Wav.empty (data.drop 12) wav ∧ Supported wav) := by
  constructor
  · rintro hsame ⟨hheader, wav, hover, hsupported⟩
    obtain ⟨hmemory, hfile⟩ := readWavF32_differs hheader hover hsupported
    rw [← hsame, hmemory] at hfile
    cases hfile
  · intro h
    by_cases hheader : HasHeader data
    · exact readWavF32_same hheader fun wav hover hsupported =>
        h ⟨hheader, wav, hover, hsupported⟩
    · rw [readWavF32_no_header _ hheader, readWavF32_no_header _ hheader]

/-- A sample and a half, without the padding behind them. -/
def unpadded : Bytes :=
  bytes "RIFF" ++ [0, 0, 0, 0] ++ bytes "WAVE" ++
    bytes "fmt " ++ [16, 0, 0, 0, 1, 0, 1, 0, 128, 62, 0, 0, 0, 125, 0, 0, 2, 0, 16, 0] ++
    bytes "data" ++ [3, 0, 0, 0, 1, 2, 3]

theorem readWavF32_unpadded :
    (readWavF32 .memory unpadded).toOption ≠ (readWavF32 .file unpadded).toOption := by
  have hheader : HasHeader unpadded := by
    unfold HasHeader
    decide
  have hover : Overruns Wav.empty (unpadded.drop 12) ⟨1, 1, 16000, 16, [1, 2, 3]⟩ :=
    .later (by decide) (.here (by decide) (by decide))
  obtain ⟨hmemory, hfile⟩ := readWavF32_differs hheader hover (by decide)
  intro hsame
  rw [← hsame, hmemory] at hfile
  cases hfile

end FastTts.WavReader
