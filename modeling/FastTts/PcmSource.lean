import Mathlib.Data.Stream.Init
import FastTts.FloatFormat
import FastTts.Json

/-!
# Raw PCM

`make_pcm_chunk_stream` decodes a stream of bytes block by block. A read asks for a number of
samples and keeps the whole frames among what it gets.
-/

namespace FastTts.PcmSource

open FloatFormat

/-! ## Samples -/

def binary32 : Format := ⟨24, -149, 104, by decide⟩

abbrev Sample := Value binary32

inductive PcmSampleFormat
  | s16le
  | f32le
  deriving DecidableEq, Repr

def decodeS16le (raw : Bytes) : Sample :=
  let value : ℕ := (raw.getD 0 0).toNat + 2 ^ 8 * (raw.getD 1 0).toNat
  let signed : ℤ := if value < 2 ^ 15 then (value : ℤ) else value - 2 ^ 16
  binary32.ofRat (signed / 32768)

def floatOfBits (bits : ℕ) : Sample :=
  let negative := decide (2 ^ 31 ≤ bits)
  let exponent : ℕ := bits / 2 ^ 23 % 2 ^ 8
  let mantissa : ℕ := bits % 2 ^ 23
  if exponent = 255 then if mantissa = 0 then .infinite negative else .nan
  else
    let magnitude : ℚ := if exponent = 0 then mantissa * 2 ^ (-149 : ℤ)
      else (2 ^ 23 + mantissa) * 2 ^ ((exponent : ℤ) - 150)
    binary32.ofRat (if negative then -magnitude else magnitude)

def decodeF32le (raw : Bytes) : Sample :=
  floatOfBits ((raw.getD 0 0).toNat + 2 ^ 8 * (raw.getD 1 0).toNat +
    2 ^ 16 * (raw.getD 2 0).toNat + 2 ^ 24 * (raw.getD 3 0).toNat)

namespace PcmSampleFormat

def sampleBytes : PcmSampleFormat → ℕ
  | .s16le => 2
  | .f32le => 4

def decode : PcmSampleFormat → Bytes → Sample
  | .s16le => decodeS16le
  | .f32le => decodeF32le

end PcmSampleFormat

variable (sampleFormat : PcmSampleFormat) (channels : ℕ)

def frameBytes : ℕ := sampleFormat.sampleBytes * channels

def samplesOf (count : ℕ) (raw : Bytes) : List Sample :=
  (List.range count).map fun i => sampleFormat.decode (raw.drop (i * sampleFormat.sampleBytes))

/-! ## Reading -/

/-- The size of the buffer of a read, in `size_t`. -/
def requested (maxSamples : ℕ) : ℕ := maxSamples * sampleFormat.sampleBytes % 2 ^ 64

/-- What `resize` throws beyond the greatest size of a vector. -/
def lengthError : Exception := bytes "vector"

/-- One read: whether it was a full one, its samples, and the bytes that are left. -/
def read (maxSamples : ℕ) (input : Bytes) : Except Exception ((Bool × List Sample) × Bytes) :=
  if maxSamples = 0 then .error (bytes "raw PCM read requires a positive sample count")
  else if 2 ^ 63 ≤ requested sampleFormat maxSamples then .error lengthError
  else
    let received := input.take (requested sampleFormat maxSamples)
    let usable := received.length / frameBytes sampleFormat channels *
      frameBytes sampleFormat channels
    let count := usable / sampleFormat.sampleBytes
    .ok ((decide (received.length = requested sampleFormat maxSamples),
      samplesOf sampleFormat count received), input.drop (requested sampleFormat maxSamples))

/-- The blocks of the reads up to the one that is not full, one after the other. -/
def drain : List ℕ → Bytes → Except Exception (Option (List Sample))
  | [], _ => .ok none
  | maxSamples :: rest, input =>
    match read sampleFormat channels maxSamples input with
    | .error what => .error what
    | .ok ((false, samples), _) => .ok (some samples)
    | .ok ((true, samples), input) => (drain rest input).map (Option.map (samples ++ ·))

/-- The samples of a whole stream without a partial frame at its end. -/
def decoded (input : Bytes) : List Sample :=
  samplesOf sampleFormat (input.length / frameBytes sampleFormat channels * channels) input

/-- Some number of reads comes to the end of the stream and gives all of its samples. -/
def Delivers (maxSamples : Stream' ℕ) (input : Bytes) : Prop :=
  ∃ reads, drain sampleFormat channels (maxSamples.take reads) input =
    .ok (some (decoded sampleFormat channels input))

def asked (maxSamples : Stream' ℕ) : ℕ → ℕ
  | 0 => 0
  | reads + 1 => requested sampleFormat maxSamples.head + asked maxSamples.tail reads

/-- The reads come to the end of the stream, none of them is too large for a vector, and a full one
asks for whole frames or leaves less than a frame behind its last whole one. -/
structure Aligned (maxSamples : Stream' ℕ) (length : ℕ) : Prop where
  ends : ∃ reads, length < asked sampleFormat maxSamples reads
  fits : ∀ i, asked sampleFormat maxSamples i ≤ length →
    requested sampleFormat (maxSamples.get i) < 2 ^ 63
  whole : ∀ i, asked sampleFormat maxSamples (i + 1) ≤ length →
    frameBytes sampleFormat channels ∣ requested sampleFormat (maxSamples.get i) ∨
      length < asked sampleFormat maxSamples i +
        requested sampleFormat (maxSamples.get i) / frameBytes sampleFormat channels *
          frameBytes sampleFormat channels + frameBytes sampleFormat channels

variable {sampleFormat channels}

/-! ## Decoding -/

theorem sampleBytes_pos : 0 < sampleFormat.sampleBytes := by cases sampleFormat <;> decide

theorem sampleBytes_dvd_requested (maxSamples : ℕ) :
    sampleFormat.sampleBytes ∣ requested sampleFormat maxSamples := by
  have hsize : sampleFormat.sampleBytes ∣ 2 ^ 64 := by cases sampleFormat <;> decide
  exact (Nat.dvd_mod_iff hsize).mpr (Nat.dvd_mul_left _ _)

theorem decode_congr {a b : Bytes} (h : ∀ j < sampleFormat.sampleBytes, a[j]? = b[j]?) :
    sampleFormat.decode a = sampleFormat.decode b := by
  have hbyte : ∀ j < sampleFormat.sampleBytes, a.getD j 0 = b.getD j 0 := by
    intro j hj
    rw [List.getD_eq_getElem?_getD, List.getD_eq_getElem?_getD, h j hj]
  cases sampleFormat with
  | s16le =>
    change decodeS16le a = decodeS16le b
    rw [decodeS16le, decodeS16le, hbyte 0 (by decide), hbyte 1 (by decide)]
  | f32le =>
    change decodeF32le a = decodeF32le b
    rw [decodeF32le, decodeF32le, hbyte 0 (by decide), hbyte 1 (by decide), hbyte 2 (by decide),
      hbyte 3 (by decide)]

theorem samplesOf_congr {count : ℕ} {a b : Bytes}
    (h : ∀ j < count * sampleFormat.sampleBytes, a[j]? = b[j]?) :
    samplesOf sampleFormat count a = samplesOf sampleFormat count b := by
  apply List.map_congr_left
  intro i hi
  apply decode_congr
  intro j hj
  rw [List.getElem?_drop, List.getElem?_drop]
  apply h
  have hnext : (i + 1) * sampleFormat.sampleBytes ≤ count * sampleFormat.sampleBytes :=
    Nat.mul_le_mul_right _ (List.mem_range.mp hi)
  rw [Nat.succ_mul] at hnext
  omega

theorem samplesOf_add (a b : ℕ) (raw : Bytes) :
    samplesOf sampleFormat (a + b) raw = samplesOf sampleFormat a raw ++
      samplesOf sampleFormat b (raw.drop (a * sampleFormat.sampleBytes)) := by
  rw [samplesOf, List.range_add, List.map_append, List.map_map]
  congr 1
  apply List.map_congr_left
  intro i _
  rw [List.drop_drop, ← Nat.add_mul]
  rfl

/-! ## Reads -/

theorem read_ok {maxSamples : ℕ} (hpos : 0 < maxSamples)
    (hfits : requested sampleFormat maxSamples < 2 ^ 63) (input : Bytes) :
    read sampleFormat channels maxSamples input =
      .ok ((decide (requested sampleFormat maxSamples ≤ input.length),
        samplesOf sampleFormat (min (requested sampleFormat maxSamples) input.length /
          frameBytes sampleFormat channels * channels) input),
        input.drop (requested sampleFormat maxSamples)) := by
  have hsample : 0 < sampleFormat.sampleBytes := sampleBytes_pos
  have hcount : ∀ n, n / frameBytes sampleFormat channels * frameBytes sampleFormat channels /
      sampleFormat.sampleBytes = n / frameBytes sampleFormat channels * channels := by
    intro n
    rw [frameBytes, Nat.mul_comm sampleFormat.sampleBytes, ← Nat.mul_assoc,
      Nat.mul_div_cancel _ hsample]
  have hfull : decide (min (requested sampleFormat maxSamples) input.length =
      requested sampleFormat maxSamples) =
        decide (requested sampleFormat maxSamples ≤ input.length) := by
    rw [decide_eq_decide, min_eq_left_iff]
  have hsamples : ∀ n, samplesOf sampleFormat
      (min n input.length / frameBytes sampleFormat channels * channels) (input.take n) =
        samplesOf sampleFormat
          (min n input.length / frameBytes sampleFormat channels * channels) input := by
    intro n
    apply samplesOf_congr
    intro j hj
    have hle : min n input.length / frameBytes sampleFormat channels * channels *
        sampleFormat.sampleBytes ≤ min n input.length := by
      rw [Nat.mul_assoc, Nat.mul_comm channels]
      exact Nat.div_mul_le_self _ _
    exact List.getElem?_take_of_lt (by omega)
  rw [read, if_neg (by omega), if_neg (by omega)]
  dsimp only
  rw [List.length_take, hcount, hfull, hsamples]

theorem read_frames {maxSamples : ℕ} {input rest : Bytes} {more : Bool} {samples : List Sample}
    (h : read sampleFormat channels maxSamples input = .ok ((more, samples), rest)) :
    channels ∣ samples.length := by
  rw [read] at h
  split_ifs at h
  obtain ⟨hanswer, -⟩ := Prod.mk.inj (Except.ok.inj h)
  obtain ⟨-, rfl⟩ := Prod.mk.inj hanswer
  rw [samplesOf, List.length_map, List.length_range, frameBytes,
    Nat.mul_comm sampleFormat.sampleBytes channels, ← Nat.mul_assoc,
    Nat.mul_div_cancel _ sampleBytes_pos]
  exact Nat.dvd_mul_left _ _

theorem drain_cons {maxSamples : ℕ} (hpos : 0 < maxSamples)
    (hfits : requested sampleFormat maxSamples < 2 ^ 63) (rest : List ℕ) (input : Bytes) :
    drain sampleFormat channels (maxSamples :: rest) input =
      if requested sampleFormat maxSamples ≤ input.length then
        (drain sampleFormat channels rest (input.drop (requested sampleFormat maxSamples))).map
          (Option.map (samplesOf sampleFormat (requested sampleFormat maxSamples /
            frameBytes sampleFormat channels * channels) input ++ ·))
      else .ok (some (decoded sampleFormat channels input)) := by
  rw [drain, read_ok hpos hfits]
  by_cases hfull : requested sampleFormat maxSamples ≤ input.length
  · rw [if_pos hfull, decide_eq_true hfull, Nat.min_eq_left hfull]
  · rw [if_neg hfull, decide_eq_false hfull, Nat.min_eq_right (by omega)]
    rfl

theorem asked_succ (maxSamples : Stream' ℕ) (i : ℕ) :
    asked sampleFormat maxSamples (i + 1) =
      asked sampleFormat maxSamples i + requested sampleFormat (maxSamples.get i) := by
  induction i generalizing maxSamples with
  | zero =>
    rw [asked, asked, asked, Nat.add_zero, Nat.zero_add]
  | succ i ih =>
    rw [asked, ih, asked, Nat.add_assoc]
    rfl

section Runs

variable {maxSamples : Stream' ℕ} {length : ℕ}

theorem Aligned.tail (h : Aligned sampleFormat channels maxSamples length)
    (hfull : requested sampleFormat maxSamples.head ≤ length) :
    Aligned sampleFormat channels maxSamples.tail
      (length - requested sampleFormat maxSamples.head) := by
  constructor
  · obtain ⟨reads, hends⟩ := h.ends
    cases reads with
    | zero =>
      rw [asked] at hends
      omega
    | succ reads =>
      rw [asked] at hends
      exact ⟨reads, by omega⟩
  · intro i hi
    have hfits := h.fits (i + 1) (by rw [asked]; omega)
    exact hfits
  · intro i hi
    have hwhole := h.whole (i + 1) (by rw [asked]; omega)
    rw [asked] at hwhole
    obtain hdvd | hlast := hwhole
    · exact .inl hdvd
    · right
      change length - _ < asked sampleFormat maxSamples.tail i +
        requested sampleFormat (maxSamples.get (i + 1)) / frameBytes sampleFormat channels *
          frameBytes sampleFormat channels + frameBytes sampleFormat channels
      omega

variable {input a b : Bytes} {i : ℕ}

theorem decoded_split (hchannels : 0 < channels) {size : ℕ} (hfull : size ≤ input.length)
    (hwhole : frameBytes sampleFormat channels ∣ size ∨
      input.length < size / frameBytes sampleFormat channels *
        frameBytes sampleFormat channels + frameBytes sampleFormat channels) :
    decoded sampleFormat channels input =
      samplesOf sampleFormat (size / frameBytes sampleFormat channels * channels) input ++
        decoded sampleFormat channels (input.drop size) := by
  have hframe : 0 < frameBytes sampleFormat channels := Nat.mul_pos sampleBytes_pos hchannels
  rw [decoded, decoded, List.length_drop]
  obtain ⟨frames, rfl⟩ | hlast := hwhole
  · have hlength : input.length / frameBytes sampleFormat channels =
        frames + (input.length - frameBytes sampleFormat channels * frames) /
          frameBytes sampleFormat channels := by
      rw [Nat.sub_mul_div, Nat.add_sub_cancel']
      exact (Nat.le_div_iff_mul_le hframe).mpr (by rwa [Nat.mul_comm])
    have hbytes : frames * channels * sampleFormat.sampleBytes =
        frameBytes sampleFormat channels * frames := by
      rw [frameBytes]
      ring
    rw [Nat.mul_div_cancel_left _ hframe, hlength, Nat.add_mul, samplesOf_add, hbytes]
  · have hsame : input.length / frameBytes sampleFormat channels =
        size / frameBytes sampleFormat channels := by
      apply Nat.le_antisymm
      · exact Nat.le_of_lt_succ ((Nat.div_lt_iff_lt_mul hframe).mpr (by
          rw [Nat.succ_mul]
          exact hlast))
      · exact Nat.div_le_div_right hfull
    have hnone : (input.length - size) / frameBytes sampleFormat channels = 0 := by
      apply Nat.div_eq_of_lt
      have hle := Nat.div_mul_le_self size (frameBytes sampleFormat channels)
      omega
    rw [hsame, hnone, Nat.zero_mul]
    exact (List.append_nil _).symm

theorem delivers_of_aligned (hchannels : 0 < channels) (hpos : ∀ i, 0 < maxSamples.get i)
    (h : Aligned sampleFormat channels maxSamples input.length) :
    Delivers sampleFormat channels maxSamples input := by
  obtain ⟨reads, hends⟩ := h.ends
  refine ⟨reads, ?_⟩
  induction reads generalizing maxSamples input with
  | zero =>
    rw [asked] at hends
    omega
  | succ reads ih =>
    have hfirst : 0 < maxSamples.head := hpos 0
    have hfits : requested sampleFormat maxSamples.head < 2 ^ 63 :=
      h.fits 0 (by rw [asked]; exact Nat.zero_le _)
    rw [Stream'.take_succ, drain_cons hfirst hfits]
    split_ifs with hfull
    · have hrest : Aligned sampleFormat channels maxSamples.tail
          (input.drop (requested sampleFormat maxSamples.head)).length := by
        rw [List.length_drop]
        exact h.tail hfull
      have hbehind : (input.drop (requested sampleFormat maxSamples.head)).length <
          asked sampleFormat maxSamples.tail reads := by
        rw [asked] at hends
        rw [List.length_drop]
        omega
      have hothers : ∀ i, 0 < maxSamples.tail.get i := fun i => hpos (i + 1)
      have hwhole := h.whole 0 (by rw [asked, asked]; exact hfull)
      rw [asked, Nat.zero_add] at hwhole
      rw [ih hothers hrest hbehind]
      exact congrArg (fun samples => Except.ok (some samples))
        (decoded_split hchannels hfull hwhole).symm
    · rfl

/-! ## Bytes that no sample comes from -/

variable {first reads k j before : ℕ} {rest : List ℕ} {samples : List Sample} {sample : Bytes}

theorem fits_of_drain (hfirst : 0 < first) {samples : Option (List Sample)}
    (h : drain sampleFormat channels (first :: rest) input = .ok samples) :
    requested sampleFormat first < 2 ^ 63 := by
  by_contra hlarge
  rw [drain, read, if_neg (by omega), if_pos (by omega)] at h
  exact nomatch h

theorem drain_done (hpos : ∀ i, 0 < maxSamples.get i)
    (h : drain sampleFormat channels (maxSamples.take reads) input = .ok (some samples)) :
    input.length < asked sampleFormat maxSamples reads ∧
      ∀ i, asked sampleFormat maxSamples i ≤ input.length →
        requested sampleFormat (maxSamples.get i) < 2 ^ 63 := by
  induction reads generalizing maxSamples input samples with
  | zero =>
    rw [Stream'.take_zero, drain] at h
    exact nomatch h
  | succ reads ih =>
    have hfirst : 0 < maxSamples.head := hpos 0
    rw [Stream'.take_succ] at h
    have hfits := fits_of_drain hfirst h
    rw [drain_cons hfirst hfits] at h
    rw [asked]
    split_ifs at h with hfull
    · obtain ⟨others, hothers, hsamples⟩ := except_map_ok h
      obtain ⟨rest, rfl, -⟩ := Option.map_eq_some_iff.mp hsamples
      have hbehind : ∀ i, 0 < maxSamples.tail.get i := fun i => hpos (i + 1)
      obtain ⟨hends, hrest⟩ := ih hbehind hothers
      rw [List.length_drop] at hends hrest
      refine ⟨by omega, fun i hi => ?_⟩
      cases i with
      | zero => exact hfits
      | succ i =>
        rw [asked] at hi
        exact hrest i (by omega)
    · refine ⟨by omega, fun i hi => ?_⟩
      cases i with
      | zero => exact hfits
      | succ i =>
        rw [asked] at hi
        omega

theorem drain_unique {others : ℕ} (hpos : ∀ i, 0 < maxSamples.get i) {same : List Sample}
    (h : drain sampleFormat channels (maxSamples.take reads) input = .ok (some samples))
    (hsame : drain sampleFormat channels (maxSamples.take others) input = .ok (some same)) :
    samples = same := by
  induction reads generalizing maxSamples others input samples same with
  | zero =>
    rw [Stream'.take_zero, drain] at h
    exact nomatch h
  | succ reads ih =>
    cases others with
    | zero =>
      rw [Stream'.take_zero, drain] at hsame
      exact nomatch hsame
    | succ others =>
      have hfirst : 0 < maxSamples.head := hpos 0
      rw [Stream'.take_succ] at h hsame
      have hfits := fits_of_drain hfirst h
      rw [drain_cons hfirst hfits] at h hsame
      split_ifs at h hsame with hfull
      · obtain ⟨rest, hrest, hsamples⟩ := except_map_ok h
        obtain ⟨rest', hrest', hsamples'⟩ := except_map_ok hsame
        obtain ⟨tail, rfl, rfl⟩ := Option.map_eq_some_iff.mp hsamples
        obtain ⟨tail', rfl, rfl⟩ := Option.map_eq_some_iff.mp hsamples'
        have hbehind : ∀ i, 0 < maxSamples.tail.get i := fun i => hpos (i + 1)
        rw [ih hbehind hrest hrest']
      · exact Option.some.inj (Except.ok.inj (h.symm.trans hsame))

theorem drain_read_congr (hfirst : 0 < first) (hsize : requested sampleFormat first < 2 ^ 63)
    (hlength : a.length = b.length) (hread : requested sampleFormat first ≤ a.length)
    (hframes : ∀ j < requested sampleFormat first / frameBytes sampleFormat channels *
      frameBytes sampleFormat channels, a[j]? = b[j]?)
    (hrest : drain sampleFormat channels rest (a.drop (requested sampleFormat first)) =
      drain sampleFormat channels rest (b.drop (requested sampleFormat first))) :
    drain sampleFormat channels (first :: rest) a =
      drain sampleFormat channels (first :: rest) b := by
  have hsamples : samplesOf sampleFormat (requested sampleFormat first /
      frameBytes sampleFormat channels * channels) a =
        samplesOf sampleFormat (requested sampleFormat first /
          frameBytes sampleFormat channels * channels) b := by
    apply samplesOf_congr
    intro j hj
    apply hframes
    rw [Nat.mul_assoc, Nat.mul_comm channels] at hj
    exact hj
  rw [drain_cons hfirst hsize, drain_cons hfirst hsize, if_pos hread, if_pos (hlength ▸ hread),
    hsamples, hrest]

theorem drain_skips (hpos : ∀ i, 0 < maxSamples.get i) (hlength : a.length = b.length)
    (hread : asked sampleFormat maxSamples (i + 1) ≤ a.length)
    (hfits : ∀ j ≤ i, requested sampleFormat (maxSamples.get j) < 2 ^ 63)
    (hagree : ∀ j, j < asked sampleFormat maxSamples i +
        requested sampleFormat (maxSamples.get i) / frameBytes sampleFormat channels *
          frameBytes sampleFormat channels ∨ asked sampleFormat maxSamples (i + 1) ≤ j →
        a[j]? = b[j]?) (reads : ℕ) :
    drain sampleFormat channels (maxSamples.take reads) a =
      drain sampleFormat channels (maxSamples.take reads) b := by
  induction i generalizing maxSamples a b reads with
  | zero =>
    cases reads with
    | zero => rfl
    | succ reads =>
      change requested sampleFormat maxSamples.head + 0 ≤ a.length at hread
      rw [asked, asked, asked, Nat.zero_add, Nat.add_zero] at hagree
      have hbehind : a.drop (requested sampleFormat maxSamples.head) =
          b.drop (requested sampleFormat maxSamples.head) := by
        apply List.ext_getElem?
        intro j
        rw [List.getElem?_drop, List.getElem?_drop]
        exact hagree _ (.inr (Nat.le_add_right _ _))
      rw [Stream'.take_succ]
      exact drain_read_congr (hpos 0) (hfits 0 le_rfl) hlength hread
        (fun j hj => hagree j (.inl hj)) (by rw [hbehind])
  | succ i ih =>
    cases reads with
    | zero => rfl
    | succ reads =>
      rw [asked] at hread
      rw [asked, asked] at hagree
      have hwhole := Nat.div_mul_le_self (requested sampleFormat maxSamples.head)
        (frameBytes sampleFormat channels)
      have hbehind : ∀ j, 0 < maxSamples.tail.get j := fun j => hpos (j + 1)
      have hrest := ih hbehind
        (by rw [List.length_drop, List.length_drop, hlength] :
          (a.drop (requested sampleFormat maxSamples.head)).length =
            (b.drop (requested sampleFormat maxSamples.head)).length)
        (by rw [List.length_drop]; omega) (fun j hj => hfits (j + 1) (by omega)) (by
          intro j hj
          rw [List.getElem?_drop, List.getElem?_drop]
          apply hagree
          change j < asked sampleFormat maxSamples.tail i +
            requested sampleFormat (maxSamples.get (i + 1)) / frameBytes sampleFormat channels *
              frameBytes sampleFormat channels ∨ _ at hj
          omega) reads
      rw [Stream'.take_succ]
      exact drain_read_congr (hpos 0) (hfits 0 (Nat.zero_le _)) hlength (by omega)
        (fun j hj => hagree j (.inl (by omega))) hrest

theorem ofRat_injective_on {q r : ℚ} (hq : binary32.Representable q)
    (hr : binary32.Representable r) (h : binary32.ofRat q = binary32.ofRat r) : q = r := by
  rw [ofRat_of_representable hq, ofRat_of_representable hr] at h
  exact (Value.finite.inj h)

theorem representable_inverse (hk : k ≤ 149) : binary32.Representable ((2 : ℚ) ^ (-(k : ℤ))) := by
  have hpos := two_zpow_pos (-(k : ℤ))
  refine ⟨1, -k, by decide, ?_, ?_, ?_⟩
  · change (-149 : ℤ) ≤ -k
    omega
  · rw [Int.cast_one, one_mul]
  · rw [abs_of_pos hpos]
    exact zpow_lt_zpow_right₀ (by norm_num) (by change -(k : ℤ) < 24 + 104; omega)

theorem representable_zero : binary32.Representable 0 := by
  refine ⟨0, 0, by decide, by decide, by norm_num, ?_⟩
  rw [abs_zero]
  exact two_zpow_pos _

theorem decode_differs (sampleFormat : PcmSampleFormat) :
    ∃ a b : Bytes, a.length = sampleFormat.sampleBytes ∧ b.length = sampleFormat.sampleBytes ∧
      sampleFormat.decode a ≠ sampleFormat.decode b := by
  cases sampleFormat with
  | s16le =>
    refine ⟨[0, 0], [1, 0], rfl, rfl, ?_⟩
    have hsilent : PcmSampleFormat.s16le.decode [0, 0] = binary32.ofRat 0 := by
      change binary32.ofRat (((0 : ℤ) : ℚ) / 32768) = _
      norm_num
    have hloud : PcmSampleFormat.s16le.decode [1, 0] =
        binary32.ofRat ((2 : ℚ) ^ (-(15 : ℕ) : ℤ)) := by
      change binary32.ofRat (((1 : ℤ) : ℚ) / 32768) = _
      norm_num
    rw [hsilent, hloud]
    intro h
    have hequal := ofRat_injective_on representable_zero (representable_inverse (by decide)) h
    exact (two_zpow_pos _).ne hequal
  | f32le =>
    refine ⟨[0, 0, 0, 0], [0, 0, 0x80, 0x3F], rfl, rfl, ?_⟩
    have hsilent : PcmSampleFormat.f32le.decode [0, 0, 0, 0] = binary32.ofRat 0 := by
      change binary32.ofRat (((0 : ℕ) : ℚ) * 2 ^ (-149 : ℤ)) = _
      norm_num
    have hloud : PcmSampleFormat.f32le.decode [0, 0, 0x80, 0x3F] =
        binary32.ofRat ((2 : ℚ) ^ (-(0 : ℕ) : ℤ)) := by
      change binary32.ofRat ((2 ^ 23 + ((0 : ℕ) : ℚ)) * 2 ^ (((127 : ℕ) : ℤ) - 150)) = _
      norm_num
    rw [hsilent, hloud]
    intro h
    have hequal := ofRat_injective_on representable_zero (representable_inverse (by decide)) h
    exact (two_zpow_pos _).ne hequal

theorem decoded_at (hchannels : 0 < channels) {before behind : Bytes}
    (hsample : sample.length = sampleFormat.sampleBytes)
    (hbefore : before.length = k * sampleFormat.sampleBytes)
    (hframe : before.length + frameBytes sampleFormat channels ≤
      (before ++ sample ++ behind).length) :
    (decoded sampleFormat channels (before ++ sample ++ behind))[k]? =
      some (sampleFormat.decode sample) := by
  have hpos : 0 < sampleFormat.sampleBytes := sampleBytes_pos
  have hframePos : 0 < frameBytes sampleFormat channels := Nat.mul_pos hpos hchannels
  have hcount : k < (before ++ sample ++ behind).length / frameBytes sampleFormat channels *
      channels := by
    have hdiv := Nat.lt_div_mul_add (a := (before ++ sample ++ behind).length) hframePos
    have hlt : k * sampleFormat.sampleBytes <
        (before ++ sample ++ behind).length / frameBytes sampleFormat channels * channels *
          sampleFormat.sampleBytes := by
      rw [Nat.mul_assoc, Nat.mul_comm channels]
      change _ < _ * frameBytes sampleFormat channels
      omega
    exact Nat.lt_of_mul_lt_mul_right hlt
  have hdecode : sampleFormat.decode ((before ++ sample ++ behind).drop
      (k * sampleFormat.sampleBytes)) = sampleFormat.decode sample := by
    rw [← hbefore, List.append_assoc, List.drop_left]
    apply decode_congr
    intro j hj
    exact List.getElem?_append_left (by omega)
  rw [decoded, samplesOf, List.getElem?_map, List.getElem?_range hcount, Option.map_some, hdecode]

theorem sampleBytes_dvd_asked (maxSamples : Stream' ℕ) (i : ℕ) :
    sampleFormat.sampleBytes ∣ asked sampleFormat maxSamples i := by
  induction i with
  | zero => exact Nat.dvd_zero _
  | succ i ih =>
    rw [asked_succ]
    exact Nat.dvd_add ih (sampleBytes_dvd_requested _)

theorem asked_mono (maxSamples : Stream' ℕ) (h : i ≤ j) :
    asked sampleFormat maxSamples i ≤ asked sampleFormat maxSamples j := by
  have hmono : Monotone (asked sampleFormat maxSamples) := by
    apply monotone_nat_of_le_succ
    intro i
    rw [asked_succ]
    exact Nat.le_add_right _ _
  exact hmono h

def silentExcept (length before : ℕ) (sample : Bytes) : Bytes :=
  List.replicate before 0 ++ sample ++ List.replicate (length - before - sample.length) 0

theorem length_silentExcept (h : before + sample.length ≤ length) :
    (silentExcept length before sample).length = length := by
  rw [silentExcept, List.length_append, List.length_append, List.length_replicate,
    List.length_replicate]
  omega

theorem getElem?_silentExcept (hlength : a.length = b.length)
    (hj : j < before ∨ before + a.length ≤ j) :
    (silentExcept length before a)[j]? = (silentExcept length before b)[j]? := by
  have hbehind : ∀ sample : Bytes, (List.replicate before (0 : UInt8) ++ sample).length =
      before + sample.length := by
    intro sample
    rw [List.length_append, List.length_replicate]
  rw [silentExcept, silentExcept]
  obtain hj | hj := hj
  · have hbefore : j < (List.replicate before (0 : UInt8)).length := by
      rwa [List.length_replicate]
    rw [List.append_assoc, List.append_assoc, List.getElem?_append_left hbefore,
      List.getElem?_append_left hbefore]
  · rw [List.getElem?_append_right (by rw [hbehind]; exact hj),
      List.getElem?_append_right (by rw [hbehind, ← hlength]; exact hj), hbehind, hbehind, hlength]

/-- Behind the whole frames of a read that asks for a part of one, a sample at least is dropped. -/
theorem sample_dropped
    (hpart : ¬ frameBytes sampleFormat channels ∣ requested sampleFormat (maxSamples.get i)) :
    asked sampleFormat maxSamples i + requested sampleFormat (maxSamples.get i) /
      frameBytes sampleFormat channels * frameBytes sampleFormat channels +
        sampleFormat.sampleBytes ≤ asked sampleFormat maxSamples (i + 1) := by
  have hdvd : sampleFormat.sampleBytes ∣ frameBytes sampleFormat channels := Nat.dvd_mul_right _ _
  have hmod := Nat.div_add_mod (requested sampleFormat (maxSamples.get i))
    (frameBytes sampleFormat channels)
  have hrest : sampleFormat.sampleBytes ≤
      requested sampleFormat (maxSamples.get i) % frameBytes sampleFormat channels := by
    apply Nat.le_of_dvd
    · exact Nat.pos_of_ne_zero fun hzero => hpart (Nat.dvd_of_mod_eq_zero hzero)
    · exact (Nat.dvd_mod_iff hdvd).mpr (sampleBytes_dvd_requested _)
  rw [Nat.mul_comm] at hmod
  rw [asked_succ]
  omega

theorem dvd_of_delivers (hchannels : 0 < channels) (hpos : ∀ i, 0 < maxSamples.get i)
    (h : ∀ input : Bytes, input.length = length → Delivers sampleFormat channels maxSamples input)
    (hread : asked sampleFormat maxSamples (i + 1) ≤ length)
    (hframe : asked sampleFormat maxSamples i +
      requested sampleFormat (maxSamples.get i) / frameBytes sampleFormat channels *
        frameBytes sampleFormat channels + frameBytes sampleFormat channels ≤ length) :
    frameBytes sampleFormat channels ∣ requested sampleFormat (maxSamples.get i) := by
  by_contra hpart
  have hdvd : sampleFormat.sampleBytes ∣ frameBytes sampleFormat channels := Nat.dvd_mul_right _ _
  have hsample := Nat.le_of_dvd (Nat.mul_pos sampleBytes_pos hchannels) hdvd
  have hdropped := sample_dropped hpart
  generalize hstart : asked sampleFormat maxSamples i +
    requested sampleFormat (maxSamples.get i) / frameBytes sampleFormat channels *
      frameBytes sampleFormat channels = start at hframe hdropped
  obtain ⟨k, rfl⟩ : sampleFormat.sampleBytes ∣ start := by
    rw [← hstart]
    exact Nat.dvd_add (sampleBytes_dvd_asked _ _) (hdvd.mul_left _)
  rw [Nat.mul_comm sampleFormat.sampleBytes k] at hstart hframe hdropped
  -- Two streams that differ in the sample that is dropped.
  obtain ⟨a, b, ha, hb, hdiffer⟩ := decode_differs sampleFormat
  change _ ≤ frameBytes sampleFormat channels at hsample
  have hsize : ∀ sample : Bytes, sample.length = sampleFormat.sampleBytes →
      (silentExcept length (k * sampleFormat.sampleBytes) sample).length = length :=
    fun sample hlength => length_silentExcept (by omega)
  have hat : ∀ sample : Bytes, sample.length = sampleFormat.sampleBytes →
      (decoded sampleFormat channels
        (silentExcept length (k * sampleFormat.sampleBytes) sample))[k]? =
          some (sampleFormat.decode sample) := by
    intro sample hlength
    apply decoded_at hchannels hlength (List.length_replicate ..)
    change _ ≤ (silentExcept length (k * sampleFormat.sampleBytes) sample).length
    rw [hsize sample hlength, List.length_replicate]
    exact hframe
  obtain ⟨reads, hreads⟩ := h _ (hsize a ha)
  obtain ⟨others, hothers⟩ := h _ (hsize b hb)
  have hfits : ∀ j ≤ i, requested sampleFormat (maxSamples.get j) < 2 ^ 63 := by
    intro j hj
    apply (drain_done hpos hreads).2 j
    rw [hsize a ha]
    exact (asked_mono maxSamples (Nat.le_succ_of_le hj)).trans hread
  have hskip := drain_skips hpos ((hsize a ha).trans (hsize b hb).symm)
    (hread.trans (hsize a ha).ge) hfits (fun j hj => by
      rw [hstart] at hj
      exact getElem?_silentExcept (ha.trans hb.symm) (hj.imp_right (by omega))) reads
  rw [hskip] at hreads
  have hsame := drain_unique hpos hreads hothers
  have hsound := (hat a ha).symm.trans (hsame ▸ hat b hb)
  exact hdiffer (Option.some.inj hsound)

/-- The reads give the samples of every stream of a length just if they are aligned for it. -/
theorem delivers_iff_aligned (hchannels : 0 < channels) (hpos : ∀ i, 0 < maxSamples.get i) :
    (∀ input : Bytes, input.length = length →
      Delivers sampleFormat channels maxSamples input) ↔
        Aligned sampleFormat channels maxSamples length := by
  constructor
  · intro h
    obtain ⟨reads, hreads⟩ := h (List.replicate length 0) (List.length_replicate ..)
    obtain ⟨hends, hfits⟩ := drain_done hpos hreads
    rw [List.length_replicate] at hends hfits
    refine ⟨⟨reads, hends⟩, hfits, fun i hi => ?_⟩
    rw [or_iff_not_imp_right, Nat.not_lt]
    exact dvd_of_delivers hchannels hpos h hi
  · rintro h input rfl
    exact delivers_of_aligned hchannels hpos h

theorem delivers_stereo_pairs : Aligned .s16le 2 (Stream'.const 4) 10 ∧
    ∀ input : Bytes, input.length = 10 → Delivers .s16le 2 (Stream'.const 4) input := by
  have hpos : ∀ i, 0 < (Stream'.const 4).get i := fun i => Nat.zero_lt_succ 3
  have hsize : requested .s16le 4 = 8 := by decide
  have haligned : Aligned .s16le 2 (Stream'.const 4) 10 := by
    constructor
    · exact ⟨2, by decide⟩
    · intro i _
      exact hsize.trans_lt (by decide)
    · intro i _
      left
      exact ⟨2, hsize⟩
  exact ⟨haligned, (delivers_iff_aligned (by decide) hpos).mpr haligned⟩

/-- Three samples of two channels at a time: the third one is lost, and so is the fourth. -/
theorem not_delivers_stereo_triples :
    ¬ Delivers .s16le 2 (Stream'.const 3) [1, 0, 2, 0, 3, 0, 4, 0] := by
  rintro ⟨reads, hreads⟩
  have hpos : ∀ i, 0 < (Stream'.const 3).get i := fun i => Nat.zero_lt_succ 2
  have htwo : drain .s16le 2 ((Stream'.const 3).take 2) [1, 0, 2, 0, 3, 0, 4, 0] =
      .ok (some (samplesOf .s16le 2 [1, 0, 2, 0, 3, 0, 4, 0] ++ decoded .s16le 2 [4, 0])) := by
    rw [Stream'.take_succ, Stream'.take_succ]
    change drain .s16le 2 [3, 3] _ = _
    rw [drain_cons (by decide) (by decide), if_pos (by decide), drain_cons (by decide) (by decide),
      if_neg (by decide)]
    rfl
  have hsame := congrArg List.length (drain_unique hpos hreads htwo)
  rw [decoded, decoded, List.length_append, samplesOf, samplesOf, samplesOf, List.length_map,
    List.length_map, List.length_map, List.length_range, List.length_range,
    List.length_range] at hsame
  exact absurd hsame (by decide)

end Runs

end FastTts.PcmSource
