import FastTts.SpeechStream

/-!
# Tasks of the runtime

What sessions share: option texts, and audio buffers that are joined.
-/

namespace FastTts.Tasks

open SpeechStream (AudioBuffer)

variable {Sample : Type}

structure Transcript where
  text : Bytes
  language : Bytes
  deriving DecidableEq

abbrev Options := Bytes → Option Bytes

def findOptionMatchFrom (options : Options) : Option (Bytes × Bytes) → List Bytes →
    Except Exception (Option (Bytes × Bytes))
  | found, [] => .ok found
  | found, key :: keys =>
    match options key with
    | none => findOptionMatchFrom options found keys
    | some value =>
      if value = [] then findOptionMatchFrom options found keys
      else match found with
        | none => findOptionMatchFrom options (some (key, value)) keys
        | some (firstKey, firstValue) =>
          if firstValue ≠ value then
            .error (bytes "conflicting option values for " ++ firstKey ++ bytes " and " ++ key)
          else findOptionMatchFrom options found keys

/-- A key without a text is passed over; the keys of one option must not disagree. -/
def findOptionMatch (options : Options) (keys : List Bytes) :
    Except Exception (Option (Bytes × Bytes)) :=
  findOptionMatchFrom options none keys

def findOption (options : Options) (keys : List Bytes) : Except Exception (Option Bytes) := do
  return (← findOptionMatch options keys).map Prod.snd

def parseBoolOption (value key : Bytes) : Except Exception Bool :=
  if value ∈ [bytes "true", bytes "1", bytes "yes", bytes "on"] then .ok true
  else if value ∈ [bytes "false", bytes "0", bytes "no", bytes "off"] then .ok false
  else .error (key ++ bytes " must be true/false, yes/no, on/off, or 1/0")

def appendAudioBuffer (dst src : AudioBuffer Sample) : Except Exception (AudioBuffer Sample) :=
  if src.sampleRate ≤ 0 ∨ src.channels ≤ 0 then
    .error (bytes "audio append requires valid source format")
  else if dst.sampleRate = 0 then .ok { src with samples := dst.samples ++ src.samples }
  else if dst.sampleRate ≠ src.sampleRate ∨ dst.channels ≠ src.channels then
    .error (bytes "audio append requires matching audio format")
  else .ok { dst with samples := dst.samples ++ src.samples }

theorem appendAudioBuffer_samples {dst src audio : AudioBuffer Sample}
    (h : appendAudioBuffer dst src = .ok audio) : audio.samples = dst.samples ++ src.samples := by
  rw [appendAudioBuffer] at h
  split_ifs at h
  · rw [← Except.ok.inj h]
  · rw [← Except.ok.inj h]

end FastTts.Tasks
