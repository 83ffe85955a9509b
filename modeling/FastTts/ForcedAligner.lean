import FastTts.FloatRounding
import FastTts.JsonText
import FastTts.LongestChain
import FastTts.Subtitles

/-!
# Timestamps of the forced aligner

`parse_timestamps` turns the ids that the forced aligner predicts into one span for each word.
`fix_timestamp` keeps a longest choice of the times that does not fall; the runs of others are
filled from their neighbours.
-/

namespace FastTts.ForcedAligner

open FloatFormat JsonText LongestChain Subtitles

inductive Failure
  | runtimeError (message : Bytes)
  | undefined
  deriving DecidableEq, Repr

def int64 (value : ℤ) : Except Failure ℤ :=
  if -2 ^ 63 ≤ value ∧ value < 2 ^ 63 then .ok value else .error .undefined

/-- The result of an operation on `double`, and the conversion of an integer. -/
def double (value : ℚ) : ℚ := binary64.scaled value

/-- The conversion of a `double` to an integer rounds towards zero. -/
def truncated (value : ℚ) : ℤ := if 0 ≤ value then ⌊value⌋ else ⌈value⌉

/-- The nearest integer, away from zero if two are equally near. -/
def llround (value : ℚ) : Except Failure ℤ :=
  int64 (if 0 ≤ value then ⌊value + 1 / 2⌋ else ⌈value - 1 / 2⌉)

/-! ## `fix_timestamp` -/

def valueAt (data : List ℤ) (i : ℕ) : ℤ := data.getD i 0

def normalIndices (data : List ℤ) : List ℕ := longest (valueAt data) data.length

/-- The `double` at a position of a run of anomalies behind `left`. -/
def between (left gap : ℤ) (anomalyCount position : ℕ) : ℚ :=
  let step := double (double gap / double ((anomalyCount + 1 : ℕ) : ℚ))
  double (double left + double (step * double (position : ℚ)))

def interpolated (left right : ℤ) (anomalyCount position : ℕ) : Except Failure ℤ := do
  let gap ← int64 (right - left)
  int64 (truncated (between left gap anomalyCount position))

/-- What becomes of index `k` of the run of anomalies from `i` to `j`. -/
def repaired (left right : Option ℤ) (own : ℤ) (i j k : ℕ) : Except Failure ℤ :=
  if j - i ≤ 2 then
    match left, right with
    | none, none => .ok own
    | none, some right => .ok right
    | some left, none => .ok left
    | some left, some right => .ok (if k - (i - 1) ≤ j - k then left else right)
  else
    match left, right with
    | some left, some right => interpolated left right (j - i) (k - i + 1)
    | some left, none => .ok left
    | none, some right => .ok right
    | none, none => .ok own

section Loop

variable (data : List ℤ) (normal : List ℕ)

def runEnd (i : ℕ) : ℕ :=
  i + ((List.range' i (data.length - i)).takeWhile fun k => k ∉ normal).length

/-- The nearest index that is left as it is, in front of a run. -/
def leftOf (i : ℕ) : Option ℕ := (List.range i).reverse.find? (· ∈ normal)

def rightOf (j : ℕ) : Option ℕ := (List.range' j (data.length - j)).find? (· ∈ normal)

/-- The loop of `fix_timestamp`: the times in front of index `i` are repaired. -/
def fixFrom : ℕ → List ℤ → Except Failure (List ℤ)
  | 0, result => .ok result
  | fuel + 1, result =>
    let i := result.length
    if data.length ≤ i then .ok result
    else if i ∈ normal then fixFrom fuel (result ++ [valueAt data i])
    else do
      let j := runEnd data normal i
      let run ← (List.range' i (j - i)).mapM fun k =>
        repaired ((leftOf normal i).map (valueAt result))
          ((rightOf data normal j).map (valueAt data)) (valueAt data k) i j k
      fixFrom fuel (result ++ run)

end Loop

def fixTimestamp (data : List ℤ) : Except Failure (List ℤ) :=
  fixFrom data (normalIndices data) data.length []

/-! ## `parse_timestamps` -/

/-- The sample at a time in milliseconds. -/
def samplePosition (ms sampleRate : ℤ) : Except Failure ℤ :=
  llround (double (double (double ms * sampleRate) / 1000))

def timestampMs (segmentMs id : ℤ) : Except Failure ℤ :=
  if id < 0 then
    .error (.runtimeError (bytes "Qwen3 forced aligner produced negative timestamp id"))
  else int64 (id * segmentMs)

/-- The word at an index, with the times at twice the index and behind it. -/
def wordSpan (sampleRate : ℤ) (times : List ℤ) (entry : Bytes × ℕ) :
    Except Failure WordTimestamp := do
  let start ← samplePosition (valueAt times (entry.2 * 2)) sampleRate
  let stop ← samplePosition (valueAt times (entry.2 * 2 + 1)) sampleRate
  return ⟨⟨start, stop⟩, entry.1⟩

/-- The end of a span that has no length; the next word may start before a minimal span is over. -/
def repairedStop (start minEnd : ℤ) : List WordTimestamp → ℤ
  | [] => minEnd
  | next :: _ => if start < next.span.start then min minEnd next.span.start else minEnd

def spanStop (minSpanSamples start stop : ℤ) (rest : List WordTimestamp) : Except Failure ℤ :=
  if stop ≤ start then do
    let minEnd ← int64 (start + minSpanSamples)
    return repairedStop start minEnd rest
  else .ok stop

def repairSpans (minSpanSamples : ℤ) :
    ℤ → List WordTimestamp → Except Failure (List WordTimestamp)
  | _, [] => .ok []
  | previousEnd, timestamp :: rest => do
    let start := max timestamp.span.start previousEnd
    let stop ← spanStop minSpanSamples start timestamp.span.stop rest
    let spans ← repairSpans minSpanSamples stop rest
    return (⟨⟨start, stop⟩, timestamp.word⟩ :: spans)

def parseTimestamps (segmentMs : ℤ) (words : List Bytes) (ids : List ℤ) (sampleRate : ℤ) :
    Except Failure (List WordTimestamp) :=
  if ids.length ≠ words.length * 2 then
    .error (.runtimeError (bytes "Qwen3 forced aligner timestamp prediction count mismatch"))
  else if segmentMs ≤ 0 then
    .error (.runtimeError (bytes "Qwen3 forced aligner model is missing timestamp_segment_time"))
  else if sampleRate ≤ 0 then
    .error (.runtimeError (bytes "Qwen3 forced aligner sample_rate must be positive"))
  else do
    let times ← ids.mapM (timestampMs segmentMs)
    let times ← fixTimestamp times
    let out ← words.zipIdx.mapM (wordSpan sampleRate times)
    let minimal ← samplePosition segmentMs sampleRate
    repairSpans (max 1 minimal) 0 out

end FastTts.ForcedAligner
