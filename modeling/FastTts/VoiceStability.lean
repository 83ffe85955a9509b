import FastTts.Bytes

/-!
# Stable-prefix tracking

Consecutive hypotheses of the streaming recogniser revise each other. The tracker keeps the last
`stable_hypothesis_count` tokenized hypotheses and commits the longest token prefix they share;
the committed prefix is shown in the raw spelling of the newest hypothesis.
-/

namespace FastTts.Voice

structure StabilityParams where
  stableHypothesisCount : ℤ := 2
  minStableChars : ℤ := 2
  deriving DecidableEq, Repr

structure Token where
  normalized : Bytes
  /-- Byte offset past this token in the raw text. -/
  rawEnd : ℕ
  deriving DecidableEq, Repr

def isCjkLead (byte : UInt8) : Bool := 0xE3 ≤ byte && byte ≤ 0xE9

/-- The length that a UTF-8 lead byte announces. -/
def sequenceLength (byte : UInt8) : ℕ :=
  if byte &&& 0xF8 == 0xF0 then 4
  else if byte &&& 0xF0 == 0xE0 then 3
  else if byte &&& 0xE0 == 0xC0 then 2
  else 1

def flushToken (tokens : List Token) (current : Bytes) (rawEnd : ℕ) : List Token :=
  if current = [] then tokens else tokens ++ [⟨current, rawEnd⟩]

/-- The scan of `tokenize` at byte offset `i`, where `rest` is the unread text. Every round reads
at least one byte, so the length of the text is fuel enough. -/
def tokenizeFrom : ℕ → ℕ → Bytes → Bytes → List Token → List Token
  | 0, i, _, current, tokens => flushToken tokens current i
  | _, i, [], current, tokens => flushToken tokens current i
  | fuel + 1, i, byte :: rest, current, tokens =>
    if byte < 0x80 then
      if isSpace byte then tokenizeFrom fuel (i + 1) rest [] (flushToken tokens current i)
      else
        let word := if isAlnum byte || byte == 0x27 then current ++ [toLower byte] else current
        match rest with
        | [] => tokenizeFrom fuel (i + 1) rest [] (flushToken tokens word (i + 1))
        | next :: _ =>
          if isSpace next then tokenizeFrom fuel (i + 1) rest [] (flushToken tokens word (i + 1))
          else tokenizeFrom fuel (i + 1) rest word tokens
    else
      let chunk := (byte :: rest).take (sequenceLength byte)
      let after := (byte :: rest).drop (sequenceLength byte)
      let next := i + chunk.length
      if sequenceLength byte = 3 ∧ isCjkLead byte then
        let flushed := flushToken tokens current i
        -- The CJK symbol and punctuation block lives at 0xE3 0x80.
        if byte == 0xE3 && chunk.getD 1 0 == 0x80 then tokenizeFrom fuel next after [] flushed
        else tokenizeFrom fuel next after [] (flushed ++ [⟨chunk, next⟩])
      else if sequenceLength byte = 3 ∧ byte = 0xEF then
        tokenizeFrom fuel next after [] (flushToken tokens current i)
      else if after = [] then
        tokenizeFrom fuel next after [] (flushToken tokens (current ++ chunk) next)
      else tokenizeFrom fuel next after (current ++ chunk) tokens

def tokenize (text : Bytes) : List Token := tokenizeFrom text.length 0 text [] []

structure StableTracker where
  params : StabilityParams
  history : List (List Token) := []
  committedTokens : ℕ := 0
  stable : Bytes := []
  tentative : Bytes := []
  hypothesis : Bytes := []
  deriving Repr

namespace StableTracker

def new (params : StabilityParams) : StableTracker :=
  { params := if params.stableHypothesisCount < 1 then { params with stableHypothesisCount := 1 }
              else params }

variable (t : StableTracker)

def reset : StableTracker := { params := t.params }

/-- The number of leading tokens that every retained hypothesis agrees on. -/
def commonTokens (history : List (List Token)) : ℕ :=
  let front := history.headD []
  let limit := history.foldl (fun limit h => min limit h.length) front.length
  ((List.range limit).takeWhile fun k => history.all fun h =>
    (h[k]?).map Token.normalized == (front[k]?).map Token.normalized).length

/-- The tracker after a new hypothesis, and whether the committed prefix grew. -/
def update (hypothesis : Bytes) : StableTracker × Bool :=
  let tokens := tokenize hypothesis
  let count := toSize t.params.stableHypothesisCount
  let pushed := t.history ++ [tokens]
  let history := pushed.drop (pushed.length - count)
  let agreed := if history.length = count then max t.committedTokens (commonTokens history)
    else t.committedTokens
  let grew := decide (t.committedTokens < agreed)
  let t := { t with hypothesis := hypothesis, history := history, committedTokens := agreed }
  let rawEnd := ((tokens[agreed - 1]?).map Token.rawEnd).getD 0
  if 0 < agreed ∧ agreed ≤ tokens.length ∧ toSize t.params.minStableChars ≤ rawEnd then
    ({ t with
        stable := hypothesis.take rawEnd
        tentative := (hypothesis.drop rawEnd).dropWhile (· == 0x20) }, grew)
  else if t.stable = [] then ({ t with tentative := hypothesis }, false)
  else (t, false)

@[simp] theorem update_params (hypothesis : Bytes) :
    (t.update hypothesis).1.params = t.params := by
  unfold update
  dsimp only
  split_ifs <;> rfl

def feed (hypotheses : List Bytes) : StableTracker :=
  hypotheses.foldl (fun t h => (t.update h).1) t

theorem feed_params (hypotheses : List Bytes) : (t.feed hypotheses).params = t.params := by
  induction hypotheses generalizing t with
  | nil => rfl
  | cons h hs ih => exact (ih _).trans (update_params t h)

theorem reset_feed_new (params : StabilityParams) (hypotheses : List Bytes) :
    ((new params).feed hypotheses).reset = new params := by
  unfold reset
  rw [feed_params]
  rfl

example : (((new {}).update (bytes "turn on the light")).1.update
    (bytes "Turn on the lights, now")).1.stable = bytes "Turn on the" := by
  decide

end StableTracker

end FastTts.Voice
