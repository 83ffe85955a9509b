import FastTts.ChatHygiene
import FastTts.Runs
import FastTts.Segmenter
import Mathlib.Algebra.Order.Ring.Unbundled.Rat

/-!
# One reply from a speculation

A speculation that a send has attached to is worked on by several threads. Its worker cleans and
segments the deltas of the language model into the shared buffer; up to two threads of
`synthesize_first` speak its first sentence; the replay thread of `chat_orchestrate` follows the
buffer and pushes chat events; the writer thread takes the events and writes the audio. One step is
one region of `speculation->mutex` or `queue_mutex`, one access to an abort flag, or one chunk
written. What the network, the synthesizer and the client do is an input of the step. `history`
records what no thread reads.
-/

namespace FastTts.Reply

open Hygiene

/-- The comparisons of `float`, which are all false on NaN. -/
class FloatOrder (F : Type) where
  lit : ℚ → F
  le : F → F → Bool
  lt : F → F → Bool
  lt_of_le_of_lt : ∀ {a b c}, le a b = true → lt b c = true → lt a c = true
  lt_asymm : ∀ {a b}, lt a b = true → lt b a = false

export FloatOrder (lit le lt)

instance : FloatOrder ℚ where
  lit q := q
  le a b := decide (a ≤ b)
  lt a b := decide (a < b)
  lt_of_le_of_lt := by
    intro a b c hab hbc
    exact decide_eq_true (lt_of_le_of_lt (of_decide_eq_true hab) (of_decide_eq_true hbc))
  lt_asymm := by
    intro a b hab
    exact decide_eq_false (lt_asymm (of_decide_eq_true hab))

/-! ## Spoken text -/

def utf8Codepoints (text : Bytes) : ℕ := text.countP fun ch => ch &&& 0xC0 != 0x80

/-- The words of a name that are worth respelling. -/
def nameTokens (name : Bytes) : List Bytes :=
  (name.splitOnP isSpace).filter fun token => decide (3 ≤ token.length) && token.all isAlpha

def isWordChar (ch : UInt8) : Bool := isAlnum ch || ch == 0x27

/-- Respells the whole-word occurrences of `token`; `previous` is the byte before the text. -/
def respell (token : Bytes) : ℕ → Option UInt8 → Bytes → Bytes
  | 0, _, text => text
  | _, _, [] => []
  | fuel + 1, previous, ch :: rest =>
    let text := ch :: rest
    if token.length ≤ text.length ∧ (text.take token.length).map toLower = token.map toLower ∧
        previous.any isWordChar = false ∧ (text[token.length]?).any isWordChar = false then
      token ++ respell token fuel token.getLast? (text.drop token.length)
    else ch :: respell token fuel (some ch) rest

def speakNameAsWritten (text name : Bytes) : Bytes :=
  (nameTokens name).foldl (fun text token => respell token text.length none text) text

/-- What is spoken of a sentence under a character's name. -/
def spokenOf (sentence name : Bytes) : Bytes := speakNameAsWritten (stripSpeechMarkup sentence) name

/-! ## The shared state -/

structure ChatResult where
  ok : Bool
  error : Bytes
  finishReason : Bytes
  deriving DecidableEq, Repr

structure ReplyBuffer where
  text : Bytes
  sentences : List Bytes
  rest : Bytes
  llmDone : Bool
  result : ChatResult
  deriving DecidableEq, Repr

inductive AudioState
  | none
  | running
  | done
  | failed
  deriving DecidableEq, Repr

structure FirstAudio where
  state : AudioState
  chunks : List Bytes
  deriving DecidableEq, Repr

structure ChatSpeculation where
  abort : Bool
  reply : ReplyBuffer
  audio : FirstAudio
  deriving DecidableEq, Repr

inductive ChatEvent
  | token (text : Bytes)
  | sentence (text : Bytes)
  | llmDone (result : ChatResult)
  deriving DecidableEq, Repr

/-- Where the worker stands: before `llm_spec_stream_mutex_`, between two deltas, at the early
trigger of an `emit`, before a callback returns, and through the end of the stream. `result` is
there once the stream has ended. -/
inductive WorkerPc
  | queued
  | streaming
  | trigger (result : Option ChatResult)
  | answering
  | flushing (result : ChatResult)
  | settling (result : ChatResult)
  | settled (ok : Bool) (first : Bytes)
  | exited
  deriving DecidableEq, Repr

structure Worker where
  pc : WorkerPc
  scrubber : StreamScrubber
  segmenter : SentenceSegmenter
  earlyTtsStarted : Bool
  deriving DecidableEq

inductive Synth
  | settling (sentence : Bytes)
  | claiming (sentence : Bytes)
  | running
  | ended
  deriving DecidableEq, Repr

inductive ReplayPc
  | looping (textPos sentencePos : ℕ)
  | polling (textPos sentencePos : ℕ)
  | pushing (textPos sentencePos : ℕ) (events : List ChatEvent) (finished : Option (Bytes × Bytes))
  | finishing (finish : Bytes)
  | lastPush (event : ChatEvent)
  | ended
  | leaving
  | gaveUp
  deriving DecidableEq, Repr

/-- What `synthesize` holds of one take; `out` is cleared but not written yet. -/
structure Attempt (F : Type) where
  out : List Bytes
  held : List Bytes
  heldSamples : List F
  heldRate : ℤ
  voiceCleared : Bool
  deriving DecidableEq

/-- A first take that did not sound like the character, and how much it did. -/
structure WrongTake (F : Type) where
  held : List Bytes
  likeThem : F
  deriving DecidableEq

/-- The syntheses that a sentence may be heard from. -/
inductive Take
  | speculative
  | first
  | retake
  deriving DecidableEq, Repr

inductive WriterPc (F : Type)
  | waiting
  | deciding (spoken : Bytes)
  | following (spoken : Bytes) (chunkPos : ℕ)
  | relaying (spoken : Bytes) (chunkPos : ℕ) (chunks : List Bytes) (finished : Bool)
  | checking (spoken : Bytes)
  | synthesizing (verifyVoice : Bool) (wrong : Option (WrongTake F)) (attempt : Attempt F)
  | emitting (take : Take) (held : List Bytes)
  | ended
  | failed
  deriving DecidableEq

/-- A spoken sentence: the chunks of the writer's own takes, and what was written. -/
structure Heard where
  sentence : Bytes
  first : List Bytes
  retake : List Bytes
  written : List (Take × Bytes)
  complete : Bool
  deriving DecidableEq, Repr

structure Writer (F : Type) where
  pc : WriterPc F
  llmFinished : Bool
  replyText : Bytes
  heard : List Heard
  deriving DecidableEq

/-- The deltas of the stream, the events pushed so far, the chunks of the speculative take, and the
sentence it speaks. -/
structure History where
  deltas : List Bytes
  pushed : List ChatEvent
  specTake : List Bytes
  specSentence : Option Bytes
  deriving DecidableEq

structure State (F : Type) where
  spec : ChatSpeculation
  worker : Worker
  synths : List Synth
  replay : ReplayPc
  queue : List ChatEvent
  abort : Bool
  writer : Writer F
  history : History
  deriving DecidableEq

/-- `similarity` compares the profile of samples with the character's reference recording. -/
structure Params (F : Type) where
  earlyTts : Bool
  hasReference : Bool
  similarity : List F → ℤ → F

variable {F : Type}

def speculationOptions : SegmenterOptions := ⟨40, 64, 300, longest_pos⟩

def initial : State F where
  spec := ⟨false, ⟨[], [], [], false, ⟨false, [], []⟩⟩, ⟨.none, []⟩⟩
  worker := ⟨.queued, .new, .new speculationOptions, false⟩
  synths := []
  replay := .looping 0 0
  queue := []
  abort := false
  writer := ⟨.waiting, false, [], []⟩
  history := ⟨[], [], [], none⟩

/-! ## The worker -/

variable (s : State F)

def State.setWorker (pc : WorkerPc) : State F :=
  { s with worker := { s.worker with pc := pc } }

def State.receive (s : State F) (text : Bytes) : State F :=
  { s with history.deltas := s.history.deltas ++ [text] }

/-- `emit` of clean text; `after` is where it returns to. -/
def emit (scrubbed : Bytes × StreamScrubber) (result : Option ChatResult)
    (after : WorkerPc) : State F :=
  let worker := { s.worker with scrubber := scrubbed.2 }
  if scrubbed.1.isEmpty then { s with worker := { worker with pc := after } }
  else
    let (sentences, segmenter) := worker.segmenter.feed scrubbed.1
    { s with
      worker := { worker with segmenter := segmenter, pc := .trigger result }
      spec.reply.text := s.spec.reply.text ++ scrubbed.1
      spec.reply.sentences := s.spec.reply.sentences ++ sentences }

def afterTrigger : Option ChatResult → WorkerPc
  | none => .answering
  | some result => .settling result

variable (p : Params F)

/-- The first sentence starts to be spoken as soon as it is there. -/
def earlyTrigger (s : State F) (result : Option ChatResult) : State F :=
  match s.spec.reply.sentences with
  | first :: _ =>
    if p.earlyTts && !s.worker.earlyTtsStarted && !first.isEmpty then
      { s with
        worker := { s.worker with pc := afterTrigger result, earlyTtsStarted := true }
        synths := s.synths ++ [.settling first] }
    else s.setWorker (afterTrigger result)
  | [] => s.setWorker (afterTrigger result)

def settle (result : ChatResult) : State F :=
  let (rest, segmenter) := s.worker.segmenter.flush
  { s with
    worker := { s.worker with
      segmenter := segmenter
      pc := .settled result.ok (s.spec.reply.sentences.head?.getD rest) }
    spec.reply := { s.spec.reply with rest := rest, llmDone := true, result := result } }

/-- What the network brings the worker: a delta, or the end of the stream. -/
inductive WorkerInput
  | go
  | delta (text : Bytes)
  | streamEnds (result : ChatResult)
  deriving DecidableEq, Repr

def workerStep (s : State F) (input : WorkerInput) : Option (State F) :=
  match s.worker.pc, input with
  | .queued, .go => some (s.setWorker (if s.spec.abort then .exited else .streaming))
  | .streaming, .delta text =>
    some (emit (s.receive text) (s.worker.scrubber.feed text) none .answering)
  | .streaming, .streamEnds result => some (s.setWorker (.flushing result))
  | .trigger result, .go => some (earlyTrigger p s result)
  | .answering, .go => if s.spec.abort then none else some (s.setWorker .streaming)
  -- The callback has stopped the stream.
  | .answering, .streamEnds result =>
    if s.spec.abort then some (s.setWorker (.flushing result)) else none
  | .flushing result, .go => some (emit s s.worker.scrubber.flush (some result) (.settling result))
  | .settling result, .go => some (settle s result)
  | .settled ok first, .go =>
    if !ok || s.spec.abort then some (s.setWorker .exited)
    else some { s.setWorker .exited with synths := s.synths ++ [.settling first] }
  | _, _ => none

/-! ## The speculative synthesis -/

inductive SynthInput
  | go (name : Bytes)
  | chunk (pcm : Bytes)
  | finishes
  | fails
  deriving DecidableEq, Repr

def State.setSynth (k : ℕ) (synth : Synth) : State F :=
  { s with synths := s.synths.set k synth }

def synthStep (k : ℕ) (input : SynthInput) : Option (State F) :=
  match s.synths[k]?, input with
  | some (.settling sentence), .go name =>
    if s.spec.abort || (spokenOf sentence name).isEmpty then some (s.setSynth k .ended)
    else some (s.setSynth k (.claiming sentence))
  | some (.claiming sentence), .go _ =>
    if s.spec.audio.state = .none then
      some { s.setSynth k .running with
        spec.audio.state := .running, history.specSentence := some sentence }
    else some (s.setSynth k .ended)
  | some .running, .chunk pcm =>
    if pcm.isEmpty then some s
    else some { s with
      spec.audio.chunks := s.spec.audio.chunks ++ [pcm]
      history.specTake := s.history.specTake ++ [pcm] }
  | some .running, .finishes => some { s.setSynth k .ended with spec.audio.state := .done }
  | some .running, .fails => some { s.setSynth k .ended with spec.audio := ⟨.failed, []⟩ }
  | _, _ => none

/-! ## The replay thread -/

def push (event : ChatEvent) (pc : ReplayPc) : State F :=
  { s with
    queue := s.queue ++ [event]
    history.pushed := s.history.pushed ++ [event]
    replay := pc }

/-- The last piece is left out if the token ceiling cut it off in the middle. -/
def speaksRest (finish rest : Bytes) : Bool :=
  !rest.isEmpty &&
    !(decide (finish = bytes "length") && !endsWithSentenceTerminal (stripSpeechMarkup rest))

def lastPiece (finish rest : Bytes) : List Bytes := if speaksRest finish rest then [rest] else []

def tokenEvents (text : Bytes) : List ChatEvent := if text.isEmpty then [] else [.token text]

/-- One region of the replay loop: what is new, and whether that is all. -/
def poll (reply : ReplyBuffer) (textPos sentencePos : ℕ) : ReplayPc :=
  let newText := if textPos < reply.text.length then reply.text.drop textPos else []
  let textPos := if textPos < reply.text.length then reply.text.length else textPos
  let newSentences := reply.sentences.drop sentencePos
  let sentencePos := reply.sentences.length
  .pushing textPos sentencePos (tokenEvents newText ++ newSentences.map .sentence)
    (if reply.llmDone ∧ textPos = reply.text.length then
      some (reply.result.finishReason, reply.rest) else none)

def replayStep : Option (State F) :=
  match s.replay with
  | .looping textPos sentencePos =>
    some { s with replay := if s.abort then .leaving else .polling textPos sentencePos }
  | .polling textPos sentencePos =>
    some { s with replay := poll s.spec.reply textPos sentencePos }
  | .pushing textPos sentencePos (event :: events) finished =>
    some (push s event (.pushing textPos sentencePos events finished))
  | .pushing textPos sentencePos [] none => some { s with replay := .looping textPos sentencePos }
  | .pushing _ _ [] (some (finish, rest)) =>
    if speaksRest finish rest then some (push s (.sentence rest) (.finishing finish))
    else some { s with replay := .finishing finish }
  | .finishing finish =>
    let result := s.spec.reply.result
    some { s with replay := .lastPush (.llmDone ⟨result.ok, result.error, finish⟩) }
  | .lastPush event => some (push s event .ended)
  | .leaving => some { s with replay := .gaveUp, spec.abort := true }
  | .ended | .gaveUp => none

/-! ## The writer thread -/

/-- What the writer meets: its own progress, with the character's name at the time; a chunk of its
own synthesis, or the end of it; a token written from inside the sink; and the two ways in which
the stream breaks off. -/
inductive WriterInput (F : Type)
  | go (name : Bytes)
  | audio (samples : List F) (rate : ℤ) (pcm : Bytes)
  | audioEnds
  | drainToken
  | disconnects
  | synthesisFails
  deriving DecidableEq

def State.setWriter (pc : WriterPc F) : State F :=
  { s with writer := { s.writer with pc := pc } }

/-- Changes the record of the sentence being spoken. -/
def onLast (f : Heard → Heard) : List Heard → List Heard
  | [] => []
  | [heard] => [f heard]
  | heard :: rest => heard :: onLast f rest

def State.hear (f : Heard → Heard) : State F :=
  { s with writer := { s.writer with heard := onLast f s.writer.heard } }

def State.write (take : Take) (pcm : Bytes) : State F :=
  s.hear fun heard => { heard with written := heard.written ++ [(take, pcm)] }

def State.endSentence : State F :=
  (s.hear fun heard => { heard with complete := true }).setWriter .waiting

def Attempt.fresh (rate : ℤ) : Attempt F := ⟨[], [], [], rate, false⟩

/-- The sentence is synthesized here. -/
def startSynthesis (s : State F) (spoken : Bytes) : State F :=
  s.setWriter (.synthesizing (decide (utf8Codepoints spoken ≤ 48) && p.hasReference) none
    (.fresh 24000))

/-- A sentence event: the first spoken one may have its audio already. -/
def speak (s : State F) (sentence spoken : Bytes) : State F :=
  let heard := s.writer.heard ++ [⟨sentence, [], [], [], false⟩]
  let t := { s with writer := { s.writer with heard := heard } }
  if s.writer.heard.isEmpty then t.setWriter (.deciding spoken) else startSynthesis p t spoken

/-- One turn of the writer's loop with the event at the head of the queue. -/
def handleEvent (s : State F) (event : ChatEvent) (name : Bytes) : State F :=
  match event with
  | .token text => { s with writer := { s.writer with replyText := s.writer.replyText ++ text } }
  | .sentence text =>
    if (spokenOf text name).isEmpty then s else speak p s text (spokenOf text name)
  | .llmDone _ => { s with writer := { s.writer with llmFinished := true } }

section Voice

variable [FloatOrder F]

def voiceIdentityFloor : F := lit (4 / 5)

/-- One chunk in the sink of `synthesize`. Until the opening is cleared a short line is held. -/
def Attempt.hear (p : Params F) (verifyVoice : Bool) (a : Attempt F) (samples : List F) (rate : ℤ)
    (pcm : Bytes) : Attempt F :=
  if verifyVoice && !a.voiceCleared then
    let held := a.held ++ [pcm]
    let heldSamples := a.heldSamples ++ samples
    let heldRate := if 0 < rate then rate else a.heldRate
    if heldRate * 55 / 100 ≤ heldSamples.length ∧
        le voiceIdentityFloor (p.similarity heldSamples heldRate) = true then
      ⟨held, [], heldSamples, heldRate, true⟩
    else ⟨[], held, heldSamples, heldRate, false⟩
  else { a with out := [pcm] }

/-- `synthesize` has returned. A first take that misses the character is made once more, and the
better of the two is kept. -/
def endAttempt (p : Params F) (s : State F) (verifyVoice : Bool) (wrong : Option (WrongTake F))
    (a : Attempt F) : State F :=
  let likeThem := p.similarity a.heldSamples a.heldRate
  match wrong with
  | some wrong =>
    if lt likeThem wrong.likeThem then s.setWriter (.emitting .first wrong.held)
    else s.setWriter (.emitting .retake a.held)
  | none =>
    if verifyVoice && !a.voiceCleared then
      if le (lit 0) likeThem && lt likeThem voiceIdentityFloor then
        s.setWriter (.synthesizing verifyVoice (some ⟨a.held, likeThem⟩) (.fresh a.heldRate))
      else s.setWriter (.emitting .first a.held)
    else s.endSentence

/-- The take that the writer's own synthesis is making. -/
def currentTake (wrong : Option (WrongTake F)) : Take := if wrong.isSome then .retake else .first

def Heard.record (take : Take) (pcm : Bytes) (heard : Heard) : Heard :=
  if take = .retake then { heard with retake := heard.retake ++ [pcm] }
  else { heard with first := heard.first ++ [pcm] }

def writerGo (p : Params F) (s : State F) (name : Bytes) : Option (State F) :=
  match s.writer.pc with
  | .waiting => match s.queue with
    | event :: queue => some (handleEvent p { s with queue := queue } event name)
    | [] => if s.writer.llmFinished then some { s.setWriter .ended with abort := true } else none
  | .deciding spoken => match s.spec.audio.state with
    -- The slot is claimed, so that no early trigger synthesizes the sentence once more.
    | .none => some (startSynthesis p { s with spec.audio.state := .failed } spoken)
    | .failed => some (startSynthesis p s spoken)
    | .running | .done => some (s.setWriter (.following spoken 0))
  | .following spoken chunkPos =>
    let chunks := s.spec.audio.chunks
    some (s.setWriter (.relaying spoken chunks.length
      (if s.spec.audio.state = .failed then [] else chunks.drop chunkPos)
      (decide (s.spec.audio.state ≠ .running))))
  | .relaying spoken chunkPos (pcm :: chunks) finished =>
    some ((s.write .speculative pcm).setWriter (.relaying spoken chunkPos chunks finished))
  | .relaying spoken chunkPos [] finished =>
    some (s.setWriter (if finished then .checking spoken else .following spoken chunkPos))
  | .checking spoken =>
    if s.spec.audio.chunks ≠ [] ∧ s.spec.audio.state = .done then some s.endSentence
    else some (startSynthesis p s spoken)
  | .synthesizing verifyVoice wrong a => match a.out with
    | pcm :: out => some ((s.write (currentTake wrong) pcm).setWriter
        (.synthesizing verifyVoice wrong { a with out := out }))
    | [] => none
  | .emitting take (pcm :: held) => some ((s.write take pcm).setWriter (.emitting take held))
  | .emitting _ [] => some s.endSentence
  | .ended | .failed => none

/-- The places from which `drain_tokens` is called. -/
def WriterPc.drains : WriterPc F → Bool
  | .relaying _ _ _ _ | .synthesizing _ _ _ | .emitting _ _ => true
  | _ => false

def drainToken (s : State F) : Option (State F) :=
  match s.queue with
  | .token text :: queue =>
    some { s with
      queue := queue
      writer := { s.writer with replyText := s.writer.replyText ++ text } }
  | _ => none

def breakOff (s : State F) : State F := { s.setWriter .failed with abort := true }

def writerStep (p : Params F) (s : State F) (input : WriterInput F) : Option (State F) :=
  match input with
  | .go name => writerGo p s name
  | .audio samples rate pcm => match s.writer.pc with
    | .synthesizing verifyVoice wrong a =>
      if a.out ≠ [] then none
      else if pcm.isEmpty then some s
      else some ((s.hear (Heard.record (currentTake wrong) pcm)).setWriter
        (.synthesizing verifyVoice wrong (a.hear p verifyVoice samples rate pcm)))
    | _ => none
  | .audioEnds => match s.writer.pc with
    | .synthesizing verifyVoice wrong a =>
      if a.out ≠ [] then none else some (endAttempt p s verifyVoice wrong a)
    | _ => none
  | .drainToken => if s.writer.pc.drains then drainToken s else none
  | .disconnects => match s.writer.pc with
    | .ended | .failed => none
    | _ => some (breakOff s)
  | .synthesisFails => match s.writer.pc with
    | .synthesizing _ _ _ => some (breakOff s)
    | _ => none

inductive Action (F : Type)
  | worker (input : WorkerInput)
  | synth (k : ℕ) (input : SynthInput)
  | replay
  | writer (input : WriterInput F)
  deriving DecidableEq

def step (p : Params F) (s : State F) : Action F → Option (State F)
  | .worker input => workerStep p s input
  | .synth k input => synthStep s k input
  | .replay => replayStep s
  | .writer input => writerStep p s input

end Voice

/-! ## The live path -/

/-- `emit` of the reader thread that serves a send without a speculation. -/
def liveEmit (clean : Bytes) (segmenter : SentenceSegmenter) : List ChatEvent × SentenceSegmenter :=
  if clean.isEmpty then ([], segmenter)
  else (.token clean :: (segmenter.feed clean).1.map .sentence, (segmenter.feed clean).2)

def liveDeltas (scrubber : StreamScrubber) (segmenter : SentenceSegmenter) :
    List Bytes → List ChatEvent × StreamScrubber × SentenceSegmenter
  | [] => ([], scrubber, segmenter)
  | delta :: deltas =>
    let clean := scrubber.feed delta
    let events := liveEmit clean.1 segmenter
    let next := liveDeltas clean.2 events.2 deltas
    (events.1 ++ next.1, next.2)

/-- The events of a generation with the given deltas and result. -/
def livePath (options : SegmenterOptions) (deltas : List Bytes) (result : ChatResult) :
    List ChatEvent :=
  let streamed := liveDeltas .new (.new options) deltas
  let flushed := liveEmit streamed.2.1.flush.1 streamed.2.2
  let rest := flushed.2.flush.1
  streamed.1 ++ flushed.1 ++ (lastPiece result.finishReason rest).map .sentence ++ [.llmDone result]

end FastTts.Reply
