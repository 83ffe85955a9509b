import FastTts.Character
import FastTts.ChatHygiene
import FastTts.Segmenter

/-!
# The chat request

`handle_chat_speak` reads a request, renders it with the character and the settings of the moment
to the body for the language model, and decides whether it is a speculation, a prewarm or a send.
What a body is matched by later is its `speculation_key`. The JSON text of a body is left out: a
body is the record of its fields.
-/

namespace FastTts.Speak

open Hygiene

inductive Role
  | system
  | user
  | assistant
  deriving DecidableEq, Repr

def Role.name : Role → Bytes
  | .system => bytes "system"
  | .user => bytes "user"
  | .assistant => bytes "assistant"

def Role.ofName (name : Bytes) : Option Role :=
  [Role.system, .user, .assistant].find? fun role => decide (role.name = name)

structure ChatMessage where
  role : Role
  content : Bytes
  deriving DecidableEq, Repr

/-! ## The speculation key -/

/-- Trailing whitespace and sentence-final punctuation, ASCII and CJK. -/
def terminalTails : List Bytes :=
  [bytes " ", bytes "\t", bytes "\n", bytes ".", bytes "!", bytes "?", bytes "~", bytes "…",
    bytes "。", bytes "！", bytes "？", bytes "～"]

def stripTailLoop : ℕ → Bytes → Bytes
  | 0, text => text
  | fuel + 1, text =>
    match terminalTails.find? fun tail => tail.isSuffixOf text with
    | some tail => stripTailLoop fuel (text.take (text.length - tail.length))
    | none => text

/-- Each turn takes a byte at least, so the length of the text is enough fuel. -/
def stripTerminalTail (text : Bytes) : Bytes := stripTailLoop text.length text

/-- The index of the newest user message, or the length of the list. -/
def lastUserIndex (roles : List Role) : ℕ :=
  (findLast (fun i => decide (roles[i]? = some .user)) roles.length).getD roles.length

variable (messages : List ChatMessage)

/-- What the key says of a conversation. -/
def keyMessages (lastUser : ℕ) : List ChatMessage :=
  messages.mapIdx fun i message =>
    if i = lastUser then { message with content := stripTerminalTail message.content } else message

def keyRecord (message : ChatMessage) : Bytes := message.role.name ++ 0x1F :: message.content

def speculationKey (lastUser : ℕ) : Bytes :=
  (keyMessages messages lastUser).flatMap fun message => keyRecord message ++ [0x1E]

/-! ## The request -/

/-- What is read from a request; `none` leaves a setting to the stored one. -/
structure SpeakRequest (N : Type) where
  messages : List ChatMessage
  temperature : Option N
  topP : Option N
  repeatPenalty : Option N
  maxTokens : Option ℤ
  seed : ℤ
  ttsSeed : ℤ
  prewarm : Bool
  speculate : Bool
  deriving DecidableEq, Repr

variable {N : Type}

/-- The limit on the contents of all messages together. -/
def maxHistory : ℕ := 24000

def contentOf (message : Json N) : Option Bytes :=
  (message.find (bytes "content")).bind Json.string?

def readMessage (message : Json N) : Except HttpError ChatMessage :=
  match (message.find (bytes "role")).bind Json.string?, contentOf message with
  | some name, some content =>
    match Role.ofName name with
    | some role => .ok ⟨role, content⟩
    | none => .error (badRequest (bytes "message roles must be system, user, or assistant"))
  | _, _ => .error (badRequest (bytes "each message needs string 'role' and 'content'"))

def readHistory (body : Json N) : Except HttpError (List (Json N)) :=
  match (body.find (bytes "messages")).bind Json.array? with
  | some (message :: messages) =>
    let total := ((message :: messages).filterMap contentOf |>.map List.length).sum
    if maxHistory < total then
      .error (badRequest (bytes "chat history is too large (" ++ bytes (toString total) ++
        bytes " characters; the limit is 24000) -- trim older messages"))
    else .ok (message :: messages)
  | _ => .error (badRequest (bytes "chat requires a non-empty 'messages' array"))

/-- The fields in the order in which they are read. -/
def readRequest [Number N] (body : Json N) : Except HttpError (SpeakRequest N) := do
  let history ← readHistory body
  let maxTokens ← uncaught (body.integer? (bytes "max_tokens"))
  let seed ← uncaught (body.optionalI64 (bytes "seed") (-1))
  let ttsSeed ← uncaught (body.optionalI64 (bytes "tts_seed") (-1))
  let messages ← history.mapM readMessage
  return {
    messages := messages
    temperature := body.f32? (bytes "temperature")
    topP := body.f32? (bytes "top_p")
    repeatPenalty := body.f32? (bytes "repeat_penalty")
    maxTokens := maxTokens
    seed := seed
    ttsSeed := ttsSeed
    prewarm := body.flag (bytes "prewarm")
    speculate := body.flag (bytes "speculate") }

/-! ## What a request is rendered to -/

/-- The fields that are the same in every body. -/
def commonFields : Bytes := bytes ("\"cache_prompt\":true" ++
  ",\"stop\":[\"<|im_end|>\",\"<|im_start|>\",\"\\n\\n\"]" ++
  ",\"dry_multiplier\":0.8,\"dry_base\":1.75,\"dry_allowed_length\":4,\"dry_penalty_last_n\":4096")

structure LlamaBody (N : Type) where
  stream : Bool
  common : Bytes
  temperature : N
  topP : N
  repeatPenalty : N
  maxTokens : ℤ
  seed : Option ℤ
  messages : List ChatMessage
  deriving DecidableEq, Repr

/-- What a request is rendered from: the request, and copies of the character and the settings. -/
structure Setup (N : Type) where
  request : SpeakRequest N
  character : CharacterConfig
  settings : LlmSettings N
  deriving DecidableEq, Repr

def assistantText (message : ChatMessage) : Option Bytes :=
  if message.role = .assistant then some (sanitizeAssistantText message.content) else none

/-- A message as the model reads it: its own past cleaned. -/
def historyMessage (message : ChatMessage) : ChatMessage :=
  match assistantText message with
  | some text => { message with content := text }
  | none => message

/-- A user message with the steering note. -/
def withNote (content : Bytes) (history : List Bytes) : ChatMessage :=
  ⟨.user, content ++ bytes "\n[" ++ turnAnchor content history ++ bytes "]"⟩

def promptMessages (lastUser : ℕ) : List ChatMessage :=
  messages.mapIdx fun i message =>
    if i = lastUser then withNote message.content (messages.filterMap assistantText)
    else historyMessage message

namespace Setup

variable (u : Setup N)

def lastUser : ℕ := lastUserIndex (u.request.messages.map ChatMessage.role)

def assistantTurns : ℕ :=
  u.request.messages.countP fun message => decide (message.role = .assistant)

def systemPrompt (turns : ℕ) : Bytes :=
  renderMasterPrompt u.settings u.character.name u.character.persona ++ noteRule ++
    lengthGuidance u.settings turns

def clientHasSystem : Bool :=
  u.request.messages.head?.any fun message => decide (message.role = .system)

def withSystem (prompt : Bytes) (messages : List ChatMessage) : List ChatMessage :=
  if u.clientHasSystem then messages else ⟨.system, prompt⟩ :: messages

def llamaBody [Number N] (u : Setup N) : LlamaBody N where
  stream := !u.request.prewarm
  common := commonFields
  temperature := u.request.temperature.getD (Number.toF32 u.settings.temperature)
  topP := u.request.topP.getD (Number.toF32 u.settings.topP)
  repeatPenalty := u.request.repeatPenalty.getD (Number.toF32 u.settings.repeatPenalty)
  maxTokens :=
    if u.request.prewarm then 1
    else u.request.maxTokens.getD (rampedMaxTokens u.settings u.assistantTurns)
  seed := if 0 ≤ u.request.seed then some u.request.seed else none
  messages :=
    u.withSystem (u.systemPrompt u.assistantTurns) (promptMessages u.request.messages u.lastUser)

/-- The request that warms the cache for the turn after this one. -/
def warmPrefix : List ChatMessage :=
  u.withSystem (u.systemPrompt (u.assistantTurns + 1)) (u.request.messages.map historyMessage)

def specKey : Bytes := speculationKey u.request.messages u.lastUser

def ttsSeed (u : Setup N) : ℤ :=
  if u.request.ttsSeed < 0 ∧ 0 ≤ u.character.ttsSeed then u.character.ttsSeed
  else u.request.ttsSeed

/-- The draft ends like a sentence. -/
def sendShaped : Bool :=
  (u.request.messages[u.lastUser]?).any fun message => endsWithSentenceTerminal message.content

end Setup

inductive Outcome (N : Type)
  | skipped
  | speculate (setup : Setup N) (earlyTts : Bool)
  | prewarm (setup : Setup N)
  | send (setup : Setup N)
  deriving DecidableEq, Repr

/-- Without a rollback of the cache only a draft that looks like a send is worth a prompt pass. -/
def route (cacheRollback : Bool) (u : Setup N) : Outcome N :=
  if !cacheRollback && (u.request.prewarm || (u.request.speculate && !u.sendShaped)) then .skipped
  else if u.request.speculate then .speculate u u.sendShaped
  else if u.request.prewarm then .prewarm u
  else .send u

structure Server where
  llmPort : ℤ
  speechModel : Bool
  cacheRollback : Bool
  deriving DecidableEq, Repr

def handleChatSpeak [Number N] (server : Server) (character : CharacterConfig)
    (settings : LlmSettings N) (body : Json N) : Except HttpError (Outcome N) :=
  if server.llmPort ≤ 0 then
    .error ⟨503, bytes "no LLM sidecar is configured; start the server with --llm-port",
      bytes "llm_unavailable"⟩
  else if !server.speechModel then .error (badRequest (bytes "no TTS model is configured"))
  else do
    let request ← readRequest body
    return route server.cacheRollback ⟨request, character, settings⟩

end FastTts.Speak
