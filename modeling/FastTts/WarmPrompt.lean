import FastTts.SpeculationKey

/-!
# The prompt of the next turn

One loop over the messages renders both the body of a request and the start of the request that
warms the cache for the turn after it. Here the loop is followed as text. The warm request, closed
with the reply, says what the next body says up to the newest user message.
-/

namespace FastTts.Speak

open Hygiene

/-! ## The loop -/

def messageText (message : ChatMessage) : Bytes :=
  bytes "\x7b\"role\":" ++ jsonQuote message.role.name ++ bytes ",\"content\":" ++
    jsonQuote message.content ++ bytes "\x7d"

/-- The texts of the two `messages` arrays so far, without their brackets. -/
structure Bodies where
  llama : Bytes
  warm : Bytes
  firstMessage : Bool
  assistantSeen : ℕ
  deriving DecidableEq, Repr

def separator (firstMessage : Bool) : Bytes := if firstMessage then [] else bytes ","

def bodiesStep (lastUser : ℕ) (history : List Bytes) (bodies : Bodies)
    (entry : ChatMessage × ℕ) : Bodies :=
  let role := entry.1.role
  let content :=
    if role = .assistant then (history[bodies.assistantSeen]?).getD [] else entry.1.content
  let steered :=
    if role = .user ∧ entry.2 = lastUser then
      content ++ bytes "\n[" ++ turnAnchor content history ++ bytes "]"
    else content
  { llama := bodies.llama ++ separator bodies.firstMessage ++ messageText ⟨role, steered⟩
    warm := bodies.warm ++ separator bodies.firstMessage ++ messageText ⟨role, content⟩
    firstMessage := false
    assistantSeen := if role = .assistant then bodies.assistantSeen + 1 else bodies.assistantSeen }

variable {N : Type}

namespace Setup

def startBodies (u : Setup N) : Bodies :=
  if u.clientHasSystem then ⟨[], [], true, 0⟩
  else ⟨messageText ⟨.system, u.systemPrompt u.assistantTurns⟩,
    messageText ⟨.system, u.systemPrompt (u.assistantTurns + 1)⟩, false, 0⟩

def bodies (u : Setup N) : Bodies :=
  u.request.messages.zipIdx.foldl
    (bodiesStep u.lastUser (u.request.messages.filterMap assistantText)) u.startBodies

/-- What `chat_orchestrate` queues once the reply is known, without its closing brackets. -/
def warmText (u : Setup N) (reply : Bytes) : Bytes :=
  u.bodies.warm ++ bytes "," ++ messageText ⟨.assistant, sanitizeAssistantText reply⟩

end Setup

/-! ## What the loop writes -/

/-- Texts with a comma before each of them, the first one excepted. -/
def joined : Bool → List Bytes → Bytes
  | _, [] => []
  | firstMessage, text :: texts => separator firstMessage ++ text ++ joined false texts

theorem joined_append (firstMessage : Bool) (texts more : List Bytes) :
    joined firstMessage (texts ++ more) =
      joined firstMessage texts ++ joined (firstMessage && texts.isEmpty) more := by
  induction texts generalizing firstMessage with
  | nil => simp [joined]
  | cons text texts ih => simp [joined, ih]

def promptMessage (lastUser : ℕ) (history : List Bytes) (entry : ChatMessage × ℕ) : ChatMessage :=
  if entry.2 = lastUser then withNote entry.1.content history else historyMessage entry.1

variable (messages : List ChatMessage) (message : ChatMessage)

theorem promptMessages_eq (lastUser : ℕ) :
    promptMessages messages lastUser = messages.zipIdx.map
      (promptMessage lastUser (messages.filterMap assistantText)) := by
  rw [promptMessages, List.mapIdx_eq_zipIdx_map]
  rfl

variable {past rest : List ChatMessage} {lastUser : ℕ} {bodies : Bodies}

theorem loop_content {seen : ℕ} (hseen : seen = (past.filterMap assistantText).length) :
    (if message.role = .assistant then
      ((((past ++ message :: rest).filterMap assistantText))[seen]?).getD [] else message.content) =
    (historyMessage message).content := by
  rw [historyMessage, assistantText]
  by_cases hrole : message.role = .assistant
  · have hlen : (past.filterMap assistantText).length ≤ seen := by omega
    rw [if_pos hrole, if_pos hrole, List.filterMap_append, List.getElem?_append_right hlen, hseen,
      Nat.sub_self]
    simp [assistantText, hrole]
  · rw [if_neg hrole, if_neg hrole]

theorem historyMessage_role : (historyMessage message).role = message.role := by
  rw [historyMessage]
  split <;> rfl

theorem bodiesStep_eq {message : ChatMessage}
    (hseen : bodies.assistantSeen = (past.filterMap assistantText).length)
    (huser : past.length = lastUser → message.role = .user) :
    bodiesStep lastUser ((past ++ message :: rest).filterMap assistantText) bodies
      (message, past.length) =
    { llama := bodies.llama ++ separator bodies.firstMessage ++ messageText (promptMessage lastUser
        ((past ++ message :: rest).filterMap assistantText) (message, past.length))
      warm := bodies.warm ++ separator bodies.firstMessage ++ messageText (historyMessage message)
      firstMessage := false
      assistantSeen := ((past ++ [message]).filterMap assistantText).length } := by
  have hcontent : (if message.role = .assistant then
      ((((past ++ message :: rest).filterMap assistantText))[bodies.assistantSeen]?).getD []
      else message.content) = _ := loop_content message hseen
  have hmessage : (⟨message.role, (historyMessage message).content⟩ : ChatMessage) =
      historyMessage message := by
    rw [← historyMessage_role message]
  rw [bodiesStep]
  simp only [hcontent, hmessage]
  congr 1
  · congr 2
    rw [promptMessage]
    by_cases hlast : past.length = lastUser
    · have hrole := huser hlast
      have hsame : (historyMessage message).content = message.content := by
        rw [historyMessage, assistantText, hrole]
        rfl
      rw [if_pos ⟨hrole, hlast⟩, if_pos hlast, withNote, hsame, hrole]
    · rw [if_neg (fun h => hlast h.2), if_neg hlast, hmessage]
  · rw [List.filterMap_append, List.length_append, hseen]
    by_cases hrole : message.role = .assistant <;> simp [assistantText, hrole]

theorem foldl_bodiesStep (past rest : List ChatMessage) {history : List Bytes}
    (hhistory : history = (past ++ rest).filterMap assistantText)
    (hseen : bodies.assistantSeen = (past.filterMap assistantText).length)
    (huser : ∀ i message, (past ++ rest)[i]? = some message → i = lastUser → message.role = .user) :
    ((rest.zipIdx past.length).foldl (bodiesStep lastUser history) bodies).llama =
        bodies.llama ++ joined bodies.firstMessage
          (((rest.zipIdx past.length).map (promptMessage lastUser history)).map messageText) ∧
    ((rest.zipIdx past.length).foldl (bodiesStep lastUser history) bodies).warm =
        bodies.warm ++ joined bodies.firstMessage ((rest.map historyMessage).map messageText) := by
  induction rest generalizing past bodies with
  | nil => simp [joined]
  | cons message rest ih =>
    have hmessage : (past ++ message :: rest)[past.length]? = some message := by simp
    have hstep : bodiesStep lastUser ((past ++ message :: rest).filterMap assistantText) bodies
        (message, past.length) = _ := bodiesStep_eq hseen (huser past.length message hmessage)
    rw [← hhistory] at hstep
    have hnext := congrArg Bodies.assistantSeen hstep
    have hpast : past ++ message :: rest = (past ++ [message]) ++ rest := by simp
    have hlen : past.length + 1 = (past ++ [message]).length := by simp
    rw [hpast] at huser hhistory
    obtain ⟨hllama, hwarm⟩ := ih _ hhistory hnext huser
    rw [List.zipIdx_cons, List.foldl_cons, hlen, hllama, hwarm, hstep]
    simp [joined]

/-! ## The two requests -/

theorem role_of_lastUser (i : ℕ) (message : ChatMessage) (hmessage : messages[i]? = some message)
    (hlast : i = lastUserIndex (messages.map ChatMessage.role)) : message.role = .user := by
  have hlen : i < (messages.map ChatMessage.role).length := by
    rw [List.length_map]
    exact (List.getElem?_eq_some_iff.mp hmessage).1
  have hrole := role_lastUserIndex (messages.map ChatMessage.role) (hlast ▸ hlen)
  rw [← hlast, List.getElem?_map, hmessage] at hrole
  exact Option.some.inj hrole

theorem bodies_text [Number N] (u : Setup N) :
    u.bodies.llama = joined true (u.llamaBody.messages.map messageText) ∧
      u.bodies.warm = joined true (u.warmPrefix.map messageText) := by
  have hseen : u.startBodies.assistantSeen = 0 := by
    rw [Setup.startBodies]
    split <;> rfl
  obtain ⟨hllama, hwarm⟩ := foldl_bodiesStep [] u.request.messages rfl hseen
    (role_of_lastUser u.request.messages)
  rw [Setup.bodies]
  constructor
  · refine hllama.trans ?_
    rw [Setup.llamaBody, Setup.withSystem, Setup.startBodies, promptMessages_eq]
    split <;> rfl
  · refine hwarm.trans ?_
    rw [Setup.warmPrefix, Setup.withSystem, Setup.startBodies]
    split <;> rfl

theorem lastUserIndex_append_user (roles : List Role) :
    lastUserIndex (roles ++ [.user]) = roles.length := by
  rw [lastUserIndex, List.length_append, List.length_singleton, findLast]
  simp

theorem promptMessages_append_user (user : Bytes) :
    promptMessages (messages ++ [⟨.user, user⟩]) messages.length = messages.map historyMessage ++
        [withNote user (messages.filterMap assistantText)] := by
  rw [promptMessages, List.mapIdx_append, List.mapIdx_cons, List.mapIdx_nil, Nat.zero_add,
    if_pos rfl, List.filterMap_append]
  congr 1
  · apply List.ext_getElem
    · simp
    · intro i hi hi'
      have hlt : i < messages.length := by simpa using hi
      have hne : i ≠ messages.length := by omega
      simp [hne]
  · simp [assistantText]

theorem messages_of_readRequest [Number N] {body : Json N} {request : SpeakRequest N}
    (h : readRequest body = .ok request) : request.messages ≠ [] := by
  obtain ⟨history, hhistory, h⟩ := except_bind_ok h
  obtain ⟨maxTokens, _, h⟩ := except_bind_ok h
  obtain ⟨seed, _, h⟩ := except_bind_ok h
  obtain ⟨ttsSeed, _, h⟩ := except_bind_ok h
  obtain ⟨messages, hmessages, h⟩ := except_bind_ok h
  cases h
  rw [readHistory] at hhistory
  split at hhistory
  · dsimp only at hhistory
    split_ifs at hhistory
    cases hhistory
    rw [List.mapM_cons] at hmessages
    obtain ⟨first, _, hmessages⟩ := except_bind_ok hmessages
    obtain ⟨others, _, hmessages⟩ := except_bind_ok hmessages
    cases hmessages
    exact List.cons_ne_nil _ _
  · cases hhistory

theorem next_llamaBody_messages [Number N] {u v : Setup N} {reply user : Bytes}
    (hne : u.request.messages ≠ [])
    (hnext : v.request.messages = u.request.messages ++ [⟨.assistant, reply⟩, ⟨.user, user⟩])
    (hcharacter : v.character = u.character) (hsettings : v.settings = u.settings) :
    v.llamaBody.messages = u.warmPrefix ++ [⟨.assistant, sanitizeAssistantText reply⟩] ++
      [withNote user (v.request.messages.filterMap assistantText)] := by
  have hsplit : v.request.messages =
      (u.request.messages ++ [⟨.assistant, reply⟩]) ++ [⟨.user, user⟩] := by
    rw [hnext, List.append_assoc]
    rfl
  have hturns : v.assistantTurns = u.assistantTurns + 1 := by
    rw [Setup.assistantTurns, hnext, List.countP_append]
    rfl
  have hprompt : v.systemPrompt v.assistantTurns = u.systemPrompt (u.assistantTurns + 1) := by
    rw [hturns, Setup.systemPrompt, Setup.systemPrompt, hcharacter, hsettings]
  have hsystem : v.clientHasSystem = u.clientHasSystem := by
    rw [Setup.clientHasSystem, hnext, List.head?_append_of_ne_nil _ hne]
    rfl
  have hlast : v.lastUser = (u.request.messages ++ [ChatMessage.mk .assistant reply]).length := by
    rw [Setup.lastUser, hsplit, List.map_append]
    refine (lastUserIndex_append_user _).trans ?_
    rw [List.length_map]
  have hhistory : v.request.messages.filterMap assistantText =
      (u.request.messages ++ [ChatMessage.mk .assistant reply]).filterMap assistantText := by
    rw [hsplit, List.filterMap_append]
    exact List.append_nil _
  have hmessages : promptMessages v.request.messages v.lastUser = u.request.messages.map
      historyMessage ++ [ChatMessage.mk .assistant (sanitizeAssistantText reply)] ++
        [withNote user (v.request.messages.filterMap assistantText)] := by
    rw [hhistory, hsplit, hlast, promptMessages_append_user, List.map_append]
    rfl
  change v.withSystem (v.systemPrompt v.assistantTurns)
    (promptMessages v.request.messages v.lastUser) = _
  rw [Setup.warmPrefix, Setup.withSystem, Setup.withSystem, hsystem, hprompt, hmessages]
  cases u.clientHasSystem <;> simp

/-- After an accepted request has been answered with a reply, the text of the warm request starts
the text of the next one. -/
theorem warmText_starts_next [Number N] {body : Json N} {request next : SpeakRequest N}
    (hread : readRequest body = .ok request) (character : CharacterConfig)
    (settings : LlmSettings N) (reply user : Bytes)
    (hnext : next.messages = request.messages ++ [⟨.assistant, reply⟩, ⟨.user, user⟩]) :
    (Setup.mk request character settings).warmText reply <+:
      (Setup.mk next character settings).bodies.llama := by
  have hne := messages_of_readRequest hread
  have hmessages := next_llamaBody_messages (u := ⟨request, character, settings⟩)
    (v := ⟨next, character, settings⟩) hne hnext rfl rfl
  have hwarm : ((Setup.mk request character settings).warmPrefix.map messageText).isEmpty =
      false := by
    obtain ⟨message, messages, hcons⟩ := List.exists_cons_of_ne_nil hne
    rw [Setup.warmPrefix, Setup.withSystem, hcons]
    split <;> rfl
  rw [(bodies_text _).1, hmessages, Setup.warmText, (bodies_text _).2, List.map_append,
    joined_append, List.map_append, joined_append, hwarm]
  simp only [List.map_cons, List.map_nil, joined, separator, Bool.and_false, Bool.false_eq_true,
    if_false, List.append_nil]
  rw [List.append_assoc]
  exact List.prefix_append _ _

def greetingBody : Json ℚ :=
  .object [(bytes "messages", .array [.object [(bytes "role", .string (bytes "user")),
    (bytes "content", .string (bytes "Hello?"))]])]

def greeting : SpeakRequest ℚ :=
  ⟨[⟨.user, bytes "Hello?"⟩], none, none, none, none, -1, -1, false, false⟩

/-- A reply with a stage direction, which neither request keeps. -/
theorem warmText_starts_next_greeting :
    (Setup.mk greeting defaultCharacter ⟨bytes "Be \x7bname\x7d.", 1, 1, 1, 140, true, []⟩).warmText
        (bytes "*waves* Hi!") <+:
      (Setup.mk { greeting with messages := greeting.messages ++
          [⟨.assistant, bytes "*waves* Hi!"⟩, ⟨.user, bytes "Who are you?"⟩] }
        defaultCharacter ⟨bytes "Be \x7bname\x7d.", 1, 1, 1, 140, true, []⟩).bodies.llama := by
  have hread : readRequest greetingBody = .ok greeting := by
    rfl
  exact warmText_starts_next hread _ _ _ _ rfl

end FastTts.Speak
