import FastTts.Base64
import FastTts.JsonWriting

/-!
# The MCP endpoint

One JSON-RPC message is answered with one text. The id of the message is written again by hand, and
the arguments of a tool call are converted on the way.
-/

namespace FastTts.Mcp

open FloatFormat JsonText

/-- What the `speak` tool gives: a WAV file in base64, or what went wrong. -/
structure SpeakOutcome where
  ok : Bool
  wavBase64 : Bytes
  audioSeconds : Binary64
  errorText : Bytes

abbrev SpeakFn := Bytes → ℤ → SpeakOutcome

structure McpReply where
  status : ℕ
  body : Bytes

def supportedProtocolVersions : List Bytes :=
  [bytes "2025-06-18", bytes "2025-03-26", bytes "2024-11-05"]

def serverName : Bytes := bytes "qwen3-voice-mcp"

def serverVersion : Bytes := bytes "1.0.0"

def maxSpeakChars : ℕ := 4000

/-! ## Numbers -/

def isIntegral : Binary64 → Bool
  | .finite q _ => q.den = 1
  | .infinite _ => true
  | .nan => false

/-- The conversion of a number that does not fit is undefined. -/
def toLongLong (undefined : Binary64 → ℤ) : Binary64 → ℤ
  | .finite q h =>
    let truncated := q.num.tdiv q.den
    if -2 ^ 63 ≤ truncated ∧ truncated < 2 ^ 63 then truncated else undefined (.finite q h)
  | .infinite negative => undefined (.infinite negative)
  | .nan => undefined .nan

def formatFixed (places : ℕ) : Binary64 → Bytes
  | .finite q _ => fixedText places q
  | .infinite negative => if negative then bytes "-inf" else bytes "inf"
  | .nan => bytes "nan"

def asI64 (undefined : Binary64 → ℤ) : Binary64 → Except Exception ℤ
  | .finite q h =>
    if q.den = 1 then .ok (toLongLong undefined (.finite q h))
    else .error (bytes "json number is not an integer")
  | .infinite _ | .nan => .error (bytes "json number is not an integer")

/-! ## Replies -/

def serializeId (undefined : Binary64 → ℤ) : Option (Json Binary64) → Bytes
  | some (.string text) => quoted text
  | some (.number x) => if isIntegral x then intText (toLongLong undefined x) else formatFixed 6 x
  | _ => bytes "null"

def jsonrpcError (status : ℕ) (id : Bytes) (code : ℤ) (message : Bytes) : McpReply :=
  ⟨status, bytes "\x7b\"jsonrpc\":\"2.0\",\"id\":" ++ id ++
    bytes ",\"error\":\x7b\"code\":" ++ intText code ++
    bytes ",\"message\":" ++ quoted message ++ bytes "\x7d\x7d"⟩

def jsonrpcResult (id resultJson : Bytes) : McpReply :=
  ⟨200, bytes "\x7b\"jsonrpc\":\"2.0\",\"id\":" ++ id ++ bytes ",\"result\":" ++ resultJson ++
    bytes "\x7d"⟩

variable (params : Option (Json Binary64))

def negotiatedProtocolVersion : Bytes :=
  match (params.bind fun params => params.find (bytes "protocolVersion")).bind Json.string? with
  | some requested =>
    if requested ∈ supportedProtocolVersions then requested
    else supportedProtocolVersions.headD []
  | none => supportedProtocolVersions.headD []

def initializeResult : Bytes :=
  bytes "\x7b\"protocolVersion\":" ++ quoted (negotiatedProtocolVersion params) ++
    bytes ",\"capabilities\":\x7b\"tools\":\x7b\x7d\x7d" ++
    bytes ",\"serverInfo\":\x7b\"name\":" ++ quoted serverName ++
    bytes ",\"title\":" ++ quoted (bytes "Super Fast TTS MCP Server") ++
    bytes ",\"version\":" ++ quoted serverVersion ++ bytes "\x7d" ++
    bytes ",\"instructions\":" ++ quoted (bytes
      ("This server turns text into spoken audio with a fast streaming TTS engine. " ++
      "Call the speak tool with the text to say; it returns a complete WAV clip. " ++
      "Keep each call to one utterance -- a sentence or short paragraph -- and " ++
      "make several calls for longer passages.")) ++
    bytes "\x7d"

def toolsListResult : Bytes :=
  bytes ("\x7b\"tools\":[\x7b" ++ "\"name\":\"speak\"," ++ "\"title\":\"Speak\"," ++
    "\"description\":") ++
    quoted (bytes ("Convert text to spoken audio and return it as a WAV clip. " ++
      "Best for one utterance per call.")) ++
    bytes ("," ++ "\"inputSchema\":\x7b" ++ "\"type\":\"object\"," ++ "\"properties\":\x7b" ++
      "\"text\":\x7b\"type\":\"string\",\"description\":\"The text to speak aloud.\"\x7d," ++
      "\"seed\":\x7b\"type\":\"integer\",\"description\":" ++
        "\"Optional sampling seed for a reproducible delivery.\"\x7d" ++
      "\x7d," ++ "\"required\":[\"text\"]" ++ "\x7d\x7d]\x7d")

def toolErrorResult (message : Bytes) : Bytes :=
  bytes "\x7b\"content\":[\x7b\"type\":\"text\",\"text\":" ++ quoted message ++
    bytes "\x7d],\"isError\":true\x7d"

/-- The summary is cut to the length of its buffer. -/
def spokenResult (outcome : SpeakOutcome) : Bytes :=
  let summary := (bytes "Spoke " ++ formatFixed 1 outcome.audioSeconds ++
    bytes " seconds of audio.").take 63
  bytes "\x7b\"content\":[\x7b\"type\":\"audio\",\"data\":\"" ++ outcome.wavBase64 ++
    bytes "\",\"mimeType\":\"audio/wav\"\x7d,\x7b\"type\":\"text\",\"text\":" ++ quoted summary ++
    bytes "\x7d],\"isError\":false\x7d"

def handleToolsCall (undefined : Binary64 → ℤ) (id : Bytes) (params : Option (Json Binary64))
    (speak : SpeakFn) : Except Exception McpReply :=
  match params with
  | some (.object fields) =>
    let params := Json.object fields
    match (params.find (bytes "name")).bind Json.string? with
    | none => .ok (jsonrpcError 200 id (-32602) (bytes "tools/call requires a string 'name'"))
    | some name =>
      if name ≠ bytes "speak" then
        .ok (jsonrpcError 200 id (-32602) (bytes "Unknown tool: " ++ name))
      else
        let arguments := params.find (bytes "arguments")
        let text :=
          ((arguments.bind fun value => value.find (bytes "text")).bind Json.string?).getD []
        if text = [] then
          .ok (jsonrpcError 200 id (-32602)
            (bytes "speak requires a non-empty string 'text' argument"))
        else if maxSpeakChars < text.length then
          .ok (jsonrpcResult id (toolErrorResult (bytes "Text is too long for one utterance (" ++
            natText text.length ++ bytes " characters; the limit is " ++ natText maxSpeakChars ++
            bytes "). Split it into sentences and call speak once per sentence.")))
        else do
          let seed ←
            match (arguments.bind fun value => value.find (bytes "seed")).bind Json.number? with
            | some x => asI64 undefined x
            | none => .ok (-1)
          let outcome := speak text seed
          if outcome.ok = false then
            .ok (jsonrpcResult id (toolErrorResult
              (bytes "Speech generation failed: " ++ outcome.errorText)))
          else .ok (jsonrpcResult id (spokenResult outcome))
  | _ => .ok (jsonrpcError 200 id (-32602) (bytes "tools/call requires params with a tool name"))

/-- A message without an id is a notification and has no reply. -/
def handleMcpMessage (undefined : Binary64 → ℤ) (bodyText : Bytes) (speak : SpeakFn) :
    Except Exception McpReply :=
  match parse bodyText with
  | none => .ok (jsonrpcError 400 (bytes "null") (-32700) (bytes "Parse error"))
  | some (.object fields) =>
    let message := Json.object fields
    match (message.find (bytes "method")).bind Json.string? with
    | none =>
      .ok (jsonrpcError 400 (serializeId undefined (message.find (bytes "id"))) (-32600)
        (bytes "Missing method"))
    | some name =>
      match message.find (bytes "id") with
      | none => .ok ⟨202, []⟩
      | some id =>
        let id := serializeId undefined (some id)
        let params := message.find (bytes "params")
        if name = bytes "initialize" then .ok (jsonrpcResult id (initializeResult params))
        else if name = bytes "ping" then .ok (jsonrpcResult id (bytes "\x7b\x7d"))
        else if name = bytes "tools/list" then .ok (jsonrpcResult id toolsListResult)
        else if name = bytes "tools/call" then handleToolsCall undefined id params speak
        else .ok (jsonrpcError 200 id (-32601) (bytes "Method not found: " ++ name))
  | some _ =>
    .ok (jsonrpcError 400 (bytes "null") (-32600)
      (bytes "Expected a single JSON-RPC message object"))

/-! ## What the replies are read as -/

/-- The object that a reply has for an id and for its result or its error. -/
def replyFields (key : Bytes) (id answer : Json Binary64) : List (Bytes × Json Binary64) :=
  [(bytes "jsonrpc", .string (bytes "2.0")), (bytes "id", id), (key, answer)]

variable {idText : Bytes} {x : Binary64} {undefined : Binary64 → ℤ}

theorem reads_reply {levels : ℕ} {key answerText : Bytes} {id answer : Json Binary64}
    (hkey : key = bytes "result" ∨ key = bytes "error") (hid : Reads levels idText id)
    (hanswer : Reads levels answerText answer) :
    Reads (levels + 1) (objectText [(bytes "jsonrpc", quoted (bytes "2.0")), (bytes "id", idText),
      (key, answerText)]) (.object (replyFields key id answer)) := by
  have hmembers : ∀ member ∈ [(bytes "jsonrpc", quoted (bytes "2.0"), Json.string (bytes "2.0")),
      (bytes "id", idText, id), (key, answerText, answer)],
      Reads levels member.2.1 member.2.2 := by
    intro member hmember
    simp only [List.mem_cons, List.not_mem_nil, or_false] at hmember
    obtain rfl | rfl | rfl := hmember
    · exact reads_quoted levels (bytes "2.0")
    · exact hid
    · exact hanswer
  have hkeys : ([bytes "jsonrpc", bytes "id", key].map cString).Nodup := by
    obtain rfl | rfl := hkey <;> decide
  have hcut : cString key = key := by obtain rfl | rfl := hkey <;> rfl
  have hobject := reads_object hmembers hkeys
  simp only [List.map_cons, List.map_nil, hcut] at hobject
  exact hobject

variable (status levels : ℕ)

theorem jsonrpcError_body (id : Bytes) (code : ℤ) (message : Bytes) :
    (jsonrpcError status id code message).body =
      objectText [(bytes "jsonrpc", quoted (bytes "2.0")), (bytes "id", id), (bytes "error",
        objectText [(bytes "code", intText code), (bytes "message", quoted message)])] := by
  simp only [jsonrpcError, objectText, List.map_cons, List.map_nil, joined, memberText,
    List.append_assoc, List.cons_append]
  rfl

theorem jsonrpcResult_body (id resultJson : Bytes) :
    (jsonrpcResult id resultJson).body = objectText [(bytes "jsonrpc", quoted (bytes "2.0")),
      (bytes "id", id), (bytes "result", resultJson)] := by
  simp only [jsonrpcResult, objectText, List.map_cons, List.map_nil, joined, memberText,
    List.append_assoc, List.cons_append]
  rfl

theorem readable_initializeResult (params : Option (Json Binary64)) :
    Readable (levels + 3) (initializeResult params) := by
  have htext : initializeResult params = objectText [(bytes "protocolVersion",
      quoted (negotiatedProtocolVersion params)), (bytes "capabilities",
      objectText [(bytes "tools", objectText [])]), (bytes "serverInfo",
      objectText [(bytes "name", quoted serverName),
        (bytes "title", quoted (bytes "Super Fast TTS MCP Server")),
        (bytes "version", quoted serverVersion)]), (bytes "instructions", quoted (bytes
      ("This server turns text into spoken audio with a fast streaming TTS engine. " ++
      "Call the speak tool with the text to say; it returns a complete WAV clip. " ++
      "Keep each call to one utterance -- a sentence or short paragraph -- and " ++
      "make several calls for longer passages.")))] := by
    simp only [initializeResult, objectText, List.map_cons, List.map_nil, joined, memberText,
      List.append_assoc, List.cons_append]
    rfl
  rw [htext]
  apply readable_object [bytes "protocolVersion", bytes "capabilities", bytes "serverInfo",
    bytes "instructions"] (by decide) rfl
  simp only [List.forall_mem_cons]
  refine ⟨readable_quoted _ _, ?_, ?_, readable_quoted _ _, List.forall_mem_nil _⟩
  · apply readable_object [bytes "tools"] (by decide) rfl
    simp only [List.forall_mem_cons]
    exact ⟨readable_object [] (by decide) rfl (List.forall_mem_nil _), List.forall_mem_nil _⟩
  · apply readable_object [bytes "name", bytes "title", bytes "version"] (by decide) rfl
    simp only [List.forall_mem_cons]
    exact ⟨readable_quoted _ _, readable_quoted _ _, readable_quoted _ _, List.forall_mem_nil _⟩

theorem readable_toolsListResult : Readable (levels + 6) toolsListResult := by
  have htext : toolsListResult = objectText [(bytes "tools", arrayText [objectText
      [(bytes "name", quoted (bytes "speak")), (bytes "title", quoted (bytes "Speak")),
        (bytes "description", quoted (bytes
          ("Convert text to spoken audio and return it as a WAV clip. " ++
            "Best for one utterance per call."))),
        (bytes "inputSchema", objectText [(bytes "type", quoted (bytes "object")),
          (bytes "properties", objectText [
            (bytes "text", objectText [(bytes "type", quoted (bytes "string")),
              (bytes "description", quoted (bytes "The text to speak aloud."))]),
            (bytes "seed", objectText [(bytes "type", quoted (bytes "integer")),
              (bytes "description", quoted (bytes
                "Optional sampling seed for a reproducible delivery."))])]),
          (bytes "required", arrayText [quoted (bytes "text")])])]])] := by
    decide +kernel
  rw [htext]
  apply readable_object [bytes "tools"] (by decide) rfl
  simp only [List.forall_mem_cons]
  refine ⟨?_, List.forall_mem_nil _⟩
  apply readable_array
  simp only [List.forall_mem_cons]
  refine ⟨?_, List.forall_mem_nil _⟩
  apply readable_object [bytes "name", bytes "title", bytes "description", bytes "inputSchema"]
    (by decide) rfl
  simp only [List.forall_mem_cons]
  refine ⟨readable_quoted _ _, readable_quoted _ _, readable_quoted _ _, ?_, List.forall_mem_nil _⟩
  apply readable_object [bytes "type", bytes "properties", bytes "required"] (by decide) rfl
  simp only [List.forall_mem_cons]
  refine ⟨readable_quoted _ _, ?_, ?_, List.forall_mem_nil _⟩
  · apply readable_object [bytes "text", bytes "seed"] (by decide) rfl
    simp only [List.forall_mem_cons]
    have hproperty : ∀ type description : Bytes, Readable (levels + 1) (objectText
        [(bytes "type", quoted type), (bytes "description", quoted description)]) := by
      intro type description
      apply readable_object [bytes "type", bytes "description"] (by decide) rfl
      simp only [List.forall_mem_cons]
      exact ⟨readable_quoted _ _, readable_quoted _ _, List.forall_mem_nil _⟩
    exact ⟨hproperty _ _, hproperty _ _, List.forall_mem_nil _⟩
  · apply readable_array
    simp only [List.forall_mem_cons]
    exact ⟨readable_quoted _ _, List.forall_mem_nil _⟩

theorem readable_toolErrorResult (message : Bytes) :
    Readable (levels + 3) (toolErrorResult message) := by
  have htext : toolErrorResult message = objectText [(bytes "content", arrayText [objectText
      [(bytes "type", quoted (bytes "text")), (bytes "text", quoted message)]]),
      (bytes "isError", bytes "true")] := by
    simp only [toolErrorResult, objectText, arrayText, List.map_cons, List.map_nil, joined,
      memberText, List.append_assoc, List.cons_append]
    rfl
  rw [htext]
  apply readable_object [bytes "content", bytes "isError"] (by decide) rfl
  simp only [List.forall_mem_cons]
  refine ⟨?_, ⟨_, reads_true _⟩, List.forall_mem_nil _⟩
  apply readable_array
  simp only [List.forall_mem_cons]
  refine ⟨?_, List.forall_mem_nil _⟩
  apply readable_object [bytes "type", bytes "text"] (by decide) rfl
  simp only [List.forall_mem_cons]
  exact ⟨readable_quoted _ _, readable_quoted _ _, List.forall_mem_nil _⟩

theorem jsonEscape_base64_byte {ch : UInt8} (h : isBase64 ch = true) : jsonEscape [ch] = [ch] := by
  have hall : ∀ n : Fin 256, isBase64 (UInt8.ofNat n) = true →
      jsonEscape [UInt8.ofNat n] = [UInt8.ofNat n] := by decide +kernel
  have hbyte := hall ⟨ch.toNat, ch.toNat_lt⟩
  rw [UInt8.ofNat_toNat] at hbyte
  exact hbyte h

theorem jsonEscape_base64 {text : Bytes} (h : ∀ ch ∈ text, isBase64 ch = true) :
    jsonEscape text = text := by
  induction text with
  | nil => rfl
  | cons ch text ih =>
    rw [jsonEscape_cons, jsonEscape_base64_byte (h ch List.mem_cons_self),
      ih fun other hother => h other (List.mem_cons_of_mem _ hother)]
    rfl

theorem readable_spokenResult {outcome : SpeakOutcome}
    (h : ∀ ch ∈ outcome.wavBase64, isBase64 ch = true) :
    Readable (levels + 3) (spokenResult outcome) := by
  have hescape := jsonEscape_base64 h
  obtain ⟨summary, hsummary⟩ : ∃ summary, (bytes "Spoke " ++ formatFixed 1 outcome.audioSeconds ++
    bytes " seconds of audio.").take 63 = summary := ⟨_, rfl⟩
  have htext : spokenResult outcome = objectText [(bytes "content", arrayText [objectText
      [(bytes "type", quoted (bytes "audio")), (bytes "data", quoted outcome.wavBase64),
        (bytes "mimeType", quoted (bytes "audio/wav"))], objectText
      [(bytes "type", quoted (bytes "text")), (bytes "text", quoted summary)]]),
      (bytes "isError", bytes "false")] := by
    rw [spokenResult, hsummary]
    simp only [objectText, arrayText, List.map_cons, List.map_nil, joined, memberText,
      List.append_assoc, List.cons_append]
    rw [show quoted outcome.wavBase64 = 0x22 :: (outcome.wavBase64 ++ [0x22]) by
      rw [quoted, hescape]]
    simp only [List.append_assoc, List.cons_append]
    rfl
  rw [htext]
  apply readable_object [bytes "content", bytes "isError"] (by decide) rfl
  simp only [List.forall_mem_cons]
  refine ⟨?_, ⟨_, reads_false _⟩, List.forall_mem_nil _⟩
  apply readable_array
  simp only [List.forall_mem_cons]
  refine ⟨?_, ?_, List.forall_mem_nil _⟩
  · apply readable_object [bytes "type", bytes "data", bytes "mimeType"] (by decide) rfl
    simp only [List.forall_mem_cons]
    exact ⟨readable_quoted _ _, readable_quoted _ _, readable_quoted _ _, List.forall_mem_nil _⟩
  · apply readable_object [bytes "type", bytes "text"] (by decide) rfl
    simp only [List.forall_mem_cons]
    exact ⟨readable_quoted _ _, readable_quoted _ _, List.forall_mem_nil _⟩

/-- An object with a result or an error, behind an id. -/
def Replies (id : Bytes) (reply : McpReply) : Prop :=
  ∃ key answer, (key = bytes "result" ∨ key = bytes "error") ∧ Readable 999 answer ∧
    reply.body =
      objectText [(bytes "jsonrpc", quoted (bytes "2.0")), (bytes "id", id), (key, answer)]

theorem replies_error (id : Bytes) (code : ℤ) (message : Bytes) :
    Replies id (jsonrpcError status id code message) := by
  refine ⟨_, _, .inr rfl, ?_, jsonrpcError_body status id code message⟩
  apply readable_object [bytes "code", bytes "message"] (by decide) rfl
  simp only [List.forall_mem_cons]
  exact ⟨⟨_, reads_intText 998 code⟩, readable_quoted _ _, List.forall_mem_nil _⟩

theorem replies_result {id resultJson : Bytes} (h : Readable 999 resultJson) :
    Replies id (jsonrpcResult id resultJson) :=
  ⟨_, _, .inl rfl, h, jsonrpcResult_body id resultJson⟩

/-- A JSON-RPC object with exactly one of result and error, for an id. -/
def IsReplyTo (id : Json Binary64) (reply : McpReply) : Prop :=
  ∃ fields, parse reply.body = some (.object fields) ∧
    fields.lookup (bytes "jsonrpc") = some (.string (bytes "2.0")) ∧
    fields.lookup (bytes "id") = some id ∧
    Xor (fields.lookup (bytes "result")).isSome (fields.lookup (bytes "error")).isSome

theorem Replies.isReplyTo {id : Json Binary64} {reply : McpReply} (h : Replies idText reply)
    (hid : Reads 999 idText id) : IsReplyTo id reply := by
  obtain ⟨key, text, hkey, ⟨answer, hanswer⟩, hbody⟩ := h
  have hread := reads_reply hkey hid hanswer
  rw [← hbody] at hread
  refine ⟨replyFields key id answer, parse_of_reads hread, rfl, rfl, ?_⟩
  obtain rfl | rfl := hkey
  · exact .inl ⟨rfl, nofun⟩
  · exact .inr ⟨rfl, nofun⟩

theorem Replies.id_eq {id id' : Json Binary64} {reply : McpReply} (h : Replies idText reply)
    (hid : Reads 999 idText id) (hreply : IsReplyTo id' reply) : id' = id := by
  obtain ⟨key, text, hkey, ⟨answer, hanswer⟩, hbody⟩ := h
  obtain ⟨fields, hparse, -, hlookup, -⟩ := hreply
  have hread := reads_reply hkey hid hanswer
  rw [← hbody] at hread
  rw [parse_of_reads hread] at hparse
  rw [← Json.object.inj (Option.some.inj hparse)] at hlookup
  exact (Option.some.inj hlookup).symm

/-! ## Ids -/

/-- A number that its text names again: an integer that fits, or the number closest to the decimal
with six places that is closest to it. -/
def Echoed : Binary64 → Prop
  | .finite q h =>
    if q.den = 1 then -2 ^ 63 ≤ q ∧ q < 2 ^ 63
    else binary64.ofRat (fixedValue 6 q) = .finite q h
  | .infinite _ | .nan => False

/-- What the text of a number is read as. -/
def rewritten (undefined : Binary64 → ℤ) : Binary64 → Binary64
  | .finite q h =>
    if q.den = 1 then binary64.ofRat (toLongLong undefined (.finite q h))
    else binary64.ofRat (fixedValue 6 q)
  | .infinite negative => binary64.ofRat (toLongLong undefined (.infinite negative))
  | .nan => .nan

theorem serializeId_number (undefined : Binary64 → ℤ) (levels : ℕ) (h : x ≠ .nan) :
    Reads levels (serializeId undefined (some (.number x))) (.number (rewritten undefined x)) := by
  rw [serializeId]
  cases x with
  | finite q hq =>
    rw [isIntegral, rewritten]
    by_cases hint : q.den = 1
    · rw [if_pos (decide_eq_true hint), if_pos hint]
      exact reads_intText levels _
    · rw [if_neg (by simpa using hint), if_neg hint]
      exact reads_fixedText levels 6 q
  | infinite negative =>
    rw [isIntegral, if_pos rfl]
    exact reads_intText levels _
  | nan => exact absurd rfl h

theorem rewritten_of_echoed (h : Echoed x) : rewritten undefined x = x := by
  cases x with
  | finite q hq =>
    rw [Echoed] at h
    rw [rewritten]
    split_ifs at h ⊢ with hint
    · have hvalue : ((q.num.tdiv q.den : ℤ) : ℚ) = q := by
        rw [hint, Nat.cast_one, Int.tdiv_one]
        exact Rat.coe_int_num_of_den_eq_one hint
      have hfits : -2 ^ 63 ≤ q.num.tdiv q.den ∧ q.num.tdiv q.den < 2 ^ 63 := by
        rw [← hvalue] at h
        constructor
        · exact_mod_cast h.1
        · exact_mod_cast h.2
      rw [toLongLong, if_pos hfits, hvalue, ofRat_of_representable hq]
    · exact h
  | infinite negative => exact absurd h id
  | nan => exact absurd h id

/-- Only a number that fits is named by an integer, whatever the conversion gives for the others. -/
theorem echoed_of_rewritten (hne : x ≠ .nan) (h : rewritten (fun _ => 0) x = x) : Echoed x := by
  have hzero : binary64.Representable ((0 : ℤ) : ℚ) := by
    refine ⟨0, 0, by decide, by decide, ?_, ?_⟩
    · simp
    · simp [Format.bound, two_zpow_pos]
  cases x with
  | finite q hq =>
    rw [rewritten] at h
    rw [Echoed]
    split_ifs at h ⊢ with hint
    · rw [toLongLong] at h
      split_ifs at h with hfits
      · have hvalue : ((q.num.tdiv q.den : ℤ) : ℚ) = q := by
          rw [hint, Nat.cast_one, Int.tdiv_one]
          exact Rat.coe_int_num_of_den_eq_one hint
        rw [← hvalue]
        constructor
        · exact_mod_cast hfits.1
        · exact_mod_cast hfits.2
      · rw [ofRat_of_representable hzero] at h
        have hq : q = 0 := by
          injection h with h
          rw [← h, Int.cast_zero]
        subst hq
        exact absurd ⟨by decide, by decide⟩ hfits
    · exact h
  | infinite negative =>
    rw [rewritten, toLongLong, ofRat_of_representable hzero] at h
    cases h
  | nan => exact absurd rfl hne

/-! ## The tool -/

/-- A call of the tool comes to a number as its seed. -/
def ReachesSeed (x : Binary64) : Prop :=
  let arguments := params.bind fun params => params.find (bytes "arguments")
  (params.bind fun params => params.find (bytes "name")).bind Json.string? = some (bytes "speak") ∧
  (∃ text, (arguments.bind fun value => value.find (bytes "text")).bind Json.string? = some text ∧
    text ≠ [] ∧ text.length ≤ maxSpeakChars) ∧
  (arguments.bind fun value => value.find (bytes "seed")).bind Json.number? = some x

def IsInteger : Binary64 → Prop
  | .finite q _ => q.den = 1
  | .infinite _ | .nan => False

theorem asI64_ok : (∃ n, asI64 undefined x = .ok n) ↔ IsInteger x := by
  cases x with
  | finite q h =>
    rw [asI64, IsInteger]
    split_ifs with hint
    · exact ⟨fun _ => hint, fun _ => ⟨_, rfl⟩⟩
    · refine ⟨?_, fun hyes => absurd hyes hint⟩
      rintro ⟨_, hok⟩
      cases hok
  | infinite negative =>
    refine ⟨?_, False.elim⟩
    rintro ⟨_, hok⟩
    cases hok
  | nan =>
    refine ⟨?_, False.elim⟩
    rintro ⟨_, hok⟩
    cases hok

/-- What a successful tool gives as its audio is base64. -/
def SpeaksBase64 (speak : SpeakFn) : Prop :=
  ∀ text seed, (speak text seed).ok = true → ∀ ch ∈ (speak text seed).wavBase64, isBase64 ch = true

theorem speakCall_spec (undefined : Binary64 → ℤ) (id : Bytes)
    (fields : List (Bytes × Json Binary64)) {speak : SpeakFn} (hspeak : SpeaksBase64 speak)
    (hname : ((Json.object fields).find (bytes "name")).bind Json.string? = some (bytes "speak")) :
    (∃ x, ReachesSeed (some (.object fields)) x ∧ ¬ IsInteger x ∧
      ∃ what, handleToolsCall undefined id (some (.object fields)) speak = .error what) ∨
    (∀ x, ReachesSeed (some (.object fields)) x → IsInteger x) ∧
      ∃ reply, handleToolsCall undefined id (some (.object fields)) speak = .ok reply ∧
        Replies id reply := by
  rw [handleToolsCall, hname]
  dsimp only
  rw [if_neg (not_not.mpr rfl)]
  simp only [ReachesSeed, Option.bind_some, hname]
  generalize (Json.object fields).find (bytes "arguments") = arguments
  cases htext : (arguments.bind fun value => value.find (bytes "text")).bind Json.string? with
  | none =>
    right
    refine ⟨?_, _, rfl, replies_error _ _ _ _⟩
    rintro x ⟨-, ⟨text, hsome, -⟩, -⟩
    exact nomatch hsome
  | some text =>
    rw [Option.getD_some]
    by_cases hempty : text = []
    · rw [if_pos hempty]
      right
      refine ⟨?_, _, rfl, replies_error _ _ _ _⟩
      rintro x ⟨-, ⟨other, hother, hne, -⟩, -⟩
      exact absurd ((Option.some.inj hother).symm.trans hempty) hne
    rw [if_neg hempty]
    by_cases hlong : maxSpeakChars < text.length
    · rw [if_pos hlong]
      right
      refine ⟨?_, _, rfl, replies_result (readable_toolErrorResult 996 _)⟩
      rintro x ⟨-, ⟨other, hother, -, hfits⟩, -⟩
      rw [← Option.some.inj hother] at hfits
      omega
    rw [if_neg hlong]
    have hreply : ∀ seed, ∃ reply, (if (speak text seed).ok = false then
        .ok (jsonrpcResult id (toolErrorResult
          (bytes "Speech generation failed: " ++ (speak text seed).errorText)))
        else .ok (jsonrpcResult id (spokenResult (speak text seed))) :
          Except Exception McpReply) = .ok reply ∧ Replies id reply := by
      intro seed
      by_cases hok : (speak text seed).ok = false
      · rw [if_pos hok]
        exact ⟨_, rfl, replies_result (readable_toolErrorResult 996 _)⟩
      · rw [if_neg hok]
        have hbase64 := hspeak text seed (Bool.not_eq_false _ |>.mp hok)
        exact ⟨_, rfl, replies_result (readable_spokenResult 996 hbase64)⟩
    cases hseed : (arguments.bind fun value => value.find (bytes "seed")).bind Json.number? with
    | none =>
      right
      exact ⟨fun x hx => (nomatch hx.2.2), hreply (-1)⟩
    | some x =>
      dsimp only [bind, Except.bind]
      cases hread : asI64 undefined x with
      | error what =>
        left
        refine ⟨x, ⟨trivial, ⟨text, rfl, hempty, not_lt.mp hlong⟩, rfl⟩, ?_, what, rfl⟩
        intro hint
        obtain ⟨n, hn⟩ := asI64_ok.mpr hint
        exact nomatch hn.symm.trans hread
      | ok seed =>
        right
        refine ⟨?_, hreply seed⟩
        rintro y ⟨-, -, hy⟩
        rw [← Option.some.inj hy]
        exact asI64_ok.mp ⟨seed, hread⟩

theorem handleToolsCall_spec (undefined : Binary64 → ℤ) (id : Bytes)
    (params : Option (Json Binary64)) {speak : SpeakFn} (hspeak : SpeaksBase64 speak) :
    (∃ x, ReachesSeed params x ∧ ¬ IsInteger x ∧
      ∃ what, handleToolsCall undefined id params speak = .error what) ∨
    (∀ x, ReachesSeed params x → IsInteger x) ∧
      ∃ reply, handleToolsCall undefined id params speak = .ok reply ∧ Replies id reply := by
  by_cases hobject : ∃ fields, params = some (.object fields)
  · obtain ⟨fields, rfl⟩ := hobject
    cases hname : ((Json.object fields).find (bytes "name")).bind Json.string? with
    | none =>
      rw [handleToolsCall, hname]
      right
      refine ⟨?_, _, rfl, replies_error _ _ _ _⟩
      rintro x ⟨hspeaks, -⟩
      rw [Option.bind_some, hname] at hspeaks
      exact nomatch hspeaks
    | some name =>
      by_cases hspeaks : name = bytes "speak"
      · exact speakCall_spec undefined id fields hspeak (hspeaks ▸ hname)
      · rw [handleToolsCall, hname]
        dsimp only
        rw [if_pos hspeaks]
        right
        refine ⟨?_, _, rfl, replies_error _ _ _ _⟩
        rintro x ⟨hcalls, -⟩
        rw [Option.bind_some, hname] at hcalls
        exact absurd (Option.some.inj hcalls) hspeaks
  · right
    cases params with
    | none => exact ⟨fun x hseed => (nomatch hseed.1), _, rfl, replies_error _ _ _ _⟩
    | some value =>
      cases value with
      | object fields => exact absurd ⟨fields, rfl⟩ hobject
      | null => exact ⟨fun x hseed => (nomatch hseed.1), _, rfl, replies_error _ _ _ _⟩
      | bool b => exact ⟨fun x hseed => (nomatch hseed.1), _, rfl, replies_error _ _ _ _⟩
      | number n => exact ⟨fun x hseed => (nomatch hseed.1), _, rfl, replies_error _ _ _ _⟩
      | string text => exact ⟨fun x hseed => (nomatch hseed.1), _, rfl, replies_error _ _ _ _⟩
      | array values => exact ⟨fun x hseed => (nomatch hseed.1), _, rfl, replies_error _ _ _ _⟩

/-! ## Answers -/

/-- There is a reply, and a request that has a string or a number as its id is answered to it. -/
def Answers (undefined : Binary64 → ℤ) (bodyText : Bytes) (speak : SpeakFn) : Prop :=
  ∃ reply, handleMcpMessage undefined bodyText speak = .ok reply ∧
    ∀ fields method id, parse bodyText = some (.object fields) →
      fields.lookup (bytes "method") = some (.string method) →
      fields.lookup (bytes "id") = some id →
      ((∃ text, id = .string text) ∨ ∃ x, id = .number x) → IsReplyTo id reply

/-- Of a message with a method and an id, the id is a number that its text names again, if it is a
number, and so is the seed of a tool call an integer. -/
def Answerable (bodyText : Bytes) : Prop :=
  ∀ fields method id, parse bodyText = some (.object fields) →
    fields.lookup (bytes "method") = some (.string method) →
    fields.lookup (bytes "id") = some id →
    (∀ x, id = .number x → Echoed x) ∧
    (method = bytes "tools/call" →
      ∀ x, ReachesSeed (fields.lookup (bytes "params")) x → IsInteger x)

section Request

variable {bodyText : Bytes} {speak : SpeakFn}
  {fields : List (Bytes × Json Binary64)} {method : Bytes} {id : Json Binary64}

theorem handleMcpMessage_request (undefined : Binary64 → ℤ)
    (hparse : parse bodyText = some (.object fields))
    (hmethod : fields.lookup (bytes "method") = some (.string method))
    (hid : fields.lookup (bytes "id") = some id) (hspeak : SpeaksBase64 speak) :
    (method = bytes "tools/call" ∧
      (∃ x, ReachesSeed (fields.lookup (bytes "params")) x ∧ ¬ IsInteger x) ∧
      ∃ what, handleMcpMessage undefined bodyText speak = .error what) ∨
    (method = bytes "tools/call" →
      ∀ x, ReachesSeed (fields.lookup (bytes "params")) x → IsInteger x) ∧
      ∃ reply, handleMcpMessage undefined bodyText speak = .ok reply ∧
        Replies (serializeId undefined (some id)) reply := by
  rw [handleMcpMessage, hparse]
  simp only [Json.find, hmethod, hid, Option.bind_some, Json.string?]
  by_cases hfirst : method = bytes "initialize"
  · rw [if_pos hfirst]
    right
    refine ⟨?_, _, rfl, replies_result (readable_initializeResult 996 _)⟩
    intro htool
    exact absurd (hfirst.symm.trans htool) (by decide)
  rw [if_neg hfirst]
  by_cases hping : method = bytes "ping"
  · rw [if_pos hping]
    right
    refine ⟨?_, _, rfl, replies_result ?_⟩
    · intro htool
      exact absurd (hping.symm.trans htool) (by decide)
    · exact readable_object [] (by decide) rfl (List.forall_mem_nil _)
  rw [if_neg hping]
  by_cases hlist : method = bytes "tools/list"
  · rw [if_pos hlist]
    right
    refine ⟨?_, _, rfl, replies_result (readable_toolsListResult 993)⟩
    intro htool
    exact absurd (hlist.symm.trans htool) (by decide)
  rw [if_neg hlist]
  by_cases htool : method = bytes "tools/call"
  · rw [if_pos htool]
    obtain ⟨x, hseed, hint, herror⟩ | ⟨hint, hreply⟩ :=
      handleToolsCall_spec undefined (serializeId undefined (some id))
        (fields.lookup (bytes "params")) hspeak
    · exact .inl ⟨htool, ⟨x, hseed, hint⟩, herror⟩
    · exact .inr ⟨fun _ => hint, hreply⟩
  · rw [if_neg htool]
    exact .inr ⟨fun h => absurd h htool, _, rfl, replies_error _ _ _ _⟩

end Request

theorem handleMcpMessage_other {bodyText : Bytes} {speak : SpeakFn}
    (h : ∀ fields method id, parse bodyText = some (.object fields) →
      fields.lookup (bytes "method") = some (.string method) →
      fields.lookup (bytes "id") ≠ some id) :
    ∃ reply, handleMcpMessage undefined bodyText speak = .ok reply := by
  rw [handleMcpMessage]
  cases hparse : parse bodyText with
  | none => exact ⟨_, rfl⟩
  | some message =>
    cases message with
    | object fields =>
      dsimp only
      cases hmethod : ((Json.object fields).find (bytes "method")).bind Json.string? with
      | none => exact ⟨_, rfl⟩
      | some name =>
        dsimp only
        cases hid : (Json.object fields).find (bytes "id") with
        | none => exact ⟨_, rfl⟩
        | some id =>
          obtain ⟨value, hvalue, hstring⟩ := Option.bind_eq_some_iff.mp hmethod
          cases value with
          | string text => exact absurd hid (h fields text id hparse hvalue)
          | null => exact nomatch hstring
          | bool b => exact nomatch hstring
          | number n => exact nomatch hstring
          | array values => exact nomatch hstring
          | object others => exact nomatch hstring
    | null => exact ⟨_, rfl⟩
    | bool b => exact ⟨_, rfl⟩
    | number n => exact ⟨_, rfl⟩
    | string text => exact ⟨_, rfl⟩
    | array values => exact ⟨_, rfl⟩

/-- A tool that gives the same clip for every text. -/
def speakClip : SpeakFn := fun _ _ => ⟨true, base64Encode (bytes "RIFF"), .nan, []⟩

theorem speakClip_base64 : SpeaksBase64 speakClip :=
  fun _ _ _ => base64Encode_isBase64 (bytes "RIFF")

def speakRequest : Bytes :=
  bytes ("\x7b\"jsonrpc\":\"2.0\",\"id\":\"a\",\"method\":\"tools/call\"," ++
    "\"params\":\x7b\"name\":\"speak\",\"arguments\":\x7b\"text\":\"Hi.\"\x7d\x7d\x7d")

end FastTts.Mcp
