import FastTts.HeaderText
import FastTts.JsonText

/-!
# HTTP requests

`read_http_request` receives a header block and reads its fields, and then the body. The body of a
live path is left on the socket and published as a stream if `chunked` is its one transfer-coding.
-/

namespace FastTts.HttpRequests

open HeaderText

structure HttpRequest where
  method : Bytes
  path : Bytes
  query : Bytes
  headers : Bytes → Option Bytes
  body : Bytes

def liveIngestPath : Bytes := bytes "/v1/audio/transcriptions/live"

def livePaths : List Bytes := [liveIngestPath, bytes "/v1/voice/live"]

def transferEncoding : Bytes := bytes "transfer-encoding"

/-! ## Transfer-codings -/

/-- The loop of `is_chunked_only` over what stands between the commas. -/
def chunkedOnlyFrom (sawCoding : Bool) : List Bytes → Bool
  | [] => sawCoding
  | element :: elements =>
    let coding := trimmed element
    if coding.isEmpty then chunkedOnlyFrom sawCoding elements
    else if sawCoding = true ∨ coding.map toLower ≠ bytes "chunked" then false
    else chunkedOnlyFrom true elements

def isChunkedOnly (value : Bytes) : Bool := chunkedOnlyFrom false (value.splitOn 0x2C)

def wantsIncrementalBody (request : HttpRequest) : Bool :=
  if request.path ∉ livePaths then false
  else match request.headers transferEncoding with
    | none => false
    | some value => isChunkedOnly value

/-! ## Header blocks -/

/-- The lines of transfer-codings are combined; of another field the last line counts. -/
def addField (headers : Bytes → Option Bytes) (field : Bytes × Bytes) : Bytes → Option Bytes :=
  if field.1 = transferEncoding then
    let slot := (headers field.1).getD []
    Function.update headers field.1
      (some ((if slot.isEmpty then slot else slot ++ bytes ", ") ++ field.2))
  else Function.update headers field.1 (some field.2)

/-- `>>` of a string: a word, and the text behind it. -/
def word (text : Bytes) : Bytes × Bytes := (text.dropWhile isSpace).span fun ch => !isSpace ch

def readHeaders (block : Bytes) : Except Exception HttpRequest :=
  match linesFrom [] block with
  | [] => .error (bytes "empty HTTP request")
  | line :: lines =>
    let (method, rest) := word (withoutReturn line)
    let (path, _) := word rest
    if method.isEmpty || path.isEmpty then .error (bytes "invalid HTTP request line")
    else
      let headers := (fields lines).foldl addField fun _ => none
      match find path [0x3F] with
      | none => .ok ⟨method, path, [], headers, []⟩
      | some query => .ok ⟨method, path.take query, path.drop (query + 1), headers, []⟩

/-! ## Receiving -/

def blankLine : Bytes := crlf ++ crlf

/-- Receives up to the end of the header block; an empty piece is a failed `recv`. -/
def receiveHeaders (data : Bytes) : List Bytes → Except Exception ((Bytes × ℕ) × List Bytes)
  | [] => .error (bytes "socket receive failed before HTTP headers")
  | piece :: pieces =>
    if piece.isEmpty then .error (bytes "socket receive failed before HTTP headers")
    else match find (data ++ piece) blankLine with
      | some headerEnd => .ok ((data ++ piece, headerEnd), pieces)
      | none =>
        if 1024 * 1024 < (data ++ piece).length then .error (bytes "HTTP headers exceed 1 MiB")
        else receiveHeaders (data ++ piece) pieces

/-- `std::from_chars` of a whole text. -/
def fromChars (raw : Bytes) : Option ℕ :=
  if raw.isEmpty = false ∧ raw.all isDigit ∧ JsonText.digitsValue raw < 2 ^ 64 then
    some (JsonText.digitsValue raw)
  else none

def contentLength (maxRequestBodyBytes : ℕ) (request : HttpRequest) : Except Exception ℕ :=
  match request.headers (bytes "content-length") with
  | none => .ok 0
  | some raw =>
    match fromChars raw with
    | none => .error (bytes "invalid Content-Length header")
    | some parsed =>
      if maxRequestBodyBytes < parsed then
        .error (bytes "request body exceeds the maximum of " ++
          bytes (toString maxRequestBodyBytes) ++ bytes " bytes")
      else .ok parsed

def receiveBody (length : ℕ) (body : Bytes) : List Bytes → Except Exception (Bytes × List Bytes)
  | [] =>
    if length ≤ body.length then .ok (body.take length, [])
    else .error (bytes "socket receive failed while reading HTTP body")
  | piece :: pieces =>
    if length ≤ body.length then .ok (body.take length, piece :: pieces)
    else if piece.isEmpty then .error (bytes "socket receive failed while reading HTTP body")
    else receiveBody length (body ++ piece) pieces

/-- A request, what came of an incremental body with the headers, and what is left to receive. -/
def readHttpRequest (maxRequestBodyBytes : ℕ) (pieces : List Bytes) :
    Except Exception ((HttpRequest × Bytes) × List Bytes) := do
  let ((data, headerEnd), pieces) ← receiveHeaders [] pieces
  let request ← readHeaders (data.take headerEnd)
  let behind := data.drop (headerEnd + blankLine.length)
  if wantsIncrementalBody request then return ((request, behind), pieces)
  else
    let length ← contentLength maxRequestBodyBytes request
    let (body, pieces) ← receiveBody length behind pieces
    return (({ request with body := body }, []), pieces)

/-- The handler is given a stream for the body. -/
def publishesBody (maxRequestBodyBytes : ℕ) (pieces : List Bytes) : Bool :=
  match readHttpRequest maxRequestBodyBytes pieces with
  | .ok ((request, _), _) => wantsIncrementalBody request
  | .error _ => false

/-! ## The codings of a block -/

/-- The codings between the commas of a value, in lower case. -/
def codingsOf (value : Bytes) : List Bytes :=
  ((value.splitOn 0x2C).map fun element => (trimmed element).map toLower).filter
    fun coding => !coding.isEmpty

/-- The codings of all lines of transfer-codings, in order. -/
def codings (block : Bytes) : List Bytes :=
  ((fields (linesFrom [] block).tail).filter fun field => field.1 = transferEncoding).flatMap
    fun field => codingsOf field.2

theorem chunkedOnlyFrom_iff (sawCoding : Bool) (elements : List Bytes) :
    chunkedOnlyFrom sawCoding elements = true ↔
      (elements.map fun element => (trimmed element).map toLower).filter
        (fun coding => !coding.isEmpty) = if sawCoding then [] else [bytes "chunked"] := by
  induction elements generalizing sawCoding with
  | nil => cases sawCoding <;> simp [chunkedOnlyFrom]
  | cons element elements ih =>
    rw [chunkedOnlyFrom, List.map_cons, List.filter_cons, List.isEmpty_map]
    by_cases hempty : (trimmed element).isEmpty = true
    · simp only [hempty, if_true, Bool.not_true, Bool.false_eq_true, if_false]
      exact ih sawCoding
    · rw [Bool.not_eq_true] at hempty
      simp only [hempty, Bool.false_eq_true, if_false, Bool.not_false, if_true]
      cases sawCoding with
      | true => simp
      | false =>
        by_cases hcoding : (trimmed element).map toLower = bytes "chunked"
        · simp [hcoding, ih true]
        · simp [hcoding]

theorem isChunkedOnly_iff (value : Bytes) :
    isChunkedOnly value = true ↔ codingsOf value = [bytes "chunked"] :=
  chunkedOnlyFrom_iff false _

theorem codingsOf_space (value : Bytes) : codingsOf (0x20 :: value) = codingsOf value := by
  have hspace : ∀ element : Bytes, trimmed (0x20 :: element) = trimmed element := by
    intro element
    rw [trimmed, List.dropWhile_cons_of_pos (by decide)]
    rfl
  obtain ⟨first, others, hsplit⟩ := List.exists_cons_of_ne_nil (List.splitOn_ne_nil 0x2C value)
  rw [codingsOf, codingsOf, List.splitOn_cons_eq_if_modifyHead, if_neg (by decide), hsplit,
    List.modifyHead_cons, List.map_cons, List.map_cons, hspace]

theorem codingsOf_comma (slot value : Bytes) :
    codingsOf (slot ++ bytes ", " ++ value) = codingsOf slot ++ codingsOf value := by
  have hcomma : slot ++ bytes ", " ++ value = slot ++ 0x2C :: (0x20 :: value) := by
    rw [List.append_assoc]
    rfl
  rw [hcomma, codingsOf, List.splitOn_append_cons_of_beq _ _ (by decide), List.map_append,
    List.filter_append]
  exact congrArg (codingsOf slot ++ ·) (codingsOf_space value)

theorem codingsOf_fields (fields : List (Bytes × Bytes)) (headers : Bytes → Option Bytes) :
    codingsOf (((fields.foldl addField headers) transferEncoding).getD []) =
      codingsOf ((headers transferEncoding).getD []) ++
        (fields.filter fun field => field.1 = transferEncoding).flatMap
          fun field => codingsOf field.2 := by
  induction fields generalizing headers with
  | nil => exact (List.append_nil _).symm
  | cons field fields ih =>
    rw [List.foldl_cons, ih, List.filter_cons, addField]
    by_cases hname : field.1 = transferEncoding
    · rw [if_pos hname, if_pos (decide_eq_true hname), List.flatMap_cons, ← List.append_assoc,
        hname, Function.update_self, Option.getD_some]
      congr 1
      by_cases hslot : ((headers transferEncoding).getD []).isEmpty = true
      · rw [if_pos hslot, List.isEmpty_iff.mp hslot]
        rfl
      · rw [if_neg hslot, codingsOf_comma]
    · rw [if_neg hname, if_neg (by simpa using hname), Function.update_of_ne (Ne.symm hname)]

section

variable {block : Bytes} {request : HttpRequest} (h : readHeaders block = .ok request)
include h

theorem readHeaders_codings :
    codingsOf ((request.headers transferEncoding).getD []) = codings block := by
  rw [readHeaders] at h
  cases hlines : linesFrom [] block with
  | nil =>
    rw [hlines] at h
    exact nomatch h
  | cons line lines =>
    rw [hlines] at h
    dsimp only at h
    split_ifs at h
    have hall := codingsOf_fields (fields lines) fun _ => none
    rw [codings, hlines, List.tail_cons]
    split at h
    · obtain rfl := Except.ok.inj h
      exact hall
    · obtain rfl := Except.ok.inj h
      exact hall

theorem wantsIncrementalBody_iff (hlive : request.path ∈ livePaths) :
    wantsIncrementalBody request = true ↔ codings block = [bytes "chunked"] := by
  rw [wantsIncrementalBody, if_neg (not_not.mpr hlive), ← readHeaders_codings h]
  cases request.headers transferEncoding with
  | none =>
    have hnone : codingsOf [] = [] := by decide
    simp [hnone]
  | some value => exact isChunkedOnly_iff value

end

section Received

variable {pieces rest : List Bytes} {data : Bytes} {headerEnd : ℕ} {request : HttpRequest}

section

variable (maxRequestBodyBytes : ℕ)
  (hreceived : receiveHeaders [] pieces = .ok ((data, headerEnd), rest))
  (hrequest : readHeaders (data.take headerEnd) = .ok request)
include hreceived hrequest

theorem readHttpRequest_received :
    readHttpRequest maxRequestBodyBytes pieces =
      if wantsIncrementalBody request then
        .ok ((request, data.drop (headerEnd + blankLine.length)), rest)
      else do
        let length ← contentLength maxRequestBodyBytes request
        let (body, pieces) ← receiveBody length (data.drop (headerEnd + blankLine.length)) rest
        return (({ request with body := body }, []), pieces) := by
  rw [readHttpRequest, hreceived]
  change (readHeaders (data.take headerEnd) >>= fun request => _) = _
  rw [hrequest]
  rfl

theorem publishesBody_received :
    publishesBody maxRequestBodyBytes pieces = wantsIncrementalBody request := by
  have hread := readHttpRequest_received maxRequestBodyBytes hreceived hrequest
  by_cases hincremental : wantsIncrementalBody request = true
  · rw [if_pos hincremental] at hread
    rw [publishesBody, hread]
  · rw [if_neg hincremental] at hread
    rw [Bool.not_eq_true] at hincremental
    cases hresult : readHttpRequest maxRequestBodyBytes pieces with
    | error what =>
      rw [publishesBody, hresult]
      exact hincremental.symm
    | ok result =>
      rw [hresult] at hread
      obtain ⟨length, -, hbody⟩ := except_bind_ok hread.symm
      obtain ⟨⟨body, behind⟩, -, hmade⟩ := except_bind_ok hbody
      obtain rfl := Except.ok.inj hmade
      rw [publishesBody, hresult]
      rfl

/-- On a live path the handler is given a stream just if the one coding of all the lines is
`chunked`. -/
theorem publishesBody_iff (hlive : request.path ∈ livePaths) :
    publishesBody maxRequestBodyBytes pieces = true ↔
      codings (data.take headerEnd) = [bytes "chunked"] := by
  rw [publishesBody_received maxRequestBodyBytes hreceived hrequest]
  exact wantsIncrementalBody_iff hrequest hlive

end

end Received

/-- A request in two pieces with a line without codings, and `chunked` between empty elements. -/
def spreadRequest : List Bytes :=
  [bytes "POST /v1/voice/live?rate=1 HTTP/1.1\r\nTransfer-Encoding:\r\ntransfer-",
    bytes "encoding : ,\tCHUNKED ,\r\n\r\n4\r\n"]

theorem publishesBody_spread : publishesBody 0 spreadRequest = true := by
  have hreceived : receiveHeaders [] spreadRequest = .ok ((spreadRequest.flatten, 88), []) := by
    decide
  have hrequest : readHeaders (spreadRequest.flatten.take 88) = .ok _ := rfl
  exact (publishesBody_iff 0 hreceived hrequest (by decide)).mpr (by decide)

end FastTts.HttpRequests
