import FastTts.JsonWriting

/-!
# Safetensors files

A file is the length of its header, the header, a JSON object with one member for each tensor, and
the bytes of the tensors. The writer and the reader of the header are both written by hand: the
writer escapes a string, and the reader only drops the backslashes.
-/

namespace FastTts.Safetensors

open JsonText (natText intText digitsValue readSign joined arrayText)

/-! ## Reading JSON -/

variable (text : Bytes)

def skipWs : Bytes := text.dropWhile isSpace

/-- A backslash goes, and the byte behind it stays as it is. -/
def stringBody (out : Bytes) : Bytes → Except Exception (Bytes × Bytes)
  | [] => .error (bytes "unterminated json string")
  | ch :: rest =>
    if ch = 0x5C then
      match rest with
      | [] => .error (bytes "invalid string escape")
      | escaped :: rest => stringBody (out ++ [escaped]) rest
    else if ch = 0x22 then .ok (out, rest)
    else stringBody (out ++ [ch]) rest

/-- What is behind a byte, which may have white space in front of it. -/
def accept (expected : UInt8) (text : Bytes) : Option Bytes :=
  match skipWs text with
  | [] => none
  | ch :: rest => if ch = expected then some rest else none

def parseString : Except Exception (Bytes × Bytes) :=
  match accept 0x22 text with
  | none => .error (bytes "expected json string")
  | some text => stringBody [] text

/-- `std::stoll`, for which the digits at the front are the number. -/
def stoll (text : Bytes) : Except Exception ℤ :=
  let (negative, text) := readSign (skipWs text)
  let digits := text.takeWhile isDigit
  let value : ℤ := if negative then -digitsValue digits else digitsValue digits
  if digits ≠ [] ∧ -2 ^ 63 ≤ value ∧ value < 2 ^ 63 then .ok value else .error (bytes "stoll")

def isNumberByte (ch : UInt8) : Bool := isDigit ch || ch == 0x2D

def parseInt64 : Except Exception (ℤ × Bytes) :=
  let (token, rest) := (skipWs text).span isNumberByte
  if token = [] then .error (bytes "expected integer")
  else do
    let value ← stoll token
    .ok (value, rest)

def expectChar (expected : UInt8) (text : Bytes) : Except Exception Bytes :=
  match accept expected text with
  | none => .error (bytes "expected '" ++ expected :: bytes "'")
  | some text => .ok text

/-- Behind an item stands a comma, with more items, or the end of the list. -/
def behindItem (close : UInt8) (text : Bytes) : Option (Bool × Bytes) :=
  match accept 0x2C text with
  | some rest => some (true, rest)
  | none => (accept close text).map (false, ·)

/-- Every pass of a loop over a text takes a byte, so the length of the text is fuel enough. -/
def intArrayItems : ℕ → List ℤ → Bytes → Except Exception (List ℤ × Bytes)
  | 0, _, _ => .error (bytes "invalid integer array")
  | fuel + 1, values, text =>
    match accept 0x5D text with
    | some rest => .ok (values, rest)
    | none => do
      let (value, text) ← parseInt64 text
      match behindItem 0x5D text with
      | some (true, text) => intArrayItems fuel (values ++ [value]) text
      | some (false, rest) => .ok (values ++ [value], rest)
      | none => .error (bytes "invalid integer array")

def parseIntArray : Except Exception (List ℤ × Bytes) :=
  match accept 0x5B text with
  | none => .error (bytes "expected '['")
  | some text => intArrayItems (text.length + 1) [] text

mutual

def skipValue : ℕ → Bytes → Except Exception Bytes
  | 0, _ => .error (bytes "unexpected end of json while skipping value")
  | fuel + 1, text =>
    match skipWs text with
    | [] => .error (bytes "unexpected end of json while skipping value")
    | ch :: rest =>
      if ch = 0x22 then (stringBody [] rest).map Prod.snd
      else if ch = 0x7B then skipMembers fuel rest
      else if ch = 0x5B then skipItems fuel rest
      else if isNumberByte ch then (parseInt64 (ch :: rest)).map Prod.snd
      else if bytes "true" <+: ch :: rest then .ok (rest.drop 3)
      else if bytes "false" <+: ch :: rest then .ok (rest.drop 4)
      else if bytes "null" <+: ch :: rest then .ok (rest.drop 3)
      else .error (bytes "unsupported json value while skipping")

def skipMembers : ℕ → Bytes → Except Exception Bytes
  | 0, _ => .error (bytes "invalid json object while skipping value")
  | fuel + 1, text =>
    match accept 0x7D text with
    | some rest => .ok rest
    | none => do
      let (_, text) ← parseString text
      let text ← expectChar 0x3A text
      let text ← skipValue fuel text
      match behindItem 0x7D text with
      | some (true, text) => skipMembers fuel text
      | some (false, rest) => .ok rest
      | none => .error (bytes "invalid json object while skipping value")

def skipItems : ℕ → Bytes → Except Exception Bytes
  | 0, _ => .error (bytes "invalid json array while skipping value")
  | fuel + 1, text =>
    match accept 0x5D text with
    | some rest => .ok rest
    | none => do
      let text ← skipValue fuel text
      match behindItem 0x5D text with
      | some (true, text) => skipItems fuel text
      | some (false, rest) => .ok rest
      | none => .error (bytes "invalid json array while skipping value")

end

/-- An array takes two steps for its bracket. -/
def skipJsonValue : Except Exception Bytes := skipValue (2 * text.length + 2) text

section Emplace

variable {β : Type}

/-- `emplace` keeps the value that a key has. -/
def emplace (values : List (Bytes × β)) (entry : Bytes × β) : List (Bytes × β) :=
  if entry.1 ∈ values.map Prod.fst then values else values ++ [entry]

end Emplace

def stringMapMembers :
    ℕ → List (Bytes × Bytes) → Bytes → Except Exception (List (Bytes × Bytes) × Bytes)
  | 0, _, _ => .error (bytes "invalid string map object")
  | fuel + 1, values, text =>
    match accept 0x7D text with
    | some rest => .ok (values, rest)
    | none => do
      let (key, text) ← parseString text
      let text ← expectChar 0x3A text
      let (value, text) ← parseString text
      match behindItem 0x7D text with
      | some (true, text) => stringMapMembers fuel (emplace values (key, value)) text
      | some (false, rest) => .ok (emplace values (key, value), rest)
      | none => .error (bytes "invalid string map object")

def parseStringMap : Except Exception (List (Bytes × Bytes) × Bytes) := do
  let text ← expectChar 0x7B text
  stringMapMembers (text.length + 1) [] text

/-! ## Reading the index -/

structure SafeTensorInfo where
  name : Bytes
  dtype : Bytes
  shape : List ℤ
  dataBegin : ℕ
  dataEnd : ℕ
  deriving DecidableEq, Repr

structure SafeTensorIndex where
  metadata : List (Bytes × Bytes)
  tensors : List (Bytes × SafeTensorInfo)
  headerBytes : ℕ
  deriving DecidableEq, Repr

def metadataKey : Bytes := bytes "__metadata__"

def withOffsets (tensorName : Bytes) (info : SafeTensorInfo) (offsets : List ℤ) :
    Except Exception SafeTensorInfo :=
  match offsets with
  | [first, last] =>
    if first < 0 ∨ last < 0 then
      .error (bytes "safetensors data_offsets must be non-negative: " ++ tensorName)
    else if last < first then
      .error (bytes "safetensors data_offsets must be ordered begin <= end: " ++ tensorName)
    else .ok ⟨info.name, info.dtype, info.shape, first.toNat, last.toNat⟩
  | _ => .error (bytes "safetensors data_offsets must contain 2 entries")

def readField (tensorName field : Bytes) (info : SafeTensorInfo) (text : Bytes) :
    Except Exception (SafeTensorInfo × Bytes) :=
  if field = bytes "dtype" then do
    let (dtype, text) ← parseString text
    .ok (⟨info.name, dtype, info.shape, info.dataBegin, info.dataEnd⟩, text)
  else if field = bytes "shape" then do
    let (shape, text) ← parseIntArray text
    .ok (⟨info.name, info.dtype, shape, info.dataBegin, info.dataEnd⟩, text)
  else if field = bytes "data_offsets" then do
    let (offsets, text) ← parseIntArray text
    let info ← withOffsets tensorName info offsets
    .ok (info, text)
  else .error (bytes "unsupported safetensors header field: " ++ field)

def readFields (tensorName : Bytes) :
    ℕ → SafeTensorInfo → Bytes → Except Exception (SafeTensorInfo × Bytes)
  | 0, _, _ => .error (bytes "invalid safetensors tensor object")
  | fuel + 1, info, text => do
    let (field, text) ← parseString text
    let text ← expectChar 0x3A text
    let (info, text) ← readField tensorName field info text
    match behindItem 0x7D text with
    | some (true, text) => readFields tensorName fuel info text
    | some (false, rest) => .ok (info, rest)
    | none => .error (bytes "invalid safetensors tensor object")

/-- Some writers put a null there. -/
def readMetadata (metadata : List (Bytes × Bytes)) (text : Bytes) :
    Except Exception (List (Bytes × Bytes) × Bytes) :=
  if (accept 0x7B text).isSome then parseStringMap text
  else (skipJsonValue text).map fun rest => (metadata, rest)

def readTensor (tensorName text : Bytes) : Except Exception (SafeTensorInfo × Bytes) := do
  let text ← expectChar 0x7B text
  readFields tensorName (text.length + 1) ⟨tensorName, [], [], 0, 0⟩ text

/-- The loop over the members of the header. Behind a tensor, a comma may be missing. -/
def loadMembers : ℕ → SafeTensorIndex → Bytes → Except Exception SafeTensorIndex
  | 0, _, _ => .error (bytes "expected json string")
  | fuel + 1, index, text =>
    match accept 0x7D text with
    | some _ => .ok index
    | none => do
      let (tensorName, text) ← parseString text
      let text ← expectChar 0x3A text
      if tensorName = metadataKey then do
        let (metadata, text) ← readMetadata index.metadata text
        match behindItem 0x7D text with
        | some (true, text) => loadMembers fuel ⟨metadata, index.tensors, index.headerBytes⟩ text
        | some (false, _) => .ok ⟨metadata, index.tensors, index.headerBytes⟩
        | none => .error (bytes "invalid safetensors metadata object")
      else do
        let (info, text) ← readTensor tensorName text
        let tensors := emplace index.tensors (info.name, info)
        match behindItem 0x7D text with
        | some (true, text) => loadMembers fuel ⟨index.metadata, tensors, index.headerBytes⟩ text
        | some (false, _) => .ok ⟨index.metadata, tensors, index.headerBytes⟩
        | none => loadMembers fuel ⟨index.metadata, tensors, index.headerBytes⟩ text

def loadHeader (header : Bytes) : Except Exception SafeTensorIndex := do
  let text ← expectChar 0x7B header
  loadMembers (text.length + 1) ⟨[], [], 8 + header.length⟩ text

/-- The number that bytes make, the lowest one first. -/
def number (raw : Bytes) : ℕ := raw.foldr (fun ch value => ch.toNat + 256 * value) 0

/-- There is no file where it does not open. -/
def loadSafetensorsIndex (path : Bytes) (file : Option Bytes) : Except Exception SafeTensorIndex :=
  match file with
  | none => .error (bytes "failed to open safetensors file: " ++ path ++
      bytes "; the file may be missing, malformed, or placed in the wrong location")
  | some file =>
    let headerLen := number (file.take 8)
    if file.length < 8 then .error (bytes "failed to read safetensors header length: " ++ path)
    else if 2 ^ 63 ≤ headerLen then .error (bytes "basic_string::_M_create")
    else if file.length < 8 + headerLen then
      .error (bytes "failed to read safetensors header: " ++ path)
    else loadHeader ((file.drop 8).take headerLen)

/-! ## Writing -/

/-- A tensor to write. A dimension is an `int64_t`, and the bytes are those of a vector. -/
structure SafeTensorWriteEntry where
  name : Bytes
  dtype : Bytes
  shape : List ℤ
  data : Bytes
  shape_int64 : ∀ dim ∈ shape, -2 ^ 63 ≤ dim ∧ dim < 2 ^ 63
  data_size : data.length < 2 ^ 63

def writeU64Le (value : ℕ) : Bytes :=
  (List.range 8).map fun i => UInt8.ofNat (value >>> (i * 8) &&& 0xFF)

def escapeByte (ch : UInt8) : Bytes :=
  if ch = 0x5C then bytes "\\\\"
  else if ch = 0x22 then bytes "\\\""
  else if ch = 0x08 then bytes "\\b"
  else if ch = 0x0C then bytes "\\f"
  else if ch = 0x0A then bytes "\\n"
  else if ch = 0x0D then bytes "\\r"
  else if ch = 0x09 then bytes "\\t"
  else if ch < 0x20 then
    bytes "\\u00" ++ [hexDigit (ch.toNat >>> 4 &&& 0x0F), hexDigit (ch.toNat &&& 0x0F)]
  else [ch]

def escapeJsonString (value : Bytes) : Bytes := value.flatMap escapeByte

def shapeToJson (shape : List ℤ) : Bytes := arrayText (shape.map intText)

/-- An offset is a `size_t`. -/
def offsetsFrom (cursor : ℕ) : List SafeTensorWriteEntry → List (ℕ × ℕ)
  | [] => []
  | entry :: entries =>
    let next := (cursor + entry.data.length) % 2 ^ 64
    (cursor, next) :: offsetsFrom next entries

def checkEntries (names : List Bytes) : List SafeTensorWriteEntry → Except Exception Unit
  | [] => .ok ()
  | entry :: entries =>
    if entry.name = [] ∨ entry.dtype = [] then
      .error (bytes "safetensors writer received an unnamed tensor or dtype")
    else if entry.name ∈ names then
      .error (bytes "safetensors writer received duplicate tensor: " ++ entry.name)
    else if ∃ dim ∈ entry.shape, dim < 0 then
      .error (bytes "safetensors writer received negative shape dimension: " ++ entry.name)
    else checkEntries (entry.name :: names) entries

def memberText (member : SafeTensorWriteEntry × ℕ × ℕ) : Bytes :=
  bytes "\"" ++ escapeJsonString member.1.name ++ bytes "\":\x7b" ++
  (bytes "\"dtype\":\"" ++ escapeJsonString member.1.dtype ++ bytes "\",") ++
  (bytes "\"shape\":" ++ shapeToJson member.1.shape ++ bytes ",") ++
  (bytes "\"data_offsets\":[" ++ natText member.2.1 ++ bytes "," ++ natText member.2.2 ++
    bytes "]") ++ bytes "\x7d"

def members (entries : List SafeTensorWriteEntry) : List (SafeTensorWriteEntry × ℕ × ℕ) :=
  entries.zip (offsetsFrom 0 entries)

/-- The header is filled up with blanks to a multiple of eight bytes. -/
def headerText (entries : List SafeTensorWriteEntry) : Bytes :=
  let header := bytes "\x7b" ++ joined ((members entries).map memberText) ++ bytes "\x7d"
  header ++ List.replicate ((8 - header.length % 8) % 8) 0x20

/-- The bytes of the file. The header is a `std::string`, which has a greatest size. -/
def writeSafetensorsFile (path : Bytes) (opened : Bool) (entries : List SafeTensorWriteEntry) :
    Except Exception Bytes :=
  if entries = [] then .error (bytes "safetensors writer requires at least one tensor")
  else do
    checkEntries [] entries
    let header := headerText entries
    if 2 ^ 63 ≤ header.length then .error (bytes "basic_string::append")
    else if opened then .ok (writeU64Le header.length ++ header ++ entries.flatMap (·.data))
    else .error (bytes "failed to open safetensors output file: " ++ path)

end FastTts.Safetensors
