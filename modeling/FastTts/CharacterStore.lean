import FastTts.Character

/-!
# The character store

The active character lives in four places: in memory, as the default voice preset of the speech
model, in `character.json` and in `voice.wav`. `handle_character_set` and
`handle_character_activate` change them one after the other: they bring a recording to the active
slot, apply the character to the model, save it, keep it in the library and publish it. Each of
these is a function of its own here. How a write to the disk ends is an input.
-/

namespace FastTts.Store

/-! ## The disk -/

/-- A write fails before it touches the file, fails in the middle, or succeeds. -/
inductive WriteOutcome
  | refused
  | torn (kept : ℕ)
  | done
  deriving DecidableEq, Repr

def WriteOutcome.file (outcome : WriteOutcome) (old : Option Bytes) (data : Bytes) : Option Bytes :=
  match outcome with
  | .refused => old
  | .torn kept => some (data.take kept)
  | .done => some data

/-- A directory of one character: `store` is what its `character.json` parses to. -/
structure Directory where
  path : Bytes
  store : Option (Except Exception CharacterConfig)
  files : Bytes → Option Bytes

def voiceWav : Bytes := bytes "voice.wav"

namespace Directory

variable (directory : Directory)

def setFile (file : Bytes) (content : Option Bytes) : Directory :=
  { directory with files := Function.update directory.files file content }

def recording : Option Bytes := directory.files voiceWav

def filePath (file : Bytes) : Bytes := directory.path ++ bytes "/" ++ file

@[simp] theorem setFile_store (file : Bytes) (content : Option Bytes) :
    (directory.setFile file content).store = directory.store := rfl

@[simp] theorem recording_setFile (content : Option Bytes) :
    (directory.setFile voiceWav content).recording = content := by
  change Function.update directory.files voiceWav content voiceWav = content
  exact Function.update_self _ _ _

end Directory

/-- What one request meets on the disk: whether directories can be made, how its recording, its
`character.json` and its library entry are written, and what the file library says of a failure. -/
structure Disk where
  createDirectories : Bool
  recording : WriteOutcome
  save : WriteOutcome
  entryDirectories : Bool
  entryRecording : WriteOutcome
  entrySave : WriteOutcome
  what : Exception
  deriving DecidableEq, Repr

/-! ## The model and the character -/

variable {V : Type}

structure VoicePreset (V : Type) where
  voiceId : Option Bytes
  audio : Option V
  referenceText : Option Bytes
  deriving DecidableEq, Repr

/-- The speech model: its configured presets, and how a recording is read and normalized. -/
structure SpeechModel (V : Type) where
  presets : Bytes → Option (VoicePreset V)
  voiceOf : Bytes → Except Exception V

structure Home (V : Type) where
  character : CharacterConfig
  defaultPreset : Option (VoicePreset V)
  active : Directory
  library : Bytes → Directory

def storeMissing (directory : Directory) : Exception :=
  bytes "character store missing: " ++ directory.filePath (bytes "character.json")

def recordingMissing : Bytes := bytes "recording missing"

def readCharacterFile (directory : Directory) : Except Exception CharacterConfig :=
  match directory.store with
  | none => .error (storeMissing directory)
  | some (.error what) => .error what
  | some (.ok stored) => do
    let name ← sanitizeCharacterName stored.name
    let character := { stored with name := name }
    if character.preset.isEmpty && character.voiceFile.isEmpty then
      .error (bytes "character store " ++ directory.filePath (bytes "character.json") ++
        bytes " names neither a preset nor a voice_file")
    else if character.isCustom && (directory.files character.voiceFile).isNone then
      .error (bytes "character recording missing: " ++ directory.filePath character.voiceFile)
    else .ok character

/-- A recording that has vanished brings back the default character. -/
def loadCharacter (directory : Directory) : Except Exception CharacterConfig :=
  if directory.store.isNone then .ok defaultCharacter
  else match readCharacterFile directory with
    | .ok character => .ok character
    | .error what =>
      if (find what recordingMissing).isSome then .ok defaultCharacter else .error what

def readRecording (m : SpeechModel V) (directory : Directory) (file : Bytes) : Except Exception V :=
  match directory.files file with
  | some content => m.voiceOf content
  | none => .error (bytes "could not open WAV input: " ++ directory.filePath file)

/-- The voice that a character speaks with. -/
def presetOf (m : SpeechModel V) (character : CharacterConfig) (directory : Directory) :
    Except Exception (VoicePreset V) :=
  if character.isCustom then
    (readRecording m directory character.voiceFile).map fun audio =>
      ⟨none, some audio,
        if character.transcript.isEmpty then none else some character.transcript⟩
  else match m.presets character.preset with
    | some preset => .ok preset
    | none => .error (bytes "character preset '" ++ character.preset ++
        bytes "' is not a configured voice preset")

def applyCharacter (m : SpeechModel V) (home : Home V) (character : CharacterConfig) :
    Except Exception (Home V) :=
  (presetOf m character home.active).map fun preset =>
    { home with defaultPreset := some preset }

/-- What `character.json` says once the character has been written to it. -/
def written (character : CharacterConfig) : CharacterConfig :=
  { character with ttsSeed := if 0 ≤ character.ttsSeed then character.ttsSeed else -1 }

def couldNotWrite (path : Bytes) : Exception := bytes "could not write character store: " ++ path

/-- `save_character`; a file torn in the middle does not parse. -/
def saveCharacter (directory : Directory) (character : CharacterConfig)
    (createDirectories : Bool) (outcome : WriteOutcome) (what : Exception) :
    Except Exception Unit × Directory :=
  if !createDirectories then (.error what, directory)
  else
    let failure := couldNotWrite (directory.filePath (bytes "character.json"))
    match outcome with
    | .refused => (.error failure, directory)
    | .torn _ => (.error failure, { directory with store := some (.error failure) })
    | .done => (.ok (), { directory with store := some (.ok (written character)) })

/-! ## The two requests -/

structure MultipartPart where
  name : Bytes
  filename : Bytes
  data : Bytes
  deriving DecidableEq, Repr

variable {N : Type}

/-- A set request after its body has been parsed: an upload, or an edit. -/
inductive SetRequest (N : Type)
  | upload (parts : Except Exception (List MultipartPart))
  | edit (body : Except Exception (Json N))

/-- `std::filesystem::path::extension` of a file name. -/
def extension (filename : Bytes) : Bytes :=
  let name := filename.rtakeWhile (· ≠ 0x2F)
  if name = bytes "." ∨ name = bytes ".." then []
  else match rfindByte name 0x2E name.length with
    | some (i + 1) => name.drop (i + 1)
    | _ => []

def isWavUploadFilename (filename : Bytes) : Bool :=
  let ext := (extension filename).map toLower
  ext.isEmpty || decide (ext = bytes ".wav")

/-- `std::stoll` in base ten. -/
def stoll (text : Bytes) : Option ℤ :=
  let rest := text.dropWhile isSpace
  let negative := decide (rest.head? = some 0x2D)
  let unsigned := if negative || decide (rest.head? = some 0x2B) then rest.tail else rest
  let digits := unsigned.takeWhile isDigit
  let magnitude : ℤ := digits.foldl (fun n ch => n * 10 + ((ch.toNat : ℤ) - 0x30)) 0
  let value := if negative then -magnitude else magnitude
  if digits.isEmpty ∨ value < -2 ^ 63 ∨ 2 ^ 63 ≤ value then none else some value

/-- One part of the form: the file, or a field of the character. -/
def readPart (state : CharacterConfig × Option MultipartPart) (part : MultipartPart) :
    CharacterConfig × Option MultipartPart :=
  if part.name = bytes "file" ∨ part.name = bytes "voice" then (state.1, some part)
  else if part.name = bytes "name" then ({ state.1 with name := part.data }, state.2)
  else if part.name = bytes "transcript" ∨ part.name = bytes "reference_text" then
    ({ state.1 with transcript := part.data }, state.2)
  else if part.name = bytes "persona" then ({ state.1 with persona := part.data }, state.2)
  else if part.name = bytes "tts_seed" then
    ({ state.1 with ttsSeed := (stoll part.data).getD (-1) }, state.2)
  else state

/-- A custom voice. The persona is inherited unless the form replaces it. -/
def readUpload (persona : Bytes) (parts : List MultipartPart) :
    Except Exception (CharacterConfig × Bytes) :=
  let form := parts.foldl readPart ({ CharacterConfig.blank with persona := persona }, none)
  match form.2 with
  | none => .error (bytes "a custom character voice requires a non-empty 'file' upload")
  | some file =>
    if file.data.isEmpty then
      .error (bytes "a custom character voice requires a non-empty 'file' upload")
    else if !isWavUploadFilename file.filename then
      .error (bytes "only WAV uploads are supported for the character voice")
    else (sanitizeCharacterName form.1.name).map fun name =>
      ({ form.1 with name := name, voiceFile := voiceWav }, file.data)

/-- A preset by name switches the voice; a transcript counts for a custom voice only. -/
def editVoice (character : CharacterConfig) (body : Json N) : CharacterConfig :=
  match (body.find (bytes "preset")).bind Json.string? with
  | some (ch :: preset) =>
    { character with preset := ch :: preset, voiceFile := [], transcript := [] }
  | _ =>
    match (body.find (bytes "transcript")).bind Json.string? with
    | some transcript =>
      if character.isCustom then { character with transcript := transcript } else character
    | none => character

def readEdit [Number N] (base : CharacterConfig) (body : Json N) :
    Except Exception CharacterConfig := do
  let name ← body.requireString (bytes "name") >>= sanitizeCharacterName
  let voiced := editVoice { base with name := name } body
  let character := { voiced with persona := body.optionalString (bytes "persona") voiced.persona }
  let seed ← body.optionalI64 (bytes "tts_seed") character.ttsSeed
  let character := { character with ttsSeed := seed }
  if character.preset.isEmpty && !character.isCustom then
    .error (bytes "the character needs a voice: name a 'preset' or upload a recording")
  else .ok character

/-- Where a recording comes from that is brought to the active slot. -/
inductive Source
  | upload (data : Bytes)
  | entry (id file : Bytes)
  deriving DecidableEq, Repr

structure Order where
  character : CharacterConfig
  source : Option Source
  inLibrary : Bool
  deriving DecidableEq, Repr

def readSet [Number N] (current : CharacterConfig) (createDirectories : Bool) (what : Exception) :
    SetRequest N → Except Exception Order
  | .upload parts => do
    let upload ← parts >>= readUpload current.persona
    if createDirectories then .ok ⟨upload.1, some (.upload upload.2), true⟩ else .error what
  | .edit body => do
    let character ← body >>= readEdit current
    return ⟨character, none, true⟩

/-- The errors before the library entry is loaded are answered at once, except for a body that does
not parse or has no id. -/
def readActivate (library : Bytes → Directory) (body : Except Exception (Json N)) :
    Except HttpError Order := do
  let id ← uncaught (body >>= fun body => body.requireString (bytes "id"))
  if !isValidCharacterId id then .error (badRequest (bytes "invalid character id"))
  else if (library id).store.isNone then
    .error (badRequest (bytes "no saved character with id '" ++ id ++ bytes "'"))
  else do
    let character ← rejected (loadCharacter (library id))
    return if character.isCustom then
        ⟨{ character with voiceFile := voiceWav }, some (.entry id character.voiceFile), false⟩
      else ⟨character, none, false⟩

inductive Request (N : Type)
  | set (request : SetRequest N)
  | activate (body : Except Exception (Json N))

def noModel : HttpError :=
  badRequest (bytes "no TTS model is configured to give the character a voice")

def readRequest [Number N] (home : Home V) (disk : Disk) : Request N → Except HttpError Order
  | .set request =>
    rejected (readSet home.character disk.createDirectories disk.what request)
  | .activate body => readActivate home.library body

/-! ## The steps of a request -/

/-- The bytes of a recording at the time it is copied. -/
def Source.data (home : Home V) : Source → Option Bytes
  | .upload data => some data
  | .entry id file => (home.library id).files file

variable (home : Home V) (disk : Disk)

/-- What is said of a recording that could not be written. -/
def Source.failure : Source → Exception
  | .upload _ => bytes "could not write " ++ home.active.filePath voiceWav
  | .entry _ _ => disk.what

/-- The recording replaces that of the active slot. -/
def bringRecording (source : Source) : Except Exception Unit × Home V :=
  match source.data home with
  | none => (.error disk.what, home)
  | some data =>
    let file := disk.recording.file home.active.recording data
    (if disk.recording = .done then .ok () else .error (source.failure home disk),
      { home with active := home.active.setFile voiceWav file })

def saveActive (character : CharacterConfig) : Except Exception Unit × Home V :=
  let saved := saveCharacter home.active character disk.createDirectories disk.save disk.what
  (saved.1, { home with active := saved.2 })

def storeInLibrary (character : CharacterConfig) : Except Exception Unit × Home V :=
  let id := characterSlug character.name
  let entry := home.library id
  let set := fun entry => { home with library := Function.update home.library id entry }
  if !disk.entryDirectories then (.error disk.what, home)
  else if character.isCustom then
    match home.active.files character.voiceFile with
    | none => (.error disk.what, home)
    | some data =>
      let entry := entry.setFile voiceWav (disk.entryRecording.file entry.recording data)
      if disk.entryRecording = .done then
        let saved := saveCharacter entry { character with voiceFile := voiceWav } true
          disk.entrySave disk.what
        (saved.1, set saved.2)
      else (.error disk.what, set entry)
  else
    let saved := saveCharacter entry character true disk.entrySave disk.what
    (saved.1, set saved.2)

def publish (character : CharacterConfig) : Home V :=
  { home with character := character }

/-! ## A request from beginning to end -/

def commit (order : Order) : Except HttpError Unit × Home V :=
  let saved := saveActive home disk order.character
  match saved.1 with
  | .error what => (.error (serverError what), saved.2)
  | .ok _ =>
    let stored := if order.inLibrary then storeInLibrary saved.2 disk order.character
      else (.ok (), saved.2)
    match stored.1 with
    | .error what => (.error (serverError what), stored.2)
    | .ok _ => (.ok (), publish stored.2 order.character)

def bring (order : Order) : Except Exception Unit × Home V :=
  match order.source with
  | some source => bringRecording home disk source
  | none => (.ok (), home)

def handle [Number N] (m : Option (SpeechModel V)) (home : Home V) (disk : Disk)
    (request : Request N) : Except HttpError Unit × Home V :=
  match m with
  | none => (.error noModel, home)
  | some m =>
    match readRequest home disk request with
    | .error e => (.error e, home)
    | .ok order =>
      let brought := bring home disk order
      match brought.1 with
      | .error what => (.error (badRequest what), brought.2)
      | .ok _ =>
        match applyCharacter m brought.2 order.character with
        | .error what => (.error (badRequest what), brought.2)
        | .ok applied => commit applied disk order

end FastTts.Store
