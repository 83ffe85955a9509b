import FastTts.CharacterStore

/-!
# Switching the language model

`handle_llm_settings_set` changes three places: the sidecar process that runs the model, the file
`llm.json` and the settings in memory. What the request meets outside of the server, such as how a
process comes up, is an input.
-/

namespace FastTts.Llm

open FastTts.Store (WriteOutcome)

/-! ## The sidecar -/

structure LlmModelSpec where
  id : Bytes
  name : Bytes
  path : Bytes
  deriving DecidableEq, Repr

/-- The process that was spawned last; it may have exited since. -/
structure Sidecar where
  id : Bytes
  running : Bool
  deriving DecidableEq, Repr

structure LlmManager where
  serverExe : Bytes
  process : Option Sidecar
  deriving DecidableEq, Repr

/-- How a spawned process answers `/health` before the deadline. -/
inductive Load
  | ready
  | exited
  | stalled
  deriving DecidableEq, Repr

structure Launch where
  serverExe : Bool
  modelFile : Bool
  errno : Option ℕ
  load : Load
  deriving DecidableEq, Repr

namespace LlmManager

def currentModelId (manager : LlmManager) : Bytes := (manager.process.map Sidecar.id).getD []

def processRunning (manager : LlmManager) : Bool := manager.process.any Sidecar.running

def stop (manager : LlmManager) : LlmManager := { manager with process := none }

def start (manager : LlmManager) (spec : LlmModelSpec) (launch : Launch) :
    Except Exception Unit × LlmManager :=
  if manager.process.isSome then
    (.error (bytes "a sidecar is already running; stop it first"), manager)
  else if !launch.serverExe then
    (.error (bytes "llama-server not found at " ++ manager.serverExe), manager)
  else if !launch.modelFile then (.error (bytes "model file not found: " ++ spec.path), manager)
  else match launch.errno with
    | some errno => (.error (bytes "could not start llama-server (errno " ++
        bytes (toString errno) ++ bytes ")"), manager)
    | none => (.ok (), { manager with process := some ⟨spec.id, true⟩ })

def waitReady (manager : LlmManager) (timeoutSeconds : ℕ) (load : Load) :
    Except Exception Unit × LlmManager :=
  let exited := bytes "llama-server exited during model load; see llama_server.stderr.log"
  if !manager.processRunning then (.error exited, manager)
  else match load with
    | .ready => (.ok (), manager)
    | .exited => (.error exited, { manager with
        process := manager.process.map fun sidecar => { sidecar with running := false } })
    | .stalled => (.error (bytes "llama-server did not become healthy in " ++
        bytes (toString timeoutSeconds) ++ bytes " s"), manager)

/-- `start(spec, error) && wait_ready(300, error)`. -/
def bringUp (manager : LlmManager) (spec : LlmModelSpec) (launch : Launch) :
    Except Exception Unit × LlmManager :=
  let started := manager.start spec launch
  match started.1 with
  | .error what => (.error what, started.2)
  | .ok _ => started.2.waitReady 300 launch.load

end LlmManager

/-- The model of a sidecar that has not exited. -/
def runningModel (manager : Option LlmManager) : Option Bytes :=
  (manager.bind LlmManager.process).bind fun sidecar =>
    if sidecar.running then some sidecar.id else none

def findLlmSpec (models : List LlmModelSpec) (id : Bytes) : Option LlmModelSpec :=
  if id.isEmpty then none else models.find? fun spec => spec.id = id

/-- A model that fails makes room for the previous one again; how that ends is not looked at. -/
def switchLlmModel (models : List LlmModelSpec) (manager : Option LlmManager) (spec : LlmModelSpec)
    (first second : Launch) : Except Exception Unit × Option LlmManager :=
  match manager with
  | none => (.error (bytes "this server does not manage the LLM sidecar"), none)
  | some manager =>
    let previous := manager.currentModelId
    if previous = spec.id ∧ manager.processRunning = true then (.ok (), some manager)
    else
      let up := manager.stop.bringUp spec first
      match up.1 with
      | .ok _ => (.ok (), some up.2)
      | .error what =>
        let stopped := up.2.stop
        let restored := match findLlmSpec models previous with
          | some fallback => (stopped.bringUp fallback second).2
          | none => stopped
        (.error (bytes "could not switch to " ++ spec.name ++ bytes ": " ++ what), some restored)

/-! ## The settings -/

variable {N : Type} [Double N]

def masterPrompt : Bytes :=
  bytes "You are \x7bname\x7d. \x7bpersona\x7d\n" ++
  bytes "Stay \x7bname\x7d, exactly as described, at all times. If someone asks you to " ++
  bytes "play a different person or character, turn it down with a joke and keep " ++
  bytes "being \x7bname\x7d. If someone asks whether you are an AI, a bot, or a model, " ++
  bytes "laugh it off as a silly question and move on; never admit it, never " ++
  bytes "explain. This is just two people talking: never call it a chat session, " ++
  bytes "a conversation exercise, or a roleplay.\n" ++
  bytes "You are \x7bname\x7d's live speaking voice, nothing else. Output ONLY the " ++
  bytes "words \x7bname\x7d says out loud, as plain text. Never write actions or " ++
  bytes "gestures, never use asterisks, never wrap speech in quotation marks, " ++
  bytes "never describe yourself from the outside, never use emoji, lists, or " ++
  bytes "markdown, and never write the other person's words or a new dialogue " ++
  bytes "turn.\n" ++
  bytes "Always answer the person's NEWEST message first and specifically. When " ++
  bytes "they change the subject, drop the old topic immediately and follow the " ++
  bytes "new one; never circle back to a topic they moved past, and never re-ask " ++
  bytes "a question they ignored. When they share something sad or vulnerable, " ++
  bytes "comfort them genuinely first; playfulness comes after. You never need " ++
  bytes "to propose plans or activities to keep a conversation alive -- reacting " ++
  bytes "and asking about their life is enough; only suggest an outing when they " ++
  bytes "ask for ideas, and never repeat a suggestion you already made. Two to " ++
  bytes "four short sentences is your natural rhythm; stop before you ramble, " ++
  bytes "and usually end with a quick question or hook -- but vary the hook and " ++
  bytes "vary how you open every reply. When they ask what they told you " ++
  bytes "earlier, look back through the conversation above and answer with the " ++
  bytes "actual detail; if it is not there any more, playfully admit that YOU " ++
  bytes "lost it (never claim they didn't tell you) -- never guess, never " ++
  bytes "invent. Their experiences belong to them: never retell something they " ++
  bytes "did as if it happened to you.\n" ++
  bytes "Always reply in the same language the person's newest message is " ++
  bytes "written in; if unsure, use English."

def defaultLlmSettings : LlmSettings N :=
  ⟨masterPrompt, Double.lit 0.55, Double.lit 0.75, Double.lit 1.1, 140, true, []⟩

def validateLlmSettings (settings : LlmSettings N) : Except Exception Unit :=
  if 4000 < settings.masterPrompt.length then
    .error (bytes "master prompt must be at most 4000 characters")
  else if ¬ (Double.lit 0 ≤ settings.temperature ∧ settings.temperature ≤ Double.lit 2) then
    .error (bytes "temperature must be between 0 and 2")
  else if ¬ (Double.lit 0 < settings.topP ∧ settings.topP ≤ Double.lit 1) then
    .error (bytes "top_p must be between 0 and 1")
  else if ¬ (Double.lit 1 ≤ settings.repeatPenalty ∧ settings.repeatPenalty ≤ Double.lit 2) then
    .error (bytes "repeat penalty must be between 1 and 2")
  else if settings.maxTokens < 16 ∨ 1024 < settings.maxTokens then
    .error (bytes "max_tokens must be between 16 and 1024")
  else .ok ()

def llmSettingsText (settings : LlmSettings N) : Bytes :=
  bytes "\x7b\"master_prompt\":\"" ++ jsonEscape settings.masterPrompt ++ bytes "\"" ++
  bytes ",\"temperature\":" ++ Double.print settings.temperature ++
  bytes ",\"top_p\":" ++ Double.print settings.topP ++
  bytes ",\"repeat_penalty\":" ++ Double.print settings.repeatPenalty ++
  bytes ",\"max_tokens\":" ++ bytes (toString settings.maxTokens) ++
  bytes ",\"length_ramp\":" ++ bytes (toString settings.lengthRamp) ++
  (if settings.model.isEmpty then []
    else bytes ",\"model\":\"" ++ jsonEscape settings.model ++ bytes "\"") ++
  bytes "\x7d"

/-! ## The request -/

structure Config where
  models : List LlmModelSpec
  characterDir : Bytes
  deriving DecidableEq, Repr

structure Server (N : Type) where
  manager : Option LlmManager
  file : Option Bytes
  settings : LlmSettings N
  deriving DecidableEq, Repr

/-- What the request meets: the model files that exist, how the model and then the previous one
come up, and how the settings are written. -/
structure Surroundings where
  modelFiles : Bytes → Bool
  first : Launch
  second : Launch
  createDirectories : Bool
  save : WriteOutcome
  what : Exception

def saveLlmSettings (config : Config) (around : Surroundings) (file : Option Bytes)
    (settings : LlmSettings N) : Except Exception Unit × Option Bytes :=
  match validateLlmSettings settings with
  | .error what => (.error what, file)
  | .ok _ =>
    if !around.createDirectories then (.error around.what, file)
    else (if around.save = .done then .ok () else .error (bytes "could not write LLM settings: " ++
        config.characterDir ++ bytes "/llm.json"),
      around.save.file file (llmSettingsText settings))

def readSettings (current : LlmSettings N) (body : Json N) : Except Exception (LlmSettings N) :=
  let number := fun key old => ((body.find key).bind Json.number?).getD old
  if body.flag (bytes "reset") then .ok defaultLlmSettings
  else do
    let maxTokens ← body.optionalI64 (bytes "max_tokens") current.maxTokens
    return { current with
      masterPrompt := body.optionalString (bytes "master_prompt") current.masterPrompt
      temperature := number (bytes "temperature") current.temperature
      topP := number (bytes "top_p") current.topP
      repeatPenalty := number (bytes "repeat_penalty") current.repeatPenalty
      maxTokens := maxTokens
      lengthRamp := match body.find (bytes "length_ramp") with
        | some (.bool ramp) => ramp
        | _ => current.lengthRamp }

/-- The model that the request asks for, if it names one. -/
def readModel (config : Config) (around : Surroundings) (body : Json N) :
    Except HttpError (Option LlmModelSpec) :=
  let requested := body.optionalString (bytes "model") []
  if requested.isEmpty then .ok none
  else match findLlmSpec config.models requested with
    | none => .error (badRequest (bytes "unknown chat model: " ++ requested))
    | some spec =>
      if around.modelFiles spec.path then .ok (some spec)
      else .error (badRequest (spec.name ++ bytes " is not installed yet"))

def readRequest (config : Config) (around : Surroundings) (current : LlmSettings N)
    (body : Except Exception (Json N)) :
    Except HttpError (LlmSettings N × Option LlmModelSpec) := do
  let body ← uncaught body
  let settings ← uncaught (readSettings current body)
  let switchTo ← readModel config around body
  return (match switchTo with
    | some spec => { settings with model := spec.id }
    | none => settings, switchTo)

def unavailable (what : Exception) : HttpError := ⟨500, what, bytes "llm_unavailable"⟩

/-- The part of the request after the switch. -/
def saveAndPublish (config : Config) (around : Surroundings) (server : Server N)
    (settings : LlmSettings N) : Except HttpError Unit × Server N :=
  let saved := saveLlmSettings config around server.file settings
  match saved.1 with
  | .error what => (.error (badRequest what), { server with file := saved.2 })
  | .ok _ => (.ok (), { server with file := saved.2, settings := settings })

def trySwitch (config : Config) (around : Surroundings) (manager : Option LlmManager)
    (switchTo : Option LlmModelSpec) : Except Exception Unit × Option LlmManager :=
  match switchTo with
  | some spec => switchLlmModel config.models manager spec around.first around.second
  | none => (.ok (), manager)

def handleLlmSettingsSet (config : Config) (around : Surroundings) (server : Server N)
    (body : Except Exception (Json N)) : Except HttpError Unit × Server N :=
  match readRequest config around server.settings body with
  | .error e => (.error e, server)
  | .ok (settings, switchTo) =>
    let switched := trySwitch config around server.manager switchTo
    let server := { server with manager := switched.2 }
    match switched.1 with
    | .error what => (.error (unavailable what), server)
    | .ok _ => saveAndPublish config around server settings

/-! ## What an error leaves -/

structure Unchanged (before after : Server N) : Prop where
  running : runningModel after.manager = runningModel before.manager
  file : after.file = before.file
  settings : after.settings = before.settings

omit [Double N] in
theorem Unchanged.refl (server : Server N) : Unchanged server server := ⟨rfl, rfl, rfl⟩

namespace Launch

def spawns (launch : Launch) : Bool :=
  launch.serverExe && launch.modelFile && launch.errno.isNone

def comesUp (launch : Launch) : Bool := launch.spawns && decide (launch.load = .ready)

/-- The process is there when the deadline has passed, ready or not. -/
def staysUp (launch : Launch) : Bool := launch.spawns && decide (launch.load ≠ .exited)

end Launch

variable {launch : Launch}

theorem start_stopped {manager : LlmManager} (hstopped : manager.process = none)
    (spec : LlmModelSpec) (hspawns : launch.spawns = true) :
    manager.start spec launch = (.ok (), { manager with process := some ⟨spec.id, true⟩ }) := by
  simp only [Launch.spawns, Bool.and_eq_true, Option.isNone_iff_eq_none] at hspawns
  obtain ⟨⟨hexe, hfile⟩, herrno⟩ := hspawns
  simp [LlmManager.start, hstopped, hexe, hfile, herrno]

theorem start_fails (manager : LlmManager) (spec : LlmModelSpec) (hspawns : launch.spawns = false) :
    ∃ what, manager.start spec launch = (.error what, manager) := by
  rw [LlmManager.start]
  split_ifs with hrunning hexe hfile
  · exact ⟨_, rfl⟩
  · exact ⟨_, rfl⟩
  · exact ⟨_, rfl⟩
  · split
    · exact ⟨_, rfl⟩
    · next herrno => simp_all [Launch.spawns]

theorem bringUp_ok {manager : LlmManager} (hstopped : manager.process = none) (spec : LlmModelSpec)
    (hup : launch.comesUp = true) :
    manager.bringUp spec launch = (.ok (), { manager with process := some ⟨spec.id, true⟩ }) := by
  rw [Launch.comesUp, Bool.and_eq_true, decide_eq_true_iff] at hup
  rw [LlmManager.bringUp, start_stopped hstopped spec hup.1]
  simp [LlmManager.waitReady, LlmManager.processRunning, hup.2]

theorem bringUp_error (manager : LlmManager) (spec : LlmModelSpec)
    (hstopped : manager.process = none) (hup : launch.comesUp = false) :
    ∃ what, (manager.bringUp spec launch).1 = .error what := by
  rw [LlmManager.bringUp]
  cases hspawns : launch.spawns with
  | false =>
    obtain ⟨what, hstart⟩ := start_fails manager spec hspawns
    rw [hstart]
    exact ⟨what, rfl⟩
  | true =>
    rw [Launch.comesUp, hspawns, Bool.true_and, decide_eq_false_iff_not] at hup
    rw [start_stopped hstopped spec hspawns]
    cases hload : launch.load with
    | ready => exact absurd hload hup
    | exited => exact ⟨_, rfl⟩
    | stalled => exact ⟨_, rfl⟩

theorem runningModel_bringUp {manager : LlmManager} (hstopped : manager.process = none)
    (spec : LlmModelSpec) (launch : Launch) :
    runningModel (some (manager.bringUp spec launch).2) =
      if launch.staysUp then some spec.id else none := by
  rw [LlmManager.bringUp]
  cases hspawns : launch.spawns with
  | false =>
    obtain ⟨what, hstart⟩ := start_fails manager spec hspawns
    rw [hstart, Launch.staysUp, hspawns]
    simp [runningModel, hstopped]
  | true =>
    rw [start_stopped hstopped spec hspawns, Launch.staysUp, hspawns]
    cases launch.load <;> rfl

theorem findLlmSpec_id {models : List LlmModelSpec} {id : Bytes} {spec : LlmModelSpec}
    (h : findLlmSpec models id = some spec) : spec.id = id := by
  rw [findLlmSpec] at h
  split_ifs at h
  simpa using List.find?_some h

theorem runningModel_of_running {manager : LlmManager} (h : manager.processRunning = true) :
    runningModel (some manager) = some manager.currentModelId := by
  obtain ⟨exe, process⟩ := manager
  cases process with
  | none => cases h
  | some sidecar =>
    have hrunning : sidecar.running = true := h
    simp [runningModel, LlmManager.currentModelId, hrunning]

theorem runningModel_of_idle {manager : LlmManager} (h : manager.processRunning = false) :
    runningModel (some manager) = none := by
  obtain ⟨exe, process⟩ := manager
  cases process with
  | none => rfl
  | some sidecar =>
    have hrunning : sidecar.running = false := h
    simp [runningModel, hrunning]

/-! ## A switch -/

/-- The previous model is registered, and comes up when it is started again. -/
def restartsPrevious (models : List LlmModelSpec) (manager : LlmManager) (second : Launch) : Bool :=
  (findLlmSpec models manager.currentModelId).isSome && second.staysUp

section Switch

variable {models : List LlmModelSpec} {manager : LlmManager} {spec : LlmModelSpec}
  {first second : Launch}

section

variable (hother : ¬ (manager.currentModelId = spec.id ∧ manager.processRunning = true))
include hother

theorem switchLlmModel_up (hup : first.comesUp = true) :
    switchLlmModel models (some manager) spec first second =
      (.ok (), some { manager with process := some ⟨spec.id, true⟩ }) := by
  rw [switchLlmModel]
  have hstopped : manager.stop.process = none := rfl
  simp only [if_neg hother, bringUp_ok hstopped spec hup]
  rfl

theorem switchLlmModel_down (hup : first.comesUp = false) :
    ∃ what after, switchLlmModel models (some manager) spec first second = (.error what, after) ∧
      runningModel after =
        if restartsPrevious models manager second then some manager.currentModelId else none := by
  obtain ⟨what, hwhat⟩ := bringUp_error manager.stop spec rfl hup
  rw [switchLlmModel]
  simp only [if_neg hother, hwhat]
  refine ⟨_, _, rfl, ?_⟩
  cases hfind : findLlmSpec models manager.currentModelId with
  | none => simp [restartsPrevious, hfind, runningModel, LlmManager.stop]
  | some fallback =>
    rw [restartsPrevious, hfind, Option.isSome_some, Bool.true_and, ← findLlmSpec_id hfind]
    exact runningModel_bringUp rfl fallback second

end

/-- A failed switch leaves what ran before if and only if the previous model is restarted exactly
when it had been running. -/
theorem running_after_failed_switch :
    (if restartsPrevious models manager second then some manager.currentModelId else none) =
      runningModel (some manager) ↔
    restartsPrevious models manager second = manager.processRunning := by
  cases hrunning : manager.processRunning with
  | false =>
    rw [runningModel_of_idle hrunning]
    cases restartsPrevious models manager second <;> simp
  | true =>
    rw [runningModel_of_running hrunning]
    cases restartsPrevious models manager second <;> simp

end Switch

/-! ## When an error leaves everything as it was -/

/-- The manager whose model is stopped, and the model that is to run in its place. -/
def replaced (server : Server N) (switchTo : Option LlmModelSpec) :
    Option (LlmManager × LlmModelSpec) :=
  match server.manager, switchTo with
  | some manager, some spec =>
    if manager.currentModelId = spec.id ∧ manager.processRunning = true then none
    else some (manager, spec)
  | _, _ => none

/-- The settings are refused, or the write of `llm.json` fails. -/
def Unsaved (around : Surroundings) (settings : LlmSettings N) : Prop :=
  validateLlmSettings settings ≠ .ok () ∨ around.createDirectories = false ∨ around.save ≠ .done

/-- The write of `llm.json` fails in the middle, and what it leaves is not what was there. -/
def Tears (around : Surroundings) (file : Option Bytes) (settings : LlmSettings N) : Prop :=
  validateLlmSettings settings = .ok () ∧ around.createDirectories = true ∧
    ∃ kept, around.save = .torn kept ∧ some ((llmSettingsText settings).take kept) ≠ file

/-- After the model was replaced, the settings are not saved; or it could not be, and the previous
one is not back; or nothing was to be replaced, and `llm.json` is torn. -/
def Disturbs (config : Config) (around : Surroundings) (server : Server N)
    (body : Except Exception (Json N)) : Prop :=
  ∃ settings switchTo, readRequest config around server.settings body = .ok (settings, switchTo) ∧
    match replaced server switchTo with
    | some (manager, _) =>
      if around.first.comesUp = true then Unsaved around settings
      else restartsPrevious config.models manager around.second ≠ manager.processRunning
    | none => (switchTo = none ∨ server.manager.isSome = true) ∧
        Tears around server.file settings

theorem saveLlmSettings_cases (config : Config) (around : Surroundings) (file : Option Bytes)
    (settings : LlmSettings N) :
    ((∃ what, (saveLlmSettings config around file settings).1 = .error what) ↔
      Unsaved around settings) ∧
    (Unsaved around settings → ((saveLlmSettings config around file settings).2 ≠ file ↔
      Tears around file settings)) := by
  rw [saveLlmSettings, Unsaved, Tears]
  cases validateLlmSettings settings with
  | error what => simp
  | ok _ =>
    cases hdirectories : around.createDirectories with
    | false => simp
    | true =>
      cases hsave : around.save with
      | refused => simp [WriteOutcome.file]
      | torn kept => simp [WriteOutcome.file]
      | done => simp

theorem saveAndPublish_unchanged (config : Config) (around : Surroundings) (server : Server N)
    (manager : Option LlmManager) (settings : LlmSettings N) :
    ((∃ e, (saveAndPublish config around { server with manager := manager } settings).1 =
        .error e) →
      Unchanged server
        (saveAndPublish config around { server with manager := manager } settings).2) ↔
    ¬ (Unsaved around settings ∧ (runningModel manager ≠ runningModel server.manager ∨
        Tears around server.file settings)) := by
  obtain ⟨hunsaved, htears⟩ := saveLlmSettings_cases config around server.file settings
  rw [saveAndPublish]
  cases hsave : (saveLlmSettings config around server.file settings).1 with
  | ok _ =>
    have hsaved : ¬ Unsaved around settings := by
      rw [← hunsaved, hsave]
      simp
    simp [hsaved]
  | error what =>
    have hnot : Unsaved around settings := hunsaved.mp ⟨what, hsave⟩
    rw [← htears hnot]
    constructor
    · rintro hunchanged ⟨_, hrunning | hfile⟩
      · exact hrunning (hunchanged ⟨_, rfl⟩).running
      · exact hfile (hunchanged ⟨_, rfl⟩).file
    · intro hnone _
      constructor
      · exact not_not.mp fun hrunning => hnone ⟨hnot, .inl hrunning⟩
      · exact not_not.mp fun hfile => hnone ⟨hnot, .inr hfile⟩
      · rfl

section Request

variable {config : Config} {around : Surroundings} {server : Server N}
  {body : Except Exception (Json N)} {settings : LlmSettings N} {switchTo : Option LlmModelSpec}

theorem handle_switched {after : Option LlmManager}
    (hread : readRequest config around server.settings body = .ok (settings, switchTo))
    (hswitch : trySwitch config around server.manager switchTo = (.ok (), after)) :
    handleLlmSettingsSet config around server body =
      saveAndPublish config around { server with manager := after } settings := by
  rw [handleLlmSettingsSet]
  simp only [hread, hswitch]

theorem handle_unswitched {after : Option LlmManager} {what : Exception}
    (hread : readRequest config around server.settings body = .ok (settings, switchTo))
    (hswitch : trySwitch config around server.manager switchTo = (.error what, after)) :
    handleLlmSettingsSet config around server body =
      (.error (unavailable what), { server with manager := after }) := by
  rw [handleLlmSettingsSet]
  simp only [hread, hswitch]

theorem unsaved_of_tears {file : Option Bytes} (h : Tears around file settings) :
    Unsaved around settings := by
  obtain ⟨_, _, kept, hsave, _⟩ := h
  right
  right
  rw [hsave]
  exact nofun

theorem unchanged_unless_torn
    (hread : readRequest config around server.settings body = .ok (settings, switchTo))
    (hswitch : trySwitch config around server.manager switchTo = (.ok (), server.manager)) :
    ((∃ e, (handleLlmSettingsSet config around server body).1 = .error e) →
      Unchanged server (handleLlmSettingsSet config around server body).2) ↔
    ¬ Tears around server.file settings := by
  rw [handle_switched hread hswitch]
  rw [saveAndPublish_unchanged config around server server.manager settings]
  simp only [ne_eq, not_true_eq_false, false_or]
  exact not_congr (and_iff_right_of_imp unsaved_of_tears)

theorem unchanged_of_read
    (hread : readRequest config around server.settings body = .ok (settings, switchTo)) :
    ((∃ e, (handleLlmSettingsSet config around server body).1 = .error e) →
      Unchanged server (handleLlmSettingsSet config around server body).2) ↔
    ¬ match replaced server switchTo with
      | some (manager, _) =>
        if around.first.comesUp = true then Unsaved around settings
        else restartsPrevious config.models manager around.second ≠ manager.processRunning
      | none => (switchTo = none ∨ server.manager.isSome = true) ∧
          Tears around server.file settings := by
  cases switchTo with
  | none =>
    have hreplaced : replaced server none = none := by
      cases hmanager : server.manager <;> simp [replaced, hmanager]
    rw [hreplaced, unchanged_unless_torn hread rfl]
    simp
  | some spec =>
    cases hmanager : server.manager with
    | none =>
      have hreplaced : replaced server (some spec) = none := by simp [replaced, hmanager]
      have hswitch : trySwitch config around server.manager (some spec) =
          (.error (bytes "this server does not manage the LLM sidecar"), none) := by
        rw [hmanager]
        rfl
      rw [hreplaced, handle_unswitched hread hswitch]
      refine ⟨fun _ => by simp, fun _ _ => ⟨?_, rfl, rfl⟩⟩
      rw [hmanager]
    | some manager =>
      by_cases hsame : manager.currentModelId = spec.id ∧ manager.processRunning = true
      · have hreplaced : replaced server (some spec) = none := by simp [replaced, hmanager, hsame]
        have hswitch : trySwitch config around server.manager (some spec) =
            (.ok (), server.manager) := by
          rw [hmanager, trySwitch, switchLlmModel]
          exact if_pos hsame
        rw [hreplaced, unchanged_unless_torn hread hswitch]
        simp
      · have hreplaced : replaced server (some spec) = some (manager, spec) := by
          simp [replaced, hmanager, hsame]
        rw [hreplaced]
        cases hup : around.first.comesUp with
        | true =>
          have hswitch : switchLlmModel config.models (some manager) spec around.first
              around.second = _ := switchLlmModel_up hsame hup
          rw [handle_switched hread (by rw [hmanager]; exact hswitch),
            saveAndPublish_unchanged config around server _ settings]
          have hnew : runningModel (some { manager with process := some ⟨spec.id, true⟩ }) ≠
              runningModel server.manager := by
            rw [hmanager]
            intro heq
            cases hrunning : manager.processRunning with
            | false =>
              rw [runningModel_of_idle hrunning] at heq
              cases heq
            | true =>
              rw [runningModel_of_running hrunning] at heq
              exact hsame ⟨(Option.some.inj heq).symm, hrunning⟩
          simp [hnew]
        | false =>
          obtain ⟨what, after, hswitch, hrunning⟩ := switchLlmModel_down hsame hup
          rw [handle_unswitched hread (by rw [hmanager]; exact hswitch)]
          simp only [Bool.false_eq_true, if_false, ne_eq, not_not]
          rw [← running_after_failed_switch, ← hrunning, ← hmanager]
          constructor
          · intro hunchanged
            exact (hunchanged ⟨_, rfl⟩).running
          · intro heq _
            exact ⟨heq, rfl, rfl⟩

end Request

/-- A request that is answered with an error leaves the model that runs, `llm.json` and the
settings as they were, unless it disturbs them. -/
theorem refused_settings_change_nothing (config : Config) (around : Surroundings)
    (server : Server N) (body : Except Exception (Json N)) :
    ((∃ e, (handleLlmSettingsSet config around server body).1 = .error e) →
      Unchanged server (handleLlmSettingsSet config around server body).2) ↔
    ¬ Disturbs config around server body := by
  cases hread : readRequest config around server.settings body with
  | error e =>
    have hhandle : handleLlmSettingsSet config around server body = (.error e, server) := by
      rw [handleLlmSettingsSet]
      simp only [hread]
    rw [hhandle, Disturbs, hread]
    refine ⟨fun _ => ?_, fun _ _ => Unchanged.refl server⟩
    rintro ⟨settings, switchTo, hok, _⟩
    cases hok
  | ok read =>
    obtain ⟨settings, switchTo⟩ := read
    rw [unchanged_of_read hread, Disturbs, hread, not_iff_not]
    constructor
    · exact fun h => ⟨settings, switchTo, rfl, h⟩
    · rintro ⟨settings', switchTo', hok, h⟩
      cases hok
      exact h

/-! ## A refused temperature -/

def smallModel : LlmModelSpec := ⟨bytes "small", bytes "Small", bytes "small.gguf"⟩

def largeModel : LlmModelSpec := ⟨bytes "large", bytes "Large", bytes "large.gguf"⟩

def twoModels : Config := ⟨[smallModel, largeModel], bytes "character"⟩

def smallServer : Server ℚ :=
  ⟨some ⟨bytes "llama-server", some ⟨bytes "small", true⟩⟩, none, defaultLlmSettings⟩

def calm : Surroundings :=
  ⟨fun _ => true, ⟨true, true, none, .ready⟩, ⟨true, true, none, .ready⟩, true, .done, []⟩

def hotAndLarge : Json ℚ :=
  .object [(bytes "model", .string (bytes "large")), (bytes "temperature", .number 3)]

/-- The model is switched before the temperature is refused. -/
theorem refused_temperature_switches_model : ¬ ∀ (server : Server ℚ) (body : Json ℚ),
    (∃ e, (handleLlmSettingsSet twoModels calm server (.ok body)).1 = .error e) →
      Unchanged server (handleLlmSettingsSet twoModels calm server (.ok body)).2 := by
  intro hall
  have hafter : (handleLlmSettingsSet twoModels calm smallServer (.ok hotAndLarge)).1 =
        .error (badRequest (bytes "temperature must be between 0 and 2")) ∧
      runningModel (handleLlmSettingsSet twoModels calm smallServer (.ok hotAndLarge)).2.manager =
        some (bytes "large") := by
    decide +kernel
  obtain ⟨hrefused, hrunning⟩ := hafter
  rw [(hall smallServer hotAndLarge ⟨_, hrefused⟩).running] at hrunning
  exact absurd hrunning (by decide)

end FastTts.Llm
