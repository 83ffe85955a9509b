import FastTts.CharacterStore

/-!
# Rejected character requests

A request that is answered with a 4xx status has failed before anything but the recording was
written. The recording itself is replaced before it is read back, so a request whose recording
cannot be used is rejected with the old one gone.
-/

namespace FastTts.Store

variable {V N : Type}

/-- The active character is the same everywhere. -/
structure Spared (before after : Home V) : Prop where
  character : after.character = before.character
  defaultPreset : after.defaultPreset = before.defaultPreset
  characterJson : after.active.store = before.active.store
  recording : after.active.recording = before.active.recording

theorem Spared.refl (home : Home V) : Spared home home := ⟨rfl, rfl, rfl, rfl⟩

def Rejected (response : Except HttpError Unit) : Prop :=
  ∃ e, response = .error e ∧ 400 ≤ e.status ∧ e.status < 500

variable (what : Exception) (m : SpeechModel V)

theorem rejected_badRequest : Rejected (.error (badRequest what)) :=
  ⟨_, rfl, le_rfl, (by decide : (400 : ℕ) < 500)⟩

theorem not_rejected_serverError : ¬ Rejected (.error (serverError what)) := by
  rintro ⟨e, he, _, hlt⟩
  cases he
  exact absurd hlt (by decide : ¬ (500 : ℕ) < 500)

/-! ## What an order is -/

theorem readUpload_voiceFile {persona : Bytes} {parts : List MultipartPart}
    {upload : CharacterConfig × Bytes} (h : readUpload persona parts = .ok upload) :
    upload.1.voiceFile = voiceWav := by
  rw [readUpload] at h
  split at h
  · cases h
  · split_ifs at h
    obtain ⟨name, _, rfl⟩ := except_map_ok h
    rfl

variable {home : Home V} {disk : Disk} {request : Request N} {order : Order} {file : Option Bytes}

theorem voiceFile_of_source [Number N] {source : Source}
    (h : readRequest home disk request = .ok order) (hsource : order.source = some source) :
    order.character.voiceFile = voiceWav := by
  cases request with
  | set request =>
    have hset := rejected_ok h
    cases request with
    | upload parts =>
      obtain ⟨upload, hupload, horder⟩ := except_bind_ok hset
      obtain ⟨parts, _, hread⟩ := except_bind_ok hupload
      split at horder
      · cases horder
        exact readUpload_voiceFile hread
      · cases horder
    | edit body =>
      obtain ⟨character, _, horder⟩ := except_bind_ok hset
      cases horder
      cases hsource
  | activate body =>
    obtain ⟨id, _, horder⟩ := except_bind_ok h
    split_ifs at horder
    obtain ⟨character, _, horder⟩ := except_bind_ok horder
    have horder := Except.ok.inj horder
    split at horder
    · rw [← horder]
    · rw [← horder] at hsource
      cases hsource

/-! ## When a rejected request spares the character -/

/-- The request passes its checks and brings a recording, which is torn on the way to the disk or
cannot be read as a voice, and which is not the one that was there. -/
def Spoils [Number N] (m : SpeechModel V) (home : Home V) (disk : Disk) (request : Request N) :
    Prop :=
  ∃ order source data, readRequest home disk request = .ok order ∧ order.source = some source ∧
    source.data home = some data ∧
    (disk.recording ≠ .done ∨ ∃ what, m.voiceOf data = .error what) ∧
    disk.recording.file home.active.recording data ≠ home.active.recording

theorem presetOf_brought {character : CharacterConfig} (hvoice : character.voiceFile = voiceWav)
    (directory : Directory) (data : Bytes) (hdata : directory.recording = some data) :
    (∃ what, presetOf m character directory = .error what) ↔
      ∃ what, m.voiceOf data = .error what := by
  have hcustom : character.isCustom = true := by
    rw [CharacterConfig.isCustom, hvoice]
    decide
  have hfile : directory.files character.voiceFile = some data := by
    rw [hvoice]
    exact hdata
  have hread : readRecording m directory character.voiceFile = m.voiceOf data := by
    rw [readRecording, hfile]
  rw [presetOf, if_pos hcustom, hread]
  cases m.voiceOf data with
  | error what => exact ⟨fun _ => ⟨what, rfl⟩, fun _ => ⟨what, rfl⟩⟩
  | ok voice =>
    constructor
    · rintro ⟨what, h⟩
      cases h
    · rintro ⟨what, h⟩
      cases h

theorem not_rejected_commit (home : Home V) (disk : Disk) (order : Order) :
    ¬ Rejected (commit home disk order).1 := by
  rw [commit]
  dsimp only
  split
  · exact not_rejected_serverError _
  · split
    · exact not_rejected_serverError _
    · rintro ⟨e, he, _⟩
      cases he

theorem spared_brought (hfile : file = home.active.recording) :
    Spared home { home with active := home.active.setFile voiceWav file } :=
  ⟨rfl, rfl, rfl, (Directory.recording_setFile _ _).trans hfile⟩

theorem not_spared_brought (hfile : file ≠ home.active.recording) :
    ¬ Spared home { home with active := home.active.setFile voiceWav file } := by
  intro h
  exact hfile ((Directory.recording_setFile _ _).symm.trans h.recording)

theorem spoils_iff [Number N] {m : SpeechModel V}
    (horder : readRequest home disk request = .ok order) {source : Source}
    (hsource : order.source = some source) {data : Bytes} (hdata : source.data home = some data) :
    Spoils m home disk request ↔ (disk.recording ≠ .done ∨ ∃ what, m.voiceOf data = .error what) ∧
        disk.recording.file home.active.recording data ≠ home.active.recording := by
  constructor
  · rintro ⟨order', source', data', horder', hsource', hdata', hfails, hfile⟩
    cases horder.symm.trans horder'
    cases hsource.symm.trans hsource'
    cases hdata.symm.trans hdata'
    exact ⟨hfails, hfile⟩
  · rintro ⟨hfails, hfile⟩
    exact ⟨order, source, data, horder, hsource, hdata, hfails, hfile⟩

theorem rejected_after_bring {home' : Home V} {response : Except HttpError Unit} {fails : Prop}
    (hhome : home' = { home with active := home.active.setFile voiceWav file })
    (hrejected : Rejected response) (hfails : fails) :
    (Rejected response → Spared home home') ↔ ¬ (fails ∧ file ≠ home.active.recording) := by
  subst hhome
  constructor
  · rintro hspared ⟨_, hfile⟩
    exact not_spared_brought hfile (hspared hrejected)
  · intro hfile _
    exact spared_brought (not_not.mp fun hne => hfile ⟨hfails, hne⟩)

theorem order_spares [Number N] (horder : readRequest home disk request = .ok order) :
    (Rejected (handle (some m) home disk request).1 →
      Spared home (handle (some m) home disk request).2) ↔ ¬ Spoils m home disk request := by
  rw [handle]
  simp only [horder]
  cases hsource : order.source with
  | none =>
    have hspoils : ¬ Spoils m home disk request := by
      rintro ⟨order', source, _, horder', hsource', _⟩
      cases horder.symm.trans horder'
      rw [hsource] at hsource'
      cases hsource'
    refine ⟨fun _ => hspoils, fun _ => ?_⟩
    simp only [bring, hsource, applyCharacter]
    cases presetOf m order.character home.active with
    | error what => exact fun _ => Spared.refl home
    | ok preset => exact fun hrejected => absurd hrejected (not_rejected_commit _ disk order)
  | some source =>
    simp only [bring, hsource, bringRecording]
    cases hdata : source.data home with
    | none =>
      refine ⟨fun _ => ?_, fun _ _ => Spared.refl home⟩
      rintro ⟨order', source', data, horder', hsource', hdata', _⟩
      cases horder.symm.trans horder'
      cases hsource.symm.trans hsource'
      rw [hdata] at hdata'
      cases hdata'
    | some data =>
      rw [spoils_iff horder hsource hdata]
      by_cases hdone : disk.recording = .done
      · have hvoice := voiceFile_of_source horder hsource
        have hpreset := presetOf_brought m hvoice (home.active.setFile voiceWav (some data)) data
          (Directory.recording_setFile _ _)
        simp only [hdone, if_true, applyCharacter, WriteOutcome.file]
        cases happly : presetOf m order.character (home.active.setFile voiceWav (some data)) with
        | error what =>
          have hfails := hpreset.mp ⟨what, happly⟩
          exact rejected_after_bring rfl (rejected_badRequest what) (.inr hfails)
        | ok preset =>
          refine ⟨?_, fun _ hrejected => absurd hrejected (not_rejected_commit _ disk order)⟩
          rintro _ ⟨hne | hfails, _⟩
          · exact hne rfl
          · obtain ⟨what, hwhat⟩ := hpreset.mpr hfails
            rw [happly] at hwhat
            cases hwhat
      · simp only [if_neg hdone]
        exact rejected_after_bring rfl (rejected_badRequest _) (.inl hdone)

/-- A request that is rejected spares the character unless it spoils the recording. -/
theorem rejected_request_spares [Number N] (m : Option (SpeechModel V)) (home : Home V)
    (disk : Disk) (request : Request N) :
    (Rejected (handle m home disk request).1 → Spared home (handle m home disk request).2) ↔
      ¬ ∃ model, m = some model ∧ Spoils model home disk request := by
  cases m with
  | none =>
    refine ⟨fun _ => ?_, fun _ _ => Spared.refl home⟩
    rintro ⟨model, hmodel, _⟩
    cases hmodel
  | some model =>
    have hspoils : (∃ other, some model = some other ∧ Spoils other home disk request) ↔
        Spoils model home disk request := by
      constructor
      · rintro ⟨other, hother, h⟩
        cases hother
        exact h
      · exact fun h => ⟨model, rfl, h⟩
    rw [hspoils]
    cases horder : readRequest home disk request with
    | error e =>
      have hhandle : handle (some model) home disk request = (.error e, home) := by
        rw [handle]
        simp only [horder]
      rw [hhandle]
      refine ⟨fun _ => ?_, fun _ _ => Spared.refl home⟩
      rintro ⟨order, _, _, hok, _⟩
      rw [horder] at hok
      cases hok
    | ok order => exact order_spares model horder

/-! ## An upload that is no recording -/

def riffModel : SpeechModel Unit where
  presets _ := none
  voiceOf content :=
    if content.take 4 = bytes "RIFF" then .ok () else .error (bytes "invalid WAV RIFF header")

def annsRecording : Bytes := bytes "RIFF of Ann"

def annsHome : Home Unit where
  character := { CharacterConfig.blank with name := bytes "Ann", voiceFile := voiceWav }
  defaultPreset := some ⟨none, some (), none⟩
  active :=
    { path := bytes "character"
      store := some (.ok { CharacterConfig.blank with name := bytes "Ann", voiceFile := voiceWav })
      files := fun file => if file = voiceWav then some annsRecording else none }
  library _ := ⟨[], none, fun _ => none⟩

def goodDisk : Disk := ⟨true, .done, .done, true, .done, .done, []⟩

def junkUpload : Request ℚ :=
  .set (.upload (.ok [⟨bytes "name", [], bytes "Bob"⟩, ⟨bytes "file", bytes "bob.wav", bytes "junk"⟩]))

/-- The request is rejected, and the recording is gone. -/
theorem rejected_upload_replaces_recording : ¬ ∀ (home : Home Unit) (request : Request ℚ),
    Rejected (handle (some riffModel) home goodDisk request).1 →
      Spared home (handle (some riffModel) home goodDisk request).2 := by
  intro hall
  have hrejected : (handle (some riffModel) annsHome goodDisk junkUpload).1 =
      .error (badRequest (bytes "invalid WAV RIFF header")) := by
    rfl
  have hspared := hall annsHome junkUpload ⟨_, hrejected, le_rfl, (by decide : (400 : ℕ) < 500)⟩
  have hrecording : (handle (some riffModel) annsHome goodDisk junkUpload).2.active.recording =
      some (bytes "junk") := by
    rfl
  have hkept : annsHome.active.recording = some annsRecording := by
    rfl
  rw [hspared.recording, hkept] at hrecording
  exact absurd hrecording (by decide)

end FastTts.Store
