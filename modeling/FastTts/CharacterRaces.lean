import FastTts.CharacterRejects
import FastTts.Runs

/-!
# Character requests side by side

Every connection has a thread of its own, and no lock is held over a whole request: another request
may come between any two of its steps. `authors` records, for each of the four places, the request
that wrote it last, and `voice` the one whose recording the character in memory speaks from; no
step reads them.
-/

namespace FastTts.Store

variable {V N : Type}

/-- Where a request stands: before it brings a recording, reads the voice, assigns it to the model,
saves `character.json`, writes the library entry, publishes. -/
inductive Pc (V : Type)
  | bringing (order : Order)
  | resolving (order : Order)
  | assigning (order : Order) (preset : VoicePreset V)
  | saving (order : Order)
  | keeping (order : Order)
  | publishing (order : Order)
  | returned (order : Order)
  | failed (error : HttpError)
  deriving DecidableEq

/-- `voice` is where the recording comes from that the character in memory spoke from when the
request read it. -/
structure Call (V : Type) where
  disk : Disk
  voice : Option ℕ
  pc : Pc V
  deriving DecidableEq

structure Authors where
  character : Option ℕ
  preset : Option ℕ
  json : Option ℕ
  recording : Option ℕ
  voice : Option ℕ
  deriving DecidableEq, Repr

structure State (V : Type) where
  home : Home V
  calls : List (Call V)
  authors : Authors

def initial (home : Home V) : State V := ⟨home, [], ⟨none, none, none, none, none⟩⟩

inductive Action (N : Type)
  | arrive (disk : Disk) (request : Request N)
  | advance (k : ℕ)

/-- The call `k` goes on to `pc` with the store as it is now. -/
def State.goto (s : State V) (k : ℕ) (home : Home V) (authors : Authors) (pc : Pc V) : State V :=
  { home := home
    calls := s.calls.modify k fun call => { call with pc := pc }
    authors := authors }

/-- The authors after the request `k` has published, which had read a character with `voice`. -/
def Authors.published (authors : Authors) (k : ℕ) (voice : Option ℕ) (order : Order) : Authors :=
  { authors with
    character := some k
    voice := if order.source.isSome then some k else voice }

def advance (m : SpeechModel V) (s : State V) (k : ℕ) : Option (State V) :=
  match s.calls[k]? with
  | none => none
  | some ⟨disk, voice, pc⟩ => match pc with
    | .bringing order =>
      let brought := bring s.home disk order
      let authors := if order.source.isSome then { s.authors with recording := some k }
        else s.authors
      match brought.1 with
      | .ok _ => some (s.goto k brought.2 authors (.resolving order))
      | .error what => some (s.goto k brought.2 authors (.failed (badRequest what)))
    | .resolving order =>
      match presetOf m order.character s.home.active with
      | .ok preset => some (s.goto k s.home s.authors (.assigning order preset))
      | .error what => some (s.goto k s.home s.authors (.failed (badRequest what)))
    | .assigning order preset =>
      some (s.goto k { s.home with defaultPreset := some preset }
        { s.authors with preset := some k } (.saving order))
    | .saving order =>
      let saved := saveActive s.home disk order.character
      match saved.1 with
      | .ok _ => some (s.goto k saved.2 { s.authors with json := some k } (.keeping order))
      | .error what => some (s.goto k saved.2 { s.authors with json := some k }
          (.failed (serverError what)))
    | .keeping order =>
      if order.inLibrary then
        let stored := storeInLibrary s.home disk order.character
        match stored.1 with
        | .ok _ => some (s.goto k stored.2 s.authors (.publishing order))
        | .error what => some (s.goto k stored.2 s.authors (.failed (serverError what)))
      else some (s.goto k s.home s.authors (.publishing order))
    | .publishing order =>
      some (s.goto k (publish s.home order.character) (s.authors.published k voice order)
        (.returned order))
    | .returned _ | .failed _ => none

def arrival [Number N] (s : State V) (disk : Disk) (request : Request N) : Call V :=
  ⟨disk, s.authors.voice, match readRequest s.home disk request with
    | .ok order => .bringing order
    | .error e => .failed e⟩

def step [Number N] (m : SpeechModel V) (s : State V) : Action N → Option (State V)
  | .arrive disk request => some { s with calls := s.calls ++ [arrival s disk request] }
  | .advance k => advance m s k

/-! ## One request at a time -/

/-- An edit of a custom character speaks from the recording that is there. -/
def Order.keepsRecording (order : Order) : Bool := order.source.isNone && order.character.isCustom

/-- From the first step that counts to the end. For an edit that keeps the recording this is the
reading of the character, for a request that brings one its writing, else the reading of the
voice. -/
def Pc.midway : Pc V → Bool
  | .bringing order => order.keepsRecording
  | .resolving order => order.source.isSome || order.keepsRecording
  | .assigning _ _ | .saving _ | .keeping _ | .publishing _ => true
  | .returned _ | .failed _ => false

/-- The place before the first step that counts. -/
def Pc.outset : Pc V → Bool
  | .bringing order => order.source.isSome
  | .resolving order => order.source.isNone && !order.character.isCustom
  | _ => false

def State.Quiet (s : State V) : Prop :=
  ∀ (l : ℕ) (call : Call V), s.calls[l]? = some call → call.pc.midway = false

/-- A request sets out while no other one is midway. -/
def SetsOutAlone [Number N] (s : State V) : Action N → Prop
  | .arrive disk request => (arrival s disk request).pc.midway = true → s.Quiet
  | .advance k => ∀ call, s.calls[k]? = some call → call.pc.outset = true → s.Quiet

/-! ## Orders that load again -/

/-- A character that a restart loads as it was written. -/
structure Loadable (character : CharacterConfig) : Prop where
  name : sanitizeCharacterName character.name = .ok character.name
  voice : (character.preset.isEmpty && character.voiceFile.isEmpty) = false

theorem sanitizeCharacterName_again {name text : Bytes} (h : sanitizeCharacterName name = .ok text) :
    sanitizeCharacterName text = .ok text := by
  obtain ⟨htext, hne, hlen⟩ := sanitizeCharacterName_ok h
  have htrimmed : trimmed text = text := by rw [htext, trimmed_trimmed]
  rw [sanitizeCharacterName, htrimmed, if_neg (by simpa using hne), if_neg (by omega)]

theorem loadable_upload {persona : Bytes} {parts : List MultipartPart}
    {upload : CharacterConfig × Bytes} (h : readUpload persona parts = .ok upload) :
    Loadable upload.1 := by
  have hfile := readUpload_voiceFile h
  rw [readUpload] at h
  split at h
  · cases h
  · split_ifs at h
    obtain ⟨name, hname, rfl⟩ := except_map_ok h
    constructor
    · exact sanitizeCharacterName_again hname
    · rw [hfile, Bool.and_eq_false_iff]
      right
      decide

theorem editVoice_name (character : CharacterConfig) (body : Json N) :
    (editVoice character body).name = character.name := by
  rw [editVoice]
  split
  · rfl
  · split
    · split <;> rfl
    · rfl

variable {character : CharacterConfig} {home : Home V}

variable {body : Json N} {directory : Directory} {order : Order} {authors : Authors}

theorem isCustom_of_editVoice (h : (editVoice character body).isCustom = true) :
    character.isCustom = true := by
  rw [editVoice] at h
  split at h
  · cases h
  · split at h
    · split at h
      · assumption
      · exact h
    · exact h

theorem readEdit_ok [Number N] {base : CharacterConfig} (h : readEdit base body = .ok character) :
    Loadable character ∧ (character.isCustom = true → base.isCustom = true) := by
  obtain ⟨name, hname, h⟩ := except_bind_ok h
  obtain ⟨given, _, hname⟩ := except_bind_ok hname
  obtain ⟨seed, _, h⟩ := except_bind_ok h
  dsimp only at h
  split_ifs at h with hvoice
  · cases h
    constructor
    · constructor
      · change sanitizeCharacterName (editVoice { base with name := name } body).name = .ok _
        rw [editVoice_name]
        exact sanitizeCharacterName_again hname
      · simpa [CharacterConfig.isCustom] using hvoice
    · intro hcustom
      change (editVoice { base with name := name } body).isCustom = true at hcustom
      have hbase := isCustom_of_editVoice hcustom
      exact hbase

theorem loadable_of_load (h : loadCharacter directory = .ok character) : Loadable character := by
  have hdefault : Loadable defaultCharacter := ⟨by decide, by decide⟩
  rw [loadCharacter] at h
  split at h
  · cases h
    exact hdefault
  · split at h
    · next hread =>
      cases h
      rw [readCharacterFile] at hread
      split at hread
      · cases hread
      · cases hread
      · obtain ⟨name, hname, hread⟩ := except_bind_ok hread
        dsimp only at hread
        split_ifs at hread with hvoice hmissing
        cases hread
        exact ⟨sanitizeCharacterName_again hname, by simpa using hvoice⟩
    · split at h
      · cases h
        exact hdefault
      · cases h

theorem readRequest_ok [Number N] {disk : Disk} {request : Request N}
    (h : readRequest home disk request = .ok order) :
    Loadable order.character ∧ (order.keepsRecording = true → home.character.isCustom = true) := by
  cases request with
  | set request =>
    have hset := rejected_ok h
    cases request with
    | upload parts =>
      obtain ⟨upload, hupload, horder⟩ := except_bind_ok hset
      obtain ⟨parts, _, hread⟩ := except_bind_ok hupload
      split at horder
      · cases horder
        exact ⟨loadable_upload hread, nofun⟩
      · cases horder
    | edit body =>
      obtain ⟨character, hcharacter, horder⟩ := except_bind_ok hset
      obtain ⟨body, _, hread⟩ := except_bind_ok hcharacter
      cases horder
      exact readEdit_ok hread
  | activate body =>
    obtain ⟨id, _, horder⟩ := except_bind_ok h
    split_ifs at horder
    obtain ⟨character, hload, horder⟩ := except_bind_ok horder
    have hloadable := loadable_of_load (rejected_ok hload)
    have horder := Except.ok.inj horder
    split at horder
    · rw [← horder]
      exact ⟨⟨hloadable.name, by simp [show voiceWav.isEmpty = false from by decide]⟩, nofun⟩
    · next hcustom =>
      rw [← horder]
      exact ⟨hloadable, fun hkeeps => absurd hkeeps hcustom⟩

/-! ## What has been done so far -/

/-- The recording that an order speaks from is in its place. -/
structure Prepared (authors : Authors) (k : ℕ) (voice : Option ℕ) (order : Order) : Prop where
  character : Loadable order.character
  brought : order.source.isSome = true → authors.recording = some k
  kept : order.keepsRecording = true → voice = authors.recording

structure Applied (m : SpeechModel V) (home : Home V) (authors : Authors) (k : ℕ) (order : Order) :
    Prop where
  author : authors.preset = some k
  voice : ∃ preset, home.defaultPreset = some preset ∧
    presetOf m order.character home.active = .ok preset

structure Saved (home : Home V) (authors : Authors) (k : ℕ) (order : Order) : Prop where
  author : authors.json = some k
  store : home.active.store = some (.ok (written order.character))

def Underway (m : SpeechModel V) (home : Home V) (authors : Authors) (k : ℕ) (voice : Option ℕ) :
    Pc V → Prop
  | .bringing order => Loadable order.character ∧
      (order.keepsRecording = true → voice = authors.recording)
  | .resolving order => Prepared authors k voice order
  | .assigning order preset => Prepared authors k voice order ∧
      presetOf m order.character home.active = .ok preset
  | .saving order => Prepared authors k voice order ∧ Applied m home authors k order
  | .keeping order | .publishing order => Prepared authors k voice order ∧
      Applied m home authors k order ∧ Saved home authors k order
  | .returned _ | .failed _ => True

def State.Returned (s : State V) (k : ℕ) (order : Order) : Prop :=
  ∃ call, s.calls[k]? = some call ∧ call.pc = .returned order

structure Winner (m : SpeechModel V) (home : Home V) (authors : Authors) (k : ℕ) (order : Order) :
    Prop where
  author : authors.character = some k
  memory : home.character = order.character
  character : Loadable order.character
  brought : order.source.isSome = true → authors.recording = some k
  applied : Applied m home authors k order
  saved : Saved home authors k order

structure Settled (m : SpeechModel V) (s : State V) : Prop where
  voice : s.home.character.isCustom = true → s.authors.recording = s.authors.voice
  winner : (¬ ∃ k order, s.Returned k order) ∨
    ∃ k order, s.Returned k order ∧ Winner m s.home s.authors k order

structure Good (m : SpeechModel V) (s : State V) : Prop where
  alone : ∀ (k l : ℕ) (call other : Call V), s.calls[k]? = some call → s.calls[l]? = some other →
    call.pc.midway = true → other.pc.midway = true → k = l
  underway : ∀ (k : ℕ) (call : Call V), s.calls[k]? = some call →
    Underway m s.home s.authors k call.voice call.pc
  settled : s.Quiet → Settled m s

def HasFailed (s : State V) : Prop :=
  ∃ (k : ℕ) (call : Call V) (e : HttpError), s.calls[k]? = some call ∧ call.pc = .failed e

theorem good_initial (m : SpeechModel V) (home : Home V) : Good m (initial home) where
  alone k l call other hcall := by
    cases hcall
  underway k call hcall := by
    cases hcall
  settled _ := by
    constructor
    · intro _
      rfl
    · left
      rintro ⟨k, order, call, hcall, _⟩
      cases hcall

theorem underway_of_idle {m : SpeechModel V} {k : ℕ} {voice : Option ℕ} {pc : Pc V} (home' : Home V)
    (authors' : Authors) (hidle : pc.midway = false) (h : Underway m home authors k voice pc) :
    Underway m home' authors' k voice pc := by
  cases pc with
  | bringing order =>
    refine ⟨h.1, fun hkeeps => ?_⟩
    rw [Pc.midway, hkeeps] at hidle
    cases hidle
  | resolving order =>
    rw [Pc.midway, Bool.or_eq_false_iff] at hidle
    constructor
    · exact h.character
    · intro hsource
      rw [hsource] at hidle
      cases hidle.1
    · intro hkeeps
      rw [hkeeps] at hidle
      cases hidle.2
  | assigning _ _ | saving _ | keeping _ | publishing _ => cases hidle
  | returned _ | failed _ => trivial

theorem settled_of_same {m : SpeechModel V} {s s' : State V} (h : Settled m s)
    (hhome : s'.home = s.home) (hauthors : s'.authors = s.authors)
    (hreturned : ∀ k order, s'.Returned k order ↔ s.Returned k order) : Settled m s' := by
  constructor
  · rw [hhome, hauthors]
    exact h.voice
  · rw [hhome, hauthors]
    simp only [hreturned]
    exact h.winner

/-! ## Steps -/

section Steps

variable {m : SpeechModel V} {s s' : State V} {k l : ℕ} {call other : Call V}

theorem goto_self (hcall : s.calls[k]? = some call) (home : Home V) (authors : Authors)
    (pc : Pc V) : (s.goto k home authors pc).calls[k]? = some { call with pc := pc } := by
  simp [State.goto, hcall]

theorem goto_other (hne : l ≠ k) (home : Home V) (authors : Authors) (pc : Pc V) :
    (s.goto k home authors pc).calls[l]? = s.calls[l]? := by
  have hkl : k ≠ l := hne.symm
  simp [State.goto, hkl]

/-- What a step that does not fail does. -/
def Progress (m : SpeechModel V) (s s' : State V) (k : ℕ) (call : Call V) : Pc V → Prop
  | .bringing order => (bring s.home call.disk order).1 = .ok () ∧
      s' = s.goto k (bring s.home call.disk order).2
        (if order.source.isSome then { s.authors with recording := some k } else s.authors)
        (.resolving order)
  | .resolving order => ∃ preset, presetOf m order.character s.home.active = .ok preset ∧
      s' = s.goto k s.home s.authors (.assigning order preset)
  | .assigning order preset => s' = s.goto k { s.home with defaultPreset := some preset }
      { s.authors with preset := some k } (.saving order)
  | .saving order => (saveActive s.home call.disk order.character).1 = .ok () ∧
      s' = s.goto k (saveActive s.home call.disk order.character).2
        { s.authors with json := some k } (.keeping order)
  | .keeping order => ∃ library, s' = s.goto k { s.home with library := library } s.authors
      (.publishing order)
  | .publishing order => s' = s.goto k (publish s.home order.character)
      (s.authors.published k call.voice order) (.returned order)
  | .returned _ | .failed _ => False

theorem hasFailed_goto (hcall : s.calls[k]? = some call) (home : Home V) (authors : Authors)
    (e : HttpError) : HasFailed (s.goto k home authors (.failed e)) :=
  ⟨k, _, e, goto_self hcall home authors _, rfl⟩

theorem storeInLibrary_home (home : Home V) (disk : Disk) (character : CharacterConfig) :
    ∃ library, (storeInLibrary home disk character).2 = { home with library := library } := by
  rw [storeInLibrary]
  dsimp only
  split
  · exact ⟨_, rfl⟩
  · split
    · split
      · exact ⟨_, rfl⟩
      · split <;> exact ⟨_, rfl⟩
    · exact ⟨_, rfl⟩

theorem advance_cases (h : advance m s k = some s') :
    ∃ call, s.calls[k]? = some call ∧ (HasFailed s' ∨ Progress m s s' k call call.pc) := by
  rw [advance] at h
  cases hcall : s.calls[k]? with
  | none =>
    rw [hcall] at h
    cases h
  | some call =>
    obtain ⟨disk, voice, pc⟩ := call
    refine ⟨_, rfl, ?_⟩
    rw [hcall] at h
    cases pc with
    | bringing order =>
      dsimp only at h
      cases hbring : (bring s.home disk order).1 with
      | error what =>
        rw [hbring] at h
        cases h
        exact .inl (hasFailed_goto hcall _ _ _)
      | ok _ =>
        rw [hbring] at h
        cases h
        exact .inr ⟨hbring, rfl⟩
    | resolving order =>
      dsimp only at h
      cases hpreset : presetOf m order.character s.home.active with
      | error what =>
        rw [hpreset] at h
        cases h
        exact .inl (hasFailed_goto hcall _ _ _)
      | ok preset =>
        rw [hpreset] at h
        cases h
        exact .inr ⟨preset, hpreset, rfl⟩
    | assigning order preset =>
      cases h
      exact .inr rfl
    | saving order =>
      dsimp only at h
      cases hsaved : (saveActive s.home disk order.character).1 with
      | error what =>
        rw [hsaved] at h
        cases h
        exact .inl (hasFailed_goto hcall _ _ _)
      | ok _ =>
        rw [hsaved] at h
        cases h
        exact .inr ⟨hsaved, rfl⟩
    | keeping order =>
      dsimp only at h
      split at h
      · obtain ⟨library, hlibrary⟩ := storeInLibrary_home s.home disk order.character
        split at h
        · cases h
          exact .inr ⟨library, by rw [hlibrary]⟩
        · cases h
          exact .inl (hasFailed_goto hcall _ _ _)
      · cases h
        exact .inr ⟨s.home.library, rfl⟩
    | publishing order =>
      cases h
      exact .inr rfl
    | returned order => cases h
    | failed e => cases h

/-! ## The other requests are idle -/

def Pc.loud (pc : Pc V) : Bool := pc.midway || pc.outset

theorem others_idle (hgood : Good m s) (hguard : ∀ call, s.calls[k]? = some call →
    call.pc.outset = true → s.Quiet) (hcall : s.calls[k]? = some call)
    (hloud : call.pc.loud = true) (hne : l ≠ k) (hother : s.calls[l]? = some other) :
    other.pc.midway = false := by
  rw [Pc.loud, Bool.or_eq_true] at hloud
  rcases hloud with hmidway | houtset
  · rw [Bool.eq_false_iff]
    intro hm
    exact hne (hgood.alone l k other call hother hcall hm hmidway)
  · exact hguard call hcall houtset l other hother

variable {home : Home V}

theorem good_goto (hgood : Good m s) (hcall : s.calls[k]? = some call)
    (hidle : ∀ l other, l ≠ k → s.calls[l]? = some other → other.pc.midway = false)
    {authors : Authors} {pc : Pc V} (hmidway : pc.midway = true)
    (hunder : Underway m home authors k call.voice pc) : Good m (s.goto k home authors pc) := by
  have honly : ∀ (l : ℕ) (other : Call V), (s.goto k home authors pc).calls[l]? = some other →
      other.pc.midway = true → l = k := by
    intro l other hother hm
    by_contra hne
    rw [goto_other hne] at hother
    rw [hidle l other hne hother] at hm
    cases hm
  constructor
  · intro i j ci cj hi hj hmi hmj
    rw [honly i ci hi hmi, honly j cj hj hmj]
  · intro l other hother
    by_cases hl : l = k
    · subst hl
      rw [goto_self hcall] at hother
      cases hother
      exact hunder
    · rw [goto_other hl] at hother
      exact underway_of_idle _ _ (hidle l other hl hother) (hgood.underway l other hother)
  · intro hquiet
    have hk := hquiet k _ (goto_self hcall home authors pc)
    rw [hmidway] at hk
    cases hk

variable {order : Order} {a : Action N}

theorem good_resolve (hgood : Good m s) (hcall : s.calls[k]? = some call)
    (hpc : call.pc = .bringing order) (hidle : (Pc.resolving order : Pc V).midway = false)
    (hunder : Underway m s.home s.authors k call.voice (.resolving order)) :
    Good m (s.goto k s.home s.authors (.resolving order)) := by
  have hback : ∀ (l : ℕ) (other : Call V),
      (s.goto k s.home s.authors (.resolving order)).calls[l]? = some other →
      other.pc.midway = true → s.calls[l]? = some other := by
    intro l other hother hm
    by_cases hl : l = k
    · subst hl
      rw [goto_self hcall] at hother
      cases hother
      rw [hidle] at hm
      cases hm
    · rwa [goto_other hl] at hother
  constructor
  · intro i j ci cj hi hj hmi hmj
    exact hgood.alone i j ci cj (hback i ci hi hmi) (hback j cj hj hmj) hmi hmj
  · intro l other hother
    by_cases hl : l = k
    · subst hl
      rw [goto_self hcall] at hother
      cases hother
      exact hunder
    · rw [goto_other hl] at hother
      exact hgood.underway l other hother
  · intro hquiet
    have hwas : s.Quiet := by
      intro l other hother
      by_cases hl : l = k
      · subst hl
        cases hcall.symm.trans hother
        rw [hpc]
        rw [Pc.midway, Bool.or_eq_false_iff] at hidle
        exact hidle.2
      · exact hquiet l other ((goto_other hl _ _ _).trans hother)
    refine settled_of_same (hgood.settled hwas) rfl rfl fun l o => ?_
    by_cases hl : l = k
    · subst hl
      constructor
      · rintro ⟨c, hc, hr⟩
        rw [goto_self hcall] at hc
        cases hc
        cases hr
      · rintro ⟨c, hc, hr⟩
        cases hcall.symm.trans hc
        rw [hpc] at hr
        cases hr
    · rw [State.Returned, State.Returned, goto_other hl]

theorem good_publish (hgood : Good m s) (hcall : s.calls[k]? = some call)
    (hpc : call.pc = .publishing order)
    (hidle : ∀ l other, l ≠ k → s.calls[l]? = some other → other.pc.midway = false) :
    Good m (s.goto k (publish s.home order.character)
      (s.authors.published k call.voice order) (.returned order)) := by
  have hunder := hgood.underway k call hcall
  rw [hpc] at hunder
  obtain ⟨hprepared, happlied, hsaved⟩ := hunder
  have hquiet : ∀ (l : ℕ) (other : Call V), (s.goto k (publish s.home order.character)
      (s.authors.published k call.voice order) (.returned order)).calls[l]? = some other →
      other.pc.midway = false := by
    intro l other hother
    by_cases hl : l = k
    · subst hl
      rw [goto_self hcall] at hother
      cases hother
      rfl
    · rw [goto_other hl] at hother
      exact hidle l other hl hother
  constructor
  · intro i j ci cj hi _ hmi
    rw [hquiet i ci hi] at hmi
    cases hmi
  · intro l other hother
    by_cases hl : l = k
    · subst hl
      rw [goto_self hcall] at hother
      cases hother
      trivial
    · rw [goto_other hl] at hother
      exact underway_of_idle _ _ (hidle l other hl hother) (hgood.underway l other hother)
  · intro _
    constructor
    · intro hcustom
      change s.authors.recording = if order.source.isSome then some k else call.voice
      split_ifs with hsource
      · exact hprepared.brought hsource
      · refine (hprepared.kept ?_).symm
        rw [Order.keepsRecording, Bool.and_eq_true]
        exact ⟨by simpa using hsource, hcustom⟩
    · right
      refine ⟨k, order, ⟨_, goto_self hcall _ _ _, rfl⟩, ?_⟩
      constructor
      · rfl
      · rfl
      · exact hprepared.character
      · exact hprepared.brought
      · exact ⟨happlied.author, happlied.voice⟩
      · exact ⟨hsaved.author, hsaved.store⟩

theorem saveActive_ok {disk : Disk} {character : CharacterConfig}
    (h : (saveActive home disk character).1 = .ok ()) :
    (saveActive home disk character).2 = { home with
      active := { home.active with store := some (.ok (written character)) } } := by
  simp only [saveActive, saveCharacter] at h ⊢
  split at h
  · cases h
  · next hdirectories =>
    rw [if_neg hdirectories]
    cases hsave : disk.save with
    | refused =>
      rw [hsave] at h
      cases h
    | torn kept =>
      rw [hsave] at h
      cases h
    | done => rfl

theorem good_progress (hgood : Good m s) (hguard : ∀ call, s.calls[k]? = some call →
    call.pc.outset = true → s.Quiet) (hcall : s.calls[k]? = some call)
    (h : Progress m s s' k call call.pc) : Good m s' := by
  have hidle : call.pc.loud = true → ∀ l other, l ≠ k → s.calls[l]? = some other →
      other.pc.midway = false := by
    intro hloud l other hne hother
    exact others_idle hgood hguard hcall hloud hne hother
  have hunder := hgood.underway k call hcall
  obtain ⟨disk, voice, pc⟩ := call
  cases pc with
  | bringing order =>
    obtain ⟨_, rfl⟩ := h
    by_cases hsource : order.source.isSome = true
    · have hkeeps : order.keepsRecording = false := by
        rw [Order.keepsRecording, Option.isNone_eq_false_iff.mpr hsource, Bool.false_and]
      apply good_goto hgood hcall (hidle (by simp [Pc.loud, Pc.outset, hsource]))
      · rw [Pc.midway, hsource, Bool.true_or]
      · rw [if_pos hsource]
        refine ⟨hunder.1, fun _ => rfl, fun hk => ?_⟩
        rw [hkeeps] at hk
        cases hk
    · have hnone : order.source = none := by simpa using hsource
      have hbring : (bring s.home disk order).2 = s.home := by rw [bring, hnone]
      have hprepared : Prepared s.authors k voice order :=
        ⟨hunder.1, fun hs => absurd hs hsource, hunder.2⟩
      rw [hbring, if_neg hsource]
      by_cases hkeeps : order.keepsRecording = true
      · apply good_goto hgood hcall (hidle (by simp [Pc.loud, Pc.midway, hkeeps]))
        · rw [Pc.midway, hkeeps, Bool.or_true]
        · exact hprepared
      · apply good_resolve hgood hcall rfl
        · rw [Pc.midway, Bool.or_eq_false_iff]
          exact ⟨by simpa using hsource, by simpa using hkeeps⟩
        · exact hprepared
  | resolving order =>
    obtain ⟨preset, hpreset, rfl⟩ := h
    have hloud : (Pc.resolving order : Pc V).loud = true := by
      rw [Pc.loud, Pc.midway, Pc.outset, Order.keepsRecording]
      cases order.source <;> cases order.character.isCustom <;> rfl
    exact good_goto hgood hcall (hidle hloud) rfl ⟨hunder, hpreset⟩
  | assigning order preset =>
    cases h
    exact good_goto hgood hcall (hidle rfl) rfl
      ⟨⟨hunder.1.character, hunder.1.brought, hunder.1.kept⟩, rfl, preset, rfl, hunder.2⟩
  | saving order =>
    obtain ⟨hsaved, rfl⟩ := h
    rw [saveActive_ok hsaved]
    obtain ⟨hprepared, happlied⟩ := hunder
    exact good_goto hgood hcall (hidle rfl) rfl
      ⟨⟨hprepared.character, hprepared.brought, hprepared.kept⟩,
        ⟨happlied.author, happlied.voice⟩, rfl, rfl⟩
  | keeping order =>
    obtain ⟨library, rfl⟩ := h
    obtain ⟨hprepared, happlied, hsaved⟩ := hunder
    exact good_goto hgood hcall (hidle rfl) rfl
      ⟨hprepared, ⟨happlied.author, happlied.voice⟩, hsaved.author, hsaved.store⟩
  | publishing order =>
    cases h
    exact good_publish hgood hcall rfl (hidle rfl)
  | returned order => cases h
  | failed e => cases h

/-! ## Arrivals -/

theorem calls_arrive (c : Call V) {l : ℕ} (hother : (s.calls ++ [c])[l]? = some other) :
    s.calls[l]? = some other ∨ (l = s.calls.length ∧ other = c) := by
  rcases Nat.lt_trichotomy l s.calls.length with hlt | heq | hgt
  · rw [List.getElem?_append_left hlt] at hother
    exact .inl hother
  · subst heq
    rw [List.getElem?_append_right le_rfl, Nat.sub_self] at hother
    cases hother
    exact .inr ⟨rfl, rfl⟩
  · rw [List.getElem?_eq_none (by simp; omega)] at hother
    cases hother

theorem good_arrive [Number N] (hgood : Good m s) (disk : Disk) (request : Request N)
    (hguard : (arrival s disk request).pc.midway = true → s.Quiet) :
    Good m { s with calls := s.calls ++ [arrival s disk request] } := by
  have hold : ∀ (l : ℕ) (other : Call V), s.calls[l]? = some other →
      (s.calls ++ [arrival s disk request])[l]? = some other := by
    intro l other hother
    rw [List.getElem?_append_left (List.getElem?_eq_some_iff.mp hother).1]
    exact hother
  constructor
  · intro i j ci cj hi hj hmi hmj
    rcases calls_arrive _ hi with hi | ⟨rfl, rfl⟩ <;> rcases calls_arrive _ hj with hj | ⟨rfl, rfl⟩
    · exact hgood.alone i j ci cj hi hj hmi hmj
    · rw [hguard hmj i ci hi] at hmi
      cases hmi
    · rw [hguard hmi j cj hj] at hmj
      cases hmj
    · rfl
  · intro l other hother
    rcases calls_arrive _ hother with hother | ⟨rfl, rfl⟩
    · exact hgood.underway l other hother
    · rw [arrival] at hguard ⊢
      cases hread : readRequest s.home disk request with
      | error e => trivial
      | ok order =>
        rw [hread] at hguard
        obtain ⟨hloadable, hcustom⟩ := readRequest_ok hread
        refine ⟨hloadable, fun hkeeps => ?_⟩
        exact ((hgood.settled (hguard hkeeps)).voice (hcustom hkeeps)).symm
  · intro hquiet
    have hwas : s.Quiet := fun l other hother => hquiet l other (hold l other hother)
    refine settled_of_same (hgood.settled hwas) rfl rfl fun l order => ?_
    constructor
    · rintro ⟨c, hc, hr⟩
      rcases calls_arrive _ hc with hc | ⟨_, rfl⟩
      · exact ⟨c, hc, hr⟩
      · rw [arrival] at hr
        split at hr <;> cases hr
    · rintro ⟨c, hc, hr⟩
      exact ⟨c, hold l c hc, hr⟩

/-! ## Runs -/

theorem goto_of_progress (h : Progress m s s' k call call.pc) :
    (∃ home authors pc, s' = s.goto k home authors pc) ∧ ∀ e, call.pc ≠ .failed e := by
  obtain ⟨disk, voice, pc⟩ := call
  cases pc with
  | bringing order => exact ⟨⟨_, _, _, h.2⟩, nofun⟩
  | resolving order =>
    obtain ⟨preset, _, h⟩ := h
    exact ⟨⟨_, _, _, h⟩, nofun⟩
  | assigning order preset => exact ⟨⟨_, _, _, h⟩, nofun⟩
  | saving order => exact ⟨⟨_, _, _, h.2⟩, nofun⟩
  | keeping order =>
    obtain ⟨library, h⟩ := h
    exact ⟨⟨_, _, _, h⟩, nofun⟩
  | publishing order => exact ⟨⟨_, _, _, h⟩, nofun⟩
  | returned order => cases h
  | failed e => cases h

theorem hasFailed_step [Number N] (h : HasFailed s) (hstep : step m s a = some s') :
    HasFailed s' := by
  obtain ⟨k, call, e, hcall, hpc⟩ := h
  cases a with
  | arrive disk request =>
    cases hstep
    refine ⟨k, call, e, ?_, hpc⟩
    rw [List.getElem?_append_left (List.getElem?_eq_some_iff.mp hcall).1]
    exact hcall
  | advance l =>
    obtain ⟨other, hother, hfailed | hprogress⟩ := advance_cases hstep
    · exact hfailed
    · obtain ⟨⟨home, authors, pc, rfl⟩, hne⟩ := goto_of_progress hprogress
      have hkl : k ≠ l := by
        rintro rfl
        cases hcall.symm.trans hother
        exact hne e hpc
      exact ⟨k, call, e, (goto_other hkl _ _ _).trans hcall, hpc⟩

theorem good_step [Number N] (hgood : Good m s) (hguard : SetsOutAlone s a)
    (hstep : step m s a = some s') : HasFailed s' ∨ Good m s' := by
  cases a with
  | arrive disk request =>
    cases hstep
    exact .inr (good_arrive hgood disk request hguard)
  | advance k =>
    obtain ⟨call, hcall, hfailed | hprogress⟩ := advance_cases hstep
    · exact .inl hfailed
    · exact .inr (good_progress hgood hguard hcall hprogress)

theorem good_of_reaches [Number N] (h : Reaches (step (N := N) m) SetsOutAlone (initial home) s) :
    HasFailed s ∨ Good m s := by
  induction h with
  | start => exact .inr (good_initial m home)
  | next _ hguard hstep ih =>
    rcases ih with hfailed | hgood
    · exact .inl (hasFailed_step hfailed hstep)
    · exact good_step hgood hguard hstep

end Steps

/-- A restart speaks as the server does now. -/
def RestartsAlike (m : SpeechModel V) (home : Home V) : Prop :=
  ∃ preset, loadCharacter home.active = .ok (written home.character) ∧
    presetOf m (written home.character) home.active = .ok preset ∧
    home.defaultPreset = some preset

theorem readCharacterFile_written (hstore : directory.store = some (.ok (written character)))
    (hloadable : Loadable character)
    (hfile : character.isCustom = true → (directory.files character.voiceFile).isSome = true) :
    readCharacterFile directory = .ok (written character) := by
  have hname : sanitizeCharacterName (written character).name = .ok character.name :=
    hloadable.name
  have hpresent : (character.isCustom && (directory.files character.voiceFile).isNone) = false := by
    rw [Bool.and_eq_false_iff, or_iff_not_imp_left]
    intro hcustom
    rw [Option.isNone_eq_false_iff]
    exact hfile (by simpa using hcustom)
  simp only [readCharacterFile, hstore, hname]
  change (if (character.preset.isEmpty && character.voiceFile.isEmpty) = true then Except.error _
    else if (character.isCustom && (directory.files character.voiceFile).isNone) = true then
      Except.error _ else Except.ok (written character)) = Except.ok (written character)
  rw [hloadable.voice, hpresent]
  rfl

theorem restartsAlike_of_winner {m : SpeechModel V} {k : ℕ} (h : Winner m home authors k order) :
    RestartsAlike m home := by
  obtain ⟨preset, hdefault, hpreset⟩ := h.applied.voice
  have hread : readCharacterFile home.active = .ok (written order.character) := by
    apply readCharacterFile_written h.saved.store h.character
    intro hcustom
    rw [presetOf, if_pos hcustom] at hpreset
    obtain ⟨audio, haudio, _⟩ := except_map_ok hpreset
    rw [readRecording] at haudio
    split at haudio
    · next hcontent => rw [hcontent, Option.isSome_some]
    · cases haudio
  refine ⟨preset, ?_, ?_, hdefault⟩
  · rw [loadCharacter, h.saved.store, if_neg (by simp), hread, h.memory]
  · rw [h.memory]
    exact hpreset

/-- A model with two presets that takes any recording. -/
def studio : SpeechModel Unit where
  presets name :=
    if name = bytes "anna" ∨ name = bytes "bert" then some ⟨some name, none, none⟩ else none
  voiceOf _ := .ok ()

def emptyHome : Home Unit := ⟨defaultCharacter, none, ⟨bytes "character", none, fun _ => none⟩,
  fun _ => ⟨[], none, fun _ => none⟩⟩

def safeDisk : Disk := ⟨true, .done, .done, true, .done, .done, []⟩

def toPreset (preset : Bytes) : Request ℚ :=
  .set (.edit (.ok (.object [(bytes "name", .string preset), (bytes "preset", .string preset)])))

def toRecording : Request ℚ :=
  .set (.upload (.ok [⟨bytes "name", [], bytes "Bob"⟩, ⟨bytes "file", bytes "bob.wav", [1]⟩]))

def allReturned (s : State Unit) : Bool :=
  s.calls.all fun call => match call.pc with
    | .returned _ => true
    | _ => false

theorem returned_of_test {s : State Unit} (h : allReturned s = true) :
    ∀ call ∈ s.calls, ∃ order, call.pc = .returned order := by
  intro call hcall
  have hpc := List.all_eq_true.mp h call hcall
  split at hpc
  · exact ⟨_, by assumption⟩
  · cases hpc

def setsOutAlone (s : State Unit) : Action ℚ → Bool
  | .arrive _ _ => s.calls.all fun call => !call.pc.midway
  | .advance k => (s.calls.all fun call => !call.pc.midway) ||
      (s.calls[k]?).all fun call => !call.pc.outset

theorem quiet_of_test {s : State Unit} (h : (s.calls.all fun call => !call.pc.midway) = true) :
    s.Quiet := by
  intro l call hcall
  have hidle := List.all_eq_true.mp h call (List.mem_of_getElem? hcall)
  simpa using hidle

theorem setsOutAlone_of_test (s : State Unit) (a : Action ℚ) (h : setsOutAlone s a = true) :
    SetsOutAlone s a := by
  cases a with
  | arrive disk request => exact fun _ => quiet_of_test h
  | advance k =>
    intro call hcall houtset
    rcases Bool.or_eq_true_iff.mp h with hquiet | hinset
    · exact quiet_of_test hquiet
    · rw [hcall, Option.all_some, houtset] at hinset
      cases hinset

end FastTts.Store
