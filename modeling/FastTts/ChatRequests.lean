import FastTts.ChatSpeculation
import FastTts.SpeculationKey

/-!
# Chat requests between edits

Speculate, prewarm and send requests come in any order, and edits of the character and of the
settings in between. A handler copies both under `character_mutex_` and reaches
`chat_speculation_mutex_` later, so an edit may fall between the two, and between a speculation and
the send that attaches to it. The payload of a speculation or a send is what its body was rendered
from.
-/

namespace FastTts.Speak

variable {N : Type}

/-- `calls` holds the requests on their way to `chat_speculation_mutex_`. -/
structure State (N : Type) where
  character : CharacterConfig
  settings : LlmSettings N
  calls : List (Option (Outcome N))
  chat : Chat.State (Setup N)

def initial (character : CharacterConfig) (settings : LlmSettings N) : State N :=
  ⟨character, settings, [], Chat.initial⟩

inductive Action (N : Type)
  | editCharacter (character : CharacterConfig)
  | editSettings (settings : LlmSettings N)
  | request (server : Server) (body : Json N)
  | enter (k : ℕ) (now : ℤ)
  | take (j : ℕ)
  | consumer (j : ℕ) (gone : Bool)
  | worker (i : ℕ) (ok : Bool)

/-- What an outcome does at `chat_speculation_mutex_`. -/
def Outcome.action (now : ℤ) : Outcome N → Option (Chat.Action (Setup N))
  | .skipped => none
  | .speculate u _ => some (.speculate u.specKey u now)
  | .prewarm u => some (.prewarm u.specKey)
  | .send u => some (.send u.specKey u now)

def chatStep (s : State N) (a : Chat.Action (Setup N)) : Option (State N) :=
  (Chat.step s.chat a).map fun chat => { s with chat := chat }

def enterStep (s : State N) (k : ℕ) (now : ℤ) : Option (State N) :=
  match s.calls[k]? with
  | some (some outcome) =>
    let t := { s with calls := s.calls.set k none }
    match outcome.action now with
    | some a => chatStep t a
    | none => some t
  | _ => none

def step [Number N] (s : State N) : Action N → Option (State N)
  | .editCharacter character => some { s with character := character }
  | .editSettings settings => some { s with settings := settings }
  | .request server body =>
    match handleChatSpeak server s.character s.settings body with
    | .ok outcome => some { s with calls := s.calls ++ [some outcome] }
    | .error _ => some s
  | .enter k now => enterStep s k now
  | .take j => chatStep s (.take j)
  | .consumer j gone => chatStep s (.consumer j gone)
  | .worker i ok => chatStep s (.worker i ok)

/-- A send that finds a speculation with its key, not a failed one, has come with the same setup. -/
def SameSetups (s : State N) : Action N → Prop
  | .take j => ∀ (i : ℕ) (spec : Chat.Spec (Setup N)) (send : Chat.Send (Setup N)),
      s.chat.slot = some i → s.chat.specs[i]? = some spec → ¬ spec.failed →
      s.chat.sends[j]? = some send → spec.key = send.key → SameSetup spec.body send.body
  | _ => True

/-! ## Requests keep their setups -/

def Outcome.Whole (outcome : Outcome N) : Prop :=
  ∀ u, outcome = .send u → u.request.prewarm = false

theorem whole_route (cacheRollback : Bool) (u : Setup N) : (route cacheRollback u).Whole := by
  intro v hv
  rw [route] at hv
  split_ifs at hv with hskip hspec hprewarm
  cases hv
  exact Bool.not_eq_true _ |>.mp hprewarm

variable {outcome : Outcome N} {d : Chat.State (Setup N)} {spec : Chat.Spec (Setup N)} {j : ℕ}
  {send : Chat.Send (Setup N)} {now : ℤ}

theorem whole_of_handle [Number N] {server : Server} {character : CharacterConfig}
    {settings : LlmSettings N} {body : Json N}
    (h : handleChatSpeak server character settings body = .ok outcome) : outcome.Whole := by
  rw [handleChatSpeak] at h
  split_ifs at h
  cases hrequest : readRequest body with
  | error e =>
    rw [hrequest] at h
    cases h
  | ok request =>
    rw [hrequest] at h
    cases h
    exact whole_route _ _

structure SetupInv (s : State N) : Prop where
  slot : Chat.SlotInv s.chat
  calls : ∀ outcome, some outcome ∈ s.calls → outcome.Whole
  specs : ∀ x ∈ s.chat.specs.map Chat.Spec.payload, x.1 = x.2.specKey
  sends : ∀ x ∈ s.chat.sends.map Chat.Send.payload,
    x.1 = x.2.specKey ∧ x.2.request.prewarm = false
  attached : ∀ (i j : ℕ) (spec : Chat.Spec (Setup N)) (send : Chat.Send (Setup N)),
    s.chat.attachment j = some i → s.chat.specs[i]? = some spec →
    s.chat.sends[j]? = some send → SameSetup spec.body send.body

variable {s t : State N} {character : CharacterConfig} {settings : LlmSettings N}

theorem setupInv_initial : SetupInv (initial character settings) where
  slot := Chat.slotInv_initial
  calls outcome h := by cases h
  specs x h := by cases h
  sends x h := by cases h
  attached i j spec send h := by cases h

theorem SetupInv.congr (h : SetupInv s) (hchat : t.chat = s.chat)
    (hcalls : ∀ outcome, some outcome ∈ t.calls → outcome.Whole) : SetupInv t := by
  refine ⟨?_, hcalls, ?_, ?_, ?_⟩ <;> rw [hchat]
  · exact h.slot
  · exact h.specs
  · exact h.sends
  · exact h.attached

variable {i : ℕ} {c : Chat.State (Setup N)} {a : Chat.Action (Setup N)}

theorem image_of_append {α β : Type*} {f : α → β} {l l' : List α} {x : β} {a b : α}
    (h : l'.map f = l.map f ∨ l'.map f = l.map f ++ [x]) (ha : l[i]? = some a)
    (hb : l'[i]? = some b) : f b = f a := by
  have hi : i < l.length := (List.getElem?_eq_some_iff.mp ha).1
  have himage : (l'.map f)[i]? = (l.map f)[i]? := by
    rcases h with h | h
    · rw [h]
    · rw [h, List.getElem?_append_left (by rwa [List.length_map])]
  rw [List.getElem?_map, List.getElem?_map, ha, hb] at himage
  exact Option.some.inj himage

theorem payload_of_spec {spec' : Chat.Spec (Setup N)} (h : Chat.step c a = some d)
    (hspec : c.specs[i]? = some spec) (hspec' : d.specs[i]? = some spec') :
    spec'.payload = spec.payload := by
  rcases Chat.specPayloads_step h with hsame | ⟨key, body, now, _, happend⟩
  · exact image_of_append (x := spec.payload) (.inl hsame) hspec hspec'
  · exact image_of_append (.inr happend) hspec hspec'

theorem payload_of_send {send' : Chat.Send (Setup N)} (h : Chat.step c a = some d)
    (hsend : c.sends[j]? = some send) (hsend' : d.sends[j]? = some send') :
    send'.payload = send.payload := by
  rcases Chat.sendPayloads_step h with hsame | ⟨key, body, now, _, happend⟩
  · exact image_of_append (x := send.payload) (.inl hsame) hsend hsend'
  · exact image_of_append (.inr happend) hsend hsend'

/-- What a step of the slot needs of its action. -/
def Sound (s : State N) : Chat.Action (Setup N) → Prop
  | .speculate key body _ => key = body.specKey
  | .send key body _ => key = body.specKey ∧ body.request.prewarm = false
  | .take j => SameSetups s (.take j)
  | _ => True

theorem attached_step (h : SetupInv s) (hsound : Sound s a) (hstep : Chat.step s.chat a = some c)
    (hatt : c.attachment j = some i) (hspec : c.specs[i]? = some spec)
    (hsend : c.sends[j]? = some send) : SameSetup spec.body send.body := by
  have hbody : ∀ (old : Chat.Spec (Setup N)) (oldSend : Chat.Send (Setup N)),
      s.chat.specs[i]? = some old → s.chat.sends[j]? = some oldSend →
      (old.key = oldSend.key → SameSetup old.body oldSend.body) → SameSetup spec.body send.body := by
    intro old oldSend hold holdSend hsame
    have hpayload := payload_of_spec hstep hold hspec
    have hpayload' := payload_of_send hstep holdSend hsend
    rw [Chat.Spec.payload, Chat.Spec.payload, Prod.mk.injEq] at hpayload
    rw [Chat.Send.payload, Chat.Send.payload, Prod.mk.injEq] at hpayload'
    obtain ⟨specNow, sendNow, hspecNow, hsendNow, hkey⟩ :=
      (Chat.slotInv_step h.slot hstep).keys i j hatt
    cases hspec.symm.trans hspecNow
    cases hsend.symm.trans hsendNow
    rw [hpayload.2, hpayload'.2]
    exact hsame (by rw [← hpayload.1, ← hpayload'.1, hkey])
  by_cases hold : s.chat.attachment j = some i
  · obtain ⟨old, oldSend, hspecOld, hsendOld, _⟩ := h.slot.keys i j hold
    exact hbody old oldSend hspecOld hsendOld fun _ =>
      h.attached i j old oldSend hold hspecOld hsendOld
  · obtain ⟨rfl, hslot, old, hspecOld, hfailed⟩ := Chat.attached_from_slot hstep hatt hold
    cases hsendOld : s.chat.sends[j]? with
    | none =>
      rw [Chat.step, hsendOld] at hstep
      cases hstep
    | some oldSend =>
      exact hbody old oldSend hspecOld hsendOld fun hkey =>
        hsound i old oldSend hslot hspecOld hfailed hsendOld hkey

theorem setupInv_chatStep (h : SetupInv s) (hsound : Sound s a) (hstep : chatStep s a = some t) :
    SetupInv t := by
  obtain ⟨c, hc, rfl⟩ := Option.map_eq_some_iff.mp hstep
  refine ⟨Chat.slotInv_step h.slot hc, h.calls, ?_, ?_, ?_⟩
  · intro x hx
    rcases Chat.specPayloads_step hc with hsame | ⟨key, body, now, rfl, happend⟩
    · exact h.specs x (hsame ▸ hx)
    · rcases List.mem_append.mp (happend ▸ hx) with hx | hx
      · exact h.specs x hx
      · cases List.mem_singleton.mp hx
        exact hsound
  · intro x hx
    rcases Chat.sendPayloads_step hc with hsame | ⟨key, body, now, rfl, happend⟩
    · exact h.sends x (hsame ▸ hx)
    · rcases List.mem_append.mp (happend ▸ hx) with hx | hx
      · exact h.sends x hx
      · cases List.mem_singleton.mp hx
        exact hsound
  · intro i j spec send hatt hspec hsend
    exact attached_step h hsound hc hatt hspec hsend

theorem sound_action (hwhole : outcome.Whole) (ha : outcome.action now = some a) : Sound s a := by
  cases outcome with
  | skipped => cases ha
  | speculate u early =>
    cases ha
    exact rfl
  | prewarm u =>
    cases ha
    exact trivial
  | send u =>
    cases ha
    exact ⟨rfl, hwhole u rfl⟩

theorem setupInv_enterStep {k : ℕ} (h : SetupInv s) (hstep : enterStep s k now = some t) :
    SetupInv t := by
  rw [enterStep] at hstep
  split at hstep
  · next outcome hcall =>
    have hwhole := h.calls outcome (List.mem_of_getElem? hcall)
    have hthrough : SetupInv { s with calls := s.calls.set k none } := by
      refine h.congr rfl ?_
      intro other hother
      rcases List.mem_or_eq_of_mem_set hother with hother | hother
      · exact h.calls other hother
      · cases hother
    dsimp only at hstep
    split at hstep
    · next a ha => exact setupInv_chatStep hthrough (sound_action hwhole ha) hstep
    · cases hstep
      exact hthrough
  · cases hstep

theorem setupInv_step [Number N] {a : Action N} (h : SetupInv s) (hguard : SameSetups s a)
    (hstep : step s a = some t) : SetupInv t := by
  cases a with
  | editCharacter character =>
    cases hstep
    exact h.congr rfl h.calls
  | editSettings settings =>
    cases hstep
    exact h.congr rfl h.calls
  | request server body =>
    rw [step] at hstep
    cases houtcome : handleChatSpeak server s.character s.settings body with
    | error e =>
      rw [houtcome] at hstep
      cases hstep
      exact h
    | ok outcome =>
      rw [houtcome] at hstep
      cases hstep
      refine h.congr rfl ?_
      intro other hother
      rcases List.mem_append.mp hother with hother | hother
      · exact h.calls other hother
      · cases List.mem_singleton.mp hother
        exact whole_of_handle houtcome
  | enter k now => exact setupInv_enterStep h hstep
  | take j => exact setupInv_chatStep (a := .take j) h hguard hstep
  | consumer j gone => exact setupInv_chatStep (a := .consumer j gone) h trivial hstep
  | worker i ok => exact setupInv_chatStep (a := .worker i ok) h trivial hstep

theorem setupInv_of_reaches [Number N]
    (h : Reaches step SameSetups (initial character settings) s) : SetupInv s :=
  h.invariant setupInv_initial fun _ _ _ hs hguard hstep => setupInv_step hs hguard hstep

/-- A send is served from a reply to its own body, but for the tail of its newest user message. -/
theorem attached_body_is_own [Number N]
    (h : Reaches step SameSetups (initial character settings) s) {i j : ℕ}
    {spec : Chat.Spec (Setup N)} {send : Chat.Send (Setup N)}
    (hatt : s.chat.attachment j = some i) (hspec : s.chat.specs[i]? = some spec)
    (hsend : s.chat.sends[j]? = some send) :
    SameUpToTail spec.body.llamaBody send.body.llamaBody := by
  have hinv := setupInv_of_reaches h
  have hkeySpec : spec.key = spec.body.specKey :=
    hinv.specs _ (List.mem_map_of_mem (List.mem_of_getElem? hspec))
  have hkeySend : send.key = send.body.specKey ∧ send.body.request.prewarm = false :=
    hinv.sends _ (List.mem_map_of_mem (List.mem_of_getElem? hsend))
  obtain ⟨spec', send', hspec', hsend', hkey⟩ := hinv.slot.keys i j hatt
  cases hspec.symm.trans hspec'
  cases hsend.symm.trans hsend'
  refine sameUpToTail_of_sameSetup (hinv.attached i j spec send hatt hspec hsend) ?_ hkeySend.2
  rw [← hkeySpec, hkey, hkeySend.1]

/-! ## Two runs -/

def draft (text : String) (speculate : Bool) : Json ℚ :=
  let message := Json.object [(bytes "role", .string (bytes "user")),
    (bytes "content", .string (bytes text))]
  .object [(bytes "messages", .array [message]), (bytes "speculate", .bool speculate)]

def server : Server := ⟨8081, true, true⟩

def ann : CharacterConfig := { CharacterConfig.blank with name := bytes "Ann" }

def bob : CharacterConfig := { CharacterConfig.blank with name := bytes "Bob" }

def plainSettings : LlmSettings ℚ := ⟨bytes "Be \x7bname\x7d.", 1 / 2, 1 / 2, 1, 140, true, []⟩

def speculates : List (Action ℚ) := [.request server (draft "what now" true), .enter 0 0]

def sends : List (Action ℚ) := [.request server (draft "what now?" false), .enter 1 1, .take 0]

/-- One setup, with nothing set in the requests but their messages. -/
def sameSetup (p q : Setup ℚ) : Bool :=
  decide (q.character = p.character ∧ q.settings = p.settings ∧ p.request.prewarm = false ∧
    q.request = { p.request with
      messages := q.request.messages, speculate := q.request.speculate } ∧
    ∀ m ∈ p.request.messages ++ q.request.messages, m.Plain)

theorem sameSetup_of_test {p q : Setup ℚ} (h : sameSetup p q = true) : SameSetup p q := by
  obtain ⟨hcharacter, hsettings, hwhole, hrequest, hplain⟩ := of_decide_eq_true h
  refine ⟨hwhole, .inr hplain, ⟨?_, fun _ => ?_⟩, ⟨?_, fun _ => ?_⟩, ⟨?_, fun _ => ?_⟩,
    ⟨?_, fun _ => ?_⟩, .inl ?_, fun _ => ?_⟩
  · rw [hrequest]
  · rw [hsettings]
  · rw [hrequest]
  · rw [hsettings]
  · rw [hrequest]
  · rw [hsettings]
  · rw [hrequest]
  · rw [hsettings]
  · rw [hrequest]
  · rw [Setup.persona, Setup.persona, hsettings, hcharacter]

def sameSetups (s : State ℚ) : Action ℚ → Bool
  | .take j =>
    match s.chat.slot.bind fun i => s.chat.specs[i]?, s.chat.sends[j]? with
    | some spec, some send => sameSetup spec.body send.body
    | _, _ => true
  | _ => true

theorem sameSetups_of_test (s : State ℚ) (a : Action ℚ) (h : sameSetups s a = true) :
    SameSetups s a := by
  cases a with
  | take j =>
    intro i spec send hslot hspec _ hsend _
    rw [sameSetups, hslot, Option.bind_some, hspec, hsend] at h
    exact sameSetup_of_test h
  | _ => trivial

/-- The draft is sent with a question mark, to the character that it was speculated on with. -/
theorem attached_body_is_own_sentDraft :
    ∃ (s : State ℚ) (spec : Chat.Spec (Setup ℚ)) (send : Chat.Send (Setup ℚ)),
      Reaches step SameSetups (initial ann plainSettings) s ∧ s.chat.specs[0]? = some spec ∧
      s.chat.sends[0]? = some send ∧ spec.body.request.messages ≠ send.body.request.messages ∧
      SameUpToTail spec.body.llamaBody send.body.llamaBody := by
  let test := fun s : State ℚ => decide (s.chat.attachment 0 = some 0) &&
    (s.chat.specs[0]?).any fun spec => (s.chat.sends[0]?).any fun send =>
      decide (spec.body.request.messages ≠ send.body.request.messages)
  have hrun : (replay step sameSetups (initial ann plainSettings) (speculates ++ sends)).any test =
      true := by
    decide +kernel
  obtain ⟨s, hs, ht⟩ := exists_reached sameSetups_of_test hrun
  obtain ⟨hatt, hmessages⟩ := Bool.and_eq_true_iff.mp ht
  obtain ⟨spec, hspec, hmessages⟩ := (Option.any_eq_true _ _).mp hmessages
  obtain ⟨send, hsend, hne⟩ := (Option.any_eq_true _ _).mp hmessages
  exact ⟨s, spec, send, hs, hspec, hsend, of_decide_eq_true hne,
    attached_body_is_own hs (of_decide_eq_true hatt) hspec hsend⟩

/-- Between the speculation and the send the character changes. -/
theorem attached_body_is_foreign : ¬ ∀ (s : State ℚ),
    Reaches step Always (initial ann plainSettings) s →
    ∀ (i j : ℕ) (spec : Chat.Spec (Setup ℚ)) (send : Chat.Send (Setup ℚ)),
      s.chat.attachment j = some i → s.chat.specs[i]? = some spec →
      s.chat.sends[j]? = some send → SameUpToTail spec.body.llamaBody send.body.llamaBody := by
  intro hall
  let test := fun s : State ℚ => decide (s.chat.attachment 0 = some 0) &&
    (s.chat.specs[0]?).any fun spec => (s.chat.sends[0]?).any fun send =>
      decide (spec.body.llamaBody.messages.head? ≠ send.body.llamaBody.messages.head? ∧
        spec.body.llamaBody.messages.head?.all fun message => message.role ≠ .user)
  have hrun : (replay step (fun _ _ => true) (initial ann plainSettings)
      (speculates ++ [.editCharacter bob] ++ sends)).any test = true := by
    decide
  obtain ⟨s, hs, ht⟩ := exists_run _ test hrun
  obtain ⟨hatt, hmessages⟩ := Bool.and_eq_true_iff.mp ht
  obtain ⟨spec, hspec, hmessages⟩ := (Option.any_eq_true _ _).mp hmessages
  obtain ⟨send, hsend, hne⟩ := (Option.any_eq_true _ _).mp hmessages
  obtain ⟨hhead, hsystem⟩ := of_decide_eq_true hne
  obtain ⟨_, hsame⟩ := hall s hs 0 0 spec send (of_decide_eq_true hatt) hspec hsend
  rcases hsame with hsame | ⟨k, content, content', history, hk, hset, _, _⟩
  · exact hhead (by rw [hsame])
  · rw [hset, List.head?_eq_getElem?, List.head?_eq_getElem?] at hhead
    cases k with
    | zero =>
      -- The message that differs would be the system prompt.
      rw [List.head?_eq_getElem?, hk] at hsystem
      cases hsystem
    | succ k => exact hhead (List.getElem?_set_ne (Nat.succ_ne_zero k)).symm

end FastTts.Speak
