import FastTts.ChatSpeak
import FastTts.Records

/-!
# What the speculation key determines

As long as no message contains the terminator of a key record, equal keys come from conversations
that differ in the terminal tail of the newest user message at most. Rendered from one setup they
give the same body but for that tail and the note made from that message.
-/

namespace FastTts.Speak

open Hygiene

/-! ## A stripped text is a part of the text -/

theorem stripTailLoop_initial (fuel : ℕ) (text : Bytes) : stripTailLoop fuel text <+: text := by
  induction fuel generalizing text with
  | zero => exact List.prefix_rfl
  | succ fuel ih =>
    rw [stripTailLoop]
    split
    · exact (ih _).trans (List.take_prefix _ _)
    · exact List.prefix_rfl

theorem stripTerminalTail_initial (text : Bytes) : stripTerminalTail text <+: text :=
  stripTailLoop_initial _ text

/-! ## Records of a key -/

/-- No byte of the content ends a record of the key. -/
def ChatMessage.Plain (message : ChatMessage) : Prop := 0x1E ∉ message.content

instance (message : ChatMessage) : Decidable message.Plain :=
  inferInstanceAs (Decidable (0x1E ∉ message.content))

theorem terminator_notMem_name (role : Role) : 0x1E ∉ role.name := by
  cases role <;> decide

theorem separator_notMem_name (role : Role) : 0x1F ∉ role.name := by
  cases role <;> decide

theorem name_inj {role role' : Role} (h : role.name = role'.name) : role = role' := by
  revert h
  cases role <;> cases role' <;> decide

variable {message : ChatMessage} {k : ℕ} {α β : Type*}

theorem terminator_notMem_keyRecord (h : message.Plain) : 0x1E ∉ keyRecord message := by
  rw [keyRecord, List.mem_append, List.mem_cons]
  rintro (hname | hsep | hcontent)
  · exact terminator_notMem_name _ hname
  · exact absurd hsep (by decide)
  · exact h hcontent

theorem keyRecord_inj {message' : ChatMessage} (h : keyRecord message = keyRecord message') :
    message = message' := by
  obtain ⟨hname, hcontent⟩ := Records.separated_inj (separator_notMem_name message.role)
    (separator_notMem_name message'.role) h
  cases message
  cases message'
  rw [ChatMessage.mk.injEq]
  exact ⟨name_inj hname, hcontent⟩

theorem speculationKey_eq (messages : List ChatMessage) (lastUser : ℕ) :
    speculationKey messages lastUser =
      Records.terminated 0x1E ((keyMessages messages lastUser).map keyRecord) := by
  rw [speculationKey, Records.terminated, List.flatMap_map]

variable {messages messages' : List ChatMessage}

theorem keyMessages_plain (h : ∀ m ∈ messages, m.Plain) (k : ℕ) :
    ∀ m ∈ keyMessages messages k, m.Plain := by
  intro m hm
  obtain ⟨i, hi, rfl⟩ := List.mem_mapIdx.mp hm
  have hplain := h messages[i] (List.getElem_mem hi)
  split
  · intro hx
    exact hplain ((stripTerminalTail_initial _).subset hx)
  · exact hplain

theorem keyMessages_inj (h : ∀ m ∈ messages, m.Plain) (h' : ∀ m ∈ messages', m.Plain) {k' : ℕ}
    (hkey : speculationKey messages k = speculationKey messages' k') :
    keyMessages messages k = keyMessages messages' k' := by
  rw [speculationKey_eq, speculationKey_eq] at hkey
  have hrecords : ∀ {messages : List ChatMessage} (k : ℕ), (∀ m ∈ messages, m.Plain) →
      ∀ r ∈ (keyMessages messages k).map keyRecord, 0x1E ∉ r := by
    intro messages k hplain r hr
    obtain ⟨m, hm, rfl⟩ := List.mem_map.mp hr
    exact terminator_notMem_keyRecord (keyMessages_plain hplain k m hm)
  have hmap := Records.terminated_inj (hrecords k h) (hrecords k' h') hkey
  exact List.map_injective_iff.mpr (fun _ _ => keyRecord_inj) hmap

/-! ## Conversations with the same records -/

theorem getElem?_keyMessages (messages : List ChatMessage) (k i : ℕ) :
    (keyMessages messages k)[i]? = (messages[i]?).map fun message =>
      if i = k then { message with content := stripTerminalTail message.content } else message :=
  List.getElem?_mapIdx

theorem roles_keyMessages (messages : List ChatMessage) (k : ℕ) :
    (keyMessages messages k).map ChatMessage.role = messages.map ChatMessage.role := by
  apply List.ext_getElem?
  intro i
  rw [List.getElem?_map, List.getElem?_map, getElem?_keyMessages, Option.map_map]
  congr 1
  funext message
  rw [Function.comp_apply]
  split <;> rfl

theorem role_lastUserIndex (roles : List Role) (h : lastUserIndex roles < roles.length) :
    roles[lastUserIndex roles]? = some .user := by
  rw [lastUserIndex] at h ⊢
  cases hfind : findLast (fun i => decide (roles[i]? = some .user)) roles.length with
  | none =>
    rw [hfind] at h
    exact absurd h (lt_irrefl _)
  | some i => exact of_decide_eq_true (findLast_holds hfind)

theorem role_after_lastUserIndex (roles : List Role) {i : ℕ} (hi : lastUserIndex roles < i) :
    roles[i]? ≠ some .user := by
  intro huser
  have hlen : i < roles.length := (List.getElem?_eq_some_iff.mp huser).1
  rw [lastUserIndex] at hi
  cases h : findLast (fun i => decide (roles[i]? = some .user)) roles.length with
  | none =>
    rw [h] at hi
    exact absurd hi (by rw [Option.getD_none]; omega)
  | some last =>
    rw [h] at hi
    exact of_decide_eq_false (findLast_max h hi hlen) huser

/-- The conversation after the tail of its message `k` has been typed again. -/
def Retyped (k : ℕ) (messages messages' : List ChatMessage) : Prop :=
  ∃ content content' : Bytes, messages[k]? = some ⟨.user, content⟩ ∧
    messages' = messages.set k ⟨.user, content'⟩ ∧
    stripTerminalTail content = stripTerminalTail content'

theorem retyped_of_keyMessages
    (h : keyMessages messages (lastUserIndex (messages.map ChatMessage.role)) =
      keyMessages messages' (lastUserIndex (messages'.map ChatMessage.role))) :
    messages.map ChatMessage.role = messages'.map ChatMessage.role ∧ (messages' = messages ∨
        Retyped (lastUserIndex (messages.map ChatMessage.role)) messages messages') := by
  have hroles : messages.map ChatMessage.role = messages'.map ChatMessage.role := by
    rw [← roles_keyMessages messages, h, roles_keyMessages]
  refine ⟨hroles, ?_⟩
  rw [← hroles] at h
  have hlast := role_lastUserIndex (messages.map ChatMessage.role)
  generalize lastUserIndex (messages.map ChatMessage.role) = k at h hlast ⊢
  have hlen : messages.length = messages'.length := by
    have hlength := congrArg List.length hroles
    rwa [List.length_map, List.length_map] at hlength
  have hother : ∀ i, i ≠ k → messages'[i]? = messages[i]? := by
    intro i hi
    have hget := congrArg (·[i]?) h
    simp only [getElem?_keyMessages, if_neg hi, Option.map_id'] at hget
    exact hget.symm
  by_cases hk : k < messages.length
  · have hk' : k < messages'.length := hlen ▸ hk
    have huser : messages[k].role = .user := by
      have hrole := hlast (by rwa [List.length_map])
      rw [List.getElem?_map, List.getElem?_eq_getElem hk] at hrole
      exact Option.some.inj hrole
    have huser' : messages'[k].role = .user := by
      have hrole := congrArg (·[k]?) hroles
      simp only [List.getElem?_map, List.getElem?_eq_getElem hk, List.getElem?_eq_getElem hk',
        Option.map_some, Option.some.injEq] at hrole
      rw [← hrole, huser]
    have hstrip : stripTerminalTail messages[k].content =
        stripTerminalTail messages'[k].content := by
      have hget := congrArg (·[k]?) h
      simp only [getElem?_keyMessages, List.getElem?_eq_getElem hk, List.getElem?_eq_getElem hk',
        Option.map_some, if_true, Option.some.injEq, ChatMessage.mk.injEq] at hget
      exact hget.2
    refine .inr ⟨messages[k].content, messages'[k].content, ?_, ?_, hstrip⟩
    · rw [List.getElem?_eq_getElem hk, ← huser]
    · apply List.ext_getElem?
      intro i
      by_cases hi : i = k
      · rw [hi, List.getElem?_set_self hk, List.getElem?_eq_getElem hk', ← huser']
      · rw [hother i hi, List.getElem?_set_ne (Ne.symm hi)]
  · refine .inl (List.ext_getElem? fun i => ?_)
    by_cases hi : i = k
    · rw [hi, List.getElem?_eq_none (hlen ▸ Nat.not_lt.mp hk),
        List.getElem?_eq_none (Nat.not_lt.mp hk)]
    · exact hother i hi

/-! ## Bodies -/

/-- The newest user message has been typed again up to its tail, and its note made again. -/
def NoteRetyped (messages messages' : List ChatMessage) : Prop :=
  ∃ (k : ℕ) (content content' : Bytes) (history : List Bytes),
    messages[k]? = some (withNote content history) ∧
    messages' = messages.set k (withNote content' history) ∧
    stripTerminalTail content = stripTerminalTail content' ∧
    ∀ m ∈ messages.drop (k + 1), m.role ≠ .user

theorem NoteRetyped.cons (h : NoteRetyped messages messages') (message : ChatMessage) :
    NoteRetyped (message :: messages) (message :: messages') := by
  obtain ⟨k, content, content', history, hk, rfl, hstrip, hnewest⟩ := h
  exact ⟨k + 1, content, content', history, hk, rfl, hstrip, hnewest⟩

variable {N : Type}

/-- The same sampling fields and the same messages, but for the tail of the newest user message. -/
def SameUpToTail (b b' : LlamaBody N) : Prop :=
  b' = { b with messages := b'.messages } ∧
    (b'.messages = b.messages ∨ NoteRetyped b.messages b'.messages)

theorem filterMap_set_of_none {f : α → Option β} {l : List α} {a b : α} (hk : l[k]? = some a)
    (ha : f a = none) (hb : f b = none) : (l.set k b).filterMap f = l.filterMap f := by
  induction l generalizing k with
  | nil => rfl
  | cons c l ih =>
    cases k with
    | zero =>
      cases hk
      rw [List.set_cons_zero, List.filterMap_cons_none hb, List.filterMap_cons_none ha]
    | succ k =>
      rw [List.getElem?_cons_succ] at hk
      rw [List.set_cons_succ, List.filterMap_cons, List.filterMap_cons, ih hk]

theorem getElem?_promptMessages (messages : List ChatMessage) (k i : ℕ) :
    (promptMessages messages k)[i]? = (messages[i]?).map fun message =>
      if i = k then withNote message.content (messages.filterMap assistantText)
      else historyMessage message :=
  List.getElem?_mapIdx

theorem role_historyMessage (message : ChatMessage) :
    (historyMessage message).role = message.role := by
  rw [historyMessage]
  split <;> rfl

theorem noteRetyped_of_retyped
    (h : Retyped (lastUserIndex (messages.map ChatMessage.role)) messages messages') :
    NoteRetyped (promptMessages messages (lastUserIndex (messages.map ChatMessage.role)))
      (promptMessages messages' (lastUserIndex (messages.map ChatMessage.role))) := by
  have hafter := fun i => role_after_lastUserIndex (messages.map ChatMessage.role) (i := i)
  generalize lastUserIndex (messages.map ChatMessage.role) = k at h hafter ⊢
  obtain ⟨content, content', hk, rfl, hstrip⟩ := h
  have hlen : k < messages.length := (List.getElem?_eq_some_iff.mp hk).1
  have hhistory : (messages.set k ⟨.user, content'⟩).filterMap assistantText =
      messages.filterMap assistantText := filterMap_set_of_none hk rfl rfl
  refine ⟨k, content, content', messages.filterMap assistantText, ?_, ?_, hstrip, ?_⟩
  · rw [getElem?_promptMessages, hk, Option.map_some, if_pos rfl]
  · apply List.ext_getElem?
    intro i
    rw [getElem?_promptMessages, hhistory]
    by_cases hi : i = k
    · have hprompt : k < (promptMessages messages k).length := by
        rwa [promptMessages, List.length_mapIdx]
      rw [hi, List.getElem?_set_self hlen, List.getElem?_set_self hprompt, Option.map_some,
        if_pos rfl]
    · rw [List.getElem?_set_ne (Ne.symm hi), List.getElem?_set_ne (Ne.symm hi),
        getElem?_promptMessages]
  · intro m hm huser
    obtain ⟨i, hi⟩ := List.mem_iff_getElem?.mp hm
    rw [List.getElem?_drop, getElem?_promptMessages] at hi
    obtain ⟨message, hmessage, rfl⟩ := Option.map_eq_some_iff.mp hi
    have hne : k + 1 + i ≠ k := by omega
    rw [if_neg hne, role_historyMessage] at huser
    refine hafter (k + 1 + i) (by omega) ?_
    rw [List.getElem?_map, hmessage, Option.map_some, huser]

/-! ## Setups that agree -/

/-- Both requests set a field to the same value, or neither does and the same values are stored. -/
structure Agrees {α β : Type*} (asked asked' : Option α) (stored stored' : β) : Prop where
  request : asked = asked'
  store : asked = none → stored = stored'

theorem Agrees.getD_eq {asked asked' : Option α} {stored stored' : β}
    (h : Agrees asked asked' stored stored') (f : β → α) :
    asked.getD (f stored) = asked'.getD (f stored') := by
  cases hasked : asked with
  | none => rw [← h.request, hasked, h.store hasked]
  | some x =>
    rw [← h.request, hasked]
    rfl

/-- What of the settings and the character goes into the system prompt. -/
def Setup.persona (u : Setup N) : Bytes × Bool × Bytes × Bytes :=
  (u.settings.masterPrompt, u.settings.lengthRamp, u.character.name, u.character.persona)

/-- A speculation from `p` may serve a send from `q`: the speculate request is no prewarm, no
content ends a record of the key early, and neither the request nor an edit has changed a setting or
the character between the two. -/
structure SameSetup (p q : Setup N) : Prop where
  whole : p.request.prewarm = false
  plain : p.request.messages = q.request.messages ∨
    ∀ m ∈ p.request.messages ++ q.request.messages, m.Plain
  temperature : Agrees p.request.temperature q.request.temperature p.settings.temperature
    q.settings.temperature
  topP : Agrees p.request.topP q.request.topP p.settings.topP q.settings.topP
  repeatPenalty : Agrees p.request.repeatPenalty q.request.repeatPenalty p.settings.repeatPenalty
    q.settings.repeatPenalty
  maxTokens : Agrees p.request.maxTokens q.request.maxTokens
    (p.settings.maxTokens, p.settings.lengthRamp) (q.settings.maxTokens, q.settings.lengthRamp)
  seed : p.request.seed = q.request.seed ∨ p.request.seed < 0 ∧ q.request.seed < 0
  persona : p.clientHasSystem = false → p.persona = q.persona

namespace SameSetup

variable {p q : Setup N}

theorem retyped (h : SameSetup p q) (hkey : p.specKey = q.specKey) :
    p.request.messages.map ChatMessage.role = q.request.messages.map ChatMessage.role ∧
      (q.request.messages = p.request.messages ∨
        Retyped p.lastUser p.request.messages q.request.messages) := by
  rcases h.plain with hsame | hplain
  · exact ⟨by rw [hsame], .inl hsame.symm⟩
  · refine retyped_of_keyMessages (keyMessages_inj ?_ ?_ hkey)
    · exact fun m hm => hplain m (List.mem_append_left _ hm)
    · exact fun m hm => hplain m (List.mem_append_right _ hm)

end SameSetup

section

variable {p q : Setup N}
  (h : p.request.messages.map ChatMessage.role = q.request.messages.map ChatMessage.role)
include h

theorem clientHasSystem_of_roles : p.clientHasSystem = q.clientHasSystem := by
  have hhead := congrArg List.head? h
  rw [List.head?_map, List.head?_map] at hhead
  rw [Setup.clientHasSystem, Setup.clientHasSystem]
  have hany : ∀ o : Option ChatMessage, (o.any fun message => decide (message.role = .system)) =
      (o.map ChatMessage.role).any fun role => decide (role = .system) := by
    intro o
    cases o <;> rfl
  rw [hany, hhead, ← hany]

theorem assistantTurns_of_roles : p.assistantTurns = q.assistantTurns := by
  have hcount : ∀ u : Setup N, u.assistantTurns =
      (u.request.messages.map ChatMessage.role).countP fun role => decide (role = .assistant) := by
    intro u
    rw [Setup.assistantTurns, List.countP_map]
    rfl
  rw [hcount, h, ← hcount]

end

theorem withSystem_retyped {u v : Setup N} (hsystem : u.clientHasSystem = v.clientHasSystem)
    {prompt prompt' : Bytes} (hprompt : u.clientHasSystem = false → prompt = prompt')
    (h : messages' = messages ∨ NoteRetyped messages messages') :
    v.withSystem prompt' messages' = u.withSystem prompt messages ∨
      NoteRetyped (u.withSystem prompt messages) (v.withSystem prompt' messages') := by
  rw [Setup.withSystem, Setup.withSystem, ← hsystem]
  cases hhas : u.clientHasSystem with
  | true => exact h
  | false =>
    rw [← hprompt hhas]
    rcases h with rfl | h
    · exact .inl rfl
    · exact .inr (h.cons _)

theorem sameUpToTail_of_sameSetup [Number N] {p q : Setup N} (h : SameSetup p q)
    (hkey : p.specKey = q.specKey) (hq : q.request.prewarm = false) :
    SameUpToTail p.llamaBody q.llamaBody := by
  obtain ⟨hroles, hmessages⟩ := h.retyped hkey
  have hturns := assistantTurns_of_roles hroles
  have hlast : p.lastUser = q.lastUser := congrArg lastUserIndex hroles
  have hramp : ∀ stored : ℤ × Bool, ∀ u : Setup N,
      (u.settings.maxTokens, u.settings.lengthRamp) = stored →
      rampedMaxTokens u.settings u.assistantTurns =
        if stored.2 then min stored.1 (72 + 40 * max 0 (u.assistantTurns : ℤ)) else stored.1 := by
    rintro _ u rfl
    rw [rampedMaxTokens]
  refine ⟨?_, ?_⟩
  · have htokens := h.maxTokens.getD_eq fun stored : ℤ × Bool =>
      if stored.2 then min stored.1 (72 + 40 * max 0 (p.assistantTurns : ℤ)) else stored.1
    have hseed : (if 0 ≤ p.request.seed then some p.request.seed else none) =
        if 0 ≤ q.request.seed then some q.request.seed else none := by
      rcases h.seed with hseed | ⟨hp, hq⟩
      · rw [hseed]
      · rw [if_neg (not_le.mpr hp), if_neg (not_le.mpr hq)]
    simp only [Setup.llamaBody, LlamaBody.mk.injEq, h.whole, hq, hseed, true_and, and_true,
      ← h.temperature.getD_eq, ← h.topP.getD_eq, ← h.repeatPenalty.getD_eq]
    rw [hramp _ q rfl, ← hturns, ← htokens, hramp _ p rfl]
  · refine withSystem_retyped (clientHasSystem_of_roles hroles) ?_ ?_
    · intro hsystem
      have hpersona := h.persona hsystem
      simp only [Setup.persona, Prod.mk.injEq] at hpersona
      obtain ⟨hprompt, hlength, hname, hpersona⟩ := hpersona
      rw [Setup.systemPrompt, Setup.systemPrompt, renderMasterPrompt, renderMasterPrompt,
        lengthGuidance, lengthGuidance, hprompt, hlength, hname, hpersona, hturns]
    · rw [← hlast]
      rcases hmessages with hsame | hretyped
      · exact .inl (by rw [hsame])
      · exact .inr (noteRetyped_of_retyped hretyped)

end FastTts.Speak
