import FastTts.Bytes
import FastTts.Runs

/-!
# The speculation slot

A speculate request starts a worker that generates the reply to a draft ahead of the send; the send
attaches to it if the keys match. The slot, the abort flags and the stream mutex are spread over
`start_chat_speculation`, the prewarm branch, `take_matching_speculation` and the worker. One step
is one region of `chat_speculation_mutex_`, or one stretch of a worker or a consumer between two of
its own regions. A speculation is its index in `specs`, a send its index in `sends`. The payload
`ρ` is whatever a request was rendered to; no step reads it.
-/

namespace FastTts.Chat

/-- Where a worker stands: it waits for `llm_spec_stream_mutex_`, holds it, streams, has let go of
it, has set `llm_done`, has ended. -/
inductive SpecWorker
  | queued
  | admitted
  | streaming
  | ended (ok : Bool)
  | settled
  | exited
  deriving DecidableEq, Repr

structure Spec (ρ : Type) where
  key : Bytes
  body : ρ
  abort : Bool
  llmDone : Bool
  ok : Bool
  worker : SpecWorker
  deriving DecidableEq, Repr

/-- Where a send stands: between its two critical sections, served without a speculation, replaying
one, through with it, or stopped before its end. -/
inductive SendPc
  | recorded
  | live
  | replaying (i : ℕ)
  | replayed (i : ℕ)
  | abandoned (i : ℕ)
  deriving DecidableEq, Repr

structure Send (ρ : Type) where
  key : Bytes
  body : ρ
  pc : SendPc
  deriving DecidableEq, Repr

/-- What a speculation, and likewise a send, has from its request. -/
def Spec.payload {ρ : Type} (spec : Spec ρ) : Bytes × ρ := (spec.key, spec.body)

def Send.payload {ρ : Type} (send : Send ρ) : Bytes × ρ := (send.key, send.body)

structure State (ρ : Type) where
  specs : List (Spec ρ)
  slot : Option ℕ
  lastSendKey : Bytes
  lastSendAt : ℤ
  streamHolder : Option ℕ
  sends : List (Send ρ)

variable {ρ : Type}

def initial : State ρ := ⟨[], none, [], 0, none, []⟩

def State.setSpec (s : State ρ) (i : ℕ) (f : Spec ρ → Spec ρ) : State ρ :=
  { s with specs := s.specs.modify i f }

def State.setSend (s : State ρ) (j : ℕ) (pc : SendPc) : State ρ :=
  { s with sends := s.sends.modify j fun send => { send with pc := pc } }

def Spec.aborted (spec : Spec ρ) : Spec ρ := { spec with abort := true }

/-- Thirty seconds of the steady clock, in nanoseconds. -/
def lastSendWindow : ℤ := 30000000000

def publish (s : State ρ) (key : Bytes) (body : ρ) : State ρ :=
  { s with
    specs := s.specs ++ [⟨key, body, false, false, false, .queued⟩]
    slot := some s.specs.length }

def startChatSpeculation (s : State ρ) (key : Bytes) (body : ρ) (now : ℤ) : State ρ :=
  if key = s.lastSendKey ∧ now - s.lastSendAt < lastSendWindow then s
  else match s.slot with
    | none => publish s key body
    | some i =>
      if (s.specs[i]?).map Spec.key = some key then s
      else publish (s.setSpec i Spec.aborted) key body

/-- A prewarm for another draft ends the speculation. -/
def prewarm (s : State ρ) (key : Bytes) : State ρ :=
  match s.slot with
  | none => s
  | some i =>
    if (s.specs[i]?).map Spec.key = some key then s
    else { s.setSpec i Spec.aborted with slot := none }

def recordSend (s : State ρ) (key : Bytes) (body : ρ) (now : ℤ) : State ρ :=
  { s with
    lastSendKey := key
    lastSendAt := now
    sends := s.sends ++ [⟨key, body, .recorded⟩] }

def takeMatchingSpeculation (s : State ρ) (j : ℕ) (key : Bytes) : State ρ :=
  match s.slot with
  | none => s.setSend j .live
  | some i =>
    let t := { s with slot := none }
    match s.specs[i]? with
    | none => t.setSend j .live
    | some spec =>
      if spec.key ≠ key ∨ spec.abort = true then (t.setSpec i Spec.aborted).setSend j .live
      else if spec.llmDone = true ∧ spec.ok = false then t.setSend j .live
      else t.setSend j (.replaying i)

/-- The consumer's replay loop ends at `llm_done`; or the client is gone and it lets the worker go. -/
def consumerStep (s : State ρ) (j : ℕ) (gone : Bool) : Option (State ρ) :=
  match s.sends[j]? with
  | some ⟨_, _, .replaying i⟩ =>
    if gone then some ((s.setSpec i Spec.aborted).setSend j (.abandoned i))
    else match s.specs[i]? with
      | some spec => if spec.llmDone then some (s.setSend j (.replayed i)) else none
      | none => none
  | _ => none

def Spec.at (worker : SpecWorker) (spec : Spec ρ) : Spec ρ := { spec with worker := worker }

/-- One stretch of the worker of `specs[i]`; `ok` is how its generation ends. -/
def workerStep (s : State ρ) (i : ℕ) (ok : Bool) : Option (State ρ) :=
  match s.specs[i]? with
  | none => none
  | some spec => match spec.worker with
    | .queued =>
      if s.streamHolder = none then
        some { s.setSpec i (Spec.at .admitted) with streamHolder := some i }
      else none
    | .admitted =>
      if spec.abort then some { s.setSpec i (Spec.at .exited) with streamHolder := none }
      else some (s.setSpec i (Spec.at .streaming))
    | .streaming => some { s.setSpec i (Spec.at (.ended ok)) with streamHolder := none }
    | .ended ok => some (s.setSpec i fun spec =>
        { spec with ok := ok, llmDone := true, worker := .settled })
    | .settled => some (s.setSpec i (Spec.at .exited))
    | .exited => none

inductive Action (ρ : Type)
  | speculate (key : Bytes) (body : ρ) (now : ℤ)
  | prewarm (key : Bytes)
  | send (key : Bytes) (body : ρ) (now : ℤ)
  | take (j : ℕ)
  | consumer (j : ℕ) (gone : Bool)
  | worker (i : ℕ) (ok : Bool)

def step (s : State ρ) : Action ρ → Option (State ρ)
  | .speculate key body now => some (startChatSpeculation s key body now)
  | .prewarm key => some (prewarm s key)
  | .send key body now => some (recordSend s key body now)
  | .take j => match s.sends[j]? with
    | some ⟨key, _, .recorded⟩ => some (takeMatchingSpeculation s j key)
    | _ => none
  | .consumer j gone => consumerStep s j gone
  | .worker i ok => workerStep s i ok

/-! ## Attachment -/

def SendPc.attached : SendPc → Option ℕ
  | .replaying i | .replayed i | .abandoned i => some i
  | _ => none

def State.sendPc (s : State ρ) (j : ℕ) : Option SendPc := (s.sends[j]?).map Send.pc

def State.attachment (s : State ρ) (j : ℕ) : Option ℕ := (s.sendPc j).bind SendPc.attached

def SpecWorker.before : SpecWorker → Bool
  | .settled | .exited => false
  | _ => true

structure Spec.Sound (spec : Spec ρ) : Prop where
  before : spec.worker.before = true → spec.llmDone = false
  settled : spec.worker = .settled → spec.llmDone = true
  exited : spec.worker = .exited → spec.llmDone = false → spec.abort = true

def Spec.failed (spec : Spec ρ) : Prop := spec.llmDone = true ∧ spec.ok = false

/-- Between two steps: the slot holds a speculation that is neither aborted nor attached, an
attached one has one send and is aborted by it alone, and one that is neither in the slot nor
attached is aborted or has failed. -/
structure SlotInv (s : State ρ) : Prop where
  sound : ∀ (i : ℕ) (spec : Spec ρ), s.specs[i]? = some spec → spec.Sound
  slot : ∀ i, s.slot = some i → ∃ spec, s.specs[i]? = some spec ∧ spec.abort = false
  free : ∀ i j, s.slot = some i → s.attachment j ≠ some i
  unique : ∀ i j k, s.attachment j = some i → s.attachment k = some i → j = k
  keys : ∀ i j, s.attachment j = some i → ∃ spec send, s.specs[i]? = some spec ∧
    s.sends[j]? = some send ∧ spec.key = send.key
  aborted : ∀ (i j : ℕ) (spec : Spec ρ), s.specs[i]? = some spec → s.attachment j = some i →
    (spec.abort = true ↔ s.sendPc j = some (.abandoned i))
  spare : ∀ (i : ℕ) (spec : Spec ρ), s.specs[i]? = some spec → spec.abort = false →
    (∀ j, s.attachment j ≠ some i) → s.slot = some i ∨ spec.failed

theorem slotInv_initial : SlotInv (initial : State ρ) where
  sound := by intro i spec h; cases h
  slot := by intro i h; cases h
  free := by intro i j h; cases h
  unique := by intro i j k h; cases h
  keys := by intro i j h; cases h
  aborted := by intro i j spec h; cases h
  spare := by intro i spec h; cases h

section Updates

variable {s t : State ρ} {i j k : ℕ} {pc old : SendPc} {f : Spec ρ → Spec ρ} {spec : Spec ρ}

@[simp] theorem sends_setSpec : (s.setSpec i f).sends = s.sends := rfl

@[simp] theorem slot_setSpec : (s.setSpec i f).slot = s.slot := rfl

@[simp] theorem specs_setSend : (s.setSend j pc).specs = s.specs := rfl

@[simp] theorem slot_setSend : (s.setSend j pc).slot = s.slot := rfl

theorem sendPc_congr (h : t.sends = s.sends) (j : ℕ) : t.sendPc j = s.sendPc j := by
  rw [State.sendPc, State.sendPc, h]

theorem attachment_congr (h : t.sends = s.sends) (j : ℕ) : t.attachment j = s.attachment j := by
  rw [State.attachment, State.attachment, sendPc_congr h]

theorem getElem?_setSpec (s : State ρ) (i k : ℕ) (f : Spec ρ → Spec ρ) :
    (s.setSpec i f).specs[k]? = if i = k then (s.specs[k]?).map f else s.specs[k]? := by
  rw [State.setSpec, List.getElem?_modify]
  split_ifs <;> simp

theorem exists_of_setSpec (h : (s.setSpec i f).specs[k]? = some spec) :
    ∃ old, s.specs[k]? = some old ∧ (i = k ∧ spec = f old ∨ i ≠ k ∧ old = spec) := by
  rw [getElem?_setSpec] at h
  split_ifs at h with hik
  · obtain ⟨old, hold, rfl⟩ := Option.map_eq_some_iff.mp h
    exact ⟨old, hold, .inl ⟨hik, rfl⟩⟩
  · exact ⟨spec, h, .inr ⟨hik, rfl⟩⟩

theorem getElem?_setSend (s : State ρ) (j k : ℕ) (pc : SendPc) :
    (s.setSend j pc).sends[k]? =
      if j = k then (s.sends[k]?).map fun send => { send with pc := pc } else s.sends[k]? := by
  rw [State.setSend, List.getElem?_modify]
  split_ifs <;> simp

theorem sendPc_setSend (h : s.sendPc j = some old) (k : ℕ) :
    (s.setSend j pc).sendPc k = if j = k then some pc else s.sendPc k := by
  rw [State.sendPc, getElem?_setSend]
  split_ifs with hjk
  · subst hjk
    obtain ⟨send, hsend, _⟩ := Option.map_eq_some_iff.mp h
    rw [hsend]
    rfl
  · rfl

theorem attachment_setSend (h : s.sendPc j = some old) (k : ℕ) :
    (s.setSend j pc).attachment k = if j = k then pc.attached else s.attachment k := by
  rw [State.attachment, sendPc_setSend h]
  split_ifs <;> rfl

theorem attachment_setSend_same (h : s.sendPc j = some old) (hpc : pc.attached = old.attached)
    (k : ℕ) : (s.setSend j pc).attachment k = s.attachment k := by
  rw [attachment_setSend h]
  split_ifs with hjk
  · rw [← hjk, State.attachment, h, hpc]
    rfl
  · rfl

theorem sends_setSend {send : Send ρ} (pc : SendPc) (h : s.sends[k]? = some send) :
    ∃ send', (s.setSend j pc).sends[k]? = some send' ∧ send'.key = send.key := by
  rw [getElem?_setSend, h]
  split_ifs
  · exact ⟨_, rfl, rfl⟩
  · exact ⟨send, rfl, rfl⟩

theorem sendPc_recordSend (s : State ρ) (key : Bytes) (body : ρ) (now : ℤ) (k : ℕ) :
    (recordSend s key body now).sendPc k =
      if k = s.sends.length then some .recorded else s.sendPc k := by
  rw [State.sendPc, State.sendPc, recordSend]
  split_ifs with hk
  · rw [hk, List.getElem?_concat_length]
    rfl
  · rw [List.getElem?_append]
    split_ifs with hlt
    · rfl
    · have hnone : s.sends[k]? = none := List.getElem?_eq_none (Nat.not_lt.mp hlt)
      rw [hnone, List.getElem?_eq_none (by rw [List.length_singleton]; omega)]

end Updates

/-! ## What one update preserves -/

namespace SlotInv

variable {s t : State ρ} {i j : ℕ} {f : Spec ρ → Spec ρ} {spec : Spec ρ} {pc old : SendPc}

theorem of_sends (h : SlotInv s) (hspecs : t.specs = s.specs) (hslot : t.slot = s.slot)
    (hatt : ∀ k, t.attachment k = s.attachment k)
    (hab : ∀ i k, t.sendPc k = some (.abandoned i) ↔ s.sendPc k = some (.abandoned i))
    (hkeys : ∀ (k : ℕ) (send : Send ρ), s.sends[k]? = some send →
      ∃ send', t.sends[k]? = some send' ∧ send'.key = send.key) : SlotInv t where
  sound := by
    rw [hspecs]
    exact h.sound
  slot := by
    rw [hspecs, hslot]
    exact h.slot
  free i k := by
    rw [hslot, hatt]
    exact h.free i k
  unique i k l := by
    rw [hatt, hatt]
    exact h.unique i k l
  keys i k hk := by
    rw [hatt] at hk
    obtain ⟨spec, send, hspec, hsend, hkey⟩ := h.keys i k hk
    obtain ⟨send', hsend', hkey'⟩ := hkeys k send hsend
    exact ⟨spec, send', hspecs ▸ hspec, hsend', hkey.trans hkey'.symm⟩
  aborted i k spec hspec hk := by
    rw [hspecs] at hspec
    rw [hatt] at hk
    rw [hab]
    exact h.aborted i k spec hspec hk
  spare i spec hspec habort hfree := by
    rw [hspecs] at hspec
    rw [hslot]
    exact h.spare i spec hspec habort fun k => hatt k ▸ hfree k

theorem congr (h : SlotInv s) (hspecs : t.specs = s.specs) (hslot : t.slot = s.slot)
    (hsends : t.sends = s.sends) : SlotInv t :=
  h.of_sends hspecs hslot (attachment_congr hsends)
    (fun i k => by rw [sendPc_congr hsends]) (fun k send hk => ⟨send, hsends ▸ hk, rfl⟩)

theorem setSend (h : SlotInv s) (hold : s.sendPc j = some old) (hpc : pc.attached = old.attached)
    (ha : ∀ i, pc = .abandoned i ↔ old = .abandoned i) : SlotInv (s.setSend j pc) := by
  refine h.of_sends rfl rfl (attachment_setSend_same hold hpc) ?_ fun k send => sends_setSend pc
  intro i k
  rw [sendPc_setSend hold]
  split_ifs with hjk
  · rw [← hjk, hold, Option.some_inj, Option.some_inj, ha]
  · rfl

theorem recordSend (h : SlotInv s) (key : Bytes) (body : ρ) (now : ℤ) :
    SlotInv (recordSend s key body now) := by
  have hend : s.sendPc s.sends.length = none := by simp [State.sendPc]
  refine h.of_sends rfl rfl ?_ ?_ ?_
  · intro k
    rw [State.attachment, State.attachment, sendPc_recordSend]
    split_ifs with hk
    · rw [hk, hend]
      rfl
    · rfl
  · intro i k
    rw [sendPc_recordSend]
    split_ifs with hk
    · rw [hk, hend]
      simp
    · rfl
  · intro k send hk
    exact ⟨send, by rw [Chat.recordSend, List.getElem?_append_left
      (List.getElem?_eq_some_iff.mp hk).1, hk], rfl⟩

theorem setSpec (h : SlotInv s) (hspec : s.specs[i]? = some spec) (hkey : (f spec).key = spec.key)
    (hab : (f spec).abort = spec.abort) (hsound : (f spec).Sound)
    (hfail : spec.failed → (f spec).failed) : SlotInv (s.setSpec i f) where
  sound k spec' hk := by
    obtain ⟨old, hold, ⟨rfl, rfl⟩ | ⟨_, rfl⟩⟩ := exists_of_setSpec hk
    · cases hspec.symm.trans hold
      exact hsound
    · exact h.sound k old hold
  slot k hk := by
    obtain ⟨old, hold, hoff⟩ := h.slot k hk
    rw [getElem?_setSpec, hold]
    split_ifs with hik
    · subst hik
      cases hspec.symm.trans hold
      exact ⟨_, rfl, hab.trans hoff⟩
    · exact ⟨old, rfl, hoff⟩
  free := h.free
  unique := h.unique
  keys k j hk := by
    obtain ⟨old, send, hold, hsend, he⟩ := h.keys k j hk
    rw [getElem?_setSpec, hold]
    split_ifs with hik
    · subst hik
      cases hspec.symm.trans hold
      exact ⟨_, send, rfl, hsend, hkey.trans he⟩
    · exact ⟨old, send, rfl, hsend, he⟩
  aborted k j spec' hk hj := by
    obtain ⟨old, hold, ⟨rfl, rfl⟩ | ⟨_, rfl⟩⟩ := exists_of_setSpec hk
    · cases hspec.symm.trans hold
      rw [hab]
      exact h.aborted i j spec hspec hj
    · exact h.aborted k j old hold hj
  spare k spec' hk hoff hfree := by
    obtain ⟨old, hold, ⟨rfl, rfl⟩ | ⟨_, rfl⟩⟩ := exists_of_setSpec hk
    · cases hspec.symm.trans hold
      exact (h.spare i spec hspec (hab ▸ hoff) hfree).imp_right hfail
    · exact h.spare k old hold hoff hfree

theorem dropSlot (h : SlotInv s) (hslot : s.slot = some i) :
    SlotInv { s.setSpec i Spec.aborted with slot := none } where
  sound k spec' hk := by
    obtain ⟨old, hold, ⟨rfl, rfl⟩ | ⟨_, rfl⟩⟩ := exists_of_setSpec hk
    · have hs := h.sound i old hold
      exact ⟨hs.before, hs.settled, fun _ _ => rfl⟩
    · exact h.sound k old hold
  slot k hk := by cases hk
  free k j hk := by cases hk
  unique := h.unique
  keys k j hk := by
    have hne : i ≠ k := by
      rintro rfl
      exact h.free i j hslot hk
    obtain ⟨old, send, hold, he⟩ := h.keys k j hk
    exact ⟨old, send, by rw [← hold]; exact (getElem?_setSpec s i k _).trans (if_neg hne), he⟩
  aborted k j spec' hk hj := by
    obtain ⟨old, hold, ⟨rfl, rfl⟩ | ⟨_, rfl⟩⟩ := exists_of_setSpec hk
    · exact absurd hj (h.free i j hslot)
    · exact h.aborted k j old hold hj
  spare k spec' hk hoff hfree := by
    obtain ⟨old, hold, ⟨rfl, rfl⟩ | ⟨hne, rfl⟩⟩ := exists_of_setSpec hk
    · cases hoff
    · refine (h.spare k old hold hoff hfree).imp_left ?_
      intro hk
      exact absurd (Option.some.inj (hslot.symm.trans hk)) hne

theorem clearFailed (h : SlotInv s) (hslot : s.slot = some i) (hspec : s.specs[i]? = some spec)
    (hfail : spec.failed) : SlotInv { s with slot := none } where
  sound := h.sound
  slot k hk := by cases hk
  free k j hk := by cases hk
  unique := h.unique
  keys := h.keys
  aborted := h.aborted
  spare k spec' hk hoff hfree := by
    rcases h.spare k spec' hk hoff hfree with hs | hs
    · cases hslot.symm.trans hs
      cases hspec.symm.trans hk
      exact .inr hfail
    · exact .inr hs

theorem publish (h : SlotInv s) (hslot : s.slot = none) (key : Bytes) (body : ρ) :
    SlotInv (publish s key body) := by
  have hget : ∀ (k : ℕ) (spec : Spec ρ), (Chat.publish s key body).specs[k]? = some spec →
      k < s.specs.length ∧ s.specs[k]? = some spec ∨
        k = s.specs.length ∧ spec = ⟨key, body, false, false, false, .queued⟩ := by
    intro k spec hk
    rw [Chat.publish, List.getElem?_append] at hk
    split_ifs at hk with hlt
    · exact .inl ⟨hlt, hk⟩
    · obtain ⟨hz, hk⟩ := List.getElem?_eq_some_iff.mp hk
      rw [List.length_singleton] at hz
      exact .inr ⟨by omega, by simpa using hk.symm⟩
  have hmono : ∀ (k : ℕ) (spec : Spec ρ), s.specs[k]? = some spec →
      (Chat.publish s key body).specs[k]? = some spec := by
    intro k spec hk
    rw [Chat.publish, List.getElem?_append_left (List.getElem?_eq_some_iff.mp hk).1, hk]
  have hnew : ∀ j, s.attachment j ≠ some s.specs.length := by
    intro j hj
    obtain ⟨spec, send, hspec, _⟩ := h.keys _ j hj
    exact absurd (List.getElem?_eq_some_iff.mp hspec).1 (Nat.lt_irrefl _)
  exact
    { sound := by
        intro k spec hk
        rcases hget k spec hk with ⟨_, hk⟩ | ⟨_, rfl⟩
        · exact h.sound k spec hk
        · exact ⟨fun _ => rfl, nofun, nofun⟩
      slot := by
        rintro k ⟨⟩
        exact ⟨_, List.getElem?_concat_length, rfl⟩
      free := by
        rintro k j ⟨⟩
        exact hnew j
      unique := h.unique
      keys := by
        intro k j hk
        obtain ⟨spec, send, hspec, hrest⟩ := h.keys k j hk
        exact ⟨spec, send, hmono k spec hspec, hrest⟩
      aborted := by
        intro k j spec hk hj
        rcases hget k spec hk with ⟨_, hk⟩ | ⟨rfl, _⟩
        · exact h.aborted k j spec hk hj
        · exact absurd hj (hnew j)
      spare := by
        intro k spec hk hoff hfree
        rcases hget k spec hk with ⟨_, hk⟩ | ⟨rfl, _⟩
        · refine .inr ((h.spare k spec hk hoff hfree).resolve_left ?_)
          rw [hslot]
          exact nofun
        · exact .inl rfl }

theorem attach {send : Send ρ} (h : SlotInv s) (hslot : s.slot = some i)
    (hspec : s.specs[i]? = some spec) (hsend : s.sends[j]? = some send)
    (hpc : send.pc = .recorded) (hkey : spec.key = send.key) :
    SlotInv ({ s with slot := none }.setSend j (.replaying i)) := by
  have hold : { s with slot := none }.sendPc j = some .recorded := by
    rw [State.sendPc, hsend, ← hpc]
    rfl
  have hatt : ∀ k, ({ s with slot := none }.setSend j (.replaying i)).attachment k =
      if j = k then some i else s.attachment k := attachment_setSend hold
  have hoff : spec.abort = false := by
    obtain ⟨spec', hspec', hoff⟩ := h.slot i hslot
    cases hspec.symm.trans hspec'
    exact hoff
  exact
    { sound := h.sound
      slot := by
        intro k hk
        cases hk
      free := by
        intro k l hk
        cases hk
      unique := by
        intro k l m hl hm
        rw [hatt] at hl hm
        split_ifs at hl hm with hjl hjm hjm
        · exact hjl.symm.trans hjm
        · cases hl
          exact absurd hm (h.free i m hslot)
        · cases hm
          exact absurd hl (h.free i l hslot)
        · exact h.unique k l m hl hm
      keys := by
        intro k l hl
        rw [hatt] at hl
        split_ifs at hl with hjl
        · cases hl
          cases hjl
          obtain ⟨send', hsend', hkey'⟩ :=
            sends_setSend (s := { s with slot := none }) (j := j) (.replaying i) hsend
          exact ⟨spec, send', hspec, hsend', hkey.trans hkey'.symm⟩
        · obtain ⟨old, send', hold', hsend', hkey'⟩ := h.keys k l hl
          obtain ⟨send'', hsend'', hkey''⟩ :=
            sends_setSend (s := { s with slot := none }) (j := j) (.replaying i) hsend'
          exact ⟨old, send'', hold', hsend'', hkey'.trans hkey''.symm⟩
      aborted := by
        intro k l spec' hk hl
        rw [hatt] at hl
        rw [sendPc_setSend hold]
        split_ifs at hl ⊢ with hjl
        · cases hl
          cases hspec.symm.trans hk
          simp [hoff]
        · exact h.aborted k l spec' hk hl
      spare := by
        intro k spec' hk hoff' hfree
        have hne : k ≠ i := by
          rintro rfl
          exact hfree j (by rw [hatt, if_pos rfl])
        refine .inr ((h.spare k spec' hk hoff' ?_).resolve_left ?_)
        · intro l hl
          refine hfree l ?_
          rw [hatt, if_neg ?_]
          · exact hl
          · rintro rfl
            have hnone : s.attachment j = none := congrArg (·.bind SendPc.attached) hold
            exact absurd (hnone.symm.trans hl) nofun
        · rw [hslot]
          exact fun he => hne (Option.some.inj he).symm }

theorem abandon (h : SlotInv s) (hold : s.sendPc j = some (.replaying i)) :
    SlotInv ((s.setSpec i Spec.aborted).setSend j (.abandoned i)) := by
  have hj : s.attachment j = some i := by
    rw [State.attachment, hold]
    rfl
  have hold' : (s.setSpec i Spec.aborted).sendPc j = some (.replaying i) := hold
  have hatt : ∀ k, ((s.setSpec i Spec.aborted).setSend j (.abandoned i)).attachment k =
      s.attachment k := attachment_setSend_same hold' rfl
  exact
    { sound := by
        intro k spec' hk
        obtain ⟨old, hspec, ⟨rfl, rfl⟩ | ⟨_, rfl⟩⟩ := exists_of_setSpec hk
        · have hs := h.sound i old hspec
          exact ⟨hs.before, hs.settled, fun _ _ => rfl⟩
        · exact h.sound k old hspec
      slot := by
        intro k hk
        obtain ⟨old, hspec, hoff⟩ := h.slot k hk
        have hne : i ≠ k := by
          rintro rfl
          exact h.free i j hk hj
        exact ⟨old, ((getElem?_setSpec s i k _).trans (if_neg hne)).trans hspec, hoff⟩
      free := by
        intro k l hk
        rw [hatt]
        exact h.free k l hk
      unique := by
        intro k l m
        rw [hatt, hatt]
        exact h.unique k l m
      keys := by
        intro k l hl
        rw [hatt] at hl
        obtain ⟨old, send, hspec, hsend, hkey⟩ := h.keys k l hl
        obtain ⟨send', hsend', hkey'⟩ :=
          sends_setSend (s := s.setSpec i Spec.aborted) (j := j) (.abandoned i) hsend
        rw [specs_setSend, getElem?_setSpec, hspec]
        split_ifs
        · exact ⟨_, send', rfl, hsend', hkey.trans hkey'.symm⟩
        · exact ⟨old, send', rfl, hsend', hkey.trans hkey'.symm⟩
      aborted := by
        intro k l spec' hk hl
        rw [hatt] at hl
        rw [sendPc_setSend hold']
        obtain ⟨old, hspec, ⟨rfl, rfl⟩ | ⟨hne, rfl⟩⟩ := exists_of_setSpec hk
        · rw [if_pos (h.unique i j l hj hl)]
          simp [Spec.aborted]
        · rw [if_neg ?_]
          · exact h.aborted k l old hspec hl
          · rintro rfl
            exact hne (Option.some.inj (hj.symm.trans hl))
      spare := by
        intro k spec' hk hoff hfree
        obtain ⟨old, hspec, ⟨rfl, rfl⟩ | ⟨_, rfl⟩⟩ := exists_of_setSpec hk
        · cases hoff
        · refine h.spare k old hspec hoff ?_
          intro l
          rw [← hatt]
          exact hfree l }

end SlotInv

/-! ## Runs -/

section Steps

variable {s t : State ρ} {a : Action ρ} {i j : ℕ} {ok : Bool} {f : Spec ρ → Spec ρ}

theorem workerStep_cases (h : workerStep s i ok = some t) :
    ∃ (spec : Spec ρ) (f : Spec ρ → Spec ρ), s.specs[i]? = some spec ∧
      t.specs = (s.setSpec i f).specs ∧ t.slot = s.slot ∧ t.sends = s.sends ∧
      (∀ old, (f old).payload = old.payload) ∧ (f spec).abort = spec.abort ∧
      (spec.Sound → (f spec).Sound ∧ (spec.failed → (f spec).failed)) := by
  rw [workerStep] at h
  cases hspec : s.specs[i]? with
  | none =>
    rw [hspec] at h
    cases h
  | some spec =>
    simp only [hspec] at h
    cases hw : spec.worker <;> simp only [hw] at h
    case queued =>
      split_ifs at h
      cases h
      exact ⟨spec, _, rfl, rfl, rfl, rfl, fun _ => rfl, rfl, fun hs =>
        ⟨⟨fun _ => hs.before (by rw [hw]; rfl), nofun, nofun⟩, id⟩⟩
    case admitted =>
      have hdone : spec.Sound → spec.llmDone = false := fun hs => hs.before (by rw [hw]; rfl)
      split_ifs at h with hab <;> cases h
      · exact ⟨spec, _, rfl, rfl, rfl, rfl, fun _ => rfl, rfl,
          fun hs => ⟨⟨nofun, nofun, fun _ _ => hab⟩, id⟩⟩
      · exact ⟨spec, _, rfl, rfl, rfl, rfl, fun _ => rfl, rfl,
          fun hs => ⟨⟨fun _ => hdone hs, nofun, nofun⟩, id⟩⟩
    case streaming =>
      cases h
      exact ⟨spec, _, rfl, rfl, rfl, rfl, fun _ => rfl, rfl, fun hs =>
        ⟨⟨fun _ => hs.before (by rw [hw]; rfl), nofun, nofun⟩, id⟩⟩
    case ended ok =>
      cases h
      refine ⟨spec, _, rfl, rfl, rfl, rfl, fun _ => rfl, rfl,
        fun hs => ⟨⟨nofun, fun _ => rfl, nofun⟩, ?_⟩⟩
      intro hfail
      exact absurd (hfail.1.symm.trans (hs.before (by rw [hw]; rfl))) nofun
    case settled =>
      cases h
      refine ⟨spec, _, rfl, rfl, rfl, rfl, fun _ => rfl, rfl, fun hs => ⟨⟨nofun, nofun, ?_⟩, id⟩⟩
      intro _ hdone
      exact absurd ((hs.settled hw).symm.trans hdone) nofun
    case exited => cases h

theorem consumerStep_cases {gone : Bool} (h : consumerStep s j gone = some t) :
    ∃ i, s.sendPc j = some (.replaying i) ∧
      (gone = true ∧ t = (s.setSpec i Spec.aborted).setSend j (.abandoned i) ∨
        t = s.setSend j (.replayed i)) := by
  rw [consumerStep] at h
  split at h
  · rename_i key body i hsend
    refine ⟨i, by rw [State.sendPc, hsend]; rfl, ?_⟩
    split_ifs at h with hgone
    · exact .inl ⟨hgone, (Option.some.inj h).symm⟩
    · cases hspec : s.specs[i]? with
      | none =>
        simp only [hspec] at h
        cases h
      | some spec =>
        simp only [hspec] at h
        split_ifs at h
        exact .inr (Option.some.inj h).symm
  · cases h

theorem slotInv_startChatSpeculation (h : SlotInv s) (key : Bytes) (body : ρ) (now : ℤ) :
    SlotInv (startChatSpeculation s key body now) := by
  rw [startChatSpeculation]
  split_ifs
  · exact h
  · cases hslot : s.slot with
    | none => exact h.publish hslot key body
    | some i =>
      simp only
      split_ifs
      · exact h
      · exact (h.dropSlot hslot).publish rfl key body

theorem slotInv_prewarm (h : SlotInv s) (key : Bytes) : SlotInv (prewarm s key) := by
  rw [prewarm]
  cases hslot : s.slot with
  | none => exact h
  | some i =>
    simp only
    split_ifs
    · exact h
    · exact h.dropSlot hslot

theorem slotInv_take {send : Send ρ} (h : SlotInv s) (hsend : s.sends[j]? = some send)
    (hpc : send.pc = .recorded) : SlotInv (takeMatchingSpeculation s j send.key) := by
  have hold : s.sendPc j = some .recorded := by
    rw [State.sendPc, hsend, ← hpc]
    rfl
  have hlive : ∀ t : State ρ, SlotInv t → t.sends = s.sends → SlotInv (t.setSend j .live) := by
    intro t ht hsends
    refine ht.setSend ((sendPc_congr hsends j).trans hold) rfl ?_
    intro i
    simp
  rw [takeMatchingSpeculation]
  cases hslot : s.slot with
  | none => exact hlive s h rfl
  | some i =>
    obtain ⟨spec, hspec, _⟩ := h.slot i hslot
    simp only [hspec]
    split_ifs with hkey hfail
    · exact hlive _ (h.dropSlot hslot) rfl
    · exact hlive _ (h.clearFailed hslot hspec hfail) rfl
    · refine h.attach hslot hspec hsend hpc ?_
      by_contra hne
      exact hkey (.inl hne)

theorem slotInv_step (h : SlotInv s) (hstep : step s a = some t) : SlotInv t := by
  cases a with
  | speculate key body now =>
    cases hstep
    exact slotInv_startChatSpeculation h key body now
  | prewarm key =>
    cases hstep
    exact slotInv_prewarm h key
  | send key body now =>
    cases hstep
    exact h.recordSend key body now
  | take j =>
    rw [step] at hstep
    split at hstep
    · rename_i key body hsend
      cases hstep
      exact slotInv_take h hsend rfl
    · cases hstep
  | consumer j gone =>
    obtain ⟨i, hold, ⟨_, rfl⟩ | rfl⟩ := consumerStep_cases hstep
    · exact h.abandon hold
    · refine h.setSend hold rfl ?_
      intro k
      simp
  | worker i ok =>
    obtain ⟨spec, f, hspec, hspecs, hslot, hsends, hpayload, hab, hsound⟩ := workerStep_cases hstep
    obtain ⟨hs, hfail⟩ := hsound (h.sound i spec hspec)
    have hkey : (f spec).key = spec.key := congrArg Prod.fst (hpayload spec)
    exact (h.setSpec hspec hkey hab hs hfail).congr hspecs hslot hsends

theorem slotInv_of_reaches (h : Reaches step Always initial s) : SlotInv s :=
  h.invariant slotInv_initial fun _ _ _ hs _ hstep => slotInv_step hs hstep

/-- The speculation `i` is in the slot and has not failed. -/
def State.Ready (s : State ρ) (i : ℕ) : Prop :=
  s.slot = some i ∧ ∃ spec, s.specs[i]? = some spec ∧ ¬ spec.failed

/-- What a step in `s` does to the send `j`. -/
inductive SendMoves (s : State ρ) (a : Action ρ) (j : ℕ) : Option SendPc → Option SendPc → Prop
  | stays (pc : Option SendPc) : SendMoves s a j pc pc
  | arrives : SendMoves s a j none (some .recorded)
  | misses : SendMoves s a j (some .recorded) (some .live)
  | attaches (i : ℕ) (ha : a = .take j) (hready : s.Ready i) :
      SendMoves s a j (some .recorded) (some (.replaying i))
  | finishes (i : ℕ) : SendMoves s a j (some (.replaying i)) (some (.replayed i))
  | abandons (i : ℕ) (ha : a = .consumer j true) :
      SendMoves s a j (some (.replaying i)) (some (.abandoned i))

theorem sends_startChatSpeculation (key : Bytes) (body : ρ) (now : ℤ) :
    (startChatSpeculation s key body now).sends = s.sends := by
  rw [startChatSpeculation]
  split_ifs
  · rfl
  · cases s.slot with
    | none => rfl
    | some i =>
      simp only
      split_ifs <;> rfl

theorem sends_prewarm (key : Bytes) : (prewarm s key).sends = s.sends := by
  rw [prewarm]
  cases s.slot with
  | none => rfl
  | some i =>
    simp only
    split_ifs <;> rfl

theorem takeMatchingSpeculation_cases (key : Bytes) :
    ∃ (u : State ρ) (pc : SendPc), u.sends = s.sends ∧ takeMatchingSpeculation s j key = u.setSend j pc ∧
      (pc = .live ∨ ∃ i, s.Ready i ∧ pc = .replaying i) := by
  rw [takeMatchingSpeculation]
  cases hslot : s.slot with
  | none => exact ⟨s, _, rfl, rfl, .inl rfl⟩
  | some i =>
    simp only
    cases hspec : s.specs[i]? with
    | none => exact ⟨{ s with slot := none }, _, rfl, rfl, .inl rfl⟩
    | some spec =>
      simp only
      split_ifs with hmiss hfailed
      · exact ⟨{ s.setSpec i Spec.aborted with slot := none }, _, rfl, rfl, .inl rfl⟩
      · exact ⟨{ s with slot := none }, _, rfl, rfl, .inl rfl⟩
      · exact ⟨{ s with slot := none }, _, rfl, rfl, .inr ⟨i, ⟨hslot, spec, hspec, hfailed⟩, rfl⟩⟩

theorem sendMoves_of_step (h : step s a = some t) (j : ℕ) :
    SendMoves s a j (s.sendPc j) (t.sendPc j) := by
  have hsame : t.sends = s.sends → SendMoves s a j (s.sendPc j) (t.sendPc j) := by
    intro he
    rw [sendPc_congr he]
    exact .stays _
  cases a with
  | speculate key body now =>
    cases h
    exact hsame (sends_startChatSpeculation key body now)
  | prewarm key =>
    cases h
    exact hsame (sends_prewarm key)
  | send key body now =>
    cases h
    rw [sendPc_recordSend]
    split_ifs with hj
    · rw [hj, State.sendPc, List.getElem?_eq_none le_rfl]
      exact .arrives
    · exact .stays _
  | take k =>
    rw [step] at h
    split at h
    · rename_i key body hsend
      obtain ⟨u, pc, hu, he, hpc⟩ := takeMatchingSpeculation_cases (s := s) (j := k) key
      rw [he] at h
      cases h
      have hold : s.sendPc k = some .recorded := by
        rw [State.sendPc, hsend]
        rfl
      rw [sendPc_setSend ((sendPc_congr hu k).trans hold), sendPc_congr hu]
      split_ifs with hkj
      · subst hkj
        rw [hold]
        rcases hpc with rfl | ⟨i, hready, rfl⟩
        · exact .misses
        · exact .attaches i rfl hready
      · exact .stays _
    · cases h
  | consumer k gone =>
    obtain ⟨i, hold, hcase⟩ := consumerStep_cases h
    have hold' : (s.setSpec i Spec.aborted).sendPc k = some (.replaying i) := hold
    rcases hcase with ⟨hgone, rfl⟩ | rfl
    · rw [sendPc_setSend hold']
      split_ifs with hkj
      · rw [← hkj, hold]
        exact .abandons i (by rw [hgone])
      · exact .stays _
    · rw [sendPc_setSend hold]
      split_ifs with hkj
      · rw [← hkj, hold]
        exact .finishes i
      · exact .stays _
  | worker i ok =>
    obtain ⟨_, _, _, _, _, hsends, _⟩ := workerStep_cases h
    exact hsame hsends

theorem attachment_step (h : step s a = some t) (hj : s.attachment j = some i) :
    t.attachment j = some i := by
  have hm := sendMoves_of_step h j
  rw [State.attachment] at hj ⊢
  generalize s.sendPc j = before at hm hj
  generalize t.sendPc j = after at hm ⊢
  cases hm with
  | stays => exact hj
  | arrives => cases hj
  | misses => cases hj
  | attaches => cases hj
  | finishes => exact hj
  | abandons => exact hj

theorem attached_from_slot (h : step s a = some t) (hj : t.attachment j = some i)
    (hfree : s.attachment j ≠ some i) : a = .take j ∧ s.Ready i := by
  have hm := sendMoves_of_step h j
  rw [State.attachment] at hj hfree
  generalize s.sendPc j = before at hm hfree
  generalize t.sendPc j = after at hm hj
  cases hm with
  | stays => exact absurd hj hfree
  | arrives => cases hj
  | misses => cases hj
  | attaches k ha hready =>
    cases hj
    exact ⟨ha, hready⟩
  | finishes => exact absurd hj hfree
  | abandons => exact absurd hj hfree

/-! ## Payloads -/

theorem payloads_setSpec (hf : ∀ spec, (f spec).payload = spec.payload) :
    (s.setSpec i f).specs.map Spec.payload = s.specs.map Spec.payload := by
  apply List.ext_getElem?
  intro k
  rw [List.getElem?_map, List.getElem?_map, getElem?_setSpec]
  split_ifs
  · rw [Option.map_map]
    congr 1
    funext spec
    exact hf spec
  · rfl

theorem payloads_setSend {pc : SendPc} :
    (s.setSend j pc).sends.map Send.payload = s.sends.map Send.payload := by
  apply List.ext_getElem?
  intro k
  rw [List.getElem?_map, List.getElem?_map, getElem?_setSend]
  split_ifs
  · rw [Option.map_map]
    rfl
  · rfl

theorem specPayloads_step (h : step s a = some t) :
    t.specs.map Spec.payload = s.specs.map Spec.payload ∨
      ∃ key body now, a = .speculate key body now ∧
        t.specs.map Spec.payload = s.specs.map Spec.payload ++ [(key, body)] := by
  have habort : ∀ i, (s.setSpec i Spec.aborted).specs.map Spec.payload = s.specs.map Spec.payload :=
    fun i => payloads_setSpec fun _ => rfl
  cases a with
  | speculate key body now =>
    cases h
    rw [startChatSpeculation]
    split_ifs
    · exact .inl rfl
    · cases s.slot with
      | none => exact .inr ⟨key, body, now, rfl, List.map_append⟩
      | some i =>
        simp only
        split_ifs
        · exact .inl rfl
        · refine .inr ⟨key, body, now, rfl, ?_⟩
          rw [publish, List.map_append, habort]
          rfl
  | prewarm key =>
    cases h
    rw [prewarm]
    cases s.slot with
    | none => exact .inl rfl
    | some i =>
      simp only
      split_ifs
      · exact .inl rfl
      · exact .inl (habort i)
  | send key body now =>
    cases h
    exact .inl rfl
  | take j =>
    rw [step] at h
    split at h
    · cases h
      rw [takeMatchingSpeculation]
      cases s.slot with
      | none => exact .inl rfl
      | some i =>
        simp only
        cases s.specs[i]? with
        | none => exact .inl rfl
        | some spec =>
          simp only
          split_ifs
          · exact .inl (habort i)
          · exact .inl rfl
          · exact .inl rfl
    · cases h
  | consumer j gone =>
    obtain ⟨i, _, ⟨_, rfl⟩ | rfl⟩ := consumerStep_cases h
    · exact .inl (habort i)
    · exact .inl rfl
  | worker i ok =>
    obtain ⟨_, _, _, hspecs, _, _, hpayload, _⟩ := workerStep_cases h
    rw [hspecs]
    exact .inl (payloads_setSpec hpayload)

theorem sendPayloads_step (h : step s a = some t) :
    t.sends.map Send.payload = s.sends.map Send.payload ∨ ∃ key body now, a = .send key body now ∧
        t.sends.map Send.payload = s.sends.map Send.payload ++ [(key, body)] := by
  cases a with
  | speculate key body now =>
    cases h
    exact .inl (by rw [sends_startChatSpeculation])
  | prewarm key =>
    cases h
    exact .inl (by rw [sends_prewarm])
  | send key body now =>
    cases h
    exact .inr ⟨key, body, now, rfl, List.map_append⟩
  | take j =>
    rw [step] at h
    split at h
    · rename_i key body hsend
      obtain ⟨u, pc, hu, he, _⟩ := takeMatchingSpeculation_cases (s := s) (j := j) key
      cases h
      rw [he, payloads_setSend, hu]
      exact .inl rfl
    · cases h
  | consumer j gone =>
    obtain ⟨i, _, ⟨_, rfl⟩ | rfl⟩ := consumerStep_cases h <;>
      exact .inl payloads_setSend
  | worker i ok =>
    obtain ⟨_, _, _, _, _, hsends, _⟩ := workerStep_cases h
    rw [hsends]
    exact .inl rfl

theorem aborted_step {before after : Spec ρ} (h : SlotInv s) (hstep : step s a = some t)
    (hj : s.attachment j = some i) (hbefore : s.specs[i]? = some before)
    (hafter : t.specs[i]? = some after) (hoff : before.abort = false) (hon : after.abort = true) :
    a = .consumer j true := by
  have hpc := ((slotInv_step h hstep).aborted i j after hafter (attachment_step hstep hj)).mp hon
  have hm := sendMoves_of_step hstep j
  rw [hpc] at hm
  generalize hb : s.sendPc j = pc at hm
  cases hm with
  | stays => exact absurd (((h.aborted i j before hbefore hj).mpr hb).symm.trans hoff) nofun
  | abandons _ ha => exact ha

end Steps

/-- In every run a speculation is taken by at most one send and stays its own; of the other
requests none aborts it, and its worker ends before `llm_done` only if that send's consumer has
abandoned it. Of the speculations that are neither aborted nor taken, at most one has not failed. -/
theorem speculations_attach_once {s : State ρ} (h : Reaches step Always initial s) :
    (∀ i j k, s.attachment j = some i → s.attachment k = some i → j = k) ∧
    (∀ i j a t, s.attachment j = some i → step s a = some t →
      t.attachment j = some i ∧ ∀ before after, s.specs[i]? = some before →
        t.specs[i]? = some after → before.abort = false → after.abort = true →
          a = .consumer j true) ∧
    (∀ (i j : ℕ) (spec : Spec ρ), s.specs[i]? = some spec → s.attachment j = some i →
      spec.worker = .exited → spec.llmDone = true ∨ s.sendPc j = some (.abandoned i)) ∧
    ∀ (i k : ℕ) (spec spec' : Spec ρ), s.specs[i]? = some spec → s.specs[k]? = some spec' →
      spec.abort = false → spec'.abort = false → (∀ j, s.attachment j ≠ some i) →
      (∀ j, s.attachment j ≠ some k) → ¬ spec.failed → ¬ spec'.failed → i = k := by
  have hinv := slotInv_of_reaches h
  refine ⟨hinv.unique, ?_, ?_, ?_⟩
  · intro i j a t hj hstep
    refine ⟨attachment_step hstep hj, ?_⟩
    intro before after hbefore hafter hoff hon
    exact aborted_step hinv hstep hj hbefore hafter hoff hon
  · intro i j spec hspec hj hw
    cases hdone : spec.llmDone with
    | true => exact .inl rfl
    | false =>
      have hab := (hinv.sound i spec hspec).exited hw hdone
      exact .inr ((hinv.aborted i j spec hspec hj).mp hab)
  · intro i k spec spec' hi hk hoffi hoffk hfreei hfreek hfaili hfailk
    have hsi := (hinv.spare i spec hi hoffi hfreei).resolve_right hfaili
    have hsk := (hinv.spare k spec' hk hoffk hfreek).resolve_right hfailk
    exact Option.some.inj (hsi.symm.trans hsk)

/-- A draft is speculated on and sent while its worker streams; the replay runs to its end. -/
def attachedDraft : List (Action Unit) :=
  [.speculate (bytes "a") () 0, .worker 0 true, .worker 0 true, .send (bytes "a") () 1, .take 0,
    .worker 0 true, .worker 0 true, .consumer 0 false, .worker 0 true]

theorem speculations_attach_once_attachedDraft :
    ∃ s : State Unit, Reaches step Always initial s ∧ s.sendPc 0 = some (.replayed 0) ∧
      (∀ j, s.attachment j = some 0 → j = 0) ∧
      ∀ spec : Spec Unit, s.specs[0]? = some spec → spec.worker = .exited → spec.llmDone = true := by
  obtain ⟨s, hs, ht⟩ := exists_run attachedDraft
    (fun s : State Unit => decide (s.sendPc 0 = some (.replayed 0)))
    (by decide : (replay step (fun _ _ => true) initial attachedDraft).any _ = true)
  have hpc := of_decide_eq_true ht
  have hatt : s.attachment 0 = some 0 := by
    rw [State.attachment, hpc]
    rfl
  obtain ⟨hunique, _, hexit, _⟩ := speculations_attach_once hs
  refine ⟨s, hs, hpc, fun j hj => hunique 0 j 0 hj hatt, ?_⟩
  intro spec hspec hw
  refine (hexit 0 0 spec hspec hatt hw).resolve_right ?_
  rw [hpc]
  exact nofun

/-! ## A failed speculation in nobody's hands -/

/-- A speculation is neither aborted nor taken while its worker has not ended. -/
def State.idle (s : State ρ) (i : ℕ) : Bool :=
  (s.specs[i]?).any (fun spec => !spec.abort && decide (spec.worker ≠ .exited)) &&
    s.sends.all fun send => decide (send.pc.attached ≠ some i)

/-- The speculation on `"a"` fails while it sits in the slot; the send for `"a"` finds it failed and
lets it go without an abort; the next draft is speculated on before the first worker has ended. -/
def failedDraft : List (Action Unit) :=
  [.speculate (bytes "a") () 0, .worker 0 true, .worker 0 true, .worker 0 false, .worker 0 true,
    .send (bytes "a") () 1, .take 0, .speculate (bytes "b") () 2]

/-- "At most one speculation is neither aborted nor taken" is false. -/
theorem idle_speculations_not_unique : ¬ ∀ s : State Unit, Reaches step Always initial s →
    ∀ i k, s.idle i = true → s.idle k = true → i = k := by
  intro h
  obtain ⟨s, hs, ht⟩ := exists_run failedDraft
    (fun s : State Unit => s.idle 0 && s.idle 1)
    (by decide : (replay step (fun _ _ => true) initial failedDraft).any _ = true)
  rw [Bool.and_eq_true] at ht
  exact absurd (h s hs 0 1 ht.1 ht.2) (by decide)

end FastTts.Chat
