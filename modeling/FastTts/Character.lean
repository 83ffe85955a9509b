import FastTts.Json

/-!
# The character and how it is played

Who is speaking (`CharacterConfig`), how the language model is asked to play them (`LlmSettings`),
and what of both goes into a prompt.
-/

namespace FastTts

structure CharacterConfig where
  name : Bytes
  preset : Bytes
  voiceFile : Bytes
  transcript : Bytes
  persona : Bytes
  ttsSeed : ℤ
  deriving DecidableEq, Repr

namespace CharacterConfig

def isCustom (character : CharacterConfig) : Bool := !character.voiceFile.isEmpty

def blank : CharacterConfig := ⟨bytes "F", [], [], [], [], -1⟩

end CharacterConfig

def defaultCharacter : CharacterConfig :=
  { CharacterConfig.blank with name := bytes "F", preset := bytes "demo_3_woman" }

def maxNameLength : ℕ := 64

def sanitizeCharacterName (name : Bytes) : Except Exception Bytes :=
  let text := trimmed name
  if text.isEmpty then .error (bytes "character name must not be empty")
  else if maxNameLength < text.length then
    .error (bytes "character name must be at most " ++ bytes (toString maxNameLength) ++
      bytes " characters")
  else .ok text

theorem sanitizeCharacterName_ok {name text : Bytes} (h : sanitizeCharacterName name = .ok text) :
    text = trimmed name ∧ text ≠ [] ∧ text.length ≤ maxNameLength := by
  rw [sanitizeCharacterName] at h
  split_ifs at h with hempty hlong
  cases h
  exact ⟨rfl, fun he => hempty (List.isEmpty_iff.mpr he), Nat.not_lt.mp hlong⟩

/-! ## Names of library entries -/

/-- Letters and digits stay, lowercased; what lies between two of them becomes one dash. -/
def slugStep (state : Bytes × Bool) (ch : UInt8) : Bytes × Bool :=
  if isAlnum ch then
    ((if state.2 && !state.1.isEmpty then state.1 ++ [0x2D] else state.1) ++ [toLower ch], false)
  else (state.1, true)

/-- FNV-1a in 64 bits. -/
def nameHash (name : Bytes) : ℕ :=
  name.foldl (fun hash ch => (hash ^^^ ch.toNat) * 1099511628211 % 2 ^ 64) 1469598103934665603

/-- `%08x` of the low 32 bits. -/
def hex8 (value : ℕ) : Bytes :=
  (List.range 8).map fun i => hexDigit (value / 16 ^ (7 - i) % 16)

def characterSlug (name : Bytes) : Bytes :=
  let slug := (name.foldl slugStep ([], false)).1
  if slug.isEmpty then bytes "c-" ++ hex8 (nameHash name) else slug

def isValidCharacterId (id : Bytes) : Bool :=
  !id.isEmpty && decide (id.length ≤ 80) &&
    id.all fun ch => (isAlnum ch && !isUpper ch) || ch == 0x2D

structure LlmSettings (N : Type) where
  masterPrompt : Bytes
  temperature : N
  topP : N
  repeatPenalty : N
  maxTokens : ℤ
  lengthRamp : Bool
  model : Bytes
  deriving DecidableEq, Repr

variable {N : Type} (settings : LlmSettings N)

def rampedMaxTokens (assistantTurns : ℤ) : ℤ :=
  if settings.lengthRamp then min settings.maxTokens (72 + 40 * max 0 assistantTurns)
  else settings.maxTokens

def lengthGuidance (assistantTurns : ℤ) : Bytes :=
  if !settings.lengthRamp then []
  else if assistantTurns ≤ 0 then
    bytes "\nThis is the opening exchange: reply with one or two short sentences."
  else if assistantTurns ≤ 2 then bytes "\nReply with two or three short sentences."
  else bytes ("\nKeep replies to three or four short sentences even now that the " ++
    "conversation is flowing; never pad.")

/-- Every occurrence of `placeholder` becomes `value`; the length of the text is enough fuel. -/
def substitute (placeholder value : Bytes) : ℕ → Bytes → Bytes
  | 0, text => text
  | fuel + 1, text =>
    match find text placeholder with
    | none => text
    | some start => text.take start ++ value ++
        substitute placeholder value fuel (text.drop (start + placeholder.length))

def namePlaceholder : Bytes := bytes "\x7bname\x7d"

def personaPlaceholder : Bytes := bytes "\x7bpersona\x7d"

/-- A template that does not mention the persona has it put in front. -/
def renderMasterPrompt (name persona : Bytes) : Bytes :=
  let prompt :=
    if persona.isEmpty = false ∧ find settings.masterPrompt personaPlaceholder = none then
      bytes "You are " ++ namePlaceholder ++ bytes ". " ++ persona ++ bytes "\n\n" ++
        settings.masterPrompt
    else settings.masterPrompt
  let named := substitute namePlaceholder name prompt.length prompt
  substitute personaPlaceholder persona named.length named

example : renderMasterPrompt (⟨bytes "I am \x7bname\x7d.", 0, 0, 0, 140, true, []⟩ : LlmSettings ℚ)
    (bytes "Ann") (bytes "A pilot.") = bytes "You are Ann. A pilot.\n\nI am Ann." := by
  decide

end FastTts
