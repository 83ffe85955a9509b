import FastTts.CharacterRaces
import FastTts.Mcp

/-!
# The text of a character

`save_character` writes `character.json` by hand, and `load_character` reads it through the parser:
a text ends at its first zero byte there, and a seed is a `double` on the way.
-/

namespace FastTts.CharacterText

open FloatFormat JsonText
open Mcp (asI64 toLongLong)
open Store (Loadable MultipartPart loadable_upload readUpload recordingMissing written)

def characterFile : Bytes := bytes "character.json"

/-- A directory of one character with its files. -/
structure Folder where
  path : Bytes
  files : Bytes → Option Bytes

def Folder.filePath (folder : Folder) (file : Bytes) : Bytes := folder.path ++ bytes "/" ++ file

/-! ## Writing -/

/-- The members that have a value. -/
def kept {α : Type} (members : List (Bytes × Option α)) : List (Bytes × α) :=
  members.filterMap fun member => member.2.map fun value => (member.1, value)

def textMember (value : Bytes) : Option Bytes := if value.isEmpty then none else some (quoted value)

def characterText (character : CharacterConfig) : Bytes :=
  objectText (kept [
    (bytes "name", some (quoted character.name)),
    (bytes "preset", textMember character.preset),
    (bytes "voice_file", textMember character.voiceFile),
    (bytes "transcript", textMember character.transcript),
    (bytes "persona", textMember character.persona),
    (bytes "tts_seed", if 0 ≤ character.ttsSeed then some (intText character.ttsSeed) else none)])

/-- `save_character` on a disk that takes the file. -/
def saveCharacter (folder : Folder) (character : CharacterConfig) : Folder :=
  { folder with
    files := Function.update folder.files characterFile (some (characterText character)) }

/-! ## Reading -/

section Reading

-- What a number out of range becomes, and what the parser says of a text that it refuses.
variable (undefined : Binary64 → ℤ) (refusal : Bytes → Exception)

def optionalI64 (value : Json Binary64) (key : Bytes) (default : ℤ) : Except Exception ℤ :=
  match (value.find key).bind Json.number? with
  | some x => asI64 undefined x
  | none => .ok default

def readCharacterFile (folder : Folder) : Except Exception CharacterConfig :=
  match folder.files characterFile with
  | none => .error (bytes "character store missing: " ++ folder.filePath characterFile)
  | some text =>
    match parse text with
    | none => .error (refusal text)
    | some value => do
      let name ← value.requireString (bytes "name") >>= sanitizeCharacterName
      let preset := value.optionalString (bytes "preset") []
      let voiceFile := value.optionalString (bytes "voice_file") []
      let transcript := value.optionalString (bytes "transcript") []
      let persona := value.optionalString (bytes "persona") []
      let ttsSeed ← optionalI64 undefined value (bytes "tts_seed") (-1)
      let character : CharacterConfig := ⟨name, preset, voiceFile, transcript, persona, ttsSeed⟩
      if character.preset.isEmpty && character.voiceFile.isEmpty then
        .error (bytes "character store " ++ folder.filePath characterFile ++
          bytes " names neither a preset nor a voice_file")
      else if character.isCustom && (folder.files character.voiceFile).isNone then
        .error (bytes "character recording missing: " ++ folder.filePath character.voiceFile)
      else .ok character

def loadCharacter (folder : Folder) : Except Exception CharacterConfig :=
  if (folder.files characterFile).isNone then .ok defaultCharacter
  else match readCharacterFile undefined refusal folder with
    | .ok character => .ok character
    | .error what =>
      if (find what recordingMissing).isSome then .ok defaultCharacter else .error what

end Reading

/-! ## Members -/

section Members

variable {α β : Type}

theorem kept_map (f : α → β) (members : List (Bytes × Option α)) :
    kept (members.map fun member => (member.1, member.2.map f)) =
      (kept members).map fun member => (member.1, f member.2) := by
  induction members with
  | nil => rfl
  | cons member members ih =>
    obtain ⟨key, value⟩ := member
    cases value with
    | none => exact ih
    | some value => exact congrArg (List.cons (key, f value)) ih

theorem keys_kept (members : List (Bytes × Option α)) :
    List.Sublist ((kept members).map Prod.fst) (members.map Prod.fst) := by
  induction members with
  | nil => exact List.Sublist.slnil
  | cons member members ih =>
    obtain ⟨key, value⟩ := member
    cases value with
    | none => exact ih.cons key
    | some value => exact ih.cons_cons key

theorem lookup_kept {members : List (Bytes × Option α)} (hkeys : (members.map Prod.fst).Nodup)
    (key : Bytes) : (kept members).lookup key = (members.lookup key).join := by
  induction members with
  | nil => rfl
  | cons member members ih =>
    obtain ⟨first, value⟩ := member
    rw [List.map_cons, List.nodup_cons] at hkeys
    obtain ⟨hfirst, hrest⟩ := hkeys
    have hothers := ih hrest
    by_cases hkey : key = first
    · subst hkey
      rw [List.lookup_cons_self]
      cases value with
      | none =>
        change (kept members).lookup key = none
        rw [List.lookup_eq_none_iff]
        intro other hother
        have hmem := (keys_kept members).subset (List.mem_map_of_mem hother)
        rw [bne_iff_ne]
        rintro rfl
        exact hfirst hmem
      | some value => exact List.lookup_cons_self
    · have hne : (key == first) = false := beq_false_of_ne hkey
      rw [List.lookup_cons, hne]
      cases value with
      | none => exact hothers
      | some value =>
        change ((first, value) :: kept members).lookup key = _
        rw [List.lookup_cons, hne]
        exact hothers

end Members

/-! ## What is read -/

def valueMember (value : Bytes) : Option (Json Binary64) :=
  if value.isEmpty then none else some (.string (cString value))

def valueMembers (character : CharacterConfig) : List (Bytes × Option (Json Binary64)) :=
  [(bytes "name", some (.string (cString character.name))),
    (bytes "preset", valueMember character.preset),
    (bytes "voice_file", valueMember character.voiceFile),
    (bytes "transcript", valueMember character.transcript),
    (bytes "persona", valueMember character.persona),
    (bytes "tts_seed", if 0 ≤ character.ttsSeed then
      some (.number (binary64.ofRat character.ttsSeed)) else none)]

/-- What the text of a character parses to. -/
def characterValue (character : CharacterConfig) : Json Binary64 :=
  .object (kept (valueMembers character))

/-- Each member with its text and with what the text is read as. -/
def writtenMembers (character : CharacterConfig) : List (Bytes × Option (Bytes × Json Binary64)) :=
  let text (value : Bytes) : Option (Bytes × Json Binary64) :=
    if value.isEmpty then none else some (quoted value, .string (cString value))
  [(bytes "name", some (quoted character.name, .string (cString character.name))),
    (bytes "preset", text character.preset),
    (bytes "voice_file", text character.voiceFile),
    (bytes "transcript", text character.transcript),
    (bytes "persona", text character.persona),
    (bytes "tts_seed", if 0 ≤ character.ttsSeed then
      some (intText character.ttsSeed, .number (binary64.ofRat character.ttsSeed)) else none)]

def memberKeys : List Bytes :=
  [bytes "name", bytes "preset", bytes "voice_file", bytes "transcript", bytes "persona",
    bytes "tts_seed"]

theorem memberKeys_nodup : (memberKeys.map cString).Nodup := by decide

theorem characterText_eq (character : CharacterConfig) :
    characterText character = objectText ((kept (writtenMembers character)).map fun member =>
      (member.1, member.2.1)) := by
  rw [← kept_map, characterText]
  congr 2
  simp only [writtenMembers, textMember, List.map_cons, List.map_nil, apply_ite (Option.map _),
    Option.map_none, Option.map_some]

theorem characterValue_eq (character : CharacterConfig) :
    characterValue character = .object ((kept (writtenMembers character)).map fun member =>
      (member.1, member.2.2)) := by
  rw [← kept_map, characterValue]
  congr 2
  simp only [writtenMembers, valueMembers, valueMember, List.map_cons, List.map_nil,
    apply_ite (Option.map _), Option.map_none, Option.map_some]

theorem reads_member (levels : ℕ) {character : CharacterConfig}
    {member : Bytes × Bytes × Json Binary64} (h : member ∈ kept (writtenMembers character)) :
    Reads levels member.2.1 member.2.2 := by
  obtain ⟨⟨key, value⟩, hslot, hvalue⟩ := List.mem_filterMap.mp h
  obtain ⟨written, hwritten, rfl⟩ := Option.map_eq_some_iff.mp hvalue
  dsimp only at hwritten ⊢
  have htext : ∀ text : Bytes, (if text.isEmpty then none else
      some (quoted text, Json.string (cString text))) = some written →
        Reads levels written.1 written.2 := by
    intro text hmember
    split_ifs at hmember
    obtain rfl := Option.some.inj hmember
    exact reads_quoted levels text
  simp only [writtenMembers, List.mem_cons, List.not_mem_nil, or_false, Prod.mk.injEq] at hslot
  obtain ⟨-, h⟩ | ⟨-, h⟩ | ⟨-, h⟩ | ⟨-, h⟩ | ⟨-, h⟩ | ⟨-, h⟩ := hslot
  · obtain rfl := Option.some.inj (h.symm.trans hwritten)
    exact reads_quoted levels _
  · exact htext _ (h.symm.trans hwritten)
  · exact htext _ (h.symm.trans hwritten)
  · exact htext _ (h.symm.trans hwritten)
  · exact htext _ (h.symm.trans hwritten)
  · rw [hwritten] at h
    split_ifs at h
    obtain rfl := Option.some.inj h
    exact reads_intText levels _

theorem parse_characterText (character : CharacterConfig) :
    parse (characterText character) = some (characterValue character) := by
  have hkeys : ((kept (writtenMembers character)).map Prod.fst).map cString =
      (kept (writtenMembers character)).map fun member => cString member.1 := List.map_map
  have hnodup : ((kept (writtenMembers character)).map fun member => cString member.1).Nodup := by
    rw [← hkeys]
    exact ((keys_kept (writtenMembers character)).map cString).nodup memberKeys_nodup
  have hsame : ((kept (writtenMembers character)).map fun member =>
      (cString member.1, member.2.2)) =
        (kept (writtenMembers character)).map fun member => (member.1, member.2.2) := by
    apply List.map_congr_left
    intro member hmember
    have hkey : member.1 ∈ memberKeys :=
      (keys_kept (writtenMembers character)).subset (List.mem_map_of_mem hmember)
    have hplain : ∀ key ∈ memberKeys, cString key = key := by decide
    rw [hplain member.1 hkey]
  have hread := reads_object (fun _ => reads_member 999) hnodup
  rw [hsame, ← characterText_eq, ← characterValue_eq] at hread
  exact parse_of_reads hread

theorem find_characterValue (character : CharacterConfig) (key : Bytes) :
    (characterValue character).find key = ((valueMembers character).lookup key).join := by
  have hkeys : ((valueMembers character).map Prod.fst).Nodup :=
    List.Nodup.of_map cString memberKeys_nodup
  exact lookup_kept hkeys key

theorem getD_valueMember (value : Bytes) :
    ((valueMember value).bind Json.string?).getD [] = cString value := by
  rw [valueMember]
  split_ifs with hempty
  · rw [List.isEmpty_iff.mp hempty]
    rfl
  · rfl

theorem optionalString_characterValue {character : CharacterConfig} {key value : Bytes}
    (h : ((valueMembers character).lookup key).join = valueMember value) :
    (characterValue character).optionalString key [] = cString value := by
  rw [Json.optionalString, find_characterValue, h]
  exact getD_valueMember value

section Loading

variable (undefined : Binary64 → ℤ) (refusal : Bytes → Exception)

def seedBack (seed : ℤ) : Except Exception ℤ :=
  if 0 ≤ seed then asI64 undefined (binary64.ofRat seed) else .ok (-1)

theorem optionalI64_characterValue (character : CharacterConfig) :
    optionalI64 undefined (characterValue character) (bytes "tts_seed") (-1) =
      seedBack undefined character.ttsSeed := by
  have hmember : ((valueMembers character).lookup (bytes "tts_seed")).join =
      if 0 ≤ character.ttsSeed then some (.number (binary64.ofRat character.ttsSeed))
      else none := rfl
  rw [optionalI64, find_characterValue, hmember, seedBack]
  by_cases hsign : 0 ≤ character.ttsSeed
  · rw [if_pos hsign, if_pos hsign]
    rfl
  · rw [if_neg hsign, if_neg hsign]
    rfl

theorem readCharacterFile_saved (folder : Folder) (character : CharacterConfig) :
    readCharacterFile undefined refusal (saveCharacter folder character) = (do
      let name ← sanitizeCharacterName (cString character.name)
      let ttsSeed ← seedBack undefined character.ttsSeed
      let read : CharacterConfig := ⟨name, cString character.preset, cString character.voiceFile,
        cString character.transcript, cString character.persona, ttsSeed⟩
      if read.preset.isEmpty && read.voiceFile.isEmpty then
        .error (bytes "character store " ++ folder.filePath characterFile ++
          bytes " names neither a preset nor a voice_file")
      else if read.isCustom && ((saveCharacter folder character).files read.voiceFile).isNone then
        .error (bytes "character recording missing: " ++ folder.filePath read.voiceFile)
      else .ok read) := by
  have hname : (characterValue character).requireString (bytes "name") =
      .ok (cString character.name) := by
    rw [Json.requireString, Json.require, find_characterValue]
    rfl
  have hpreset : (characterValue character).optionalString (bytes "preset") [] =
      cString character.preset := optionalString_characterValue rfl
  have hvoice : (characterValue character).optionalString (bytes "voice_file") [] =
      cString character.voiceFile := optionalString_characterValue rfl
  have htranscript : (characterValue character).optionalString (bytes "transcript") [] =
      cString character.transcript := optionalString_characterValue rfl
  have hpersona : (characterValue character).optionalString (bytes "persona") [] =
      cString character.persona := optionalString_characterValue rfl
  have hseed := optionalI64_characterValue undefined character
  have hfile : (saveCharacter folder character).files characterFile =
      some (characterText character) := by
    rw [saveCharacter]
    exact Function.update_self characterFile _ folder.files
  rw [readCharacterFile, hfile]
  dsimp only
  rw [parse_characterText]
  dsimp only
  rw [hname, hpreset, hvoice, htranscript, hpersona, hseed]
  rfl

variable {undefined refusal} {folder : Folder} {character : CharacterConfig}

theorem readCharacterFile_saved_ok {read : CharacterConfig}
    (h : readCharacterFile undefined refusal (saveCharacter folder character) = .ok read) :
    sanitizeCharacterName (cString character.name) = .ok read.name ∧
      read.preset = cString character.preset ∧ read.voiceFile = cString character.voiceFile ∧
      read.transcript = cString character.transcript ∧ read.persona = cString character.persona ∧
      seedBack undefined character.ttsSeed = .ok read.ttsSeed := by
  rw [readCharacterFile_saved] at h
  obtain ⟨name, hname, h⟩ := except_bind_ok h
  obtain ⟨seed, hseed, h⟩ := except_bind_ok h
  dsimp only at h
  split_ifs at h with hvoiceless hmissing
  obtain rfl := Except.ok.inj h
  exact ⟨hname, rfl, rfl, rfl, rfl, hseed⟩

end Loading

/-! ## Seeds -/

variable {n : ℤ}

theorem asI64_eq_self (undefined : Binary64 → ℤ) (hrange : 0 ≤ n ∧ n < 2 ^ 63)
    (h : binary64.Representable n) : asI64 undefined (binary64.ofRat n) = .ok n := by
  rw [ofRat_of_representable h, asI64, if_pos (Rat.den_intCast n), toLongLong]
  rw [Rat.num_intCast, Rat.den_intCast, Nat.cast_one, Int.tdiv_one, if_pos (by omega)]

theorem representable_of_asI64 (hpos : 0 ≤ n) (h : asI64 (fun _ => -1) (binary64.ofRat n) = .ok n) :
    binary64.Representable n := by
  generalize binary64.ofRat n = x at h
  cases x with
  | finite q hq =>
    rw [asI64] at h
    split_ifs at h with hden
    have hvalue := Except.ok.inj h
    rw [toLongLong] at hvalue
    split_ifs at hvalue with hfits
    · rw [hden, Nat.cast_one, Int.tdiv_one] at hvalue
      have hsame : (n : ℚ) = q := by
        rw [← hvalue]
        exact Rat.coe_int_num_of_den_eq_one hden
      rwa [hsame]
    · omega
  | infinite negative => cases h
  | nan => cases h

theorem representable_small (h : |n| < 2 ^ 53) : binary64.Representable n := by
  have hcast : |(n : ℚ)| < 2 ^ (53 : ℕ) := by exact_mod_cast h
  have hbound : (2 : ℚ) ^ (53 : ℕ) ≤ 2 ^ (53 + 971 : ℤ) := by
    rw [← zpow_natCast]
    exact zpow_le_zpow_right₀ one_le_two (by norm_num)
  refine ⟨n, 0, h, by decide, ?_, hcast.trans_le hbound⟩
  rw [zpow_zero, mul_one]

theorem not_representable_odd (hodd : n % 2 = 1) (hlarge : 2 ^ 53 ≤ n) :
    ¬ binary64.Representable n := by
  rintro ⟨m, e, hm, -, hn, -⟩
  have hsmall : |m| < 2 ^ 53 := hm
  obtain hneg | hpos := le_or_gt e 0
  · have hscale : (2 : ℚ) ^ e ≤ 1 := zpow_le_one_of_nonpos₀ (by norm_num) hneg
    have hle : |(n : ℚ)| ≤ |(m : ℚ)| := by
      rw [hn, abs_mul, abs_of_pos (two_zpow_pos e)]
      exact mul_le_of_le_one_right (abs_nonneg _) hscale
    have hcast : |n| ≤ |m| := by exact_mod_cast hle
    have habs : n ≤ |n| := le_abs_self n
    omega
  · obtain ⟨k, hk⟩ := Int.eq_ofNat_of_zero_le (by omega : 0 ≤ e - 1)
    have heven : n = m * 2 ^ k * 2 := by
      have hpow : (2 : ℚ) ^ e = 2 ^ k * 2 := by
        rw [← zpow_natCast, ← hk, ← zpow_add_one₀ two_ne_zero]
        congr 1
        omega
      rw [hpow, ← mul_assoc] at hn
      exact_mod_cast hn
    omega

/-! ## What survives -/

/-- The characters that a set request stores: one that can be loaded, whose recording exists if it
has one. -/
structure Storable (folder : Folder) (character : CharacterConfig) : Prop where
  loadable : Loadable character
  recording : character.isCustom = true → folder.files character.voiceFile ≠ none
  seed : -1 ≤ character.ttsSeed ∧ character.ttsSeed < 2 ^ 63

/-- The texts have no zero byte, and the seed is a `double`. -/
structure Survives (character : CharacterConfig) : Prop where
  name : 0 ∉ character.name
  preset : 0 ∉ character.preset
  voiceFile : 0 ∉ character.voiceFile
  transcript : 0 ∉ character.transcript
  persona : 0 ∉ character.persona
  seed : binary64.Representable character.ttsSeed

theorem cString_eq_self_iff (text : Bytes) : cString text = text ↔ 0 ∉ text := by
  rw [cString, List.takeWhile_eq_self_iff]
  constructor
  · intro h hzero
    exact absurd (h 0 hzero) (by decide)
  · intro h ch hch
    exact decide_eq_true fun hzero => h (hzero ▸ hch)

theorem zero_notMem_of_name {name : Bytes}
    (h : sanitizeCharacterName (cString name) = .ok name) : 0 ∉ name := by
  obtain ⟨hname, -, -⟩ := sanitizeCharacterName_ok h
  have hpart : cString name <+: name := List.takeWhile_prefix _
  have htrimmed : (trimmed (cString name)).length ≤ (cString name).length :=
    ((List.rdropWhile_prefix _ _).length_le).trans (List.dropWhile_suffix _).length_le
  rw [← hname] at htrimmed
  exact (cString_eq_self_iff name).mp (hpart.eq_of_length_le htrimmed)

theorem survives_of_load {folder : Folder} {character : CharacterConfig}
    (hseed : -1 ≤ character.ttsSeed) {refusal : Bytes → Exception}
    (h : loadCharacter (fun _ => -1) refusal (saveCharacter folder character) = .ok character) :
    Survives character := by
  have hdefault : Survives defaultCharacter := by
    have hseed : binary64.Representable (defaultCharacter.ttsSeed : ℤ) :=
      representable_small (by decide)
    refine ⟨?_, ?_, ?_, ?_, ?_, hseed⟩ <;> decide
  rw [loadCharacter] at h
  split_ifs at h
  · rwa [← Except.ok.inj h]
  cases hread : readCharacterFile (fun _ => -1) refusal (saveCharacter folder character) with
  | error what =>
    rw [hread] at h
    dsimp only at h
    split_ifs at h
    rwa [← Except.ok.inj h]
  | ok read =>
    rw [hread] at h
    obtain rfl := Except.ok.inj h
    obtain ⟨hname, hpreset, hvoice, htranscript, hpersona, hback⟩ :=
      readCharacterFile_saved_ok hread
    constructor
    · exact zero_notMem_of_name hname
    · exact (cString_eq_self_iff _).mp hpreset.symm
    · exact (cString_eq_self_iff _).mp hvoice.symm
    · exact (cString_eq_self_iff _).mp htranscript.symm
    · exact (cString_eq_self_iff _).mp hpersona.symm
    · rw [seedBack] at hback
      split_ifs at hback with hsign
      · exact representable_of_asI64 hsign hback
      · have hunset : read.ttsSeed = -1 := by omega
        rw [hunset]
        exact representable_small (by decide)

theorem readCharacterFile_written {character : CharacterConfig} (hsurvives : Survives character)
    (hupper : character.ttsSeed < 2 ^ 63) (undefined : Binary64 → ℤ) (refusal : Bytes → Exception)
    (folder : Folder) :
    readCharacterFile undefined refusal (saveCharacter folder character) = Store.readCharacterFile
        ⟨folder.path, some (.ok (written character)), (saveCharacter folder character).files⟩ := by
  obtain ⟨hname, hpreset, hvoice, htranscript, hpersona, hdouble⟩ := hsurvives
  have hseed : seedBack undefined character.ttsSeed = .ok (written character).ttsSeed := by
    rw [seedBack, written]
    split_ifs with hsign
    · exact asI64_eq_self undefined ⟨hsign, hupper⟩ hdouble
    · rfl
  rw [readCharacterFile_saved, (cString_eq_self_iff _).mpr hname,
    (cString_eq_self_iff _).mpr hpreset, (cString_eq_self_iff _).mpr hvoice,
    (cString_eq_self_iff _).mpr htranscript, (cString_eq_self_iff _).mpr hpersona, hseed]
  rfl

theorem load_of_survives {folder : Folder} {character : CharacterConfig}
    (h : Storable folder character) (hsurvives : Survives character)
    (undefined : Binary64 → ℤ) (refusal : Bytes → Exception) :
    loadCharacter undefined refusal (saveCharacter folder character) = .ok character := by
  obtain ⟨hlower, hupper⟩ := h.seed
  have hfile : (saveCharacter folder character).files characterFile =
      some (characterText character) := by
    rw [saveCharacter]
    exact Function.update_self characterFile _ folder.files
  have hsame : written character = character := by
    rw [written]
    split_ifs with hsign
    · rfl
    · rw [show (-1 : ℤ) = character.ttsSeed by omega]
  have hrecording : (character.isCustom &&
      ((saveCharacter folder character).files character.voiceFile).isNone) = false := by
    rw [Bool.and_eq_false_iff, or_iff_not_imp_left]
    intro hcustom
    have hexists := h.recording (by simpa using hcustom)
    rw [saveCharacter, Option.isNone_eq_false_iff, Option.isSome_iff_ne_none]
    dsimp only
    rw [Function.update_apply]
    split_ifs
    · exact Option.some_ne_none _
    · exact hexists
  have hread : readCharacterFile undefined refusal (saveCharacter folder character) =
      .ok character := by
    rw [readCharacterFile_written hsurvives hupper, hsame, Store.readCharacterFile]
    dsimp only
    rw [h.loadable.name]
    change (if (character.preset.isEmpty && character.voiceFile.isEmpty) = true then _
      else if (character.isCustom &&
        ((saveCharacter folder character).files character.voiceFile).isNone) = true then _
      else _) = _
    rw [h.loadable.voice, if_neg Bool.false_ne_true, hrecording, if_neg Bool.false_ne_true]
  rw [loadCharacter, hfile, Option.isNone_some, if_neg Bool.false_ne_true, hread]

/-- A stored character is loaded as it was saved just if its texts have no zero byte and its seed
is a `double`. -/
theorem load_saveCharacter_iff {folder : Folder} {character : CharacterConfig}
    (h : Storable folder character) :
    (∀ undefined refusal,
      loadCharacter undefined refusal (saveCharacter folder character) = .ok character) ↔
        Survives character := by
  constructor
  · intro hload
    exact survives_of_load h.seed.1 (hload (fun _ => -1) fun _ => [])
  · exact load_of_survives h

/-- The directory in which an upload has left its recording. -/
def uploadFolder : Folder := ⟨bytes "character", fun file =>
  if file = Store.voiceWav then some (bytes "RIFF") else none⟩

def uploadForm (ttsSeed : String) : List MultipartPart :=
  [⟨bytes "file", bytes "a.wav", bytes "RIFF"⟩, ⟨bytes "name", [], bytes "Ann"⟩,
    ⟨bytes "tts_seed", [], bytes ttsSeed⟩]

def uploaded (ttsSeed : ℤ) : CharacterConfig :=
  ⟨bytes "Ann", [], Store.voiceWav, [], [], ttsSeed⟩

theorem load_saveCharacter_seven : Survives (uploaded 7) ∧ ∀ undefined refusal,
    loadCharacter undefined refusal (saveCharacter uploadFolder (uploaded 7)) =
      .ok (uploaded 7) := by
  have hread : readUpload [] (uploadForm "7") = .ok (uploaded 7, bytes "RIFF") := by
    decide
  have hstorable : Storable uploadFolder (uploaded 7) :=
    ⟨loadable_upload hread, fun _ => Option.some_ne_none _, by decide⟩
  have hsurvives : Survives (uploaded 7) := by
    constructor
    · decide
    · decide
    · decide
    · decide
    · decide
    · exact representable_small (by decide)
  exact ⟨hsurvives, (load_saveCharacter_iff hstorable).mpr hsurvives⟩

/-- The seed `2 ^ 53 + 1` of an upload is another one after a restart. -/
theorem load_saveCharacter_large_seed : ∃ parts upload, readUpload [] parts = .ok upload ∧
    Storable uploadFolder upload.1 ∧ 0 ≤ upload.1.ttsSeed ∧ ∃ undefined refusal,
      loadCharacter undefined refusal (saveCharacter uploadFolder upload.1) ≠ .ok upload.1 := by
  have hread : readUpload [] (uploadForm "9007199254740993") =
      .ok (uploaded 9007199254740993, bytes "RIFF") := by
    decide
  have hstorable : Storable uploadFolder (uploaded 9007199254740993) :=
    ⟨loadable_upload hread, fun _ => Option.some_ne_none _, by decide⟩
  refine ⟨_, _, hread, hstorable, by decide, fun _ => -1, fun _ => [], ?_⟩
  intro hload
  have hdouble := (survives_of_load (by decide) hload).seed
  exact not_representable_odd (by decide) (by decide) hdouble

end FastTts.CharacterText
