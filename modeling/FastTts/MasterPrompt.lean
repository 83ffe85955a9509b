import FastTts.Character
import FastTts.Templates

/-!
# The master prompt

`render_master_prompt` replaces `{name}` and then `{persona}`. A template is a list of pieces:
bytes, and places for the name and for the persona. To put both in at once is what two passes do,
as long as no pass finds a placeholder in what was put in before.
-/

namespace FastTts.MasterPrompt

open Templates

/-! ## Templates -/

inductive Piece
  | byte (b : UInt8)
  | name
  | persona
  deriving DecidableEq, Repr

/-- Finds the placeholders of a template; `skip` bytes belong to the last one. -/
def piecesFrom : ℕ → Bytes → List Piece
  | _, [] => []
  | skip + 1, _ :: text => piecesFrom skip text
  | 0, b :: text =>
    if namePlaceholder.isPrefixOf (b :: text) then
      .name :: piecesFrom (namePlaceholder.length - 1) text
    else if personaPlaceholder.isPrefixOf (b :: text) then
      .persona :: piecesFrom (personaPlaceholder.length - 1) text
    else .byte b :: piecesFrom 0 text

def pieces (text : Bytes) : List Piece := piecesFrom 0 text

def written (name persona : Bytes) (template : List Piece) : Bytes :=
  template.flatMap fun
    | .byte b => [b]
    | .name => name
    | .persona => persona

theorem written_append (name persona : Bytes) (first rest : List Piece) :
    written name persona (first ++ rest) = written name persona first ++ written name persona rest :=
  List.flatMap_append

theorem written_bytes (name persona text : Bytes) :
    written name persona (text.map .byte) = text := by
  induction text with
  | nil => rfl
  | cons b text ih => exact congrArg (b :: ·) ih

variable {N : Type}

/-- A persona that the template does not mention is put in front. -/
def Prepends (settings : LlmSettings N) (persona : Bytes) : Prop :=
  persona.isEmpty = false ∧ find settings.masterPrompt personaPlaceholder = none

instance (settings : LlmSettings N) (persona : Bytes) : Decidable (Prepends settings persona) :=
  inferInstanceAs (Decidable (_ ∧ _))

/-- The template that is rendered; a persona in front of it is text, not a placeholder. -/
def template (settings : LlmSettings N) (persona : Bytes) : List Piece :=
  if Prepends settings persona then
    (bytes "You are ").map .byte ++ .name :: ((bytes ". " ++ (persona ++ bytes "\n\n")).map .byte ++
      pieces settings.masterPrompt)
  else pieces settings.masterPrompt

/-- Both values are put in at once. -/
def simultaneous (settings : LlmSettings N) (name persona : Bytes) : Bytes :=
  written name persona (template settings persona)

def nameSpots (template : List Piece) : List (Option UInt8) :=
  template.flatMap fun
    | .byte b => [some b]
    | .name => [none]
    | .persona => personaPlaceholder.map some

def personaSpots (name : Bytes) (template : List Piece) : List (Option UInt8) :=
  template.flatMap fun
    | .byte b => [some b]
    | .name => name.map some
    | .persona => [none]

theorem fill_nameSpots (name : Bytes) (template : List Piece) :
    fill name (nameSpots template) = written name personaPlaceholder template := by
  induction template with
  | nil => rfl
  | cons piece template ih =>
    cases piece <;> simpa [nameSpots, written] using ih

theorem fill_personaSpots (name persona : Bytes) (template : List Piece) :
    fill persona (personaSpots name template) = written name persona template := by
  induction template with
  | nil => rfl
  | cons piece template ih =>
    cases piece <;> simpa [personaSpots, written] using ih

/-! ## Passes -/

variable {text persona : Bytes} {settings : LlmSettings N}

theorem substitute_eq_fill {placeholder : Bytes} (h : placeholder ≠ []) (value : Bytes) {fuel : ℕ}
    (hfuel : text.length ≤ fuel) :
    substitute placeholder value fuel text = fill value (scan placeholder text) := by
  induction fuel generalizing text with
  | zero =>
    obtain rfl := List.length_eq_zero_iff.mp (Nat.le_zero.mp hfuel)
    rfl
  | succ fuel ih =>
    rw [substitute]
    cases hfind : find text placeholder with
    | none => rw [scan_of_free (find_eq_none hfind), fill_items]
    | some start =>
      obtain ⟨before, behind, rfl, rfl⟩ := find_split hfind
      have hpos := List.length_pos_of_ne_nil h
      have hbefore : scan placeholder (before ++ placeholder ++ behind) =
          before.map some ++ none :: scan placeholder behind := by
        rw [List.append_assoc, ← scan_placeholder h]
        refine scan_items fun early late hsplit hne => ?_
        subst hsplit
        have hlate := List.length_pos_of_ne_nil hne
        have hnot := (find_spec hfind).2 early.length (by rw [List.length_append]; omega)
        rwa [isAt, List.append_assoc, List.append_assoc, List.drop_left] at hnot
      simp only [List.length_append] at hfuel
      dsimp only
      rw [hbefore, fill_append, fill_items, fill_spot, ← List.length_append, List.drop_left,
        ih (by omega), List.append_assoc, List.append_assoc before, List.take_left]

/-! ## The pieces of a text -/

theorem namePlaceholder_eq : namePlaceholder = 0x7B :: [0x6E, 0x61, 0x6D, 0x65, 0x7D] := by
  decide

theorem personaPlaceholder_eq :
    personaPlaceholder = 0x7B :: [0x70, 0x65, 0x72, 0x73, 0x6F, 0x6E, 0x61, 0x7D] := by
  decide

theorem namePlaceholder_ne_nil : namePlaceholder ≠ [] := by
  rw [namePlaceholder_eq]
  exact List.cons_ne_nil _ _

theorem personaPlaceholder_ne_nil : personaPlaceholder ≠ [] := by
  rw [personaPlaceholder_eq]
  exact List.cons_ne_nil _ _

inductive Reads : Bytes → List Piece → Prop
  | nil : Reads [] []
  | name {text : Bytes} {template : List Piece} : Reads text template →
      Reads (namePlaceholder ++ text) (.name :: template)
  | persona {text : Bytes} {template : List Piece} : Reads text template →
      Reads (personaPlaceholder ++ text) (.persona :: template)
  | byte {b : UInt8} {text : Bytes} {template : List Piece} :
      namePlaceholder.isPrefixOf (b :: text) = false →
      personaPlaceholder.isPrefixOf (b :: text) = false → Reads text template →
      Reads (b :: text) (.byte b :: template)

theorem piecesFrom_eq (skip : ℕ) (text : Bytes) : piecesFrom skip text = pieces (text.drop skip) := by
  induction skip generalizing text with
  | zero => rfl
  | succ skip ih =>
    cases text with
    | nil => rfl
    | cons b text => exact ih text

theorem pieces_name (text : Bytes) : pieces (namePlaceholder ++ text) = .name :: pieces text := by
  have hhere := List.isPrefixOf_iff_prefix.mpr (List.prefix_append namePlaceholder text)
  rw [pieces]
  generalize hwhole : namePlaceholder ++ text = whole at hhere
  cases whole with
  | nil => exact absurd (List.append_eq_nil_iff.mp hwhole).1 namePlaceholder_ne_nil
  | cons b rest =>
    rw [namePlaceholder_eq] at hwhole
    obtain ⟨rfl, rfl⟩ := List.cons.inj hwhole
    rw [piecesFrom, if_pos hhere, piecesFrom_eq, namePlaceholder_eq]
    rfl

theorem pieces_persona (h : namePlaceholder.isPrefixOf (personaPlaceholder ++ text) = false) :
    pieces (personaPlaceholder ++ text) = .persona :: pieces text := by
  have hhere := List.isPrefixOf_iff_prefix.mpr (List.prefix_append personaPlaceholder text)
  rw [pieces]
  generalize hwhole : personaPlaceholder ++ text = whole at h hhere
  cases whole with
  | nil => exact absurd (List.append_eq_nil_iff.mp hwhole).1 personaPlaceholder_ne_nil
  | cons b rest =>
    rw [personaPlaceholder_eq] at hwhole
    obtain ⟨rfl, rfl⟩ := List.cons.inj hwhole
    rw [piecesFrom, h, if_neg Bool.false_ne_true, if_pos hhere, piecesFrom_eq,
      personaPlaceholder_eq]
    rfl

theorem reads_pieces (text : Bytes) : Reads text (pieces text) := by
  induction hlength : text.length using Nat.strong_induction_on generalizing text with
  | _ length ih =>
    by_cases hname : namePlaceholder.isPrefixOf text = true
    · obtain ⟨rest, rfl⟩ := List.isPrefixOf_iff_prefix.mp hname
      have hpos := List.length_pos_of_ne_nil namePlaceholder_ne_nil
      rw [List.length_append] at hlength
      rw [pieces_name]
      exact .name (ih rest.length (by omega) rest rfl)
    have hname := (Bool.not_eq_true _).mp hname
    by_cases hpersona : personaPlaceholder.isPrefixOf text = true
    · obtain ⟨rest, rfl⟩ := List.isPrefixOf_iff_prefix.mp hpersona
      have hpos := List.length_pos_of_ne_nil personaPlaceholder_ne_nil
      rw [List.length_append] at hlength
      rw [pieces_persona hname]
      exact .persona (ih rest.length (by omega) rest rfl)
    have hpersona := (Bool.not_eq_true _).mp hpersona
    cases text with
    | nil => exact .nil
    | cons b text =>
      rw [List.length_cons] at hlength
      rw [pieces, piecesFrom, hname, if_neg Bool.false_ne_true, hpersona,
        if_neg Bool.false_ne_true]
      exact .byte hname hpersona (ih text.length (by omega) text rfl)

theorem Reads.written_eq {template : List Piece} (h : Reads text template) :
    written namePlaceholder personaPlaceholder template = text := by
  induction h with
  | nil => rfl
  | name _ ih => simpa [written] using ih
  | persona _ ih => simpa [written] using ih
  | byte _ _ _ ih => simpa [written] using ih

theorem Reads.scan_name {template : List Piece} (h : Reads text template) :
    scan namePlaceholder text = nameSpots template := by
  induction h with
  | nil => rfl
  | name _ ih => rw [scan_placeholder namePlaceholder_ne_nil, ih]; rfl
  | @persona text template _ ih =>
    have hother : ∀ b ∈ [0x70, 0x65, 0x72, 0x73, 0x6F, 0x6E, 0x61, 0x7D], b ≠ (0x7B : UInt8) := by
      decide +kernel
    have hopen : namePlaceholder.isPrefixOf (0x7B ::
        ([0x70, 0x65, 0x72, 0x73, 0x6F, 0x6E, 0x61, 0x7D] ++ text)) = false := by
      rw [namePlaceholder_eq]
      rfl
    have hspots : nameSpots (.persona :: template) =
        personaPlaceholder.map some ++ nameSpots template := rfl
    rw [hspots, personaPlaceholder_eq, List.cons_append, scan_item hopen, ← ih,
      namePlaceholder_eq, scan_other hother]
    rfl
  | byte hname _ _ ih =>
    rw [scan_item hname, ih]
    rfl

/-! ## The two passes -/

def prompt (settings : LlmSettings N) (persona : Bytes) : Bytes :=
  if Prepends settings persona then
    bytes "You are " ++ (namePlaceholder ++ ((bytes ". " ++ (persona ++ bytes "\n\n")) ++
      settings.masterPrompt))
  else settings.masterPrompt

theorem renderMasterPrompt_eq (settings : LlmSettings N) (name persona : Bytes) :
    renderMasterPrompt settings name persona = fill persona (scan personaPlaceholder
      (fill name (scan namePlaceholder (prompt settings persona)))) := by
  have hprompt : (if persona.isEmpty = false ∧
      find settings.masterPrompt personaPlaceholder = none then
        bytes "You are " ++ namePlaceholder ++ bytes ". " ++ persona ++ bytes "\n\n" ++
          settings.masterPrompt
      else settings.masterPrompt) = prompt settings persona := by
    unfold prompt Prepends
    simp only [List.append_assoc]
  rw [renderMasterPrompt, hprompt, substitute_eq_fill namePlaceholder_ne_nil name le_rfl,
    substitute_eq_fill personaPlaceholder_ne_nil persona le_rfl]

theorem written_template (settings : LlmSettings N) (persona : Bytes) :
    written namePlaceholder personaPlaceholder (template settings persona) =
      prompt settings persona := by
  have hmaster := (reads_pieces settings.masterPrompt).written_eq
  rw [template, prompt]
  split_ifs
  · have hname : ∀ rest, written namePlaceholder personaPlaceholder (.name :: rest) =
        namePlaceholder ++ written namePlaceholder personaPlaceholder rest := fun _ => rfl
    rw [written_append, written_bytes, hname, written_append, written_bytes, hmaster]
  · exact hmaster

/-- The first pass puts the name in where the template has it, and nowhere else. -/
def NamesOnce (settings : LlmSettings N) (name persona : Bytes) : Prop :=
  Prepends settings persona → find persona namePlaceholder = none ∨ name = namePlaceholder

/-- With the name put in, the persona's placeholder stands where the template has it, and nowhere
else. -/
def PersonaOnce (settings : LlmSettings N) (name persona : Bytes) : Prop :=
  scan personaPlaceholder (written name personaPlaceholder (template settings persona)) =
    personaSpots name (template settings persona) ∨ persona = personaPlaceholder

theorem nameSpots_append (first rest : List Piece) :
    nameSpots (first ++ rest) = nameSpots first ++ nameSpots rest := List.flatMap_append

theorem nameSpots_bytes (text : Bytes) : nameSpots (text.map .byte) = text.map some := by
  induction text with
  | nil => rfl
  | cons b text ih => exact congrArg (some b :: ·) ih

theorem scan_prompt (h : Prepends settings persona → find persona namePlaceholder = none) :
    scan namePlaceholder (prompt settings persona) = nameSpots (template settings persona) := by
  have hmaster := (reads_pieces settings.masterPrompt).scan_name
  rw [template, prompt]
  split_ifs with hprepends
  · have hfree := find_eq_none (h hprepends)
    have hopening : ∀ b ∈ bytes "You are ", b ≠ (0x7B : UInt8) := by decide +kernel
    have hmiddle : ∀ b ∈ bytes ". ", b ≠ (0x7B : UInt8) := by decide +kernel
    have hbreak : bytes "\n\n" = 0x0A :: [0x0A] := by decide
    have hbreak_other : ∀ b ∈ bytes "\n\n", b ≠ (0x7B : UInt8) := by decide +kernel
    have hstop : (0x0A : UInt8) ∉ namePlaceholder := by decide
    have hname : ∀ rest, nameSpots (.name :: rest) = none :: nameSpots rest := fun _ => rfl
    rw [nameSpots_append, nameSpots_bytes, hname, nameSpots_append, nameSpots_bytes, ← hmaster]
    have hpersona : scan namePlaceholder (persona ++ (bytes "\n\n" ++ settings.masterPrompt)) =
        persona.map some ++ scan namePlaceholder (bytes "\n\n" ++ settings.masterPrompt) := by
      rw [hbreak, List.cons_append, scan_stop hfree hstop]
    have hother : ∀ {items : Bytes}, (∀ b ∈ items, b ≠ (0x7B : UInt8)) → ∀ text,
        scan namePlaceholder (items ++ text) = items.map some ++ scan namePlaceholder text := by
      intro items hitems text
      rw [namePlaceholder_eq]
      exact scan_other hitems text
    rw [hother hopening, scan_placeholder namePlaceholder_ne_nil, List.append_assoc,
      hother hmiddle, List.append_assoc, hpersona, hother hbreak_other, List.map_append,
      List.map_append, List.append_assoc, List.append_assoc]
  · exact hmaster

theorem find_of_scan_prompt
    (h : scan namePlaceholder (prompt settings persona) = nameSpots (template settings persona))
    (hprepends : Prepends settings persona) : find persona namePlaceholder = none := by
  cases hfind : find persona namePlaceholder with
  | none => rfl
  | some start =>
    exfalso
    obtain ⟨before, behind, rfl, -⟩ := find_split hfind
    refine scan_spelled namePlaceholder_ne_nil (prompt settings
      (before ++ namePlaceholder ++ behind)) ?_
    rw [h, template, if_pos hprepends]
    have hname : ∀ rest, nameSpots (.name :: rest) = [none] ++ nameSpots rest := fun _ => rfl
    rw [nameSpots_append, nameSpots_bytes, hname, nameSpots_append, nameSpots_bytes,
      List.map_append, List.map_append, List.map_append, List.map_append]
    refine List.IsInfix.trans ?_ (List.suffix_append _ _).isInfix
    refine List.IsInfix.trans ?_ (List.suffix_append _ _).isInfix
    refine List.IsInfix.trans ?_ (List.prefix_append _ _).isInfix
    refine List.IsInfix.trans ?_ (List.suffix_append _ _).isInfix
    refine List.IsInfix.trans ?_ (List.prefix_append _ _).isInfix
    exact List.infix_append _ _ _

theorem Reads.no_persona {template : List Piece} (h : Reads text template)
    (hfree : ¬ personaPlaceholder <:+: text) (name persona : Bytes) :
    written name persona template = written name personaPlaceholder template := by
  induction h with
  | nil => rfl
  | name _ ih =>
    have hrest := ih fun hinside => hfree (hinside.trans (List.suffix_append _ _).isInfix)
    simpa [written] using hrest
  | persona _ _ => exact absurd (List.prefix_append _ _).isInfix hfree
  | byte _ _ _ ih =>
    have hrest := ih fun hinside => hfree (hinside.trans (List.suffix_cons _ _).isInfix)
    simpa [written] using hrest

theorem written_prepended (h : Prepends settings persona) (name value : Bytes) :
    written name value (template settings persona) =
      written name personaPlaceholder (template settings persona) := by
  have hmaster := (reads_pieces settings.masterPrompt).no_persona (find_eq_none h.2) name value
  have hname : ∀ value rest, written name value (.name :: rest) = name ++ written name value rest :=
    fun _ _ => rfl
  rw [template, if_pos h, written_append, written_append, written_bytes, written_bytes, hname,
    hname, written_append, written_append, written_bytes, written_bytes, hmaster]

variable {name : Bytes}

theorem NamesOnce.first_pass (h : NamesOnce settings name persona) :
    fill name (scan namePlaceholder (prompt settings persona)) =
      written name personaPlaceholder (template settings persona) := by
  by_cases hname : name = namePlaceholder
  · rw [hname, fill_scan namePlaceholder_ne_nil, written_template]
  · have hfree : Prepends settings persona → find persona namePlaceholder = none :=
      fun hprepends => (h hprepends).resolve_right hname
    rw [scan_prompt hfree, fill_nameSpots]

/-- Then the two passes put both values in at once, if the second one finds the persona's places
and nothing else. -/
theorem NamesOnce.render_iff (h : NamesOnce settings name persona) :
    renderMasterPrompt settings name persona = simultaneous settings name persona ↔
      PersonaOnce settings name persona := by
  rw [renderMasterPrompt_eq, h.first_pass, simultaneous, PersonaOnce,
    ← fill_personaSpots name personaPlaceholder, ← fill_personaSpots name persona,
    personaPlaceholder_eq]
  exact fill_scan_iff (by decide) persona _

/-- Two passes put the name and the persona in at once, if neither finds a placeholder that is not
the template's own. Otherwise they do so by chance at most: a persona in front that was changed by
the first pass is changed again by the second. -/
theorem renderMasterPrompt_iff (settings : LlmSettings N) (name persona : Bytes) :
    (NamesOnce settings name persona ∧ PersonaOnce settings name persona →
      renderMasterPrompt settings name persona = simultaneous settings name persona) ∧
    (renderMasterPrompt settings name persona = simultaneous settings name persona →
      NamesOnce settings name persona ∧ PersonaOnce settings name persona ∨
        ¬ NamesOnce settings name persona ∧ personaPlaceholder <:+:
          substitute namePlaceholder name (prompt settings persona).length
            (prompt settings persona)) ∧
    ∀ placeholder ∈ [namePlaceholder, personaPlaceholder], ∀ (value text : Bytes) (fuel : ℕ),
      text.length ≤ fuel →
        substitute placeholder value fuel text = substitute placeholder value text.length text := by
  refine ⟨fun h => h.1.render_iff.mpr h.2, fun heq => ?_, ?_⟩
  · by_cases hnames : NamesOnce settings name persona
    · exact .inl ⟨hnames, hnames.render_iff.mp heq⟩
    · refine .inr ⟨hnames, ?_⟩
      by_contra hfree
      obtain ⟨hprepends, hnot⟩ := Classical.not_imp.mp hnames
      rw [not_or] at hnot
      rw [substitute_eq_fill namePlaceholder_ne_nil name le_rfl] at hfree
      rw [renderMasterPrompt_eq, scan_of_free hfree, fill_items, simultaneous,
        written_prepended hprepends, ← fill_nameSpots, ← written_template, ← fill_nameSpots,
        namePlaceholder_eq, fill_scan_iff (by decide)] at heq
      rw [← namePlaceholder_eq, fill_nameSpots, written_template] at heq
      exact heq.elim (fun hscan => hnot.1 (find_of_scan_prompt hscan hprepends)) hnot.2
  · intro placeholder hplaceholder value text fuel hfuel
    have hne : placeholder ≠ [] := by
      rcases List.mem_cons.mp hplaceholder with rfl | hpersona
      · exact namePlaceholder_ne_nil
      · rw [List.mem_singleton.mp hpersona]
        exact personaPlaceholder_ne_nil
    rw [substitute_eq_fill hne value hfuel, substitute_eq_fill hne value le_rfl]

def ofTemplate (text : Bytes) : LlmSettings ℕ := ⟨text, 0, 1, 1, 140, true, []⟩

-- By chance: the name completes a placeholder, and the persona comes back.
example : renderMasterPrompt (ofTemplate (bytes "Hi.")) (bytes "sona")
    (bytes "\x7bper\x7bname\x7d\x7d") =
      simultaneous (ofTemplate (bytes "Hi.")) (bytes "sona")
        (bytes "\x7bper\x7bname\x7d\x7d") := by decide

/-- A name that is a placeholder for the persona. -/
theorem renderMasterPrompt_fails :
    ¬ ∀ (settings : LlmSettings ℕ) (name persona : Bytes),
      renderMasterPrompt settings name persona = simultaneous settings name persona := by
  intro hclaim
  have heq := hclaim (ofTemplate (bytes "I am \x7bname\x7d. \x7bpersona\x7d"))
    (bytes "\x7bpersona\x7d") (bytes "Calm.")
  have hrendered : renderMasterPrompt (ofTemplate (bytes "I am \x7bname\x7d. \x7bpersona\x7d"))
      (bytes "\x7bpersona\x7d") (bytes "Calm.") = bytes "I am Calm.. Calm." := by decide
  exact absurd (hrendered.symm.trans heq) (by decide)

end FastTts.MasterPrompt
