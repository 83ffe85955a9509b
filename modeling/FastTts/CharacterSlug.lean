import FastTts.Character
import FastTts.Utf8Spans

/-!
# Names of library entries

A slug is one path component: lower case letters and digits with single dashes between them. The
loop never ends on a dash, as a dash is only written together with the letter behind it. A name
without letters and digits has the slug of its hash.
-/

namespace FastTts

open Utf8Spans (forall_byte)

def isSlugLetter (b : UInt8) : Bool := isAlnum b && !isUpper b

/-- Letters and digits, with a dash in front of some that are not the first. -/
inductive Slugged : Bytes → Prop
  | nil : Slugged []
  | letter {slug : Bytes} {b : UInt8} : Slugged slug → isSlugLetter b = true →
      Slugged (slug ++ [b])
  | dash {slug : Bytes} {b : UInt8} : Slugged slug → slug ≠ [] → isSlugLetter b = true →
      Slugged (slug ++ [0x2D] ++ [b])

theorem isSlugLetter_toLower {b : UInt8} (h : isAlnum b = true) : isSlugLetter (toLower b) = true := by
  revert b
  apply forall_byte
  decide +kernel

theorem isSlugLetter_spec {b : UInt8} (h : isSlugLetter b = true) :
    isAlnum b = true ∧ isUpper b = false ∧ toLower b = b ∧ b ≠ 0x2D := by
  rw [isSlugLetter, Bool.and_eq_true, Bool.not_eq_true'] at h
  refine ⟨h.1, h.2, by rw [toLower, h.2, if_neg Bool.false_ne_true], ?_⟩
  rintro rfl
  exact absurd h.1 (by decide)

namespace Slugged

variable {slug : Bytes}

section

variable (h : Slugged slug)
include h

theorem letters : ∀ b ∈ slug, isSlugLetter b = true ∨ b = 0x2D := by
  induction h with
  | nil => exact fun _ hb => absurd hb List.not_mem_nil
  | letter _ hletter ih =>
    intro b hb
    rcases List.mem_append.mp hb with hb | hb
    · exact ih b hb
    · exact .inl (List.mem_singleton.mp hb ▸ hletter)
  | dash _ _ hletter ih =>
    intro b hb
    rcases List.mem_append.mp hb with hb | hb
    · rcases List.mem_append.mp hb with hb | hb
      · exact ih b hb
      · exact .inr (List.mem_singleton.mp hb)
    · exact .inl (List.mem_singleton.mp hb ▸ hletter)

theorem head : slug.head? ≠ some 0x2D := by
  induction h with
  | nil => exact nofun
  | @letter slug b _ hletter ih =>
    cases slug with
    | nil => simpa using (isSlugLetter_spec hletter).2.2.2
    | cons first slug => exact ih
  | @dash slug b _ hne _ ih =>
    cases slug with
    | nil => exact absurd rfl hne
    | cons first slug => exact ih

theorem last : slug.getLast? ≠ some 0x2D := by
  cases h with
  | nil => exact nofun
  | letter _ hletter => simpa using (isSlugLetter_spec hletter).2.2.2
  | dash _ _ hletter => simpa using (isSlugLetter_spec hletter).2.2.2

theorem single : ¬ [0x2D, 0x2D] <:+: slug := by
  have hstop : ∀ {b : UInt8}, isSlugLetter b = true → b ∉ [0x2D, 0x2D] := by
    intro b hletter
    simpa using (isSlugLetter_spec hletter).2.2.2
  have hnil : ¬ ([0x2D, 0x2D] : Bytes) <:+: [] :=
    fun hinside => absurd (List.infix_nil.mp hinside) (List.cons_ne_nil _ _)
  induction h with
  | nil => exact hnil
  | letter _ hletter ih =>
    exact fun hinside => (Ranges.infix_stop (hstop hletter) hinside).elim ih hnil
  | @dash slug b hslug _ hletter ih =>
    intro hinside
    have hfront := (Ranges.infix_stop (hstop hletter) hinside).resolve_right hnil
    rcases List.infix_concat_iff.mp hfront with ⟨front, hlast⟩ | hearly
    · have hsplit : front ++ [0x2D] ++ [0x2D] = slug ++ [0x2D] := by simpa using hlast
      obtain ⟨rfl, -⟩ := List.append_inj' hsplit rfl
      exact hslug.last (by simp)
    · exact ih hearly

theorem foldl_slugStep : slug.foldl slugStep ([], false) = (slug, false) := by
  induction h with
  | nil => rfl
  | letter _ hletter ih =>
    obtain ⟨halnum, -, hlower, -⟩ := isSlugLetter_spec hletter
    rw [List.foldl_append, ih, List.foldl_cons, List.foldl_nil, slugStep, if_pos halnum, hlower]
    rfl
  | @dash slug b _ hne hletter ih =>
    obtain ⟨halnum, -, hlower, -⟩ := isSlugLetter_spec hletter
    have hdash : slugStep (slug, false) 0x2D = (slug, true) := rfl
    have hshown : (!slug.isEmpty) = true := by simpa using hne
    simp only [List.foldl_append, ih, List.foldl_cons, List.foldl_nil, hdash]
    rw [slugStep, if_pos halnum, hlower]
    dsimp only
    rw [hshown]
    rfl

theorem characterSlug_eq (hne : slug ≠ []) : characterSlug slug = slug := by
  have hshown : slug.isEmpty = false := by simpa using hne
  rw [characterSlug, h.foldl_slugStep]
  dsimp only
  rw [hshown, if_neg Bool.false_ne_true]

end

end Slugged

/-- What a step keeps: the slug is well formed, and no longer than what was read. A dash that is
still to be written counts. -/
theorem slugStep_spec {state : Bytes × Bool} {read : ℕ} (ch : UInt8) (h : Slugged state.1)
    (hlength : state.1.length + (if state.2 && !state.1.isEmpty then 1 else 0) ≤ read) :
    Slugged (slugStep state ch).1 ∧ (slugStep state ch).1.length +
      (if (slugStep state ch).2 && !(slugStep state ch).1.isEmpty then 1 else 0) ≤ read + 1 := by
  obtain ⟨slug, pending⟩ := state
  rw [slugStep]
  dsimp only at h hlength ⊢
  by_cases halnum : isAlnum ch = true
  · have hletter := isSlugLetter_toLower halnum
    rw [if_pos halnum]
    by_cases hdash : (pending && !slug.isEmpty) = true
    · have hne : slug ≠ [] := by
        rw [Bool.and_eq_true, Bool.not_eq_true', List.isEmpty_eq_false_iff] at hdash
        exact hdash.2
      rw [if_pos hdash] at hlength ⊢
      refine ⟨h.dash hne hletter, ?_⟩
      simp only [List.length_append, List.length_singleton, Bool.false_and, Bool.false_eq_true,
        if_false]
      omega
    · rw [if_neg hdash] at hlength ⊢
      refine ⟨h.letter hletter, ?_⟩
      simp only [List.length_append, List.length_singleton, Bool.false_and, Bool.false_eq_true,
        if_false]
      omega
  · rw [if_neg halnum]
    refine ⟨h, ?_⟩
    dsimp only
    split_ifs <;> omega

theorem foldl_slugStep_spec (name : Bytes) (state : Bytes × Bool) {read : ℕ} (h : Slugged state.1)
    (hlength : state.1.length + (if state.2 && !state.1.isEmpty then 1 else 0) ≤ read) :
    Slugged (name.foldl slugStep state).1 ∧
      (name.foldl slugStep state).1.length ≤ read + name.length := by
  induction name generalizing state read with
  | nil => exact ⟨h, by rw [List.foldl_nil, List.length_nil]; omega⟩
  | cons ch name ih =>
    obtain ⟨hslug, hnext⟩ := slugStep_spec ch h hlength
    obtain ⟨hend, hle⟩ := ih _ hslug hnext
    refine ⟨hend, ?_⟩
    rw [List.length_cons]
    rw [List.foldl_cons]
    omega

theorem foldl_slugStep_trimmed (name : Bytes) :
    (name.foldl slugStep ([], false)).1 = ((trimmed name).foldl slugStep ([], false)).1 := by
  have hspace : ∀ {b : UInt8}, isSpace b = true → isAlnum b = false := fun {b} h =>
    forall_byte (p := fun b => isSpace b = true → isAlnum b = false) (by decide +kernel) b h
  have hskip : ∀ (text : Bytes) (state : Bytes × Bool), (∀ b ∈ text, isSpace b = true) →
      (text.foldl slugStep state).1 = state.1 := by
    intro text
    induction text with
    | nil => exact fun _ _ => rfl
    | cons b text ih =>
      intro state hblank
      rw [List.foldl_cons, ih _ fun x hx => hblank x (List.mem_cons_of_mem _ hx), slugStep,
        hspace (hblank b List.mem_cons_self), if_neg Bool.false_ne_true]
  have hpending : ∀ (text : Bytes) (pending : Bool),
      (text.foldl slugStep ([], pending)).1 = (text.foldl slugStep ([], false)).1 := by
    intro text pending
    cases text with
    | nil => rfl
    | cons b text =>
      have hstep : slugStep ([], pending) b = slugStep ([], false) b := by
        simp [slugStep]
      rw [List.foldl_cons, List.foldl_cons, hstep]
  generalize hrest : name.dropWhile isSpace = rest
  have hrestSplit : trimmed name ++ rest.rtakeWhile isSpace = rest := by
    rw [trimmed, hrest, List.rdropWhile, List.rtakeWhile, ← List.reverse_append,
      List.takeWhile_append_dropWhile, List.reverse_reverse]
  have hsplit : name = name.takeWhile isSpace ++ (trimmed name ++ rest.rtakeWhile isSpace) := by
    rw [hrestSplit, ← hrest, List.takeWhile_append_dropWhile]
  have hfront := hskip (name.takeWhile isSpace) ([], false) fun b hb => List.mem_takeWhile_imp hb
  generalize hstate : (name.takeWhile isSpace).foldl slugStep ([], false) = state at hfront
  obtain ⟨slug, pending⟩ := state
  obtain rfl : slug = [] := hfront
  conv_lhs => rw [hsplit]
  rw [List.foldl_append, List.foldl_append, hstate, hskip _ _ fun b hb =>
    List.mem_rtakeWhile_imp hb, hpending]

/-! ## Slugs of names -/

theorem slugged_hash (value : ℕ) : Slugged (bytes "c-" ++ hex8 value) := by
  have hhex : ∀ digit < 16, isSlugLetter (hexDigit digit) = true := by decide
  have hletters : ∀ (digits : List ℕ) (slug : Bytes), Slugged slug →
      (∀ digit ∈ digits, digit < 16) → Slugged (slug ++ digits.map hexDigit) := by
    intro digits
    induction digits with
    | nil =>
      intro slug hslug _
      rwa [List.map_nil, List.append_nil]
    | cons digit digits ih =>
      intro slug hslug hdigits
      have hnext := hslug.letter (hhex digit (hdigits digit List.mem_cons_self))
      rw [List.map_cons, List.append_cons]
      exact ih _ hnext fun d hd => hdigits d (List.mem_cons_of_mem _ hd)
  have hdigits : hex8 value = hexDigit (value / 16 ^ 7 % 16) ::
      ((List.range 7).map fun i => value / 16 ^ (6 - i) % 16).map hexDigit := by
    rw [hex8, List.range_succ_eq_map, List.map_cons, List.map_map, List.map_map]
    congr 1
  have hopening : bytes "c-" = [0x63] ++ [0x2D] := by decide
  have hc : Slugged ([] ++ [0x63]) := .letter .nil (by decide)
  have hfirst := hc.dash (List.cons_ne_nil _ _)
    (hhex (value / 16 ^ 7 % 16) (Nat.mod_lt _ (by decide)))
  rw [hopening, hdigits, List.append_cons]
  refine hletters _ _ hfirst fun digit hdigit => ?_
  obtain ⟨i, -, rfl⟩ := List.mem_map.mp hdigit
  exact Nat.mod_lt _ (by decide)

/-- One component of a path, and a slug of itself. -/
structure SafeSlug (slug : Bytes) : Prop where
  valid : isValidCharacterId slug = true
  head : slug.head? ≠ some 0x2D
  last : slug.getLast? ≠ some 0x2D
  single : ¬ [0x2D, 0x2D] <:+: slug
  fixed : characterSlug slug = slug

theorem Slugged.safe {slug : Bytes} (h : Slugged slug) (hne : slug ≠ [])
    (hlength : slug.length ≤ 80) : SafeSlug slug where
  valid := by
    rw [isValidCharacterId, Bool.and_eq_true, Bool.and_eq_true, List.all_eq_true]
    refine ⟨⟨by simpa using hne, decide_eq_true hlength⟩, fun b hb => ?_⟩
    rw [Bool.or_eq_true, beq_iff_eq]
    exact h.letters b hb
  head := h.head
  last := h.last
  single := h.single
  fixed := h.characterSlug_eq hne

theorem safeSlug_of_length {name : Bytes} (h : (trimmed name).length ≤ 80) :
    SafeSlug (characterSlug name) := by
  have hspec := foldl_slugStep_spec (trimmed name) ([], false) Slugged.nil le_rfl
  rw [← foldl_slugStep_trimmed] at hspec
  rw [characterSlug]
  split_ifs with hempty
  · have hlength : (bytes "c-" ++ hex8 (nameHash name)).length = 10 := by
      rw [List.length_append, hex8, List.length_map, List.length_range]
      rfl
    exact (slugged_hash _).safe (List.ne_nil_of_length_pos (by omega)) (by omega)
  · obtain ⟨hslug, hle⟩ := hspec
    rw [List.length_nil] at hle
    refine hslug.safe (fun hnil => hempty (List.isEmpty_iff.mpr hnil)) (hle.trans ?_)
    simpa using h

/-- Every accepted name has a safe slug, before its blanks are taken off and after. -/
theorem characterSlug_safe {name text : Bytes} (h : sanitizeCharacterName name = .ok text) :
    SafeSlug (characterSlug name) ∧ SafeSlug (characterSlug text) := by
  obtain ⟨rfl, -, hlength⟩ := sanitizeCharacterName_ok h
  rw [maxNameLength] at hlength
  refine ⟨safeSlug_of_length (by omega), safeSlug_of_length ?_⟩
  rw [trimmed_trimmed]
  omega

theorem characterSlug_safe_quoted : SafeSlug (characterSlug (bytes "  Dr. \"Mira\" O'Neil! ")) := by
  have htext : sanitizeCharacterName (bytes "  Dr. \"Mira\" O'Neil! ") =
      .ok (bytes "Dr. \"Mira\" O'Neil!") := by decide
  exact (characterSlug_safe htext).1

end FastTts
