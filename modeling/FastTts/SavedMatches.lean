import FastTts.Backtracking
import FastTts.Bytes
import FastTts.MarkedTexts
import FastTts.StdSort
import Mathlib.Data.List.Lex

/-!
# Matches under placeholders

`save_regex_matches` puts a placeholder wherever one of the matches of a pattern stands in a text,
and `restore_saved` puts the matches back. There are twenty-six placeholders. From the
twenty-seventh match on they are used again, and then the first match that had a placeholder comes
back for the others too.
-/

namespace FastTts.SavedMatches

open Backtracking MarkedTexts StdSort

/-! ## Replacing -/

def replaceFrom (needle inserted : Bytes) : ℕ → Bytes → Bytes
  | 0, text => text
  | fuel + 1, text => match find text needle with
    | none => text
    | some pos => text.take pos ++ (inserted ++
        replaceFrom needle inserted fuel (text.drop (pos + needle.length)))

/-- The search goes on behind what is inserted. -/
def replaceAll (text needle inserted : Bytes) : Bytes :=
  if needle.isEmpty then text else replaceFrom needle inserted text.length text

def cutFrom (needle : Bytes) : ℕ → Bytes → List Bytes
  | 0, text => [text]
  | fuel + 1, text => match find text needle with
    | none => [text]
    | some pos => text.take pos :: cutFrom needle fuel (text.drop (pos + needle.length))

/-- The pieces of a text between the places where a needle is replaced. -/
def cutAt (needle text : Bytes) : List Bytes := cutFrom needle text.length text

/-! ## Saving and restoring -/

/-- Each match with the place where it begins, as the iterator of a pattern finds them. -/
def placed (offset : ℕ) : List (Bytes × Way UInt8) → List (ℕ × Bytes)
  | [] => []
  | (gap, way) :: found =>
    (offset + gap.length, way.taken) ::
      placed (offset + gap.length + way.taken.length) found

def matchesIn (pattern : Pattern UInt8) (text : Bytes) : List (ℕ × Bytes) :=
  placed 0 (hits pattern text).1

def lexLess (a b : Bytes) : Bool := byKey (fun term : Bytes => term.map UInt8.toNat) a b

def longerFirst (a b : Bytes) : Bool := byKey (fun term : Bytes => OrderDual.toDual term.length) a b

/-- Of equal neighbours the first one stays. -/
def unique : List Bytes → List Bytes
  | a :: b :: rest => if a = b then unique (b :: rest) else a :: unique (b :: rest)
  | terms => terms

/-- A digit for a suffix would be read as a number, so that it is a letter. -/
def placeholder (name : Bytes) (index : ℕ) : Bytes :=
  bytes "<" ++ (name ++ (bytes "_" ++ [UInt8.ofNat (0x61 + index % 26), 0x3E]))

/-- The loop over the matches, for the values that come back for them. -/
def saveTerms (name : Bytes) (value : Bytes → Bytes) (terms : List Bytes) (text : Bytes) :
    Bytes × List (Bytes × Bytes) :=
  (terms.zipIdx.foldl (fun text entry => replaceAll text entry.1 (placeholder name entry.2)) text,
    terms.zipIdx.map fun entry => (placeholder name entry.2, value entry.1))

/-- The matches of a pattern, each one once, the longest first. -/
def regexTerms (sort : (Bytes → Bytes → Bool) → List Bytes → List Bytes)
    (pattern : Pattern UInt8) (text : Bytes) : List Bytes :=
  sort longerFirst (unique (sort lexLess ((matchesIn pattern text).map Prod.snd)))

def saveRegexMatches (sort : (Bytes → Bytes → Bool) → List Bytes → List Bytes)
    (pattern : Pattern UInt8) (name text : Bytes) : Bytes × List (Bytes × Bytes) :=
  saveTerms name id (regexTerms sort pattern text) text

def restoreSaved (text : Bytes) (saved : List (Bytes × Bytes)) : Bytes :=
  saved.foldl (fun text entry => replaceAll text entry.1 entry.2) text

def isWithin (low high b : UInt8) : Bool := decide (low ≤ b) && decide (b ≤ high)

/-- A Chinese character, with the continuation bytes behind it. -/
def nameCharacter : Pattern UInt8 :=
  .seq (.one (isWithin 0xE4 0xE9)) (.seq (.one (isWithin 0x80 0xBF)) (.plus (isWithin 0x80 0xBF)))

/-- A sign in a name: one byte of a hyphen, a middle dot or a dash. -/
def nameSign : Pattern UInt8 := .one fun b => (bytes "-·—").contains b

def namePattern : Pattern UInt8 :=
  .seq nameCharacter (.seq (.seq nameSign nameCharacter) (.opt (.seq nameSign nameCharacter)))

/-! ## The replacement -/

variable {needle : Bytes}

theorem find_first_free {text : Bytes} {pos : ℕ} (hne : needle ≠ [])
    (h : find text needle = some pos) : ∃ before behind, text = before ++ (needle ++ behind) ∧
      before.length = pos ∧ ¬ needle <:+: before ++ needle.dropLast := by
  obtain ⟨before, behind, rfl, hpos⟩ := find_split h
  have hlength := List.length_pos_iff.mpr hne
  have hend : before.length + (needle.length - 1) < pos + needle.length := by omega
  have hfree := find_first h hend
  rw [List.append_assoc, List.take_length_add_append, List.take_append_of_le_length (by omega),
    ← List.dropLast_eq_take] at hfree
  exact ⟨before, behind, List.append_assoc .., hpos, hfree⟩

theorem drop_behind (before needle behind : Bytes) :
    (before ++ (needle ++ behind)).drop (before.length + needle.length) = behind := by
  rw [← List.append_assoc, ← List.length_append, List.drop_left]

variable {fuel : ℕ} {inserted term : Bytes} {p q : Pattern UInt8}

theorem replaceFrom_replaced (hne : needle ≠ []) (inserted : Bytes) {text : Bytes}
    (h : text.length ≤ fuel) :
    Replaced needle inserted text (replaceFrom needle inserted fuel text) := by
  induction fuel generalizing text with
  | zero =>
    rw [List.length_eq_zero_iff.mp (Nat.le_zero.mp h)]
    exact .none fun hwithin => hne (List.infix_nil.mp hwithin)
  | succ fuel ih =>
    rw [replaceFrom]
    cases hfind : find text needle with
    | none => exact .none (find_eq_none hfind)
    | some pos =>
      obtain ⟨before, behind, rfl, rfl, hfree⟩ := find_first_free hne hfind
      have hpos := List.length_pos_iff.mpr hne
      simp only [List.length_append] at h
      dsimp only
      rw [drop_behind, List.take_left]
      exact .first hfree (ih (by omega))

theorem replaceAll_replaced (text needle inserted : Bytes) (hne : needle ≠ []) :
    Replaced needle inserted text (replaceAll text needle inserted) := by
  rw [replaceAll, if_neg (by simpa using hne)]
  exact replaceFrom_replaced hne inserted (le_refl _)

theorem cutFrom_cuts (hne : needle ≠ []) {text : Bytes} (h : text.length ≤ fuel) :
    Cuts needle text (cutFrom needle fuel text) := by
  induction fuel generalizing text with
  | zero =>
    rw [List.length_eq_zero_iff.mp (Nat.le_zero.mp h)]
    exact .none fun hwithin => hne (List.infix_nil.mp hwithin)
  | succ fuel ih =>
    rw [cutFrom]
    cases hfind : find text needle with
    | none => exact .none (find_eq_none hfind)
    | some pos =>
      obtain ⟨before, behind, rfl, rfl, hfree⟩ := find_first_free hne hfind
      have hpos := List.length_pos_iff.mpr hne
      simp only [List.length_append] at h
      dsimp only
      rw [drop_behind, List.take_left]
      exact .first hfree (ih (by omega))

theorem cutsAll_cutAt : Marked.CutsAll cutAt := fun _ hne _ => cutFrom_cuts hne (le_refl _)

/-! ## Placeholders -/

theorem placeholder_eq_iff {name : Bytes} {i j : ℕ} :
    placeholder name i = placeholder name j ↔ i % 26 = j % 26 := by
  constructor
  · intro h
    have hletter := List.append_cancel_left (List.append_cancel_left (List.append_cancel_left h))
    have hnat := congrArg UInt8.toNat (List.cons.inj hletter).1
    simp only [UInt8.toNat_ofNat'] at hnat
    omega
  · intro h
    rw [placeholder, h, placeholder]

theorem placeholder_ne_nil (name : Bytes) (i : ℕ) : placeholder name i ≠ [] := List.cons_ne_nil _ _

theorem getLast?_placeholder (name : Bytes) (i : ℕ) :
    (placeholder name i).getLast? = some 0x3E := by
  have hsplit : placeholder name i =
      (bytes "<" ++ (name ++ (bytes "_" ++ [UInt8.ofNat (0x61 + i % 26)]))) ++ [0x3E] := by
    simp [placeholder]
  rw [hsplit, List.getLast?_concat]

theorem separate_placeholders {name : Bytes} (hname : 0x3C ∉ name) (i j : ℕ) :
    Separate (placeholder name i) (placeholder name j) := by
  have hrest : ∀ k, 0x3C ∉ name ++ (bytes "_" ++ [UInt8.ofNat (0x61 + k % 26), 0x3E]) := by
    intro k hmem
    have hletter : (0x3C : UInt8) ≠ UInt8.ofNat (0x61 + k % 26) := by
      intro heq
      have hnat := congrArg UInt8.toNat heq
      simp only [UInt8.toNat_ofNat'] at hnat
      change 60 = _ at hnat
      omega
    have hscore : (0x3C : UInt8) ∉ bytes "_" := by decide
    simp only [List.mem_append, List.mem_cons, List.not_mem_nil, or_false] at hmem
    rcases hmem with hmem | hmem | hmem | hmem
    · exact hname hmem
    · exact hscore hmem
    · exact hletter hmem
    · exact absurd hmem (by decide)
  exact separate_of_head (hrest i) (hrest j) (by simp)

def Apart (name word : Bytes) : Prop :=
  0x3E ∉ word ∧ ∃ last, word.getLast? = some last ∧ ∀ i, last ∉ placeholder name i

namespace Apart

variable {name word : Bytes}

section

variable (h : Apart name word)
include h

theorem ne_nil : word ≠ [] := by
  rintro rfl
  obtain ⟨-, last, hlast, -⟩ := h
  exact nomatch hlast

theorem separate (i : ℕ) : Separate word (placeholder name i) := by
  obtain ⟨hclose, last, hlast, hfree⟩ := h
  exact separate_of_last hlast (getLast?_placeholder name i) (hfree i) hclose

theorem separate' (i : ℕ) : Separate (placeholder name i) word := by
  obtain ⟨hclose, last, hlast, hfree⟩ := h
  exact separate_of_last (getLast?_placeholder name i) hlast hclose (hfree i)

theorem placeholder_ne (i : ℕ) : placeholder name i ≠ word := by
  rintro rfl
  exact h.1 (List.mem_of_getLast? (getLast?_placeholder name i))

theorem not_within (i : ℕ) : ¬ word <:+: placeholder name i := by
  intro hwithin
  exact h.placeholder_ne i ((h.separate i).eq_of_within h.ne_nil hwithin).symm

theorem not_within' (i : ℕ) : ¬ placeholder name i <:+: word := by
  intro hwithin
  exact h.placeholder_ne i ((h.separate' i).eq_of_within (placeholder_ne_nil name i) hwithin)

end

end Apart

theorem replaceAll_free {text : Bytes} (hne : needle ≠ []) (h : ¬ needle <:+: text) :
    replaceAll text needle inserted = text :=
  (replaceAll_replaced text needle inserted hne).unique hne (.none h)

theorem replaceAll_self (hne : needle ≠ []) : replaceAll needle needle inserted = inserted :=
  (replaceAll_replaced needle needle inserted hne).unique hne (replaced_self hne inserted)

section Saved

variable {name : Bytes} {value : Bytes → Bytes} {terms : List Bytes}

theorem restore_placeholder (hname : 0x3C ∉ name) (hvalue : ∀ term ∈ terms, Apart name (value term))
    (i : ℕ) : restoreSaved (placeholder name i) (saveTerms name value terms []).2 =
      if i % 26 < terms.length then value (terms.getD (i % 26) []) else placeholder name i := by
  rw [restoreSaved, saveTerms]
  dsimp only
  induction terms using List.reverseRecOn with
  | nil => rfl
  | append_singleton terms term ih =>
    rw [List.forall_mem_append, List.forall_mem_singleton] at hvalue
    rw [List.zipIdx_append, List.map_append, List.foldl_append, ih hvalue.1, Nat.zero_add,
      List.length_append, List.length_singleton]
    change replaceAll _ (placeholder name terms.length) (value term) = _
    have hne := placeholder_ne_nil name terms.length
    rcases Nat.lt_trichotomy (i % 26) terms.length with hlt | heq | hgt
    · have hget : (terms ++ [term]).getD (i % 26) [] = terms.getD (i % 26) [] := by
        rw [List.getD_eq_getElem?_getD, List.getElem?_append_left hlt,
          ← List.getD_eq_getElem?_getD]
      rw [if_pos hlt, if_pos (by omega), hget]
      have hmem : terms.getD (i % 26) [] ∈ terms := by
        rw [List.getD_eq_getElem?_getD, List.getElem?_eq_getElem hlt]
        exact List.getElem_mem hlt
      exact replaceAll_free hne ((hvalue.1 _ hmem).not_within' _)
    · have hsame : placeholder name i = placeholder name terms.length :=
        placeholder_eq_iff.mpr (by omega)
      rw [if_neg (by omega), if_pos (by omega), hsame, replaceAll_self hne, heq]
      simp
    · rw [if_neg (by omega), if_neg (by omega)]
      refine replaceAll_free hne fun hwithin => ?_
      have hsame := (separate_placeholders hname terms.length i).eq_of_within hne hwithin
      have hmod := placeholder_eq_iff.mp hsame
      omega

/-- Where no placeholder stands in the text, the matches that were cut out come back, each one as
the value of the first match with its placeholder. -/
theorem restore_saved_text (hname : 0x3C ∉ name) (hterms : ∀ term ∈ terms, Apart name term)
    (hvalue : ∀ term ∈ terms, Apart name (value term)) {text : Bytes}
    (hfree : ∀ i < terms.length, ¬ placeholder name i <:+: text) :
    restoreSaved (saveTerms name value terms text).1 (saveTerms name value terms text).2 =
      (Marked.ofNeedles cutAt terms text).spell fun mark => value (terms.getD (mark % 26) []) := by
  have hne : ∀ term ∈ terms, term ≠ [] := fun term hterm => (hterms term hterm).ne_nil
  have hsaved : (saveTerms name value terms text).1 =
      (Marked.ofNeedles cutAt terms text).spell (placeholder name) :=
    Marked.replaced_ofNeedles replaceAll_replaced cutsAll_cutAt hne fun term hterm i =>
      ⟨(hterms term hterm).separate i, (hterms term hterm).not_within i⟩
  have hentry : ∀ entry ∈ (saveTerms name value terms text).2, ∃ i, i < terms.length ∧
      entry.1 = placeholder name i ∧ Apart name entry.2 := by
    intro entry hmem
    obtain ⟨⟨term, i⟩, hindex, rfl⟩ := List.mem_map.mp hmem
    obtain ⟨-, hlt, hterm⟩ := List.mem_zipIdx hindex
    exact ⟨i, by omega, rfl, hvalue term (hterm ▸ List.getElem_mem _)⟩
  rw [restoreSaved, hsaved, Marked.restored replaceAll_replaced
    (W := fun word => (∃ i, word = placeholder name i) ∨ Apart name word) ?_
    fun mark => .inl ⟨mark, rfl⟩]
  · refine Marked.spell_congr fun mark hmark => ?_
    have hlt := Marked.lt_of_mem_marks hmark
    exact (restore_placeholder hname hvalue mark).trans
      (if_pos ((Nat.mod_le mark 26).trans_lt hlt))
  · intro entry hmem
    obtain ⟨i, hi, hholder, hapart⟩ := hentry entry hmem
    rw [hholder]
    refine ⟨placeholder_ne_nil name i, fun piece hpiece hwithin => ?_, ?_⟩
    · rw [Marked.pieces_ofNeedles cutsAll_cutAt hne] at hpiece
      exact hfree i hi (hwithin.trans (Marked.infix_of_mem_gaps cutsAll_cutAt hne piece hpiece))
    · rintro _ (⟨j, rfl⟩ | hword)
      · refine ⟨separate_placeholders hname i j, ?_⟩
        by_cases hsame : placeholder name i = placeholder name j
        · rw [← hsame, replaceAll_self (placeholder_ne_nil name i)]
          exact .inr hapart
        · rw [replaceAll_free (placeholder_ne_nil name i) fun hwithin => hsame
            ((separate_placeholders hname i j).eq_of_within (placeholder_ne_nil name i) hwithin)]
          exact .inl ⟨j, rfl⟩
      · refine ⟨hword.separate' i, ?_⟩
        rw [replaceAll_free (placeholder_ne_nil name i) (hword.not_within' i)]
        exact .inr hword

theorem not_infix_restored {saved : List (Bytes × Bytes)} {i : ℕ}
    (hsaved : ∀ entry ∈ saved, entry.1 ≠ [] ∧ Apart name entry.2) {text : Bytes}
    (h : (∃ entry ∈ saved, entry.1 = placeholder name i) ∨ ¬ placeholder name i <:+: text) :
    ¬ placeholder name i <:+: restoreSaved text saved := by
  rw [restoreSaved]
  induction saved generalizing text with
  | nil => exact h.resolve_left (by simp)
  | cons entry saved ih =>
    obtain ⟨⟨hne, hapart⟩, hrest⟩ := List.forall_mem_cons.mp hsaved
    have hreplaced := replaceAll_replaced text entry.1 entry.2 hne
    have hnone := hreplaced.not_within (hapart.separate' i) (hapart.placeholder_ne i)
    refine ih hrest ?_
    rcases h with ⟨other, hother, heq⟩ | hfree
    · rcases List.mem_cons.mp hother with rfl | hlater
      · exact .inr (hnone (.inl heq))
      · exact .inl ⟨other, hlater, heq⟩
    · exact .inr (hnone (.inr hfree))

end Saved

/-! ## The matches -/

theorem mem_unique {terms : List Bytes} : term ∈ unique terms ↔ term ∈ terms := by
  induction terms with
  | nil => rfl
  | cons a terms ih =>
    cases terms with
    | nil => rfl
    | cons b rest =>
      rw [unique]
      split_ifs with hsame
      · rw [ih, List.mem_cons (a := term) (b := a), hsame]
        simp
      · rw [List.mem_cons, ih, List.mem_cons (b := a)]

theorem unique_pairwise {κ : Type} [LinearOrder κ] {key : Bytes → κ} (hkey : Function.Injective key)
    {terms : List Bytes} (h : terms.Pairwise fun a b => key a ≤ key b) :
    (unique terms).Pairwise fun a b => key a < key b := by
  induction terms with
  | nil => exact .nil
  | cons a terms ih =>
    cases terms with
    | nil => exact List.pairwise_singleton _ _
    | cons b rest =>
      obtain ⟨hfirst, hrest⟩ := List.pairwise_cons.mp h
      rw [unique]
      split_ifs with hsame
      · exact ih hrest
      · refine List.pairwise_cons.mpr ⟨fun other hother => ?_, ih hrest⟩
        have hab := lt_of_le_of_ne (hfirst b List.mem_cons_self) (hkey.ne hsame)
        rcases List.mem_cons.mp (mem_unique.mp hother) with rfl | hlater
        · exact hab
        · exact hab.trans_le ((List.pairwise_cons.mp hrest).1 other hlater)

theorem toNats_injective : Function.Injective fun term : Bytes => term.map UInt8.toNat :=
  List.map_injective_iff.mpr fun _ _ => UInt8.toNat_inj.mp

section Sorted

variable {sort : (Bytes → Bytes → Bool) → List Bytes → List Bytes}

theorem uniqueTerms_pairwise (hsort : Sorts sort) (found : List Bytes) :
    (unique (sort lexLess found)).Pairwise fun a b => a.map UInt8.toNat < b.map UInt8.toNat :=
  unique_pairwise toNats_injective (hsort.pairwise_byKey _ found)

variable {term : Bytes}

theorem mem_uniqueTerms (hsort : Sorts sort) {found : List Bytes} :
    term ∈ unique (sort lexLess found) ↔ term ∈ found := by
  rw [mem_unique]
  exact (hsort.perm_byKey _ found).mem_iff

theorem uniqueTerms_nodup (hsort : Sorts sort) (found : List Bytes) :
    (unique (sort lexLess found)).Nodup :=
  (uniqueTerms_pairwise hsort found).imp fun hlt heq => (heq ▸ hlt).false

variable {pattern : Pattern UInt8} {text : Bytes}

theorem regexTerms_nodup (hsort : Sorts sort) : (regexTerms sort pattern text).Nodup :=
  (hsort.perm_byKey (fun term : Bytes => OrderDual.toDual term.length) _).nodup_iff.mpr
    (uniqueTerms_nodup hsort _)

theorem mem_regexTerms (hsort : Sorts sort) :
    term ∈ regexTerms sort pattern text ↔ term ∈ (matchesIn pattern text).map Prod.snd :=
  (hsort.perm_byKey (fun term : Bytes => OrderDual.toDual term.length) _).mem_iff.trans
    (mem_uniqueTerms hsort)

theorem regexTerms_pairwise (hsort : Sorts sort) :
    (regexTerms sort pattern text).Pairwise fun a b => b.length ≤ a.length :=
  (hsort.pairwise_byKey (fun term : Bytes => OrderDual.toDual term.length) _).imp fun h =>
    OrderDual.toDual_le_toDual.mp h

end Sorted

theorem matchesIn_way {pattern : Pattern UInt8} {text : Bytes} :
    ∀ found ∈ matchesIn pattern text, ∃ rest, ∃ way ∈ ways pattern rest, way.taken = found.2 := by
  have hplaced : ∀ (found : List (Bytes × Way UInt8)) (offset : ℕ),
      ∀ place ∈ placed offset found, ∃ hit ∈ found, hit.2.taken = place.2 := by
    intro found
    induction found with
    | nil => simp [placed]
    | cons hit found ih =>
      intro offset place hplace
      rcases List.mem_cons.mp hplace with rfl | hlater
      · exact ⟨hit, List.mem_cons_self, rfl⟩
      · obtain ⟨other, hother, htaken⟩ := ih _ place hlater
        exact ⟨other, List.mem_cons_of_mem hit hother, htaken⟩
  have hways : ∀ (fuel : ℕ) (text : Bytes), ∀ hit ∈ (hitsWithin pattern fuel text).1,
      ∃ rest, hit.2 ∈ ways pattern rest := by
    intro fuel
    induction fuel with
    | zero => simp [hitsWithin]
    | succ fuel ih =>
      intro text hit hhit
      rw [hitsWithin] at hhit
      cases hfound : search pattern text with
      | none =>
        rw [hfound] at hhit
        simp at hhit
      | some found =>
        obtain ⟨before, way⟩ := found
        rw [hfound] at hhit
        dsimp only at hhit
        split_ifs at hhit
        · simp at hhit
        · rcases List.mem_cons.mp hhit with rfl | hlater
          · exact ⟨_, matchAt_mem (search_some hfound).2⟩
          · exact ih way.rest hit hlater
  intro place hplace
  obtain ⟨hit, hhit, htaken⟩ := hplaced _ 0 place hplace
  obtain ⟨rest, hway⟩ := hways _ _ hit hhit
  exact ⟨rest, hit.2, hway, htaken⟩

/-! ## Names -/

/-- A pattern that takes hyphens and bytes behind ASCII only, and at least one of them. -/
def Foreign (pattern : Pattern UInt8) : Prop :=
  ∀ text, ∀ way ∈ ways pattern text, way.taken ≠ [] ∧ ∀ b ∈ way.taken, b = 0x2D ∨ 0x80 ≤ b

theorem apart_name (hne : term ≠ []) (h : ∀ b ∈ term, b = 0x2D ∨ 0x80 ≤ b) :
    Apart (bytes "name") term := by
  refine ⟨fun hmem => absurd (h _ hmem) (by decide), term.getLast hne,
    List.getLast?_eq_some_getLast hne, fun i hmem => ?_⟩
  have hbytes : ∀ b ∈ placeholder (bytes "name") i, ¬ (b = 0x2D ∨ 0x80 ≤ b) := by
    have hall : ∀ letter : Fin 26, (placeholder (bytes "name") letter).all
        (fun b => ¬ (b = 0x2D ∨ 0x80 ≤ b)) = true := by decide
    rw [placeholder_eq_iff.mpr (Nat.mod_mod i 26).symm]
    exact fun b hb => of_decide_eq_true
      (List.all_eq_true.mp (hall ⟨i % 26, Nat.mod_lt i (by decide)⟩) b hb)
  exact hbytes _ hmem (h _ (List.getLast_mem hne))

/-- No placeholder in use stands in the text, and of the matches behind the first twenty-six, none
stands in what these leave of the text. -/
def NamesKept (terms : List Bytes) (text : Bytes) : Prop :=
  (∀ i < terms.length, ¬ placeholder (bytes "name") i <:+: text) ∧
    ∀ term ∈ terms.drop 26, ∀ piece ∈ Marked.gaps cutAt (terms.take 26) text, ¬ term <:+: piece

theorem marks_lt_iff {terms : List Bytes} (hne : ∀ term ∈ terms, term ≠ []) {text : Bytes} :
    (∀ mark ∈ (Marked.ofNeedles cutAt terms text).marks, mark < 26) ↔
      ∀ term ∈ terms.drop 26, ∀ piece ∈ Marked.gaps cutAt (terms.take 26) text,
        ¬ term <:+: piece := by
  have htake : ∀ n, ∀ term ∈ terms.take n, term ≠ [] := fun n term hterm =>
    hne term (List.mem_of_mem_take hterm)
  -- a match that is cut out in its turn
  have hmark : ∀ {mark : ℕ}, mark ∈ (Marked.ofNeedles cutAt terms text).marks ↔
      ∃ term, terms[mark]? = some term ∧
        ∃ piece ∈ Marked.gaps cutAt (terms.take mark) text, term <:+: piece := by
    intro mark
    rw [Marked.mem_marks_ofNeedles, Marked.pieces_ofNeedles cutsAll_cutAt (htake mark)]
    refine exists_congr fun term => and_congr_right fun hterm => exists_congr fun piece =>
      and_congr_right fun _ => ?_
    exact Marked.cut_tail_iff (cutsAll_cutAt term (hne term (List.mem_of_getElem? hterm)) piece)
  constructor
  · -- what the first twenty-six leave stays, so that a match is found there in its turn
    intro hlt term hterm piece hpiece hwithin
    have hsame : ∀ n, 26 ≤ n →
        Marked.gaps cutAt (terms.take n) text = Marked.gaps cutAt (terms.take 26) text := by
      intro n hn
      induction n, hn using Nat.le_induction with
      | base => rfl
      | succ n hn ih =>
        cases hget : terms[n]? with
        | none =>
          rw [List.take_of_length_le (by rw [List.getElem?_eq_none_iff] at hget; omega), ← ih,
            List.take_of_length_le (List.getElem?_eq_none_iff.mp hget)]
        | some next =>
          rw [List.take_add_one, hget, Option.toList_some, Marked.gaps_snoc, ih]
          refine Eq.trans (List.flatMap_congr fun whole hwhole => ?_) (List.flatMap_singleton' _)
          have hfree : ¬ next <:+: whole := by
            intro hin
            have hnext := hlt n (hmark.mpr ⟨next, hget, whole, ih ▸ hwhole, hin⟩)
            omega
          have hcuts := cutsAll_cutAt next (hne next (List.mem_of_getElem? hget)) whole
          generalize cutAt next whole = pieces at hcuts
          cases hcuts with
          | none => rfl
          | first => exact absurd ⟨_, _, List.append_assoc ..⟩ hfree
    obtain ⟨i, hi⟩ := List.mem_iff_getElem?.mp hterm
    rw [List.getElem?_drop] at hi
    have hbig := hlt (26 + i) (hmark.mpr ⟨term, hi, piece, by
      rw [hsame (26 + i) (Nat.le_add_right 26 i)]
      exact hpiece, hwithin⟩)
    omega
  · intro hfree mark hmem
    by_contra hge
    obtain ⟨term, hterm, piece, hpiece, hwithin⟩ := hmark.mp hmem
    have hsplit : terms.take mark = terms.take 26 ++ (terms.take mark).drop 26 := by
      conv_lhs => rw [← List.take_append_drop 26 (terms.take mark)]
      rw [List.take_take, Nat.min_eq_left (by omega)]
    rw [hsplit] at hpiece
    obtain ⟨whole, hwhole, hpart⟩ := Marked.gaps_append_within cutsAll_cutAt
      (fun other hother => htake mark other (List.mem_of_mem_drop hother)) piece hpiece
    refine hfree term ?_ whole hwhole (hwithin.trans hpart)
    refine List.mem_iff_getElem?.mpr ⟨mark - 26, ?_⟩
    rw [List.getElem?_drop, Nat.add_sub_of_le (by omega), hterm]

theorem restoreSaved_names_iff {sort : (Bytes → Bytes → Bool) → List Bytes → List Bytes}
    (hsort : Sorts sort) {pattern : Pattern UInt8} (hpattern : Foreign pattern) (text : Bytes) :
    restoreSaved (saveRegexMatches sort pattern (bytes "name") text).1
        (saveRegexMatches sort pattern (bytes "name") text).2 = text ↔
      NamesKept (regexTerms sort pattern text) text := by
  have hnodup : (regexTerms sort pattern text).Nodup := regexTerms_nodup hsort
  have hlong : (regexTerms sort pattern text).Pairwise fun a b => b.length ≤ a.length :=
    regexTerms_pairwise hsort
  have hterms : ∀ term ∈ regexTerms sort pattern text, Apart (bytes "name") term := by
    intro term hterm
    obtain ⟨found, hfound, rfl⟩ := List.mem_map.mp ((mem_regexTerms hsort).mp hterm)
    obtain ⟨rest, way, hway, htaken⟩ := matchesIn_way found hfound
    obtain ⟨hne, hbytes⟩ := hpattern rest way hway
    exact htaken ▸ apart_name hne hbytes
  have hname : (0x3C : UInt8) ∉ bytes "name" := by decide
  rw [saveRegexMatches]
  generalize regexTerms sort pattern text = terms at *
  have hne : ∀ term ∈ terms, term ≠ [] := fun term hterm => (hterms term hterm).ne_nil
  have hvalues : ∀ term ∈ terms, Apart (bytes "name") (id term) := hterms
  have hspell : (Marked.ofNeedles cutAt terms text).spell (fun mark => terms.getD mark []) = text :=
    Marked.spell_ofNeedles cutsAll_cutAt hne
  constructor
  · intro hback
    have hfree : ∀ i < terms.length, ¬ placeholder (bytes "name") i <:+: text := by
      intro i hi
      rw [← hback]
      refine not_infix_restored (fun entry hentry => ?_)
        (.inl ⟨(placeholder (bytes "name") i, terms[i]), ?_, rfl⟩)
      · obtain ⟨⟨term, index⟩, hindex, rfl⟩ := List.mem_map.mp hentry
        exact ⟨placeholder_ne_nil _ _, hterms term (List.fst_mem_of_mem_zipIdx hindex)⟩
      · exact List.mem_map.mpr ⟨(terms[i], i), List.mk_mem_zipIdx_iff_getElem?.mpr
          (List.getElem?_eq_getElem hi), rfl⟩
    refine ⟨hfree, (marks_lt_iff hne).mp fun mark hmark => ?_⟩
    rw [restore_saved_text hname hterms hvalues hfree] at hback
    have hlt := Marked.lt_of_mem_marks hmark
    have hmod : mark % 26 < terms.length := (Nat.mod_le mark 26).trans_lt hlt
    -- the match that comes back is not shorter
    have hwords := Marked.spell_inj (fun other hother => ?_) (hspell.trans hback.symm) mark hmark
    · simp only [List.getD_eq_getElem?_getD, List.getElem?_eq_getElem hlt,
        List.getElem?_eq_getElem hmod, Option.getD_some, id] at hwords
      have hindex := (hnodup.getElem_inj_iff).mp hwords
      omega
    · have hother' := Marked.lt_of_mem_marks hother
      have hmod' : other % 26 < terms.length := (Nat.mod_le other 26).trans_lt hother'
      simp only [List.getD_eq_getElem?_getD, List.getElem?_eq_getElem hother',
        List.getElem?_eq_getElem hmod', Option.getD_some, id]
      rcases Nat.lt_or_ge (other % 26) other with hless | hge
      · exact List.pairwise_iff_getElem.mp hlong _ _ hmod' hother' hless
      · have hsame : other % 26 = other := le_antisymm (Nat.mod_le other 26) hge
        simp only [hsame, le_refl]
  · rintro ⟨hfree, hlater⟩
    rw [restore_saved_text hname hterms hvalues hfree]
    refine (Marked.spell_congr fun mark hmark => ?_).trans hspell
    rw [Nat.mod_eq_of_lt ((marks_lt_iff hne).mpr hlater mark hmark)]
    rfl

theorem foreign_one {accepts : UInt8 → Bool}
    (h : ∀ b, accepts b = true → b = 0x2D ∨ 0x80 ≤ b) : Foreign (.one accepts) := by
  intro text way hway
  obtain ⟨-, -, haccepts, hleast, -⟩ := mem_ways_run hway
  exact ⟨List.length_pos_iff.mp hleast, fun b hb => h b (haccepts b hb)⟩

theorem Foreign.seq (hp : Foreign p) (hq : Foreign q) : Foreign (.seq p q) := by
  intro text way hway
  obtain ⟨first, hfirst, second, hsecond, rfl⟩ := mem_ways_seq.mp hway
  obtain ⟨hne, hbytes⟩ := hp text first hfirst
  exact ⟨by simp [Way.andThen, hne],
    List.forall_mem_append.mpr ⟨hbytes, (hq _ second hsecond).2⟩⟩

theorem Foreign.seq_opt (hp : Foreign p) (hq : Foreign q) : Foreign (.seq p (.opt q)) := by
  intro text way hway
  obtain ⟨first, hfirst, second, hsecond, rfl⟩ := mem_ways_seq.mp hway
  obtain ⟨hne, hbytes⟩ := hp text first hfirst
  refine ⟨by simp [Way.andThen, hne], List.forall_mem_append.mpr ⟨hbytes, ?_⟩⟩
  rcases mem_ways_opt.mp hsecond with hway | rfl
  · exact (hq _ second hway).2
  · simp

theorem isWithin_foreign {low high b : UInt8} (hlow : 0x80 ≤ low) (h : isWithin low high b = true) :
    b = 0x2D ∨ 0x80 ≤ b := by
  rw [isWithin, Bool.and_eq_true, decide_eq_true_eq] at h
  exact .inr (UInt8.le_trans hlow h.1)

theorem foreign_nameCharacter : Foreign nameCharacter := by
  have hlead : Foreign (.one (isWithin 0xE4 0xE9)) :=
    foreign_one fun b hb => isWithin_foreign (by decide) hb
  have hnext : Foreign (.one (isWithin 0x80 0xBF)) :=
    foreign_one fun b hb => isWithin_foreign (by decide) hb
  have hmore : Foreign (.plus (isWithin 0x80 0xBF)) := by
    intro text way hway
    obtain ⟨-, -, haccepts, hleast, -⟩ := mem_ways_run hway
    exact ⟨List.length_pos_iff.mp hleast, fun b hb => isWithin_foreign (by decide) (haccepts b hb)⟩
  exact hlead.seq (hnext.seq hmore)

theorem foreign_namePattern : Foreign namePattern := by
  have hsign : Foreign nameSign := by
    refine foreign_one fun b hb => ?_
    have hall : (bytes "-·—").all (fun b => b = 0x2D ∨ 0x80 ≤ b) = true := by decide
    exact of_decide_eq_true (List.all_eq_true.mp hall b (by simpa using hb))
  exact foreign_nameCharacter.seq
    ((hsign.seq foreign_nameCharacter).seq_opt (hsign.seq foreign_nameCharacter))

end FastTts.SavedMatches
