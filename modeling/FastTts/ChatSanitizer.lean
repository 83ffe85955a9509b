import FastTts.ChatScrubberSpans
import FastTts.SegmenterRuns

/-!
# The sanitizer deletes

What `sanitize_assistant_text` may do to a text: it may leave out parts of it and put a space where
it did. No special token comes in, and characters stay whole. The text stays in order as long as the
quoted spans are collected in the order in which they stand in the text; they are collected one kind
of quote mark after the other.
-/

namespace FastTts.Hygiene

open SentenceSegmenter (inked inked_append inked_eq_nil)
open Utf8Spans

/-! ## The passes -/

/-- The text up to a stray `*` near its end. -/
def withoutStray (text : Bytes) : Bytes :=
  match rfindByte text 0x2A text.length with
  | some stray => if text.length - stray ≤ 120 then text.take stray else text
  | none => text

/-- The text without special tokens, further paragraphs, actions and asides. -/
def undirected (text : Bytes) : Bytes :=
  let out := cutAt (cutAt text tokenOpener) [0x0A, 0x0A]
  let out := withoutStray (stripSpans [0x2A] [0x2A] 120 (out.length + 1) out)
  stripSpans fullParenOpen fullParenClose 80 (out.length + 1) out

/-- The quoted spans, one kind of quote mark after the other. -/
def dialogueSpans (text : Bytes) : List Bytes :=
  quoteMarks.flatMap fun mark => quotedSpans mark.1 mark.2 (text.length + 1) text

/-- The text is taken for dialogue with narration in between. -/
def IsDialogue (text : Bytes) : Prop :=
  dialogueSpans text ≠ [] ∧ text.length * 2 / 5 ≤ ((dialogueSpans text).map List.length).sum

instance (text : Bytes) : Decidable (IsDialogue text) := inferInstanceAs (Decidable (_ ∧ _))

theorem recoverQuotedDialogue_eq (text : Bytes) : recoverQuotedDialogue text =
    if IsDialogue text then [0x20].intercalate (dialogueSpans text) else text := by
  have hiff : ((dialogueSpans text).isEmpty = true ∨
      ((dialogueSpans text).map List.length).sum < text.length * 2 / 5) ↔ ¬ IsDialogue text := by
    rw [IsDialogue, List.isEmpty_iff, not_and_or, not_not, Nat.not_le]
  rw [recoverQuotedDialogue, ← dialogueSpans]
  by_cases hdialogue : IsDialogue text
  · rw [if_neg fun h => hiff.mp h hdialogue, if_pos hdialogue]
  · rw [if_pos (hiff.mpr hdialogue), if_neg hdialogue]

theorem sanitizeAssistantText_eq (text : Bytes) : sanitizeAssistantText text =
    collapseSpaces (quoteMarks.foldl unquote
      (collapseSpaces (recoverQuotedDialogue (undirected text)))) :=
  rfl

/-- The spans stand in the text one behind the other. -/
inductive Stands : List Bytes → Bytes → Prop
  | nil (text : Bytes) : Stands [] text
  | cons (before span : Bytes) {spans : List Bytes} {rest : Bytes} (h : Stands spans rest) :
    Stands (span :: spans) (before ++ span ++ rest)

theorem drop_both (a b c : Bytes) : (a ++ b ++ c).drop (a.length + b.length) = c := by
  rw [← List.length_append, List.drop_left]

theorem take_left_of_three (a b c : Bytes) : (a ++ b ++ c).take a.length = a := by
  rw [List.append_assoc, List.take_left]

/-- What the span stripper makes of a text. -/
inductive Strips (opener closer : Bytes) : Bytes → Bytes → Prop
  | plain (text : Bytes) : Strips opener closer text text
  | unended (before behind : Bytes) : Strips opener closer (before ++ opener ++ behind) before
  | long (before body : Bytes) {rest out : Bytes} (h : Strips opener closer rest out) :
    Strips opener closer (before ++ opener ++ body ++ closer ++ rest)
      (before ++ opener ++ body ++ closer ++ out)
  | span (before body : Bytes) {rest out : Bytes} (h : Strips opener closer rest out) :
    Strips opener closer (before ++ opener ++ body ++ closer ++ rest) (before ++ 0x20 :: out)

variable {opener closer text a b out : Bytes} {spans : List Bytes}

theorem strips_stripSpans (hopener : opener ≠ []) (maxSpan : ℕ) {fuel : ℕ}
    (hfuel : text.length < fuel) :
    Strips opener closer text (stripSpans opener closer maxSpan fuel text) := by
  induction fuel generalizing text with
  | zero => omega
  | succ fuel ih =>
    rw [stripSpans]
    cases hstart : find text opener with
    | none => exact .plain text
    | some start =>
      obtain ⟨before, behind, rfl, rfl⟩ := find_split hstart
      dsimp only
      rw [drop_both]
      cases hend : find behind closer with
      | none =>
        dsimp only
        split_ifs with hlong
        · rw [List.take_append_drop]
          exact .plain _
        · rw [List.append_nil, take_left_of_three]
          exact .unended before behind
      | some len =>
        obtain ⟨body, rest, rfl, rfl⟩ := find_split hend
        have hshorter : rest.length < fuel := by
          have hpos := List.length_pos_of_ne_nil hopener
          simp only [List.length_append] at hfuel
          omega
        have hstrips := ih hshorter
        have hwhole : before ++ opener ++ (body ++ closer ++ rest) =
            before ++ opener ++ body ++ closer ++ rest := by
          simp only [List.append_assoc]
        dsimp only
        rw [drop_both, take_left_of_three]
        split_ifs with hlong
        · have hspan : ((before ++ opener ++ (body ++ closer ++ rest)).drop before.length).take
              (opener.length + body.length + closer.length) = opener ++ body ++ closer := by
            rw [List.append_assoc, List.drop_left, ← List.append_assoc, ← List.append_assoc,
              ← List.length_append, ← List.length_append, List.take_left]
          have hout : before ++ (opener ++ body ++ closer ++
              stripSpans opener closer maxSpan fuel rest) =
              before ++ opener ++ body ++ closer ++ stripSpans opener closer maxSpan fuel rest := by
            simp only [List.append_assoc]
          rw [hspan, hout, hwhole]
          exact .long before body hstrips
        · rw [hwhole]
          exact .span before body hstrips

/-- What is collected of a text for one kind of quote mark. -/
inductive Quotes (opener closer : Bytes) : Bytes → List Bytes → Prop
  | none (text : Bytes) : Quotes opener closer text []
  | short (before body : Bytes) {rest : Bytes} {spans : List Bytes}
    (h : Quotes opener closer rest spans) :
    Quotes opener closer (before ++ opener ++ body ++ closer ++ rest) spans
  | span (before body : Bytes) {rest : Bytes} {spans : List Bytes}
    (h : Quotes opener closer rest spans) :
    Quotes opener closer (before ++ opener ++ body ++ closer ++ rest) (body :: spans)

theorem quotes_quotedSpans (opener closer : Bytes) (fuel : ℕ) (text : Bytes) :
    Quotes opener closer text (quotedSpans opener closer fuel text) := by
  induction fuel generalizing text with
  | zero => exact .none text
  | succ fuel ih =>
    rw [quotedSpans]
    cases hstart : find text opener with
    | none => exact .none text
    | some start =>
      obtain ⟨before, behind, rfl, rfl⟩ := find_split hstart
      dsimp only
      rw [drop_both]
      cases hend : find behind closer with
      | none => exact .none _
      | some len =>
        obtain ⟨body, rest, rfl, rfl⟩ := find_split hend
        have hwhole : before ++ opener ++ (body ++ closer ++ rest) =
            before ++ opener ++ body ++ closer ++ rest := by
          simp only [List.append_assoc]
        dsimp only
        rw [drop_both, take_left_of_three, hwhole]
        split_ifs with hlong
        · exact .span before body (ih rest)
        · exact .short before body (ih rest)

theorem unquote_cases (text : Bytes) (mark : Bytes × Bytes) :
    unquote text mark = text ∨ text = mark.1 ++ unquote text mark ++ mark.2 := by
  rw [unquote]
  split_ifs with h
  · obtain ⟨hlength, hfirst, hlast⟩ := h
    obtain ⟨rest, rfl⟩ := List.isPrefixOf_iff_prefix.mp hfirst
    obtain ⟨before, hbefore⟩ := List.isSuffixOf_iff_suffix.mp hlast
    rcases List.append_eq_append_iff.mp hbefore with ⟨overlap, hmark, -⟩ | ⟨middle, -, rfl⟩
    · have hshort := congrArg List.length hmark
      have hlong := congrArg List.length hbefore
      rw [List.length_append] at hshort
      simp only [List.length_append] at hlong hlength
      omega
    · refine .inr ?_
      have hmiddle : (mark.1 ++ (middle ++ mark.2)).length - mark.1.length - mark.2.length =
          middle.length := by
        simp only [List.length_append]
        omega
      rw [hmiddle, List.drop_left, List.take_left, List.append_assoc]
  · exact .inl rfl

/-! ## Nothing but deletions -/

theorem inked_sublist (h : a.Sublist b) : (inked a).Sublist (inked b) :=
  h.filter _

theorem cutAt_sublist (text marker : Bytes) : (cutAt text marker).Sublist text := by
  rw [cutAt]
  cases find text marker with
  | none => exact List.Sublist.refl _
  | some index => exact List.take_sublist ..

theorem Strips.sublist (h : Strips opener closer text out) : (inked out).Sublist (inked text) := by
  induction h with
  | plain text => exact List.Sublist.refl _
  | unended before behind =>
    rw [List.append_assoc]
    exact inked_sublist (List.sublist_append_left ..)
  | @long before body rest out h ih =>
    rw [inked_append (before ++ opener ++ body ++ closer) out, inked_append _ rest]
    exact (List.Sublist.refl _).append ih
  | @span before body rest out h ih =>
    have hspace : inked (before ++ 0x20 :: out) = inked before ++ inked out := by
      rw [inked_append]
      rfl
    rw [hspace, inked_append, List.append_assoc, List.append_assoc, inked_append]
    exact (List.sublist_append_left ..).append ih

theorem withoutStray_cases (text : Bytes) :
    withoutStray text = text ∨ ∃ behind, text = withoutStray text ++ 0x2A :: behind := by
  rw [withoutStray]
  cases hstray : rfindByte text 0x2A text.length with
  | none => exact .inl rfl
  | some stray =>
    dsimp only
    split_ifs with hnear
    · have hat := (rfindByte_spec hstray).1
      refine .inr ⟨text.drop (stray + 1), ?_⟩
      have hdrop := List.drop_eq_getElem?_toList_append (l := text) (i := stray)
      rw [hat] at hdrop
      exact ((List.take_append_drop stray text).symm.trans (congrArg _ hdrop))
    · exact .inl rfl

variable (inSpace : Bool) (marks : List (Bytes × Bytes)) (span : Bytes)

section

variable (text : Bytes)

theorem squeezeLoop_inked : inked (squeezeLoop inSpace text) = inked text := by
  have hskip : ∀ {ch : UInt8} (text : Bytes), isSpace ch = true →
      inked (ch :: text) = inked text := by
    intro ch text hspace
    rw [inked, List.filter_cons_of_neg (by simp [hspace])]
    rfl
  induction text generalizing inSpace with
  | nil => rfl
  | cons ch text ih =>
    rw [squeezeLoop]
    split_ifs with hblank hrun
    · rw [ih, hskip text (forall_byte (p := fun ch => (ch == 0x20 || ch == 0x09) = true →
        isSpace ch = true) (by decide +kernel) ch hblank)]
    · rw [hskip _ (by decide), ih, hskip text (forall_byte
        (p := fun ch => (ch == 0x20 || ch == 0x09) = true → isSpace ch = true)
        (by decide +kernel) ch hblank)]
    · rw [inked, List.filter_cons, ← inked, ih, inked, inked, List.filter_cons]

theorem collapseSpaces_sublist : (inked (collapseSpaces text)).Sublist (inked text) := by
  rw [← squeezeLoop_inked false text, collapseSpaces]
  exact inked_sublist ((List.rdropWhile_prefix ..).sublist.trans (List.dropWhile_sublist _))

theorem unquote_sublist (mark : Bytes × Bytes) : (unquote text mark).Sublist text := by
  rcases unquote_cases text mark with hsame | hpeeled
  · rw [hsame]
  · generalize unquote text mark = out at hpeeled
    rw [hpeeled]
    exact (List.sublist_append_right ..).trans (List.sublist_append_left ..)

theorem foldl_unquote_sublist : (marks.foldl unquote text).Sublist text := by
  induction marks generalizing text with
  | nil => exact List.Sublist.refl _
  | cons mark marks ih => exact (ih _).trans (unquote_sublist text mark)

theorem withoutStray_sublist : (withoutStray text).Sublist text := by
  rcases withoutStray_cases text with hsame | ⟨behind, hcut⟩
  · rw [hsame]
  · generalize withoutStray text = out at hcut
    rw [hcut]
    exact List.sublist_append_left ..

theorem undirected_passes : ∃ spoken,
    Strips [0x2A] [0x2A] (cutAt (cutAt text tokenOpener) [0x0A, 0x0A]) spoken ∧
      Strips fullParenOpen fullParenClose (withoutStray spoken) (undirected text) :=
  ⟨_, strips_stripSpans (by decide) 120 (Nat.lt_succ_self _),
    strips_stripSpans (by decide) 80 (Nat.lt_succ_self _)⟩

theorem undirected_sublist : (inked (undirected text)).Sublist (inked text) := by
  obtain ⟨spoken, hactions, hasides⟩ := undirected_passes text
  have hcut := (cutAt_sublist (cutAt text tokenOpener) [0x0A, 0x0A]).trans
    (cutAt_sublist text tokenOpener)
  exact hasides.sublist.trans ((inked_sublist (withoutStray_sublist spoken)).trans
    (hactions.sublist.trans (inked_sublist hcut)))

end

theorem Stands.sublist (h : Stands spans text) : spans.flatten.Sublist text := by
  induction h with
  | nil text => exact List.nil_sublist _
  | cons before span h ih =>
    rw [List.flatten_cons, List.append_assoc]
    exact ((List.Sublist.refl _).append ih).trans (List.sublist_append_right ..)

theorem intercalate_cons (spans : List Bytes) (h : spans ≠ []) :
    [0x20].intercalate (span :: spans) = span ++ 0x20 :: [0x20].intercalate spans := by
  cases spans with
  | nil => exact absurd rfl h
  | cons next spans => rfl

theorem intercalate_singleton : ([0x20] : Bytes).intercalate [span] = span :=
  List.flatten_singleton

theorem inked_intercalate (spans : List Bytes) :
    inked ([0x20].intercalate spans) = inked spans.flatten := by
  induction spans with
  | nil => rfl
  | cons span spans ih =>
    by_cases hlast : spans = []
    · rw [hlast, intercalate_singleton, List.flatten_singleton]
    · have hspace : inked (0x20 :: [0x20].intercalate spans) = inked ([0x20].intercalate spans) :=
        rfl
      rw [intercalate_cons span spans hlast, inked_append, hspace, ih, List.flatten_cons,
        inked_append]

/-- The dialogue that is recovered from the text stands in it, each span behind the one that is
collected before. -/
def DialogueInOrder (text : Bytes) : Prop :=
  IsDialogue (undirected text) → Stands (dialogueSpans (undirected text)) (undirected text)

theorem recoverQuotedDialogue_sublist (h : IsDialogue text → Stands (dialogueSpans text) text) :
    (inked (recoverQuotedDialogue text)).Sublist (inked text) := by
  rw [recoverQuotedDialogue_eq]
  split_ifs with hdialogue
  · rw [inked_intercalate]
    exact inked_sublist (h hdialogue).sublist
  · exact List.Sublist.refl _

theorem sanitize_sublist (h : DialogueInOrder text) :
    (inked (sanitizeAssistantText text)).Sublist (inked text) := by
  rw [sanitizeAssistantText_eq]
  have hrecovered := (recoverQuotedDialogue_sublist h).trans (undirected_sublist text)
  have hcollapsed := (collapseSpaces_sublist _).trans hrecovered
  have hunquoted := (inked_sublist (foldl_unquote_sublist quoteMarks _)).trans hcollapsed
  exact (collapseSpaces_sublist _).trans hunquoted

/-! ## No special token -/

theorem free_append (ha : ¬ tokenOpener <:+: a) (hb : ¬ tokenOpener <:+: b)
    (hjoin : a.getLast? ≠ some 0x3C ∨ b.head? ≠ some 0x7C) : ¬ tokenOpener <:+: a ++ b := by
  induction b using List.reverseRecOn with
  | nil => rwa [List.append_nil]
  | append_singleton b ch ih =>
    rw [opener_snoc, not_or] at hb
    rw [← List.append_assoc, opener_snoc, not_or]
    cases b with
    | nil =>
      rw [List.append_nil]
      refine ⟨ha, ?_⟩
      rintro ⟨hlast, rfl⟩
      exact hjoin.elim (fun h => h hlast) fun h => h rfl
    | cons next b =>
      refine ⟨ih hb.1 hjoin, ?_⟩
      rw [List.getLast?_append_of_ne_nil _ (List.cons_ne_nil next b)]
      exact hb.2

theorem free_part (h : a <:+: b) (hb : ¬ tokenOpener <:+: b) : ¬ tokenOpener <:+: a :=
  fun hinside => hb (hinside.trans h)

theorem free_space (h : ¬ tokenOpener <:+: text) : ¬ tokenOpener <:+: 0x20 :: text :=
  free_append (a := [0x20]) (by decide) h (.inl (by decide))

theorem cutAt_free (text : Bytes) : ¬ tokenOpener <:+: cutAt text tokenOpener := by
  rw [cutAt]
  cases hfind : find text tokenOpener with
  | none => exact find_eq_none hfind
  | some index => exact find_first hfind (Nat.lt_add_of_pos_right (by decide))

theorem cutAt_part (text marker : Bytes) : cutAt text marker <:+: text := by
  rw [cutAt]
  cases find text marker with
  | none => exact List.infix_rfl
  | some index => exact (List.take_prefix ..).isInfix

theorem Strips.free (h : Strips opener closer text out)
    (hcloser : closer ≠ [] ∧ closer.getLast? ≠ some 0x3C) (hfree : ¬ tokenOpener <:+: text) :
    ¬ tokenOpener <:+: out := by
  induction h with
  | plain text => exact hfree
  | unended before behind =>
    rw [List.append_assoc] at hfree
    exact free_part (List.prefix_append ..).isInfix hfree
  | @long before body rest out h ih =>
    have hspan := free_part (List.prefix_append (before ++ opener ++ body ++ closer) rest).isInfix
      hfree
    have hrest := free_part (List.suffix_append (before ++ opener ++ body ++ closer) rest).isInfix
      hfree
    refine free_append hspan (ih hrest) (.inl ?_)
    rw [List.getLast?_append_of_ne_nil _ hcloser.1]
    exact hcloser.2
  | @span before body rest out h ih =>
    have hrest := free_part (List.suffix_append (before ++ opener ++ body ++ closer) rest).isInfix
      hfree
    have hbefore : ¬ tokenOpener <:+: before := by
      simp only [List.append_assoc] at hfree
      exact free_part (List.prefix_append ..).isInfix hfree
    exact free_append hbefore (free_space (ih hrest)) (.inr (by simp))

theorem withoutStray_part (text : Bytes) : withoutStray text <:+: text := by
  rcases withoutStray_cases text with hsame | ⟨behind, hcut⟩
  · rw [hsame]
  · generalize withoutStray text = out at hcut
    rw [hcut]
    exact (List.prefix_append ..).isInfix

theorem undirected_free (text : Bytes) : ¬ tokenOpener <:+: undirected text := by
  obtain ⟨spoken, hactions, hasides⟩ := undirected_passes text
  have hcut := free_part (cutAt_part (cutAt text tokenOpener) [0x0A, 0x0A]) (cutAt_free text)
  have hspoken := hactions.free (by decide) hcut
  exact hasides.free (by decide) (free_part (withoutStray_part spoken) hspoken)

theorem Quotes.part (h : Quotes opener closer text spans) : ∀ span ∈ spans, span <:+: text := by
  induction h with
  | none text => exact fun span hspan => absurd hspan List.not_mem_nil
  | short before body h ih =>
    exact fun span hspan => (ih span hspan).trans (List.suffix_append ..).isInfix
  | @span before body rest spans h ih =>
    refine List.forall_mem_cons.mpr ⟨?_, fun span hspan =>
      (ih span hspan).trans (List.suffix_append ..).isInfix⟩
    refine ⟨before ++ opener, closer ++ rest, ?_⟩
    simp only [List.append_assoc]

theorem dialogueSpans_part (text : Bytes) : ∀ span ∈ dialogueSpans text, span <:+: text := by
  intro span hspan
  obtain ⟨mark, -, hmem⟩ := List.mem_flatMap.mp hspan
  exact (quotes_quotedSpans ..).part span hmem

theorem intercalate_free (h : ∀ span ∈ spans, ¬ tokenOpener <:+: span) :
    ¬ tokenOpener <:+: [0x20].intercalate spans := by
  induction spans with
  | nil => decide
  | cons span spans ih =>
    obtain ⟨hspan, hspans⟩ := List.forall_mem_cons.mp h
    by_cases hlast : spans = []
    · rwa [hlast, intercalate_singleton]
    · rw [intercalate_cons span spans hlast]
      exact free_append hspan (free_space (ih hspans)) (.inr (by simp))

theorem recoverQuotedDialogue_free (h : ¬ tokenOpener <:+: text) :
    ¬ tokenOpener <:+: recoverQuotedDialogue text := by
  rw [recoverQuotedDialogue_eq]
  split_ifs
  · exact intercalate_free fun span hspan => free_part (dialogueSpans_part text span hspan) h
  · exact h

theorem squeezeLoop_head (h : (squeezeLoop false text).head? = some 0x7C) :
    text.head? = some 0x7C := by
  cases text with
  | nil => cases h
  | cons ch text =>
    rw [squeezeLoop] at h
    simp only [Bool.false_eq_true, if_false] at h
    split_ifs at h with hblank
    · rw [List.head?_cons, Option.some.injEq] at h
      exact absurd h (by decide)
    · exact h

theorem squeezeLoop_free (h : ¬ tokenOpener <:+: text) :
    ¬ tokenOpener <:+: squeezeLoop inSpace text := by
  induction text generalizing inSpace with
  | nil => exact h
  | cons ch text ih =>
    have hrest := free_part (List.suffix_cons ch text).isInfix h
    rw [squeezeLoop]
    split_ifs with hblank hrun
    · exact ih true hrest
    · exact free_space (ih true hrest)
    · have hsingle : ¬ tokenOpener <:+: [ch] := fun hinside =>
        absurd hinside.length_le (by rw [List.length_singleton]; decide)
      refine free_append hsingle (ih false hrest) ?_
      by_cases hangle : ch = 0x3C
      · refine .inr fun hbar => h ?_
        obtain ⟨behind, hbehind⟩ := List.head?_eq_some_iff.mp (squeezeLoop_head hbar)
        rw [hangle, hbehind]
        exact ⟨[], behind, rfl⟩
      · exact .inl fun hlast => hangle (Option.some.inj hlast)

theorem collapseSpaces_free (h : ¬ tokenOpener <:+: text) :
    ¬ tokenOpener <:+: collapseSpaces text := by
  rw [collapseSpaces]
  exact free_part ((List.rdropWhile_prefix ..).isInfix.trans (List.dropWhile_suffix _).isInfix)
    (squeezeLoop_free false h)

theorem unquote_part (text : Bytes) (mark : Bytes × Bytes) : unquote text mark <:+: text := by
  rcases unquote_cases text mark with hsame | hpeeled
  · rw [hsame]
  · exact ⟨mark.1, mark.2, hpeeled.symm⟩

theorem foldl_unquote_part (text : Bytes) : marks.foldl unquote text <:+: text := by
  induction marks generalizing text with
  | nil => exact List.infix_rfl
  | cons mark marks ih => exact (ih _).trans (unquote_part text mark)

theorem sanitize_free (text : Bytes) : ¬ tokenOpener <:+: sanitizeAssistantText text := by
  rw [sanitizeAssistantText_eq]
  have hrecovered := collapseSpaces_free (recoverQuotedDialogue_free (undirected_free text))
  exact collapseSpaces_free (free_part (foldl_unquote_part quoteMarks _) hrecovered)

/-! ## Whole characters -/

theorem Strips.utf8 (h : Strips opener closer text out) (hopener : IsCodepoint opener)
    (hcloser : IsCodepoint closer) (hutf8 : IsUtf8 text) : IsUtf8 out := by
  induction h with
  | plain text => exact hutf8
  | unended before behind => exact (hutf8.around hopener).1
  | long before body h ih =>
    obtain ⟨hfront, hrest⟩ := hutf8.around hcloser
    exact (hfront.append (isUtf8_of_codepoint hcloser)).append (ih hrest)
  | span before body h ih =>
    obtain ⟨hfront, hrest⟩ := hutf8.around hcloser
    obtain ⟨hbefore, -⟩ := hfront.around hopener
    exact hbefore.append (.cons (codepoint_ascii (by decide)) (ih hrest))

theorem Quotes.utf8 (h : Quotes opener closer text spans) (hopener : IsCodepoint opener)
    (hcloser : IsCodepoint closer) (hutf8 : IsUtf8 text) : ∀ span ∈ spans, IsUtf8 span := by
  induction h with
  | none text => exact fun span hspan => absurd hspan List.not_mem_nil
  | short before body h ih => exact ih (hutf8.around hcloser).2
  | span before body h ih =>
    obtain ⟨hfront, hrest⟩ := hutf8.around hcloser
    exact List.forall_mem_cons.mpr ⟨(hfront.around hopener).2, ih hrest⟩

theorem quoteMarks_codepoints : ∀ mark ∈ quoteMarks, IsCodepoint mark.1 ∧ IsCodepoint mark.2 := by
  simp only [quoteMarks, List.forall_mem_cons, List.not_mem_nil, false_implies, implies_true,
    and_true]
  exact ⟨⟨⟨'"', by decide⟩, ⟨'"', by decide⟩⟩, ⟨⟨'“', by decide⟩, ⟨'”', by decide⟩⟩,
    ⟨'「', by decide⟩, ⟨'」', by decide⟩⟩

theorem cutAt_utf8 (h : IsUtf8 text) {first : UInt8} (hfirst : first ≤ 0x7F) (rest : Bytes) :
    IsUtf8 (cutAt text (first :: rest)) := by
  rw [cutAt]
  cases hfind : find text (first :: rest) with
  | none => exact h
  | some index =>
    obtain ⟨before, behind, rfl, rfl⟩ := find_split hfind
    dsimp only
    rw [take_left_of_three]
    have hsplit : before ++ (first :: rest) ++ behind = before ++ [first] ++ (rest ++ behind) := by
      simp only [List.append_assoc, List.cons_append, List.nil_append]
    rw [hsplit] at h
    exact (h.around (codepoint_ascii hfirst)).1

theorem withoutStray_utf8 (h : IsUtf8 text) : IsUtf8 (withoutStray text) := by
  rcases withoutStray_cases text with hsame | ⟨behind, hcut⟩
  · rwa [hsame]
  · generalize withoutStray text = out at *
    have hsplit : out ++ 0x2A :: behind = out ++ [0x2A] ++ behind := by simp
    rw [hcut, hsplit] at h
    exact (h.around (codepoint_ascii (by decide))).1

theorem undirected_utf8 (h : IsUtf8 text) : IsUtf8 (undirected text) := by
  obtain ⟨spoken, hactions, hasides⟩ := undirected_passes text
  have hstar : IsCodepoint [0x2A] := codepoint_ascii (by decide)
  have hcut : IsUtf8 (cutAt (cutAt text tokenOpener) [0x0A, 0x0A]) :=
    cutAt_utf8 (cutAt_utf8 h (by decide) _) (by decide) _
  exact hasides.utf8 ⟨'（', by decide⟩ ⟨'）', by decide⟩
    (withoutStray_utf8 (hactions.utf8 hstar hstar hcut))

theorem intercalate_utf8 (h : ∀ span ∈ spans, IsUtf8 span) : IsUtf8 ([0x20].intercalate spans) := by
  induction spans with
  | nil => exact .nil
  | cons span spans ih =>
    obtain ⟨hspan, hspans⟩ := List.forall_mem_cons.mp h
    by_cases hlast : spans = []
    · rwa [hlast, intercalate_singleton]
    · rw [intercalate_cons span spans hlast]
      exact hspan.append (.cons (codepoint_ascii (by decide)) (ih hspans))

theorem recoverQuotedDialogue_utf8 (h : IsUtf8 text) : IsUtf8 (recoverQuotedDialogue text) := by
  rw [recoverQuotedDialogue_eq]
  split_ifs
  · refine intercalate_utf8 fun span hspan => ?_
    obtain ⟨mark, hmark, hmem⟩ := List.mem_flatMap.mp hspan
    obtain ⟨hopener, hcloser⟩ := quoteMarks_codepoints mark hmark
    exact (quotes_quotedSpans ..).utf8 hopener hcloser h span hmem
  · exact h

theorem squeezeLoop_solid {front : Bytes} (h : ∀ ch ∈ front, ¬ (ch == 0x20 || ch == 0x09) = true)
    (inSpace : Bool) (rest : Bytes) : ∃ more,
      squeezeLoop inSpace (front ++ rest) = front ++ squeezeLoop more rest := by
  induction front generalizing inSpace with
  | nil => exact ⟨inSpace, rfl⟩
  | cons ch front ih =>
    obtain ⟨hch, hfront⟩ := List.forall_mem_cons.mp h
    obtain ⟨more, hmore⟩ := ih hfront false
    refine ⟨more, ?_⟩
    rw [List.cons_append, squeezeLoop, if_neg hch, hmore]
    rfl

theorem squeezeLoop_utf8 (h : IsUtf8 text) : IsUtf8 (squeezeLoop inSpace text) := by
  induction h generalizing inSpace with
  | nil => exact .nil
  | @cons cp text hcp htext ih =>
    by_cases hblank : ∃ ch ∈ cp, (ch == 0x20 || ch == 0x09) = true
    · obtain ⟨ch, hch, hblank⟩ := hblank
      have hascii : ch ≤ 0x7F := forall_byte (p := fun ch => (ch == 0x20 || ch == 0x09) = true →
        ch ≤ 0x7F) (by decide +kernel) ch hblank
      rw [hcp.isSpan.eq_singleton hch hascii, List.singleton_append, squeezeLoop, if_pos hblank]
      split_ifs
      · exact ih true
      · exact .cons (codepoint_ascii (by decide)) (ih true)
    · obtain ⟨more, hmore⟩ := squeezeLoop_solid
        (fun ch hch hspace => hblank ⟨ch, hch, hspace⟩) inSpace text
      rw [hmore]
      exact .cons hcp (ih more)

theorem collapseSpaces_utf8 (h : IsUtf8 text) : IsUtf8 (collapseSpaces text) := by
  have hascii : ∀ b, isBlank b = true → b ≤ 0x7F := forall_byte (by decide +kernel)
  exact ((squeezeLoop_utf8 false h).dropWhile hascii).rdropWhile hascii

theorem foldl_unquote_utf8 {marks : List (Bytes × Bytes)}
    (hmarks : ∀ mark ∈ marks, IsCodepoint mark.1 ∧ IsCodepoint mark.2) (h : IsUtf8 text) :
    IsUtf8 (marks.foldl unquote text) := by
  induction marks generalizing text with
  | nil => exact h
  | cons mark marks ih =>
    obtain ⟨⟨hopener, hcloser⟩, hrest⟩ := List.forall_mem_cons.mp hmarks
    refine ih hrest ?_
    rcases unquote_cases text mark with hsame | hpeeled
    · rwa [hsame]
    · generalize unquote text mark = out at *
      rw [hpeeled, ← List.append_nil (_ ++ mark.2)] at h
      have hfront := (h.around hcloser).1
      exact hfront.of_codepoint_append hopener

theorem sanitize_utf8 (h : IsUtf8 text) : IsUtf8 (sanitizeAssistantText text) := by
  rw [sanitizeAssistantText_eq]
  exact collapseSpaces_utf8 (foldl_unquote_utf8 quoteMarks_codepoints
    (collapseSpaces_utf8 (recoverQuotedDialogue_utf8 (undirected_utf8 h))))

/-- The sanitizer brings in no special token and keeps characters whole, and it only deletes where
the dialogue that it recovers is collected in order. -/
theorem sanitize_deletes (text : Bytes) :
    ¬ tokenOpener <:+: sanitizeAssistantText text ∧
      (IsUtf8 text → IsUtf8 (sanitizeAssistantText text)) ∧
      (DialogueInOrder text → (inked (sanitizeAssistantText text)).Sublist (inked text)) :=
  ⟨sanitize_free text, sanitize_utf8, sanitize_sublist⟩

/-- Straight quotes before corner brackets are collected in the order of the text. -/
theorem sanitize_deletes_two_kinds :
    (inked (sanitizeAssistantText (bytes "\"aa\" 「bb」"))).Sublist
      (inked (bytes "\"aa\" 「bb」")) := by
  have hspans : dialogueSpans (undirected (bytes "\"aa\" 「bb」")) = [bytes "aa", bytes "bb"] := by
    decide
  have htext : undirected (bytes "\"aa\" 「bb」") =
      bytes "\"" ++ bytes "aa" ++ (bytes "\" 「" ++ bytes "bb" ++ bytes "」") := by
    decide
  refine (sanitize_deletes (bytes "\"aa\" 「bb」")).2.2 fun _ => ?_
  rw [hspans, htext]
  exact .cons _ _ (.cons _ _ (.nil _))

/-- A corner bracket before straight quotes is collected behind them. -/
theorem sanitize_deletes_fails : ¬ ∀ text,
    ¬ tokenOpener <:+: sanitizeAssistantText text ∧
      (IsUtf8 text → IsUtf8 (sanitizeAssistantText text)) ∧
      (inked (sanitizeAssistantText text)).Sublist (inked text) := by
  intro h
  have hswapped : sanitizeAssistantText (bytes "「bb」\"aa\"") = bytes "aa bb" := by decide
  have hdeletes := (h (bytes "「bb」\"aa\"")).2.2
  rw [hswapped] at hdeletes
  exact absurd hdeletes (by decide)

end FastTts.Hygiene
