import FastTts.ChatScrubber
import FastTts.Utf8Text

/-!
# The scrubber and its spans

What the scrubber is to leave of a reply without special tokens: the reply without its `*action*`
and `（aside）` spans. The scrubber holds back a `<` until it has seen the next byte, and is
otherwise the machine that removes the spans; that byte it does not look at for an aside.
-/

namespace FastTts.Hygiene

open Utf8Spans

/-! ## Spans -/

/-- What becomes of a span that has been opened: it goes with so many bytes behind the opening, or
they are text after all. -/
inductive Fate
  | removed (length : ℕ)
  | text (length : ℕ)
  deriving DecidableEq

/-- An action is closed by a `*` on its line, unless more than 120 bytes are held back. -/
def actionFate (rest : Bytes) : Fate :=
  let body := rest.takeWhile fun ch => ch != 0x2A && ch != 0x0A
  if 120 ≤ body.length then .text 120
  else match rest.drop body.length with
    | [] => .removed body.length
    | ch :: _ => if ch == 0x2A then .removed (body.length + 1) else .text (body.length + 1)

/-- An aside is closed by a `）`, unless more than 120 bytes are held back behind the opening. -/
def asideFate (rest : Bytes) : Fate :=
  match find rest fullParenClose with
  | some length => if length + 3 ≤ 121 then .removed (length + 3) else .text 121
  | none => if rest.length ≤ 120 then .removed rest.length else .text 121

/-- The span that opens at the beginning of a text. -/
def spanAt (text : Bytes) : Option (Bytes × Fate) :=
  if [0x2A].isPrefixOf text then some ([0x2A], actionFate (text.drop 1))
  else if fullParenOpen.isPrefixOf text then some (fullParenOpen, asideFate (text.drop 3))
  else none

/-- What is left of a text that begins with a span, the text behind it being read by `next`. -/
def Fate.leaves (fate : Fate) (opener text : Bytes) (next : Bytes → Bytes) : Bytes :=
  match fate with
  | .removed length => next (text.drop (opener.length + length))
  | .text length =>
    text.take (opener.length + length) ++ next (text.drop (opener.length + length))

/-- A reply without its spans. What is held back is not searched for spans, also where it is text
after all. -/
def withoutSpans : ℕ → Bytes → Bytes
  | 0, _ => []
  | fuel + 1, text =>
    match spanAt text with
    | some (opener, fate) => fate.leaves opener text (withoutSpans fuel)
    | none => text.take 1 ++ withoutSpans fuel (text.drop 1)

def spoken (text : Bytes) : Bytes := withoutSpans text.length text

/-- The scrubber when `<` is a character like others. -/
def spanByte (state : ScrubState) (ch : UInt8) : Bytes × ScrubState :=
  if state = .clean ∧ ch = 0x3C then ([0x3C], .clean) else scrubByte state ch

/-- What this machine leaves of a text; a span that is still open at the end is dropped. -/
def spanKept (state : ScrubState) : Bytes → Bytes
  | [] => []
  | ch :: text => (spanByte state ch).1 ++ spanKept (spanByte state ch).2 text

/-! ## The machine on a span -/

theorem spanKept_cons (state : ScrubState) (ch : UInt8) (text : Bytes) :
    spanKept state (ch :: text) = (spanByte state ch).1 ++ spanKept (spanByte state ch).2 text :=
  rfl

theorem spanByte_star (held : Bytes) (ch : UInt8) :
    spanByte (.star held) ch = scrubByte (.star held) ch :=
  if_neg fun h => by cases h.1

theorem spanByte_fullParen (held body : Bytes) (ch : UInt8) :
    spanByte (.fullParen held body) ch = scrubByte (.fullParen held body) ch :=
  if_neg fun h => by cases h.1

variable {ch : UInt8} {held body text : Bytes} {state : ScrubState}

theorem spanByte_clean (h : ch ≠ 0x3C) : spanByte .clean ch = scrubByte .clean ch :=
  if_neg fun hangle => h hangle.2

theorem scrubByte_star_holds (hch : ch ≠ 0x2A ∧ ch ≠ 0x0A) (hlength : held.length < 120) :
    scrubByte (.star held) ch = ([], .star (held ++ [ch])) := by
  rw [scrubByte]
  rw [if_neg (by simpa using hch.1), if_neg]
  simp only [List.length_append, List.length_singleton, Bool.or_eq_true, beq_iff_eq,
    decide_eq_true_eq, not_or]
  exact ⟨hch.2, by omega⟩

theorem scrubByte_star_gives (hstar : ch ≠ 0x2A) (h : ch = 0x0A ∨ 120 ≤ held.length) :
    scrubByte (.star held) ch = (held ++ [ch], .clean) := by
  rw [scrubByte]
  rw [if_neg (by simpa using hstar), if_pos]
  simp only [List.length_append, List.length_singleton, Bool.or_eq_true, beq_iff_eq,
    decide_eq_true_eq]
  exact h.imp_right fun h => by omega

theorem spanKept_star (hbody : ∀ ch ∈ body, ch ≠ 0x2A ∧ ch ≠ 0x0A)
    (hlength : held.length + body.length ≤ 120) (rest : Bytes) :
    spanKept (.star held) (body ++ rest) = spanKept (.star (held ++ body)) rest := by
  induction body generalizing held with
  | nil => rw [List.nil_append, List.append_nil]
  | cons ch body ih =>
    obtain ⟨hch, hbody⟩ := List.forall_mem_cons.mp hbody
    rw [List.length_cons] at hlength
    have hheld : (held ++ [ch]).length + body.length ≤ 120 := by
      rw [List.length_append, List.length_singleton]
      omega
    rw [List.cons_append, spanKept_cons, spanByte_star, scrubByte_star_holds hch (by omega),
      List.nil_append, ih hbody hheld, List.append_assoc]
    rfl

theorem spanKept_action (rest : Bytes) : spanKept (.star [0x2A]) rest =
    match actionFate rest with
    | .removed length => spanKept .clean (rest.drop length)
    | .text length => 0x2A :: rest.take length ++ spanKept .clean (rest.drop length) := by
  have hsplit := List.takeWhile_append_dropWhile (p := fun ch => ch != 0x2A && ch != 0x0A)
    (l := rest)
  have hbody : ∀ ch ∈ rest.takeWhile fun ch => ch != 0x2A && ch != 0x0A,
      ch ≠ 0x2A ∧ ch ≠ 0x0A := by
    intro ch hch
    simpa using List.mem_takeWhile_imp hch
  have hhead := List.head?_dropWhile_not (fun ch => ch != 0x2A && ch != 0x0A) rest
  rw [actionFate]
  generalize (rest.takeWhile fun ch => ch != 0x2A && ch != 0x0A) = body at *
  generalize (rest.dropWhile fun ch => ch != 0x2A && ch != 0x0A) = behind at *
  subst hsplit
  rw [List.drop_left]
  by_cases hlong : 120 ≤ body.length
  · -- the 120th byte of the body is one too many
    rw [if_pos hlong]
    obtain ⟨ch, more, hmore⟩ : ∃ ch more, body.drop 119 = ch :: more := by
      cases hdrop : body.drop 119 with
      | nil =>
        rw [List.drop_eq_nil_iff] at hdrop
        omega
      | cons ch more => exact ⟨ch, more, rfl⟩
    have hparts : body = body.take 119 ++ ch :: more := by rw [← hmore, List.take_append_drop]
    have hfirst : (body.take 119).length = 119 := List.length_take_of_le (by omega)
    generalize body.take 119 = first at *
    subst hparts
    have hch := hbody ch (List.mem_append_right _ List.mem_cons_self)
    have hheld : ([0x2A] ++ first).length = 120 := by
      rw [List.length_append, hfirst]
      rfl
    have htake : (first ++ ch :: more ++ behind).take 120 = first ++ [ch] := by
      rw [List.append_assoc, show 120 = first.length + 1 by omega, List.take_length_add_append]
      rfl
    have hrest : (first ++ ch :: more ++ behind).drop 120 = more ++ behind := by
      rw [List.append_assoc, show 120 = first.length + 1 by omega, List.drop_length_add_append]
      rfl
    dsimp only
    rw [htake, hrest, List.append_assoc, List.cons_append,
      spanKept_star (fun x hx => hbody x (List.mem_append_left _ hx)) (by rw [hfirst]; decide),
      spanKept_cons, spanByte_star, scrubByte_star_gives hch.1 (.inr hheld.ge)]
    simp only [List.append_assoc, List.cons_append, List.nil_append]
  · rw [if_neg hlong, spanKept_star hbody (by rw [List.length_singleton]; omega)]
    cases behind with
    | nil =>
      dsimp only
      rw [List.append_nil, List.drop_length]
      rfl
    | cons ch behind =>
      rw [spanKept_cons, spanByte_star]
      have hdrop : (body ++ ch :: behind).drop (body.length + 1) = behind := by
        rw [List.drop_length_add_append]
        rfl
      have htake : (body ++ ch :: behind).take (body.length + 1) = body ++ [ch] := by
        rw [List.take_length_add_append]
        rfl
      by_cases hstar : ch = 0x2A
      · subst hstar
        dsimp only
        rw [if_pos (beq_self_eq_true _)]
        dsimp only
        rw [hdrop]
        rfl
      · have hline : ch = 0x0A := by
          simpa [hstar] using hhead
        dsimp only
        rw [if_neg (by simpa using hstar)]
        dsimp only
        rw [hdrop, htake, scrubByte_star_gives hstar (.inl hline)]
        simp only [List.append_assoc, List.cons_append, List.nil_append]

section

variable (hheld : 3 ≤ held.length) (hclose : ¬ fullParenClose <:+: body ++ [ch])
include hheld hclose

theorem scrubByte_fullParen_holds (hbody : body.length < 120) :
    scrubByte (.fullParen held body) ch = ([], .fullParen (held ++ [ch]) (body ++ [ch])) := by
  rw [← contains_iff] at hclose
  rw [scrubByte]
  simp only [List.length_append, List.length_singleton]
  rw [if_neg (by omega), if_pos (by omega), if_neg hclose, if_neg (by omega)]

theorem scrubByte_fullParen_gives (hbody : 120 ≤ body.length) :
    scrubByte (.fullParen held body) ch = (held ++ [ch], .clean) := by
  rw [← contains_iff] at hclose
  rw [scrubByte]
  simp only [List.length_append, List.length_singleton]
  rw [if_neg (by omega), if_pos (by omega), if_neg hclose, if_pos (by omega)]

end

theorem scrubByte_fullParen_closes (hheld : 3 ≤ held.length)
    (hclose : fullParenClose <:+: body ++ [ch]) :
    scrubByte (.fullParen held body) ch = ([], .clean) := by
  rw [← contains_iff] at hclose
  rw [scrubByte]
  simp only [List.length_append, List.length_singleton]
  rw [if_neg (by omega), if_pos (by omega), if_pos hclose]

theorem spanKept_fullParen {more : Bytes} (hheld : 3 ≤ held.length)
    (hclose : ¬ fullParenClose <:+: body ++ more) (hlength : body.length + more.length ≤ 120)
    (rest : Bytes) : spanKept (.fullParen held body) (more ++ rest) =
      spanKept (.fullParen (held ++ more) (body ++ more)) rest := by
  induction more generalizing held body with
  | nil => rw [List.nil_append, List.append_nil, List.append_nil]
  | cons ch more ih =>
    rw [List.length_cons] at hlength
    have hbody : (body ++ [ch]).length + more.length ≤ 120 := by
      rw [List.length_append, List.length_singleton]
      omega
    have hwhole : body ++ [ch] ++ more = body ++ ch :: more := by
      rw [List.append_assoc]
      rfl
    have hhere : ¬ fullParenClose <:+: body ++ [ch] := by
      intro hinside
      rw [← hwhole] at hclose
      exact hclose (hinside.trans (List.prefix_append ..).isInfix)
    have hlong : 3 ≤ (held ++ [ch]).length := by
      rw [List.length_append]
      omega
    rw [List.cons_append, spanKept_cons, spanByte_fullParen,
      scrubByte_fullParen_holds hheld hhere (by omega), List.nil_append,
      ih hlong (by rwa [hwhole]) hbody, hwhole, List.append_assoc]
    rfl

theorem spanKept_aside_long {rest : Bytes} (hlong : 121 ≤ rest.length)
    (hclose : ¬ fullParenClose <:+: rest.take 121) :
    spanKept (.fullParen fullParenOpen []) rest =
      fullParenOpen ++ rest.take 121 ++ spanKept .clean (rest.drop 121) := by
  obtain ⟨ch, behind, hbehind⟩ : ∃ ch behind, rest.drop 120 = ch :: behind := by
    cases hdrop : rest.drop 120 with
    | nil =>
      rw [List.drop_eq_nil_iff] at hdrop
      omega
    | cons ch behind => exact ⟨ch, behind, rfl⟩
  have hparts : rest = rest.take 120 ++ ch :: behind := by rw [← hbehind, List.take_append_drop]
  have hfirst : (rest.take 120).length = 120 := List.length_take_of_le (by omega)
  generalize rest.take 120 = first at *
  subst hparts
  have htake : (first ++ ch :: behind).take 121 = first ++ [ch] := by
    rw [show 121 = first.length + 1 by omega, List.take_length_add_append]
    rfl
  have hdrop : (first ++ ch :: behind).drop 121 = behind := by
    rw [show 121 = first.length + 1 by omega, List.drop_length_add_append]
    rfl
  rw [htake] at hclose ⊢
  have hnone : ¬ fullParenClose <:+: [] ++ first := fun hinside =>
    hclose (hinside.trans (List.prefix_append ..).isInfix)
  rw [hdrop, spanKept_fullParen (by decide) hnone (by rw [hfirst]; decide), spanKept_cons,
    spanByte_fullParen, List.nil_append, scrubByte_fullParen_gives _ hclose hfirst.ge]
  · simp only [List.append_assoc]
  · rw [List.length_append]
    exact Nat.le_add_right ..

theorem spanKept_aside (rest : Bytes) : spanKept (.fullParen fullParenOpen []) rest =
    match asideFate rest with
    | .removed length => spanKept .clean (rest.drop length)
    | .text length => fullParenOpen ++ rest.take length ++ spanKept .clean (rest.drop length) := by
  rw [asideFate]
  cases hfind : find rest fullParenClose with
  | none =>
    dsimp only
    have hnone := find_eq_none hfind
    by_cases hshort : rest.length ≤ 120
    · rw [if_pos hshort]
      rw [← List.nil_append rest] at hnone
      have hhold : spanKept (.fullParen fullParenOpen []) (rest ++ []) = _ :=
        spanKept_fullParen (by decide) hnone (by rw [List.length_nil]; omega) []
      dsimp only
      rw [List.append_nil] at hhold
      rw [hhold, List.drop_length]
      rfl
    · rw [if_neg hshort]
      exact spanKept_aside_long (by omega) fun hinside =>
        hnone (hinside.trans (List.take_prefix ..).isInfix)
  | some length =>
    dsimp only
    obtain ⟨behind, hat⟩ := List.isPrefixOf_iff_prefix.mp (find_spec hfind).1
    by_cases hshort : length + 3 ≤ 121
    · rw [if_pos hshort]
      have hle : length ≤ rest.length := by
        have hlength := congrArg List.length hat
        rw [List.length_append, List.length_drop, show fullParenClose.length = 3 from rfl]
          at hlength
        omega
      have hparts : rest = rest.take length ++ [0xEF, 0xBC] ++ 0x89 :: behind := by
        rw [List.append_assoc]
        exact (List.take_append_drop length rest).symm.trans (congrArg _ hat.symm)
      have hpre : (rest.take length ++ [0xEF, 0xBC]).length = length + 2 := by
        rw [List.length_append, List.length_take_of_le hle]
        rfl
      have hnone : ¬ fullParenClose <:+: [] ++ (rest.take length ++ [0xEF, 0xBC]) := by
        have hbefore : ¬ fullParenClose <:+: rest.take (length + 2) :=
          find_first hfind (Nat.lt_succ_self _)
        have htake : (rest.take length ++ [0xEF, 0xBC] ++ 0x89 :: behind).take
            (rest.take length ++ [0xEF, 0xBC]).length = rest.take length ++ [0xEF, 0xBC] :=
          List.take_left
        rw [← hparts, hpre] at htake
        rwa [htake] at hbefore
      have hclose : fullParenClose <:+: [] ++ (rest.take length ++ [0xEF, 0xBC]) ++ [0x89] := by
        rw [List.nil_append, List.append_assoc]
        exact (List.suffix_append ..).isInfix
      generalize rest.take length ++ [0xEF, 0xBC] = pre at *
      subst hparts
      have hdrop : (pre ++ 0x89 :: behind).drop (length + 3) = behind := by
        rw [show length + 3 = pre.length + 1 by omega, List.drop_length_add_append]
        rfl
      dsimp only
      rw [hdrop, spanKept_fullParen (by decide) hnone (by rw [List.length_nil]; omega),
        spanKept_cons, spanByte_fullParen, scrubByte_fullParen_closes _ hclose, List.nil_append]
      rw [List.length_append]
      exact Nat.le_add_right ..
    · rw [if_neg hshort]
      have hlength := congrArg List.length hat
      rw [List.length_append, List.length_drop, show fullParenClose.length = 3 from rfl] at hlength
      exact spanKept_aside_long (by omega) (find_first hfind (by
        rw [show fullParenClose.length = 3 from rfl]
        omega))

/-! ## The machine on a text -/

/-- A character whose first byte is `0xEF` is there with all its bytes. -/
def Whole (text : Bytes) : Prop :=
  ∀ before behind, text = before ++ 0xEF :: behind → ∃ second third rest,
    behind = second :: third :: rest ∧ isUtf8Continuation second = true ∧
      isUtf8Continuation third = true

theorem whole_of_isUtf8 (h : IsUtf8 text) : Whole text := by
  rintro before behind rfl
  obtain ⟨-, hbehind⟩ := h.split fun ch hch => by
    rw [List.head?_cons, Option.mem_some_iff] at hch
    rw [← hch]
    decide
  generalize hwhole : 0xEF :: behind = whole at hbehind
  cases hbehind with
  | nil => cases hwhole
  | @cons cp rest hcp _ =>
    obtain ⟨lead, tail, rfl⟩ := List.exists_cons_of_ne_nil hcp.isSpan.ne_nil
    obtain ⟨hwidth, hcontinuation⟩ := hcp.isSpan
    rw [List.cons_append, List.cons.injEq] at hwhole
    obtain ⟨rfl, rfl⟩ := hwhole
    have hthree : tail.length + 1 = 3 := (Option.some.inj hwidth).symm
    obtain ⟨second, third, rfl⟩ := List.length_eq_two.mp (Nat.succ.inj hthree)
    exact ⟨second, third, rest, rfl, hcontinuation _ (by simp), hcontinuation _ (by simp)⟩

theorem Whole.drop (h : Whole text) (length : ℕ) : Whole (text.drop length) := by
  intro before behind hsplit
  refine h (text.take length ++ before) behind ?_
  rw [List.append_assoc, ← hsplit, List.take_append_drop]

theorem Whole.tail (h : Whole (ch :: text)) : Whole text :=
  h.drop 1

theorem scrubClean_continuation (h : isUtf8Continuation ch = true) :
    ch ≠ 0x3C ∧ scrubByte .clean ch = ([ch], .clean) := by
  revert ch
  apply forall_byte
  decide +kernel

theorem spanKept_continuation (h : isUtf8Continuation ch = true) (text : Bytes) :
    spanKept .clean (ch :: text) = ch :: spanKept .clean text := by
  obtain ⟨hangle, hbyte⟩ := scrubClean_continuation h
  rw [spanKept_cons, spanByte_clean hangle, hbyte]
  rfl

variable {second third : UInt8} {opener : Bytes} {fate : Fate}

theorem spanKept_wide (h : [0xEF, second, third] ≠ fullParenOpen) (text : Bytes) :
    spanKept .clean (0xEF :: second :: third :: text) =
      0xEF :: second :: third :: spanKept .clean text := by
  have hbyte : spanByte (.fullParen [0xEF, second] []) third =
      ([0xEF, second, third], .clean) := by
    rw [spanByte_fullParen, scrubByte]
    exact (if_pos rfl).trans (if_neg h)
  rw [spanKept_cons, spanKept_cons, spanKept_cons]
  change [] ++ ([] ++ ((spanByte (.fullParen [0xEF, second] []) third).1 ++
    spanKept (spanByte (.fullParen [0xEF, second] []) third).2 text)) = _
  rw [hbyte]
  rfl

theorem spanAt_some (h : spanAt text = some (opener, fate)) :
    ∃ rest, text = opener ++ rest ∧ (opener = [0x2A] ∧ fate = actionFate rest ∨
      opener = fullParenOpen ∧ fate = asideFate rest) := by
  rw [spanAt] at h
  split_ifs at h with hstar hparen
  · obtain ⟨rest, rfl⟩ := List.isPrefixOf_iff_prefix.mp hstar
    obtain ⟨rfl, rfl⟩ := Prod.mk.inj (Option.some.inj h)
    exact ⟨rest, rfl, .inl ⟨rfl, rfl⟩⟩
  · obtain ⟨rest, rfl⟩ := List.isPrefixOf_iff_prefix.mp hparen
    obtain ⟨rfl, rfl⟩ := Prod.mk.inj (Option.some.inj h)
    exact ⟨rest, rfl, .inr ⟨rfl, rfl⟩⟩

theorem spanKept_span (h : spanAt text = some (opener, fate)) :
    spanKept .clean text = fate.leaves opener text (spanKept .clean) := by
  obtain ⟨rest, rfl, ⟨rfl, rfl⟩ | ⟨rfl, rfl⟩⟩ := spanAt_some h
  · have hopens : spanKept .clean ([0x2A] ++ rest) = spanKept (.star [0x2A]) rest := rfl
    rw [hopens, spanKept_action]
    clear h
    cases actionFate rest with
    | removed length => rw [Fate.leaves, List.drop_length_add_append]
    | text length =>
      rw [Fate.leaves, List.drop_length_add_append, List.take_length_add_append]
      rfl
  · have hopens : spanKept .clean (fullParenOpen ++ rest) =
        spanKept (.fullParen fullParenOpen []) rest := rfl
    rw [hopens, spanKept_aside]
    clear h
    cases asideFate rest with
    | removed length => rw [Fate.leaves, List.drop_length_add_append]
    | text length => rw [Fate.leaves, List.drop_length_add_append, List.take_length_add_append]

theorem spanKept_plain (h : spanAt text = none) (hwhole : Whole text) :
    spanKept .clean text = text.take 1 ++ spanKept .clean (text.drop 1) := by
  cases text with
  | nil => rfl
  | cons ch text =>
    rw [spanAt] at h
    split_ifs at h with hstar hparen
    by_cases hangle : ch = 0x3C
    · rw [hangle]
      rfl
    by_cases hwide : ch = 0xEF
    · subst hwide
      obtain ⟨second, third, rest, rfl, hsecond, hthird⟩ := hwhole [] text rfl
      have hnot : [0xEF, second, third] ≠ fullParenOpen := by
        intro hopener
        exact hparen (List.isPrefixOf_iff_prefix.mpr ⟨rest, by rw [← hopener]; rfl⟩)
      have hrest : spanKept .clean (second :: third :: rest) =
          second :: third :: spanKept .clean rest := by
        rw [spanKept_continuation hsecond, spanKept_continuation hthird]
      rw [spanKept_wide hnot, List.drop_succ_cons, List.drop_zero, hrest]
      rfl
    · have hstar' : ch ≠ 0x2A := by
        rintro rfl
        exact hstar rfl
      have hbyte : scrubByte .clean ch = ([ch], .clean) := by
        rw [scrubByte, scrubClean, if_neg (by simpa using hstar'), if_neg (by simpa using hangle),
          if_neg (by simpa using hwide)]
      rw [spanKept_cons, spanByte_clean hangle, hbyte]
      rfl

theorem spanKept_clean (h : Whole text) {fuel : ℕ} (hfuel : text.length ≤ fuel) :
    spanKept .clean text = withoutSpans fuel text := by
  induction fuel generalizing text with
  | zero =>
    rw [List.length_eq_zero_iff.mp (Nat.le_zero.mp hfuel)]
    rfl
  | succ fuel ih =>
    have hdrop : ∀ {length : ℕ}, 0 < length → spanKept .clean (text.drop length) =
        withoutSpans fuel (text.drop length) := fun {length} hpos =>
      ih (h.drop length) (by rw [List.length_drop]; omega)
    rw [withoutSpans]
    cases hspan : spanAt text with
    | none => rw [spanKept_plain hspan h, hdrop Nat.one_pos]
    | some span =>
      obtain ⟨opener, fate⟩ := span
      have hpos : 0 < opener.length := by
        obtain ⟨rest, -, ⟨rfl, -⟩ | ⟨rfl, -⟩⟩ := spanAt_some hspan
        · exact Nat.one_pos
        · exact Nat.succ_pos 2
      rw [spanKept_span hspan]
      cases fate with
      | removed length => exact hdrop (by omega)
      | text length =>
        exact congrArg (text.take (opener.length + length) ++ ·) (hdrop (by omega))

/-! ## The scrubber -/

def stateFrom (state : ScrubState) (text : Bytes) : ScrubState :=
  ((⟨state⟩ : StreamScrubber).feed text).2.state

def releasedFrom (state : ScrubState) (text : Bytes) : Bytes :=
  ((⟨state⟩ : StreamScrubber).feed text).1

/-- No aside is met right behind a `<` that the scrubber still holds back. -/
def AsidesSeen (state : ScrubState) (text : Bytes) : Prop :=
  ∀ before behind, text = before ++ fullParenOpen ++ behind → stateFrom state before ≠ .angleOpen

/-- No special token is opened, in the text or with a `<` that is held back. -/
def NoToken (state : ScrubState) (text : Bytes) : Prop :=
  ¬ tokenOpener <:+: text ∧ (state = .angleOpen → text.head? ≠ some 0x7C)

theorem AsidesSeen.tail (h : AsidesSeen state (ch :: text)) :
    AsidesSeen (scrubByte state ch).2 text := by
  intro before behind hsplit
  refine h (ch :: before) behind ?_
  rw [hsplit]
  rfl

theorem NoToken.tail {next : ScrubState} (h : NoToken state (ch :: text))
    (hnext : next = .angleOpen → ch = 0x3C) : NoToken next text := by
  refine ⟨fun hinside => h.1 (hinside.trans (List.suffix_cons ..).isInfix), fun hangle hhead => ?_⟩
  rw [hnext hangle] at h
  cases text with
  | nil => cases hhead
  | cons bar text =>
    rw [List.head?_cons, Option.some.injEq] at hhead
    rw [hhead] at h
    exact h.1 ⟨[], text, rfl⟩

/-- What the machine leaves of a text that the scrubber meets in a given state. -/
def spanLeft (state : ScrubState) (text : Bytes) : Bytes :=
  if state = .angleOpen then 0x3C :: spanKept .clean text else spanKept state text

theorem spanLeft_angleOpen (text : Bytes) :
    spanLeft .angleOpen text = 0x3C :: spanKept .clean text :=
  if_pos rfl

theorem spanLeft_of_ne (h : state ≠ .angleOpen) (text : Bytes) :
    spanLeft state text = spanKept state text :=
  if_neg h

theorem spanLeft_clean (text : Bytes) : spanLeft .clean text = spanKept .clean text :=
  if_neg (by decide)

theorem scrubByte_angleOpen (h : (scrubByte state ch).2 = .angleOpen) :
    ch = 0x3C ∧ (state = .clean ∨ state = .angleOpen) := by
  cases state with
  | clean =>
    rw [scrubByte, scrubClean] at h
    split_ifs at h with hstar hangle hwide
    exact ⟨beq_iff_eq.mp hangle, .inl rfl⟩
  | star held =>
    rw [scrubByte] at h
    split_ifs at h
  | fullParen held body =>
    rw [scrubByte] at h
    dsimp only at h
    split_ifs at h
  | angleOpen =>
    rw [scrubByte] at h
    split_ifs at h with hbar hstar hangle
    exact ⟨beq_iff_eq.mp hangle, .inr rfl⟩
  | dead => cases h

theorem scrubByte_dead (h : (scrubByte state ch).2 = .dead) :
    state = .dead ∨ state = .angleOpen ∧ ch = 0x7C := by
  cases state with
  | clean =>
    rw [scrubByte, scrubClean] at h
    split_ifs at h
  | star held =>
    rw [scrubByte] at h
    split_ifs at h
  | fullParen held body =>
    rw [scrubByte] at h
    dsimp only at h
    split_ifs at h
  | angleOpen =>
    rw [scrubByte] at h
    split_ifs at h with hbar
    exact .inr ⟨rfl, beq_iff_eq.mp hbar⟩
  | dead => exact .inl rfl

theorem spanLeft_cons (hstate : state ≠ .dead) (hangle : state = .angleOpen → ch ≠ 0x7C ∧ ch ≠ 0xEF)
    (text : Bytes) :
    spanLeft state (ch :: text) =
      (scrubByte state ch).1 ++ spanLeft (scrubByte state ch).2 text := by
  cases state with
  | clean =>
    by_cases hopens : ch = 0x3C
    · subst hopens
      rfl
    · have hnext : (scrubByte .clean ch).2 ≠ .angleOpen := fun h =>
        hopens (scrubByte_angleOpen h).1
      rw [spanLeft_clean, spanKept_cons, spanByte_clean hopens, spanLeft_of_ne hnext]
  | star held =>
    have hnext : (scrubByte (.star held) ch).2 ≠ .angleOpen := fun h =>
      (scrubByte_angleOpen h).2.elim nofun nofun
    have hstar : ScrubState.star held ≠ .angleOpen := nofun
    rw [spanLeft_of_ne hstar, spanKept_cons, spanByte_star, spanLeft_of_ne hnext]
  | fullParen held body =>
    have hnext : (scrubByte (.fullParen held body) ch).2 ≠ .angleOpen := fun h =>
      (scrubByte_angleOpen h).2.elim nofun nofun
    have hparen : ScrubState.fullParen held body ≠ .angleOpen := nofun
    rw [spanLeft_of_ne hparen, spanKept_cons, spanByte_fullParen, spanLeft_of_ne hnext]
  | angleOpen =>
    obtain ⟨hbar, hwide⟩ := hangle rfl
    rw [spanLeft_angleOpen, spanKept_cons]
    by_cases hopens : ch = 0x3C
    · subst hopens
      rfl
    by_cases hstar : ch = 0x2A
    · subst hstar
      rfl
    · have hclean : scrubByte .clean ch = ([ch], .clean) := by
        rw [scrubByte, scrubClean, if_neg (by simpa using hstar), if_neg (by simpa using hopens),
          if_neg (by simpa using hwide)]
      have hagain : scrubByte .angleOpen ch = ([0x3C, ch], .clean) := by
        rw [scrubByte, if_neg (by simpa using hbar), if_neg (by simpa using hstar),
          if_neg (by simpa using hopens)]
      rw [spanByte_clean hopens, hclean, hagain]
      dsimp only
      rw [spanLeft_clean]
      rfl
  | dead => exact absurd rfl hstate

theorem spanLeft_wide (hsecond : isUtf8Continuation second = true)
    (hthird : isUtf8Continuation third = true) (h : [0xEF, second, third] ≠ fullParenOpen)
    (text : Bytes) :
    spanLeft .angleOpen (0xEF :: second :: third :: text) =
        [0x3C, 0xEF, second, third] ++ spanLeft .clean text ∧
      releasedFrom .angleOpen (0xEF :: second :: third :: text) =
        [0x3C, 0xEF, second, third] ++ releasedFrom .clean text ∧
      stateFrom .angleOpen (0xEF :: second :: third :: text) = stateFrom .clean text := by
  have hfeed : ∀ {ch : UInt8}, isUtf8Continuation ch = true → ∀ text : Bytes,
      (⟨.clean⟩ : StreamScrubber).feed (ch :: text) =
        (ch :: ((⟨.clean⟩ : StreamScrubber).feed text).1,
          ((⟨.clean⟩ : StreamScrubber).feed text).2) := by
    intro ch hch text
    rw [StreamScrubber.feed, (scrubClean_continuation hch).2]
    rfl
  refine ⟨?_, ?_, ?_⟩
  · rw [spanLeft_angleOpen, spanKept_wide h, spanLeft_clean]
    rfl
  · rw [releasedFrom, StreamScrubber.feed]
    change [0x3C, 0xEF] ++ ((⟨.clean⟩ : StreamScrubber).feed (second :: third :: text)).1 = _
    rw [hfeed hsecond, hfeed hthird]
    rfl
  · rw [stateFrom, StreamScrubber.feed]
    change ((⟨.clean⟩ : StreamScrubber).feed (second :: third :: text)).2.state = _
    rw [hfeed hsecond, hfeed hthird]
    rfl

theorem stateFrom_cons (state : ScrubState) (ch : UInt8) (text : Bytes) :
    stateFrom state (ch :: text) = stateFrom (scrubByte state ch).2 text :=
  rfl

theorem releasedFrom_cons (state : ScrubState) (ch : UInt8) (text : Bytes) :
    releasedFrom state (ch :: text) =
      (scrubByte state ch).1 ++ releasedFrom (scrubByte state ch).2 text :=
  rfl

theorem spanLeft_append (hwhole : Whole text) (htoken : NoToken state text)
    (hseen : AsidesSeen state text) (hstate : state ≠ .dead) (tail : Bytes) :
    spanLeft state (text ++ tail) =
      releasedFrom state text ++ spanLeft (stateFrom state text) tail := by
  induction hlength : text.length using Nat.strong_induction_on generalizing state text with
  | _ length ih =>
    subst hlength
    cases text with
    | nil => rfl
    | cons ch text =>
      by_cases hmissed : state = .angleOpen ∧ ch = 0xEF
      · -- the byte is not looked at for an aside, and there is none
        obtain ⟨rfl, rfl⟩ := hmissed
        obtain ⟨second, third, rest, rfl, hsecond, hthird⟩ := hwhole [] text rfl
        have hnot : [0xEF, second, third] ≠ fullParenOpen := by
          intro hopener
          refine hseen [] rest ?_ rfl
          rw [← hopener]
          rfl
        obtain ⟨-, hreleased, hafter⟩ := spanLeft_wide hsecond hthird hnot rest
        obtain ⟨hleft, -, -⟩ := spanLeft_wide hsecond hthird hnot (rest ++ tail)
        have hrest : AsidesSeen .clean rest := by
          rintro before behind rfl
          have hlater := hseen (0xEF :: second :: third :: before) behind rfl
          rwa [(spanLeft_wide hsecond hthird hnot before).2.2] at hlater
        have hfree : NoToken .clean rest :=
          ⟨fun hinside => htoken.1
            (hinside.trans (List.suffix_append [0xEF, second, third] rest).isInfix), nofun⟩
        have hnext : spanLeft .clean (rest ++ tail) = _ :=
          ih rest.length (by simp only [List.length_cons]; omega) (hwhole.drop 3) hfree hrest
            nofun rfl
        rw [hreleased, hafter, List.append_assoc, ← hnext, ← hleft]
        rfl
      · have hangle : state = .angleOpen → ch ≠ 0x7C ∧ ch ≠ 0xEF := by
          intro hopen
          refine ⟨fun hbar => htoken.2 hopen ?_, fun hwide => hmissed ⟨hopen, hwide⟩⟩
          rw [hbar]
          rfl
        have hdead : (scrubByte state ch).2 ≠ .dead := by
          intro hdead
          rcases scrubByte_dead hdead with hdead | ⟨hopen, hbar⟩
          · exact hstate hdead
          · exact (hangle hopen).1 hbar
        have hnext := ih text.length (Nat.lt_succ_self _) hwhole.tail
          (htoken.tail fun hopen => (scrubByte_angleOpen hopen).1) hseen.tail hdead rfl
        rw [List.cons_append, spanLeft_cons hstate hangle, hnext, releasedFrom_cons,
          stateFrom_cons, List.append_assoc]

/-! ## Replies -/

/-- Wherever a reply without special tokens stops, it has been left without its spans. -/
def ScrubsSpans (reply : Bytes) : Prop :=
  ∀ deltas : List Bytes, deltas.flatten <+: reply → IsUtf8 deltas.flatten →
    scrubbed deltas = spoken deltas.flatten

theorem spanLeft_nil : spanLeft state [] = (⟨state⟩ : StreamScrubber).flush.1 := by
  rw [spanLeft, StreamScrubber.flush]
  rfl

theorem kept_eq_spoken (hutf8 : IsUtf8 text) (htoken : ¬ tokenOpener <:+: text)
    (hseen : AsidesSeen .clean text) : kept .clean text = spoken text := by
  have hwhole := whole_of_isUtf8 hutf8
  have hfree : NoToken .clean text := ⟨htoken, fun h => by cases h⟩
  have hall := spanLeft_append hwhole hfree hseen (by decide) []
  rw [spanLeft_nil, List.append_nil, spanLeft_clean, spanKept_clean hwhole le_rfl] at hall
  exact hall.symm

theorem AsidesSeen.part {whole : Bytes} (h : AsidesSeen state whole) (hstart : text <+: whole) :
    AsidesSeen state text := by
  obtain ⟨rest, rfl⟩ := hstart
  rintro before behind rfl
  exact h before (behind ++ rest) (by simp only [List.append_assoc])

theorem exists_first_missed (h : ¬ AsidesSeen .clean text) :
    ∃ before behind, text = before ++ fullParenOpen ++ behind ∧
      stateFrom .clean before = .angleOpen ∧ AsidesSeen .clean before := by
  classical
  have hexists : ∃ length before behind, before.length = length ∧
      text = before ++ fullParenOpen ++ behind ∧ stateFrom .clean before = .angleOpen := by
    by_contra hnone
    exact h fun before behind hsplit hopen => hnone ⟨_, before, behind, rfl, hsplit, hopen⟩
  obtain ⟨before, behind, hlength, hsplit, hopen⟩ := Nat.find_spec hexists
  refine ⟨before, behind, hsplit, hopen, ?_⟩
  rintro first rest hfirst hmissed
  refine Nat.find_min hexists (m := first.length) ?_
    ⟨first, rest ++ fullParenOpen ++ behind, rfl, ?_, hmissed⟩
  · rw [← hlength, hfirst]
    simp only [List.length_append, fullParenOpen, List.length_cons, List.length_nil]
    omega
  · rw [hsplit, hfirst]
    simp only [List.append_assoc]

/-- The scrubber removes the spans and nothing else exactly when no aside opens right behind a `<`
that it still holds back. -/
theorem scrubsSpans_iff {reply : Bytes} (hutf8 : IsUtf8 reply) (htoken : ¬ tokenOpener <:+: reply) :
    ScrubsSpans reply ↔ AsidesSeen .clean reply := by
  constructor
  · intro h
    by_contra hmissed
    obtain ⟨before, behind, rfl, hopen, hseen⟩ := exists_first_missed hmissed
    have hat : isAt (before ++ fullParenOpen ++ behind) before.length fullParenOpen = true := by
      refine List.isPrefixOf_iff_prefix.mpr ⟨behind, ?_⟩
      rw [List.append_assoc, List.drop_left]
    obtain ⟨hfirst, hsecond⟩ := hutf8.isBoundary_isAt ⟨'（', by decide⟩ hat
    have haside : IsUtf8 (before ++ fullParenOpen) := by
      have htake := hsecond.take
      rwa [← List.length_append, List.take_left] at htake
    have hwhole : Whole before := by
      have htake := hfirst.take
      rw [List.append_assoc, List.take_left] at htake
      exact whole_of_isUtf8 htake
    have hbefore : ¬ tokenOpener <:+: before := fun hinside => by
      rw [List.append_assoc] at htoken
      exact htoken (hinside.trans (List.prefix_append ..).isInfix)
    have hfree : NoToken .clean before := ⟨hbefore, fun h => by cases h⟩
    -- the reply stops right behind the opening of the aside
    have hstops := h [before ++ fullParenOpen] (by
      rw [List.flatten_singleton]
      exact List.prefix_append ..) (by rwa [List.flatten_singleton])
    have hleft := spanLeft_append hwhole hfree hseen (by decide) fullParenOpen
    rw [hopen, spanLeft_clean, spanKept_clean (whole_of_isUtf8 haside) le_rfl] at hleft
    rw [scrubbed_eq, List.flatten_singleton, kept_split, spoken, hleft] at hstops
    have hkept := List.append_cancel_left hstops
    change kept (stateFrom .clean before) fullParenOpen = _ at hkept
    rw [hopen] at hkept
    exact absurd hkept (by decide)
  · intro hseen deltas hstart hdeltas
    rw [scrubbed_eq]
    exact kept_eq_spoken hdeltas (fun hinside => htoken (hinside.trans hstart.isInfix))
      (hseen.part hstart)

theorem asidesSeen_of_free (h : ¬ 0x3C :: fullParenOpen <:+: text) : AsidesSeen .clean text := by
  rintro before behind rfl hopen
  cases before using List.reverseRecOn with
  | nil => cases hopen
  | append_singleton before ch =>
    have hstate : (scrubByte (stateAfter before) ch).2 = .angleOpen :=
      (stateAfter_snoc before ch).symm.trans hopen
    obtain ⟨rfl, -⟩ := scrubByte_angleOpen hstate
    refine h ⟨before, behind, ?_⟩
    simp only [List.append_assoc, List.cons_append, List.nil_append]

/-- A reply with an action, an aside and a `<` that opens nothing. -/
theorem scrubsSpans_smile : ScrubsSpans (bytes "Hi *waves* （softly）you <3") :=
  (scrubsSpans_iff (isUtf8_bytes _) (by decide)).mpr (asidesSeen_of_free (by decide))

/-- An aside right behind a `<` is spoken. -/
theorem scrubsSpans_fails : ¬ ∀ reply : Bytes, IsUtf8 reply → ¬ tokenOpener <:+: reply →
    ∀ deltas : List Bytes, deltas.flatten = reply → scrubbed deltas = spoken reply := by
  intro h
  have hsame := h (bytes "<（a）") (isUtf8_bytes _) (by decide) [bytes "<（a）"] rfl
  exact absurd hsame (by decide)

end FastTts.Hygiene
