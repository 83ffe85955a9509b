import Mathlib.Data.List.Infix

/-!
# Replacing a needle everywhere

A needle is replaced from left to right, each time at its first occurrence. A text whose pieces are
kept apart by marks is spelled differently for different spellings of the marks. Where a needle
cannot reach over a mark, its replacement goes piece by piece and mark by mark.
-/

namespace FastTts.MarkedTexts

variable {σ : Type*}

/-- A needle and a text between which no occurrence is shared: in any text around the second, the
needle lies in front of it, behind it, or is just it. -/
def Separate (needle word : List σ) : Prop :=
  ∀ x y before behind, before ++ (needle ++ behind) = x ++ (word ++ y) →
    before.length + needle.length ≤ x.length ∨ x.length + word.length ≤ before.length ∨
      before = x ∧ needle = word

theorem separate_of_last {needle word : List σ} {last last' : σ}
    (hneedle : needle.getLast? = some last) (hword : word.getLast? = some last')
    (h : last ∉ word) (h' : last' ∉ needle) : Separate needle word := by
  intro x y before behind heq
  obtain ⟨front, rfl⟩ := List.getLast?_eq_some_iff.mp hneedle
  obtain ⟨front', rfl⟩ := List.getLast?_eq_some_iff.mp hword
  by_contra hnot
  simp only [not_or, not_le, List.length_append, List.length_singleton] at hnot
  obtain ⟨hbehind, hbefore, -⟩ := hnot
  have hlast : (before ++ ((front ++ [last]) ++ behind))[before.length + front.length]? =
      some last := by simp
  rcases Nat.lt_or_ge (before.length + front.length) (x.length + (front'.length + 1)) with
    hin | hout
  · -- the needle ends within the word
    rw [heq, List.getElem?_append_right (by omega), List.getElem?_append_left (by simp; omega)]
      at hlast
    exact h (List.mem_of_getElem? hlast)
  · -- the word ends within the needle
    have hlast' : (x ++ ((front' ++ [last']) ++ y))[x.length + front'.length]? = some last' := by
      simp
    rw [← heq, List.getElem?_append_right (by omega), List.getElem?_append_left (by simp; omega)]
      at hlast'
    exact h' (List.mem_of_getElem? hlast')

theorem separate_of_head {first : σ} {needle word : List σ} (hneedle : first ∉ needle)
    (hword : first ∉ word) (hlength : needle.length = word.length) :
    Separate (first :: needle) (first :: word) := by
  intro x y before behind heq
  have hhead : (before ++ ((first :: needle) ++ behind))[before.length]? = some first := by simp
  have hhead' : (x ++ ((first :: word) ++ y))[x.length]? = some first := by simp
  rcases Nat.lt_trichotomy before.length x.length with hlt | hlength' | hgt
  · by_contra hnot
    simp only [not_or, not_le, List.length_cons] at hnot
    rw [← heq, List.getElem?_append_right hlt.le, List.getElem?_append_left (by simp; omega),
      List.getElem?_cons, if_neg (by omega)] at hhead'
    exact hneedle (List.mem_of_getElem? hhead')
  · obtain ⟨rfl, hrest⟩ := List.append_inj heq hlength'
    exact .inr (.inr ⟨rfl, (List.append_inj hrest (by simp [hlength])).1⟩)
  · by_contra hnot
    simp only [not_or, not_le, List.length_cons] at hnot
    rw [heq, List.getElem?_append_right hgt.le, List.getElem?_append_left (by simp; omega),
      List.getElem?_cons, if_neg (by omega)] at hhead
    exact hword (List.mem_of_getElem? hhead)

variable {x y before behind later : List σ}

theorem Separate.occurs {needle word : List σ} (h : Separate needle word)
    (heq : before ++ (needle ++ behind) = x ++ (word ++ y)) :
    needle <:+: x ∨ needle <:+: y ∨ before = x ∧ needle = word := by
  rcases h x y before behind heq with hle | hle | hsame
  · left
    have hfront : before ++ needle <+: x ++ (word ++ y) := ⟨behind, by rw [List.append_assoc, heq]⟩
    have hpart := List.prefix_of_prefix_length_le hfront (List.prefix_append x (word ++ y))
      (by rwa [List.length_append])
    exact (List.suffix_append before needle).isInfix.trans hpart.isInfix
  · right
    left
    have hback : needle ++ behind <:+ x ++ (word ++ y) := ⟨before, heq⟩
    have hrest : y <:+ x ++ (word ++ y) := ⟨x ++ word, List.append_assoc ..⟩
    have hlength := congrArg List.length heq
    simp only [List.length_append] at hlength
    have hpart := List.suffix_of_suffix_length_le hback hrest (by rw [List.length_append]; omega)
    exact (List.prefix_append needle behind).isInfix.trans hpart.isInfix
  · exact .inr (.inr hsame)

theorem Separate.eq_of_within {needle word : List σ} (h : Separate needle word) (hne : needle ≠ [])
    (hwithin : needle <:+: word) : needle = word := by
  obtain ⟨before, behind, heq⟩ := hwithin
  have hnil : ¬ needle <:+: [] := fun hwithin => hne (List.infix_nil.mp hwithin)
  have hall : before ++ (needle ++ behind) = [] ++ (word ++ []) := by
    rw [← List.append_assoc, heq, List.nil_append, List.append_nil]
  rcases h.occurs hall with hin | hin | ⟨-, hsame⟩
  · exact absurd hin hnil
  · exact absurd hin hnil
  · exact hsame

/-! ## Replacing -/

/-- The needle is replaced at its first occurrence, and so on behind it. -/
inductive Replaced (needle inserted : List σ) : List σ → List σ → Prop
  | none {text : List σ} (h : ¬ needle <:+: text) : Replaced needle inserted text text
  | first {before behind later : List σ} (h : ¬ needle <:+: before ++ needle.dropLast)
      (hrest : Replaced needle inserted behind later) :
      Replaced needle inserted (before ++ (needle ++ behind)) (before ++ (inserted ++ later))

/-- The pieces between the occurrences. -/
inductive Cuts (needle : List σ) : List σ → List (List σ) → Prop
  | none {text : List σ} (h : ¬ needle <:+: text) : Cuts needle text [text]
  | first {before behind : List σ} {pieces : List (List σ)}
      (h : ¬ needle <:+: before ++ needle.dropLast) (hrest : Cuts needle behind pieces) :
      Cuts needle (before ++ (needle ++ behind)) (before :: pieces)

def joined (separator : List σ) (pieces : List (List σ)) : List σ :=
  pieces.headD [] ++ pieces.tail.flatMap fun piece => separator ++ piece

section Replacing

variable {needle inserted text : List σ} {pieces : List (List σ)}

section

variable (h : Cuts needle text pieces)
include h

theorem Cuts.ne_nil : pieces ≠ [] := by
  cases h <;> exact List.cons_ne_nil _ _

theorem Cuts.joined_needle : joined needle pieces = text := by
  induction h with
  | none => simp [joined]
  | @first before behind pieces h hrest ih =>
    cases hrest with
    | none => simp [joined]
    | first => simpa [joined] using ih

theorem Cuts.replaced (inserted : List σ) :
    Replaced needle inserted text (joined inserted pieces) := by
  induction h with
  | none hnone =>
    rw [joined, List.headD_cons, List.tail_cons, List.flatMap_nil, List.append_nil]
    exact .none hnone
  | @first before behind pieces hfirst hrest ih =>
    have hall := Replaced.first hfirst ih
    cases hrest <;> simpa [joined] using hall

theorem Cuts.pieces_free : ∀ piece ∈ pieces, ¬ needle <:+: piece := by
  induction h with
  | none hnone => simpa using hnone
  | first hfirst _ ih =>
    refine List.forall_mem_cons.mpr ⟨fun hwithin => hfirst ?_, ih⟩
    exact hwithin.trans (List.prefix_append _ _).isInfix

theorem Cuts.pieces_within : ∀ piece ∈ pieces, piece <:+: text := by
  induction h with
  | none => simp
  | @first before behind pieces _ _ ih =>
    refine List.forall_mem_cons.mpr ⟨(List.prefix_append _ _).isInfix, fun piece hpiece => ?_⟩
    refine (ih piece hpiece).trans ?_
    rw [← List.append_assoc]
    exact (List.suffix_append _ _).isInfix

end

end Replacing

theorem first_le {needle early late : List σ} (hne : needle ≠ [])
    (h : ¬ needle <:+: before ++ needle.dropLast)
    (heq : early ++ (needle ++ late) = before ++ (needle ++ behind)) :
    before.length ≤ early.length := by
  by_contra hlt
  refine h ?_
  have hpos := List.length_pos_iff.mpr hne
  have hbefore : before ++ needle.dropLast <+: before ++ (needle ++ behind) :=
    (List.prefix_append_right_inj before).mpr
      ((List.dropLast_prefix needle).trans (List.prefix_append needle behind))
  have hearly : early ++ needle <+: before ++ (needle ++ behind) :=
    ⟨late, by rw [List.append_assoc, heq]⟩
  have hlength : (early ++ needle).length ≤ (before ++ needle.dropLast).length := by
    rw [List.length_append, List.length_append, List.length_dropLast]
    omega
  exact (List.suffix_append early needle).isInfix.trans
    (List.prefix_of_prefix_length_le hearly hbefore hlength).isInfix

theorem Replaced.unique {needle inserted text later' : List σ} (hne : needle ≠ [])
    (h : Replaced needle inserted text later) (h' : Replaced needle inserted text later') :
    later = later' := by
  induction h generalizing later' with
  | none hnone =>
    cases h' with
    | none => rfl
    | first => exact absurd ⟨_, _, List.append_assoc ..⟩ hnone
  | @first before behind later hfirst hrest ih =>
    generalize heq : before ++ (needle ++ behind) = text at h'
    cases h' with
    | none hnone => exact absurd ⟨before, behind, by rw [List.append_assoc, heq]⟩ hnone
    | @first before' behind' later' hfirst' hrest' =>
      have hlength := le_antisymm (first_le hne hfirst heq.symm) (first_le hne hfirst' heq)
      obtain ⟨rfl, hbehind⟩ := List.append_inj heq hlength
      rw [ih (List.append_cancel_left hbehind ▸ hrest')]

theorem replaced_self {needle : List σ} (hne : needle ≠ []) (inserted : List σ) :
    Replaced needle inserted needle inserted := by
  have hnil : Replaced needle inserted ([] : List σ) [] :=
    .none fun hwithin => hne (List.infix_nil.mp hwithin)
  have hfree : ¬ needle <:+: [] ++ needle.dropLast := by
    intro hwithin
    have hle := hwithin.length_le
    have hpos := List.length_pos_iff.mpr hne
    rw [List.nil_append, List.length_dropLast] at hle
    omega
  simpa using Replaced.first hfree hnil

theorem Replaced.around {needle inserted word : List σ} (hne : needle ≠ [])
    (hword : Separate needle word) {x' word' y' : List σ} (hx : Replaced needle inserted x x')
    (hmiddle : Replaced needle inserted word word') (hy : Replaced needle inserted y y') :
    Replaced needle inserted (x ++ (word ++ y)) (x' ++ (word' ++ y')) := by
  induction hx with
  | @first before behind later hfirst _ ih =>
    have hall := Replaced.first hfirst ih
    simpa only [List.append_assoc] using hall
  | @none x hnone =>
    -- an occurrence that ends within a text behind the word lies in that text
    have hbehind : ∀ {text : List σ}, ¬ needle <:+: text → needle ≠ word →
        ¬ needle <:+: x ++ (word ++ text) := by
      rintro text htext hother ⟨before, behind, heq⟩
      rw [List.append_assoc] at heq
      rcases hword.occurs heq with hin | hin | ⟨-, hsame⟩
      · exact hnone hin
      · exact htext hin
      · exact hother hsame
    by_cases hsame : needle = word
    · subst hsame
      rw [hmiddle.unique hne (replaced_self hne inserted)]
      refine .first ?_ hy
      rintro ⟨before, behind, heq⟩
      have hlength := congrArg List.length heq
      have hpos := List.length_pos_iff.mpr hne
      simp only [List.length_append, List.length_dropLast] at hlength
      have hall : before ++ (needle ++ (behind ++ needle.drop (needle.length - 1))) =
          x ++ (needle ++ []) := by
        rw [← List.append_assoc needle, ← List.append_assoc before, ← List.append_assoc before, heq,
          List.append_assoc, List.dropLast_eq_take, List.take_append_drop, List.append_nil]
      rcases hword.occurs hall with hin | hin | ⟨rfl, -⟩
      · exact hnone hin
      · exact hne (List.infix_nil.mp hin)
      · omega
    · have hfree : ¬ needle <:+: word := fun hwithin => hsame (hword.eq_of_within hne hwithin)
      rw [hmiddle.unique hne (.none hfree)]
      cases hy with
      | none htext => exact .none (hbehind htext hsame)
      | @first before behind later hfirst hrest =>
        have hfront : ¬ needle <:+: (x ++ (word ++ before)) ++ needle.dropLast := by
          rw [List.append_assoc, List.append_assoc]
          exact hbehind hfirst hsame
        have hall := Replaced.first hfront hrest
        simpa only [List.append_assoc] using hall

theorem Replaced.not_within {needle inserted word text : List σ} (hword : Separate word inserted)
    (hother : word ≠ inserted) (h : Replaced needle inserted text later)
    (hfree : needle = word ∨ ¬ word <:+: text) : ¬ word <:+: later := by
  induction h with
  | none hnone =>
    rcases hfree with rfl | hfree
    · exact hnone
    · exact hfree
  | @first before behind later hfirst _ ih =>
    rintro ⟨early, late, heq⟩
    rw [List.append_assoc] at heq
    rcases hword.occurs heq with hin | hin | ⟨-, hsame⟩
    · rcases hfree with rfl | hfree
      · exact hfirst (hin.trans (List.prefix_append _ _).isInfix)
      · exact hfree (hin.trans (List.prefix_append _ _).isInfix)
    · refine ih ?_ hin
      refine hfree.imp_right fun hfree hwithin => hfree (hwithin.trans ?_)
      rw [← List.append_assoc]
      exact (List.suffix_append _ _).isInfix
    · exact hother hsame

/-! ## Marks -/

/-- A text with marks between its pieces. -/
structure Marked (σ : Type*) where
  first : List σ
  rest : List (ℕ × List σ)

namespace Marked

def spell (t : Marked σ) (word : ℕ → List σ) : List σ :=
  t.first ++ t.rest.flatMap fun entry => word entry.1 ++ entry.2

def pieces (t : Marked σ) : List (List σ) := t.first :: t.rest.map Prod.snd

def marks (t : Marked σ) : List ℕ := t.rest.map Prod.fst

/-- The pieces of a piece, with a mark between them. -/
def ofPieces (mark : ℕ) (pieces : List (List σ)) : Marked σ :=
  ⟨pieces.headD [], pieces.tail.map fun piece => (mark, piece)⟩

/-- Every piece is cut, and the new mark stands at the cuts. -/
def refine (cut : List σ → List (List σ)) (mark : ℕ) (t : Marked σ) : Marked σ :=
  ⟨(ofPieces mark (cut t.first)).first,
    (ofPieces mark (cut t.first)).rest ++ t.rest.flatMap fun entry =>
      (entry.1, (ofPieces mark (cut entry.2)).first) :: (ofPieces mark (cut entry.2)).rest⟩

theorem spell_ofPieces (mark : ℕ) (pieces : List (List σ)) (word : ℕ → List σ) :
    (ofPieces mark pieces).spell word = joined (word mark) pieces := by
  rw [spell, ofPieces, joined, List.flatMap_map]

theorem spell_refine (cut : List σ → List (List σ)) (mark : ℕ) (t : Marked σ) (word : ℕ → List σ) :
    (t.refine cut mark).spell word = joined (word mark) (cut t.first) ++ t.rest.flatMap fun entry =>
        word entry.1 ++ joined (word mark) (cut entry.2) := by
  simp only [← spell_ofPieces, spell, refine, List.flatMap_append, List.append_assoc]
  rw [List.flatMap_assoc]
  simp only [List.flatMap_cons, List.append_assoc]

theorem pieces_refine {cut : List σ → List (List σ)} (hcut : ∀ piece, cut piece ≠ []) (mark : ℕ)
    (t : Marked σ) : (t.refine cut mark).pieces = t.pieces.flatMap cut := by
  have hpieces : ∀ piece, (ofPieces mark (cut piece)).pieces = cut piece := by
    intro piece
    obtain ⟨head, tail, hhead⟩ := List.exists_cons_of_ne_nil (hcut piece)
    simp [pieces, ofPieces, hhead, Function.comp_def]
  have hrest : (t.rest.flatMap fun entry => (entry.1, (ofPieces mark (cut entry.2)).first) ::
      (ofPieces mark (cut entry.2)).rest).map Prod.snd = (t.rest.map Prod.snd).flatMap cut := by
    rw [List.map_flatMap, List.flatMap_map]
    exact List.flatMap_congr fun entry _ => hpieces entry.2
  rw [pieces, refine, List.map_append, hrest, pieces, List.flatMap_cons]
  exact congrArg (· ++ (t.rest.map Prod.snd).flatMap cut) (hpieces t.first)

variable {mark other : ℕ}

theorem mem_marks_ofPieces {pieces : List (List σ)} :
    other ∈ (ofPieces mark pieces).rest.map Prod.fst ↔ other = mark ∧ pieces.tail ≠ [] := by
  rw [ofPieces, List.map_map]
  cases pieces.tail <;> simp [eq_comm]

theorem mem_marks_refine {cut : List σ → List (List σ)} {t : Marked σ} :
    other ∈ (t.refine cut mark).marks ↔
      other ∈ t.marks ∨ other = mark ∧ ∃ piece ∈ t.pieces, (cut piece).tail ≠ [] := by
  have hrest : other ∈ (t.rest.flatMap fun entry =>
      (entry.1, (ofPieces mark (cut entry.2)).first) ::
        (ofPieces mark (cut entry.2)).rest).map Prod.fst ↔
          ∃ entry ∈ t.rest, other = entry.1 ∨ other = mark ∧ (cut entry.2).tail ≠ [] := by
    rw [List.map_flatMap, List.mem_flatMap]
    simp only [List.map_cons, List.mem_cons, mem_marks_ofPieces]
  rw [marks, refine, List.map_append, List.mem_append, mem_marks_ofPieces, hrest, marks, pieces]
  simp only [List.mem_map, List.exists_mem_cons_iff]
  constructor
  · rintro (⟨rfl, hcut⟩ | ⟨entry, hentry, rfl | ⟨rfl, hcut⟩⟩)
    · exact .inr ⟨rfl, .inl hcut⟩
    · exact .inl ⟨entry, hentry, rfl⟩
    · exact .inr ⟨rfl, .inr ⟨_, ⟨entry, hentry, rfl⟩, hcut⟩⟩
  · rintro (⟨entry, hentry, rfl⟩ | ⟨rfl, hcut | ⟨_, ⟨entry, hentry, rfl⟩, hcut⟩⟩)
    · exact .inr ⟨entry, hentry, .inl rfl⟩
    · exact .inl ⟨rfl, hcut⟩
    · exact .inr ⟨entry, hentry, .inr ⟨rfl, hcut⟩⟩

section Words

variable {needle inserted : List σ} {t : Marked σ} {word word' : ℕ → List σ}

theorem spell_replaced (hne : needle ≠ []) (hpieces : ∀ piece ∈ t.pieces, ¬ needle <:+: piece)
    (hwords : ∀ mark ∈ t.marks, Separate needle (word mark) ∧
      Replaced needle inserted (word mark) (word' mark)) :
    Replaced needle inserted (t.spell word) (t.spell word') := by
  obtain ⟨first, rest⟩ := t
  rw [spell, spell]
  induction rest generalizing first with
  | nil =>
    simp only [List.flatMap_nil, List.append_nil]
    exact .none (hpieces first List.mem_cons_self)
  | cons entry rest ih =>
    obtain ⟨hseparate, hreplaced⟩ := hwords entry.1 List.mem_cons_self
    have hrest := ih entry.2 (fun piece hpiece => hpieces piece (List.mem_cons_of_mem _ hpiece))
      fun mark hmark => hwords mark (List.mem_cons_of_mem _ hmark)
    simp only [List.flatMap_cons, List.append_assoc]
    exact Replaced.around hne hseparate (.none (hpieces first List.mem_cons_self)) hreplaced hrest

theorem refine_replaced (hne : needle ≠ []) {cut : List σ → List (List σ)}
    (hcut : ∀ piece, Cuts needle piece (cut piece)) (mark : ℕ)
    (hwords : ∀ other ∈ t.marks, Separate needle (word other) ∧ ¬ needle <:+: word other) :
    Replaced needle (word mark) (t.spell word) ((t.refine cut mark).spell word) := by
  rw [spell_refine, spell]
  obtain ⟨first, rest⟩ := t
  induction rest generalizing first with
  | nil =>
    simp only [List.flatMap_nil, List.append_nil]
    exact (hcut first).replaced (word mark)
  | cons entry rest ih =>
    obtain ⟨hseparate, hfree⟩ := hwords entry.1 List.mem_cons_self
    have hrest := ih entry.2 fun other hother => hwords other (List.mem_cons_of_mem _ hother)
    simp only [List.flatMap_cons, List.append_assoc]
    exact Replaced.around hne hseparate ((hcut first).replaced (word mark)) (.none hfree) hrest

theorem spell_refine_needle {cut : List σ → List (List σ)}
    (hcut : ∀ piece, Cuts needle piece (cut piece)) {mark : ℕ} (hword : word mark = needle) :
    (t.refine cut mark).spell word = t.spell word := by
  rw [spell_refine, spell, hword, (hcut t.first).joined_needle]
  simp only [(hcut _).joined_needle]

end Words

end Marked

/-! ## One needle after the other -/

namespace Marked

/-- The text with a mark wherever one of the needles has been cut out, one after the other. -/
def ofNeedles (cut : List σ → List σ → List (List σ)) (needles : List (List σ)) (text : List σ) :
    Marked σ :=
  needles.zipIdx.foldl (fun t entry => t.refine (cut entry.1) entry.2) ⟨text, []⟩

def gaps (cut : List σ → List σ → List (List σ)) (needles : List (List σ)) (text : List σ) :
    List (List σ) :=
  needles.foldl (fun pieces needle => pieces.flatMap (cut needle)) [text]

variable {cut : List σ → List σ → List (List σ)} {needles : List (List σ)} {text : List σ}

theorem ofNeedles_snoc (needles : List (List σ)) (needle text : List σ) :
    ofNeedles cut (needles ++ [needle]) text =
      (ofNeedles cut needles text).refine (cut needle) needles.length := by
  rw [ofNeedles, List.zipIdx_append, List.foldl_append, Nat.zero_add]
  rfl

theorem gaps_snoc (needles : List (List σ)) (needle text : List σ) :
    gaps cut (needles ++ [needle]) text = (gaps cut needles text).flatMap (cut needle) := by
  rw [gaps, List.foldl_append]
  rfl

/-- The pieces that a cut leaves, for needles that are not empty. -/
def CutsAll (cut : List σ → List σ → List (List σ)) : Prop :=
  ∀ needle, needle ≠ [] → ∀ text, Cuts needle text (cut needle text)

theorem pieces_ofNeedles (hcut : CutsAll cut) (hne : ∀ needle ∈ needles, needle ≠ []) :
    (ofNeedles cut needles text).pieces = gaps cut needles text := by
  induction needles using List.reverseRecOn with
  | nil => rfl
  | append_singleton needles needle ih =>
    rw [List.forall_mem_append, List.forall_mem_singleton] at hne
    rw [ofNeedles_snoc, gaps_snoc, pieces_refine fun piece => (hcut needle hne.2 piece).ne_nil,
      ih hne.1]

theorem gaps_append_within (hcut : CutsAll cut) {later : List (List σ)}
    (hne : ∀ needle ∈ later, needle ≠ []) : ∀ piece ∈ gaps cut (needles ++ later) text,
      ∃ whole ∈ gaps cut needles text, piece <:+: whole := by
  induction later using List.reverseRecOn with
  | nil =>
    rw [List.append_nil]
    exact fun piece hpiece => ⟨piece, hpiece, List.infix_rfl⟩
  | append_singleton later needle ih =>
    rw [List.forall_mem_append, List.forall_mem_singleton] at hne
    rw [← List.append_assoc, gaps_snoc]
    intro piece hpiece
    obtain ⟨middle, hmiddle, hpart⟩ := List.mem_flatMap.mp hpiece
    obtain ⟨whole, hwhole, hwithin⟩ := ih hne.1 middle hmiddle
    exact ⟨whole, hwhole, ((hcut needle hne.2 middle).pieces_within piece hpart).trans hwithin⟩

theorem infix_of_mem_gaps (hcut : CutsAll cut) (hne : ∀ needle ∈ needles, needle ≠ []) :
    ∀ piece ∈ gaps cut needles text, piece <:+: text := by
  intro piece hpiece
  have hall : ∀ piece ∈ gaps cut ([] ++ needles) text,
      ∃ whole ∈ gaps cut [] text, piece <:+: whole :=
    gaps_append_within hcut hne
  obtain ⟨whole, hwhole, hwithin⟩ := hall piece hpiece
  rwa [List.mem_singleton.mp hwhole] at hwithin

theorem gaps_free (hcut : CutsAll cut) (hne : ∀ needle ∈ needles, needle ≠ []) :
    ∀ piece ∈ gaps cut needles text, ∀ needle ∈ needles, ¬ needle <:+: piece := by
  induction needles using List.reverseRecOn with
  | nil => exact fun _ _ _ => nofun
  | append_singleton needles last ih =>
    rw [List.forall_mem_append, List.forall_mem_singleton] at hne
    rw [gaps_snoc]
    intro piece hpiece needle hneedle
    obtain ⟨whole, hwhole, hpart⟩ := List.mem_flatMap.mp hpiece
    have hcuts := hcut last hne.2 whole
    rcases List.mem_append.mp hneedle with hearlier | hlast
    · exact fun hwithin => ih hne.1 whole hwhole needle hearlier
        (hwithin.trans (hcuts.pieces_within piece hpart))
    · rw [List.mem_singleton.mp hlast]
      exact hcuts.pieces_free piece hpart

variable {mark : ℕ} {replace : List σ → List σ → List σ → List σ}

theorem lt_of_mem_marks (h : mark ∈ (ofNeedles cut needles text).marks) :
    mark < needles.length := by
  induction needles using List.reverseRecOn with
  | nil => exact nomatch h
  | append_singleton needles needle ih =>
    rw [ofNeedles_snoc, mem_marks_refine] at h
    rw [List.length_append, List.length_singleton]
    rcases h with h | ⟨rfl, -⟩
    · exact Nat.lt_succ_of_lt (ih h)
    · exact Nat.lt_succ_self _

theorem spell_congr {t : Marked σ} {word word' : ℕ → List σ}
    (h : ∀ mark ∈ t.marks, word mark = word' mark) : t.spell word = t.spell word' := by
  rw [spell, spell]
  refine congrArg (t.first ++ ·) (List.flatMap_congr fun entry hentry => ?_)
  rw [h entry.1 (List.mem_map_of_mem hentry)]

theorem spell_cons (first : List σ) (entry : ℕ × List σ) (rest : List (ℕ × List σ))
    (word : ℕ → List σ) : spell ⟨first, entry :: rest⟩ word =
      first ++ (word entry.1 ++ spell ⟨entry.2, rest⟩ word) := by
  simp only [spell, List.flatMap_cons, List.append_assoc]

theorem spell_inj {t : Marked σ} {word word' : ℕ → List σ}
    (hlength : ∀ mark ∈ t.marks, (word mark).length ≤ (word' mark).length)
    (h : t.spell word = t.spell word') : ∀ mark ∈ t.marks, word mark = word' mark := by
  have hshort : ∀ (first : List σ) (rest : List (ℕ × List σ)),
      (∀ mark ∈ rest.map Prod.fst, (word mark).length ≤ (word' mark).length) →
        (spell ⟨first, rest⟩ word).length ≤ (spell ⟨first, rest⟩ word').length := by
    intro first rest hrest
    induction rest generalizing first with
    | nil => exact le_refl _
    | cons entry rest ih =>
      rw [List.map_cons, List.forall_mem_cons] at hrest
      have hlater := ih entry.2 hrest.2
      rw [spell_cons, spell_cons]
      simp only [List.length_append]
      omega
  obtain ⟨first, rest⟩ := t
  rw [marks] at hlength ⊢
  induction rest generalizing first with
  | nil => exact nofun
  | cons entry rest ih =>
    rw [List.map_cons, List.forall_mem_cons] at hlength ⊢
    rw [spell_cons, spell_cons] at h
    have hrest := List.append_cancel_left h
    have hall := congrArg List.length hrest
    have hlater := hshort entry.2 rest hlength.2
    simp only [List.length_append] at hall
    obtain ⟨hword, hspell⟩ := List.append_inj hrest (by omega)
    exact ⟨hword, ih entry.2 hlength.2 hspell⟩

theorem spell_ofNeedles (hcut : CutsAll cut) (hne : ∀ needle ∈ needles, needle ≠ []) :
    (ofNeedles cut needles text).spell (fun mark => needles.getD mark []) = text := by
  induction needles using List.reverseRecOn with
  | nil => exact List.append_nil text
  | append_singleton needles needle ih =>
    rw [List.forall_mem_append, List.forall_mem_singleton] at hne
    rw [ofNeedles_snoc, spell_refine_needle (hcut needle hne.2) (by simp)]
    refine Eq.trans (spell_congr fun mark hmark => ?_) (ih hne.1)
    have hlt := lt_of_mem_marks hmark
    simp [List.getElem?_append_left hlt]

theorem mem_marks_ofNeedles : mark ∈ (ofNeedles cut needles text).marks ↔
    ∃ needle, needles[mark]? = some needle ∧
      ∃ piece ∈ (ofNeedles cut (needles.take mark) text).pieces, (cut needle piece).tail ≠ [] := by
  induction needles using List.reverseRecOn with
  | nil => simp [ofNeedles, marks]
  | append_singleton needles last ih =>
    rw [ofNeedles_snoc, mem_marks_refine, ih]
    rcases Nat.lt_trichotomy mark needles.length with hlt | rfl | hgt
    · rw [List.getElem?_append_left hlt, List.take_append_of_le_length hlt.le]
      refine or_iff_left fun h => ?_
      omega
    · simp
    · rw [List.getElem?_eq_none hgt.le, List.getElem?_eq_none (by simp; omega)]
      simp [Nat.ne_of_gt hgt]

theorem cut_tail_iff {needle piece : List σ} (hcut : Cuts needle piece (cut needle piece)) :
    (cut needle piece).tail ≠ [] ↔ needle <:+: piece := by
  generalize cut needle piece = pieces at hcut
  cases hcut with
  | none hnone => simp [hnone]
  | first _ hrest => exact iff_of_true hrest.ne_nil ⟨_, _, List.append_assoc ..⟩

theorem replaced_ofNeedles
    (hreplace : ∀ text needle inserted, needle ≠ [] →
      Replaced needle inserted text (replace text needle inserted)) (hcut : CutsAll cut)
    {holder : ℕ → List σ} (hne : ∀ needle ∈ needles, needle ≠ [])
    (hholder : ∀ needle ∈ needles, ∀ mark, Separate needle (holder mark) ∧
      ¬ needle <:+: holder mark) :
    needles.zipIdx.foldl (fun text entry => replace text entry.1 (holder entry.2)) text =
      (ofNeedles cut needles text).spell holder := by
  induction needles using List.reverseRecOn with
  | nil => exact (List.append_nil text).symm
  | append_singleton needles needle ih =>
    rw [List.forall_mem_append, List.forall_mem_singleton] at hne hholder
    rw [List.zipIdx_append, List.foldl_append, ih hne.1 hholder.1, ofNeedles_snoc, Nat.zero_add]
    exact (hreplace _ needle _ hne.2).unique hne.2
      (refine_replaced hne.2 (hcut needle hne.2) needles.length fun other _ => hholder.2 other)

theorem restored
    (hreplace : ∀ text needle inserted, needle ≠ [] →
      Replaced needle inserted text (replace text needle inserted)) {t : Marked σ}
    {W : List σ → Prop} {saved : List (List σ × List σ)}
    (hsaved : ∀ entry ∈ saved, entry.1 ≠ [] ∧ (∀ piece ∈ t.pieces, ¬ entry.1 <:+: piece) ∧
      ∀ word, W word → Separate entry.1 word ∧ W (replace word entry.1 entry.2)) {word : ℕ → List σ}
    (hword : ∀ mark, W (word mark)) :
    saved.foldl (fun text entry => replace text entry.1 entry.2) (t.spell word) =
      t.spell fun mark =>
        saved.foldl (fun text entry => replace text entry.1 entry.2) (word mark) := by
  induction saved generalizing word with
  | nil => rfl
  | cons entry saved ih =>
    obtain ⟨⟨hne, hpieces, hwords⟩, hrest⟩ := List.forall_mem_cons.mp hsaved
    have hstep := (hreplace (t.spell word) entry.1 entry.2 hne).unique hne
      (spell_replaced hne hpieces fun mark _ =>
        ⟨(hwords _ (hword mark)).1, hreplace (word mark) entry.1 entry.2 hne⟩)
    rw [List.foldl_cons, hstep, ih hrest fun mark => (hwords _ (hword mark)).2]
    rfl

end Marked

end FastTts.MarkedTexts
