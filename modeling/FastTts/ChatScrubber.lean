import FastTts.ChatHygiene

/-!
# The scrubber and special tokens

Everything from a special-token opener onward is to be dropped. The scrubber looks for the opener in
the clean state alone: it does not look into a span that it holds back, nor across a span that it
has dropped. The text that is kept is free of the opener exactly when neither matters.
-/

namespace FastTts.Hygiene

/-- `<|` -/
def tokenOpener : Bytes := [0x3C, 0x7C]

def ScrubState.held? : ScrubState → Option Bytes
  | .star held | .fullParen held _ => some held
  | _ => none

namespace StreamScrubber

def feedAll (s : StreamScrubber) : List Bytes → Bytes × StreamScrubber
  | [] => ([], s)
  | delta :: deltas =>
    let next := feedAll (s.feed delta).2 deltas
    ((s.feed delta).1 ++ next.1, next.2)

theorem feedAll_eq (s : StreamScrubber) (deltas : List Bytes) :
    s.feedAll deltas = s.feed deltas.flatten := by
  induction deltas generalizing s with
  | nil => rfl
  | cons delta deltas ih => rw [feedAll, ih, List.flatten_cons, feed_append]

end StreamScrubber

/-- What is kept of a text that is met in the given state, up to the flush. -/
def kept (state : ScrubState) (text : Bytes) : Bytes :=
  let last := (⟨state⟩ : StreamScrubber).feed text
  last.1 ++ last.2.flush.1

def released (text : Bytes) : Bytes := (StreamScrubber.new.feed text).1

def stateAfter (text : Bytes) : ScrubState := (StreamScrubber.new.feed text).2.state

variable (deltas : List Bytes)

def scrubbed : Bytes :=
  let last := StreamScrubber.new.feedAll deltas
  last.1 ++ last.2.flush.1

/-- The opener is in no output, and once it has been read nothing comes out. -/
structure KeepsMarkerOut : Prop where
  absent : ¬ tokenOpener <:+: scrubbed deltas
  silent : ∀ before after, deltas.flatten = before ++ tokenOpener ++ after →
    kept (stateAfter (before ++ tokenOpener)) after = []

/-- What the scrubber does with a byte in a given state: the branches that release something. -/
def GivesBack : ScrubState → UInt8 → Prop
  | .dead, _ => False
  | .clean, ch => ch ≠ 0x2A ∧ ch ≠ 0x3C ∧ ch ≠ 0xEF
  | .star held, ch => ch ≠ 0x2A ∧ (ch = 0x0A ∨ 120 < held.length + 1)
  | .fullParen held body, ch =>
    held.length + 1 = 3 ∧ held ++ [ch] ≠ fullParenOpen ∨
      3 < held.length + 1 ∧ ¬ fullParenClose <:+: body ++ [ch] ∧ 120 < body.length + 1
  | .angleOpen, ch => ch ≠ 0x7C

/-- The last byte that is released with this one is a `<`. -/
def GivesBackAngle (state : ScrubState) (ch : UInt8) : Prop :=
  GivesBack state ch ∧ (state = .angleOpen ∧ (ch = 0x2A ∨ ch = 0x3C) ∨
    state ≠ .angleOpen ∧ ch = 0x3C)

/-- The text after `first` is met without a branch that releases something. -/
def HeldBack (first text : Bytes) : Prop :=
  ∀ before ch after, text = before ++ ch :: after → ¬ GivesBack (stateAfter (first ++ before)) ch

/-- Behind a `<` that has been given back, or with held and dropped spans alone in between. -/
def BehindAngle (text : Bytes) : Prop :=
  ∃ first ch rest, text = first ++ ch :: rest ∧ GivesBackAngle (stateAfter first) ch ∧
    HeldBack (first ++ [ch]) rest

/-- A span in which the opener stands does not come to its end, unless it is dropped and all that
comes after it is held back as well; and a `|` that is met in the clean state does not come behind
a `<` that was given back. -/
def MarkerStandsFree (text : Bytes) : Prop :=
  ∀ before ch after, text = before ++ ch :: after →
    (∀ held, (stateAfter before).held? = some held → tokenOpener <:+: held ++ [ch] →
      (stateAfter (before ++ [ch])).held? = none →
        ¬ GivesBack (stateAfter before) ch ∧
          HeldBack [] after ∧ stateAfter after ≠ .angleOpen) ∧
    (stateAfter before = .clean → ch = 0x7C → ¬ BehindAngle before)

/-! ## Steps -/

theorem contains_iff {text needle : Bytes} : contains text needle = true ↔ needle <:+: text := by
  rw [contains, find, List.find?_isSome]
  constructor
  · rintro ⟨index, -, hat⟩
    exact (List.isPrefixOf_iff_prefix.mp hat).isInfix.trans (List.drop_suffix index text).isInfix
  · rintro ⟨before, after, rfl⟩
    refine ⟨before.length, ?_, ?_⟩
    · rw [List.mem_range]
      simp only [List.length_append]
      omega
    · rw [isAt, List.append_assoc, List.drop_left, List.isPrefixOf_iff_prefix]
      exact List.prefix_append ..

theorem infix_snoc (needle text : Bytes) (a ch : UInt8) :
    needle ++ [a] <:+: text ++ [ch] ↔ needle ++ [a] <:+: text ∨ needle <:+ text ∧ ch = a := by
  rw [List.infix_concat_iff, List.suffix_concat_iff, or_comm]
  apply or_congr Iff.rfl
  constructor
  · rintro (hnil | ⟨t, heq, hsuffix⟩)
    · exact absurd hnil (by simp)
    · obtain ⟨rfl, hch⟩ := List.append_inj' heq rfl
      exact ⟨hsuffix, (List.singleton_inj.mp hch).symm⟩
  · rintro ⟨hsuffix, rfl⟩
    exact .inr ⟨needle, rfl, hsuffix⟩

theorem singleton_suffix {text : Bytes} {a : UInt8} : [a] <:+ text ↔ text.getLast? = some a := by
  constructor
  · rintro ⟨before, rfl⟩
    exact List.getLast?_concat
  · intro h
    obtain ⟨before, rfl⟩ := List.getLast?_eq_some_iff.mp h
    exact List.suffix_append ..

variable {ch : UInt8} {held read : Bytes} {state : ScrubState}

theorem opener_snoc {text : Bytes} : tokenOpener <:+: text ++ [ch] ↔
    tokenOpener <:+: text ∨ text.getLast? = some 0x3C ∧ ch = 0x7C := by
  rw [← singleton_suffix]
  exact infix_snoc [0x3C] text 0x7C ch

theorem released_snoc (text : Bytes) (ch : UInt8) :
    released (text ++ [ch]) = released text ++ (scrubByte (stateAfter text) ch).1 := by
  rw [released, StreamScrubber.feed_append]
  simp only [StreamScrubber.feed, List.append_nil]
  rfl

theorem stateAfter_snoc (text : Bytes) (ch : UInt8) :
    stateAfter (text ++ [ch]) = (scrubByte (stateAfter text) ch).2 := by
  rw [stateAfter, StreamScrubber.feed_append]
  rfl

theorem kept_cons (state : ScrubState) (ch : UInt8) (text : Bytes) :
    kept state (ch :: text) = (scrubByte state ch).1 ++ kept (scrubByte state ch).2 text := by
  rw [kept, kept, StreamScrubber.feed, List.append_assoc]

theorem kept_split (before after : Bytes) :
    kept .clean (before ++ after) = released before ++ kept (stateAfter before) after := by
  rw [kept, StreamScrubber.feed_append, kept, List.append_assoc]
  rfl

theorem scrubbed_eq : scrubbed deltas = kept .clean deltas.flatten := by
  rw [scrubbed, StreamScrubber.feedAll_eq]
  rfl

/-! ## What is held back -/

/-- How the state stands to the text that has been read. -/
def ScrubState.Stands (read : Bytes) : ScrubState → Prop
  | .clean | .dead => True
  | .star held => held <:+ read ∧ held.head? = some 0x2A
  | .fullParen held body => held <:+ read ∧ held.head? = some 0xEF ∧ ¬ fullParenClose <:+: body
  | .angleOpen => read.getLast? = some 0x3C

theorem suffix_snoc (h : held <:+ read) (ch : UInt8) : held ++ [ch] <:+ read ++ [ch] := by
  obtain ⟨before, rfl⟩ := h
  exact ⟨before, List.append_assoc .. |>.symm⟩

theorem head?_snoc {a : UInt8} (h : held.head? = some a) (ch : UInt8) :
    (held ++ [ch]).head? = some a := by
  rw [List.head?_append, h]
  rfl

/-- One byte releases nothing, or what was held back and the byte. -/
inductive Releases (held : Bytes) (ch : UInt8) : Bytes → ScrubState → Prop
  | nothing {next : ScrubState} : Releases held ch [] next
  | all : Releases held ch (held ++ [ch]) .clean

theorem scrubByte_star (ch : UInt8) (h : (ScrubState.star held).Stands read) :
    (scrubByte (.star held) ch).2.Stands (read ++ [ch]) ∧
      Releases held ch (scrubByte (.star held) ch).1 (scrubByte (.star held) ch).2 ∧
        ((scrubByte (.star held) ch).2 = .clean ∨
          (scrubByte (.star held) ch).2 = .star (held ++ [ch])) ∧
        (ch ≠ 0x2A → (scrubByte (.star held) ch).2 = .clean →
          (scrubByte (.star held) ch).1 = held ++ [ch]) := by
  obtain ⟨hsuffix, hhead⟩ := h
  rw [scrubByte]
  split_ifs with hstar
  · exact ⟨trivial, .nothing, .inl rfl, fun hch _ => absurd (beq_iff_eq.mp hstar) hch⟩
  · exact ⟨trivial, .all, .inl rfl, fun _ _ => rfl⟩
  · exact ⟨⟨suffix_snoc hsuffix ch, head?_snoc hhead ch⟩, .nothing, .inr rfl,
      fun _ hclean => by cases hclean⟩

theorem scrubByte_fullParen {body : Bytes} (ch : UInt8)
    (h : (ScrubState.fullParen held body).Stands read) :
    (scrubByte (.fullParen held body) ch).2.Stands (read ++ [ch]) ∧
      Releases held ch (scrubByte (.fullParen held body) ch).1
        (scrubByte (.fullParen held body) ch).2 ∧
      ((scrubByte (.fullParen held body) ch).2 = .clean ∨
        ∃ body', (scrubByte (.fullParen held body) ch).2 = .fullParen (held ++ [ch]) body') ∧
      (ch ≠ 0x89 → (scrubByte (.fullParen held body) ch).2 = .clean →
        (scrubByte (.fullParen held body) ch).1 = held ++ [ch]) := by
  obtain ⟨hsuffix, hhead, hbody⟩ := h
  have hnil : ¬ fullParenClose <:+: [] := by
    rw [List.infix_nil]
    exact List.cons_ne_nil _ _
  have hholds : ∀ next : Bytes, ¬ fullParenClose <:+: next →
      (ScrubState.fullParen (held ++ [ch]) next).Stands (read ++ [ch]) :=
    fun next hnext => ⟨suffix_snoc hsuffix ch, head?_snoc hhead ch, hnext⟩
  rw [scrubByte]
  dsimp only
  split_ifs with hthree hopens hmore hcloses hlong
  · exact ⟨hholds [] hnil, .nothing, .inr ⟨[], rfl⟩, fun _ hclean => by cases hclean⟩
  · exact ⟨trivial, .all, .inl rfl, fun _ _ => rfl⟩
  · refine ⟨trivial, .nothing, .inl rfl, fun hch _ => ?_⟩
    -- only the last byte of the closing parenthesis completes one
    rw [contains_iff] at hcloses
    rcases (infix_snoc [0xEF, 0xBC] body 0x89 ch).mp hcloses with hbefore | ⟨-, heq⟩
    · exact absurd hbefore hbody
    · exact absurd heq hch
  · exact ⟨trivial, .all, .inl rfl, fun _ _ => rfl⟩
  · rw [contains_iff] at hcloses
    exact ⟨hholds _ hcloses, .nothing, .inr ⟨_, rfl⟩, fun _ hclean => by cases hclean⟩
  · exact ⟨hholds _ hbody, .nothing, .inr ⟨_, rfl⟩, fun _ hclean => by cases hclean⟩

theorem scrubClean_stands (read : Bytes) (ch : UInt8) :
    (scrubClean ch).2.Stands (read ++ [ch]) := by
  rw [scrubClean]
  split_ifs with hstar hangle hwide
  · rw [beq_iff_eq] at hstar
    exact ⟨List.suffix_append .., by rw [hstar]; rfl⟩
  · rw [beq_iff_eq] at hangle
    rw [hangle]
    exact List.getLast?_concat
  · rw [beq_iff_eq] at hwide
    refine ⟨List.suffix_append .., by rw [hwide]; rfl, ?_⟩
    rw [List.infix_nil]
    exact List.cons_ne_nil _ _
  · trivial

theorem stands (text : Bytes) : (stateAfter text).Stands text := by
  induction text using List.reverseRecOn with
  | nil => trivial
  | append_singleton text ch ih =>
    rw [stateAfter_snoc]
    cases hstate : stateAfter text with
    | clean => exact scrubClean_stands text ch
    | dead => trivial
    | star held =>
      rw [hstate] at ih
      exact (scrubByte_star ch ih).1
    | fullParen held body =>
      rw [hstate] at ih
      exact (scrubByte_fullParen ch ih).1
    | angleOpen =>
      rw [scrubByte]
      split_ifs with hbar hstar hangle
      · trivial
      · rw [beq_iff_eq] at hstar
        exact ⟨List.suffix_append .., by rw [hstar]; rfl⟩
      · rw [beq_iff_eq] at hangle
        rw [hangle]
        exact List.getLast?_concat
      · trivial

/-! ## The marker -/

theorem held?_eq_some (h : state.held? = some held) :
    state = .star held ∨ ∃ body, state = .fullParen held body := by
  cases state with
  | star held' => exact .inl (congrArg ScrubState.star (Option.some.inj h))
  | fullParen held' body =>
    obtain rfl := Option.some.inj h
    exact .inr ⟨body, rfl⟩
  | clean => exact nomatch h
  | angleOpen => exact nomatch h
  | dead => exact nomatch h

/-- A span that is held back ends in the clean state, or grows by the byte. -/
structure Holds (text held : Bytes) (ch : UInt8) : Prop where
  releases : Releases held ch (scrubByte (stateAfter text) ch).1 (scrubByte (stateAfter text) ch).2
  next : (scrubByte (stateAfter text) ch).2 = .clean ∨
    (scrubByte (stateAfter text) ch).2.held? = some (held ++ [ch])
  suffix : held <:+ text
  head : held.head? = some 0x2A ∨ held.head? = some 0xEF
  closes : ch ≠ 0x2A → ch ≠ 0x89 → (scrubByte (stateAfter text) ch).2 = .clean →
    (scrubByte (stateAfter text) ch).1 = held ++ [ch]

theorem holds_of_held? {text : Bytes} (ch : UInt8) (h : (stateAfter text).held? = some held) :
    Holds text held ch := by
  have hstands := stands text
  rcases held?_eq_some h with hstate | ⟨body, hstate⟩
  · rw [hstate] at hstands
    obtain ⟨-, hreleases, hnext, hcloses⟩ := scrubByte_star ch hstands
    rw [← hstate] at hreleases hnext hcloses
    refine ⟨hreleases, hnext.imp_right fun hgrows => ?_, hstands.1, .inl hstands.2,
      fun hstar _ => hcloses hstar⟩
    rw [hgrows]
    rfl
  · rw [hstate] at hstands
    obtain ⟨-, hreleases, hnext, hcloses⟩ := scrubByte_fullParen ch hstands
    rw [← hstate] at hreleases hnext hcloses
    refine ⟨hreleases, hnext.imp_right ?_, hstands.1, .inr hstands.2.1, fun _ hparen => hcloses hparen⟩
    rintro ⟨body', hgrows⟩
    rw [hgrows]
    rfl

theorem opener_append {a b : Bytes} (h : tokenOpener <:+: a ++ b) : tokenOpener <:+: a ∨
    tokenOpener <:+: b ∨ a.getLast? = some 0x3C ∧ b.head? = some 0x7C := by
  induction b using List.reverseRecOn with
  | nil =>
    rw [List.append_nil] at h
    exact .inl h
  | append_singleton b ch ih =>
    rw [← List.append_assoc, opener_snoc] at h
    rcases h with hinside | ⟨hlast, rfl⟩
    · rcases ih hinside with ha | hb | ⟨ha, hhead⟩
      · exact .inl ha
      · exact .inr (.inl (opener_snoc.mpr (.inl hb)))
      · exact .inr (.inr ⟨ha, head?_snoc hhead ch⟩)
    · cases b with
      | nil =>
        rw [List.append_nil] at hlast
        exact .inr (.inr ⟨hlast, rfl⟩)
      | cons x b =>
        rw [List.getLast?_append_of_ne_nil a (List.cons_ne_nil x b)] at hlast
        exact .inr (.inl (opener_snoc.mpr (.inr ⟨hlast, rfl⟩)))

/-- The condition in the words of what comes out. -/
def JoinsNoMarker (text : Bytes) : Prop :=
  ∀ before ch after, text = before ++ ch :: after →
    (∀ held, (stateAfter before).held? = some held → tokenOpener <:+: held ++ [ch] →
      (scrubByte (stateAfter before) ch).2.held? = none →
        (scrubByte (stateAfter before) ch).1 = [] ∧ kept .clean after = []) ∧
    (stateAfter before = .clean → ch = 0x7C → (released before).getLast? ≠ some 0x3C)

section Free

variable {text : Bytes} (h : JoinsNoMarker text)
include h

variable {before after : Bytes}

theorem released_free (hsplit : text = before ++ after) : ¬ tokenOpener <:+: released before := by
  induction before using List.reverseRecOn generalizing after with
  | nil =>
    change ¬ tokenOpener <:+: []
    rw [List.infix_nil]
    exact List.cons_ne_nil _ _
  | append_singleton before ch ih =>
    have hsplit' : text = before ++ ch :: after := by
      rw [hsplit, List.append_assoc]
      rfl
    have hbefore := ih hsplit'
    obtain ⟨hheld, hclean⟩ := h before ch after hsplit'
    rw [released_snoc]
    cases hspan : (stateAfter before).held? with
    | some held =>
      have hholds := holds_of_held? ch hspan
      have hends := hheld held hspan
      have hreleases := hholds.releases
      generalize (scrubByte (stateAfter before) ch).1 = out at hreleases hends ⊢
      generalize (scrubByte (stateAfter before) ch).2 = next at hreleases hends
      cases hreleases with
      | nothing =>
        rw [List.append_nil]
        exact hbefore
      | all =>
        intro hmarker
        rcases opener_append hmarker with hout | hin | ⟨-, hbar⟩
        · exact hbefore hout
        · exact absurd (hends hin rfl).1 (by simp)
        · rcases hholds.head with hhead | hhead
          · rw [head?_snoc hhead] at hbar
            exact absurd hbar (by decide)
          · rw [head?_snoc hhead] at hbar
            exact absurd hbar (by decide)
    | none =>
      cases hstate : stateAfter before with
      | star held => exact absurd hspan (by rw [hstate]; exact nofun)
      | fullParen held body => exact absurd hspan (by rw [hstate]; exact nofun)
      | dead =>
        rw [scrubByte, List.append_nil]
        exact hbefore
      | clean =>
        rw [scrubByte, scrubClean]
        split_ifs
        · rwa [List.append_nil]
        · rwa [List.append_nil]
        · rwa [List.append_nil]
        · rw [opener_snoc]
          rintro (hinside | ⟨hlast, hbar⟩)
          · exact hbefore hinside
          · exact hclean hstate hbar hlast
      | angleOpen =>
        have hangle : ¬ tokenOpener <:+: released before ++ [0x3C] := by
          rw [opener_snoc]
          rintro (hinside | ⟨-, hbar⟩)
          · exact hbefore hinside
          · exact absurd hbar (by decide)
        rw [scrubByte]
        split_ifs with hbar
        · rwa [List.append_nil]
        · exact hangle
        · exact hangle
        · have hsnoc : released before ++ [0x3C, ch] = released before ++ [0x3C] ++ [ch] := by
            rw [List.append_assoc]
            rfl
          rw [hsnoc, opener_snoc]
          rintro (hinside | ⟨-, hch⟩)
          · exact hangle hinside
          · exact hbar (beq_iff_eq.mpr hch)

theorem kept_of_held {held : Bytes} (hsplit : text = before ++ after)
    (hspan : (stateAfter before).held? = some held) (hmarker : tokenOpener <:+: held) :
    kept (stateAfter before) after = [] := by
  induction after generalizing before held with
  | nil =>
    rcases held?_eq_some hspan with hstate | ⟨body, hstate⟩
    · rw [hstate]
      rfl
    · rw [hstate]
      rfl
  | cons ch after ih =>
    have hholds := holds_of_held? ch hspan
    have hgrown : tokenOpener <:+: held ++ [ch] := hmarker.trans (List.prefix_append ..).isInfix
    rw [kept_cons]
    rcases hholds.next with hclean | hgrows
    · have hends : (scrubByte (stateAfter before) ch).2.held? = none := by
        rw [hclean]
        rfl
      obtain ⟨hnothing, hafter⟩ := (h before ch after hsplit).1 held hspan hgrown hends
      rw [hnothing, hclean, hafter]
      rfl
    · have hnothing : (scrubByte (stateAfter before) ch).1 = [] := by
        have hreleases := hholds.releases
        generalize (scrubByte (stateAfter before) ch).1 = out at hreleases
        generalize (scrubByte (stateAfter before) ch).2 = next at hreleases hgrows
        cases hreleases with
        | nothing => rfl
        | all => exact nomatch hgrows
      have hsplit' : text = before ++ [ch] ++ after := by
        rw [hsplit, List.append_assoc]
        rfl
      have hrest := ih hsplit' (by rw [stateAfter_snoc]; exact hgrows) hgrown
      rw [hnothing, ← stateAfter_snoc, hrest]
      rfl

theorem silent_of_free (hsplit : text = before ++ tokenOpener ++ after) :
    kept (stateAfter (before ++ tokenOpener)) after = [] := by
  have hdead : (⟨.dead⟩ : StreamScrubber).feed after = ([], ⟨.dead⟩) :=
    StreamScrubber.feed_dead after
  have hsilent : kept .dead after = [] := by
    rw [kept, hdead]
    rfl
  have hopener : before ++ tokenOpener = before ++ [0x3C] ++ [0x7C] := by
    rw [List.append_assoc]
    rfl
  have hangle : text = before ++ [0x3C] ++ 0x7C :: after := by
    rw [hsplit, hopener, List.append_assoc]
    rfl
  have hlast : (before ++ [0x3C]).getLast? = some 0x3C := List.getLast?_concat
  obtain ⟨hheld, hclean⟩ := h (before ++ [0x3C]) 0x7C after hangle
  -- the state at the `|`
  have hstate : stateAfter (before ++ [0x3C]) = .angleOpen ∨ stateAfter (before ++ [0x3C]) = .dead ∨
      (stateAfter (before ++ [0x3C]) = .clean ∧ (released (before ++ [0x3C])).getLast? = some 0x3C) ∨
      ∃ held, (stateAfter (before ++ [0x3C])).held? = some held ∧ held.getLast? = some 0x3C := by
    rw [stateAfter_snoc, released_snoc]
    cases hspan : (stateAfter before).held? with
    | some held =>
      have hholds := holds_of_held? 0x3C hspan
      rcases hholds.next with hnext | hgrows
      · rw [hnext, hholds.closes (by decide) (by decide) hnext, ← List.append_assoc]
        exact .inr (.inr (.inl ⟨rfl, List.getLast?_concat⟩))
      · exact .inr (.inr (.inr ⟨_, hgrows, List.getLast?_concat⟩))
    | none =>
      cases hstate : stateAfter before with
      | star held => exact absurd hspan (by rw [hstate]; exact nofun)
      | fullParen held body => exact absurd hspan (by rw [hstate]; exact nofun)
      | dead => exact .inr (.inl rfl)
      | clean => exact .inl rfl
      | angleOpen => exact .inl rfl
  rw [hopener]
  rcases hstate with hopen | hopen | ⟨hopen, hout⟩ | ⟨held, hspan, hheldlast⟩
  · rw [stateAfter_snoc, hopen]
    exact hsilent
  · rw [stateAfter_snoc, hopen]
    exact hsilent
  · exact absurd hout (hclean hopen rfl)
  · have hmarker : tokenOpener <:+: held ++ [0x7C] := opener_snoc.mpr (.inr ⟨hheldlast, rfl⟩)
    have hholds := holds_of_held? 0x7C hspan
    rcases hholds.next with hnext | hgrows
    · rw [stateAfter_snoc, hnext]
      refine (hheld held hspan hmarker ?_).2
      rw [hnext]
      rfl
    · apply kept_of_held h _ (by rw [stateAfter_snoc]; exact hgrows) hmarker
      rw [hsplit, hopener]

end Free

theorem kept_free {text : Bytes} (h : JoinsNoMarker text) : ¬ tokenOpener <:+: kept .clean text := by
  have hreleased : ¬ tokenOpener <:+: released text := released_free h (List.append_nil text).symm
  have hsplit := kept_split text []
  rw [List.append_nil] at hsplit
  rw [hsplit, kept]
  cases hstate : stateAfter text with
  | angleOpen =>
    change ¬ tokenOpener <:+: released text ++ [0x3C]
    rw [opener_snoc]
    rintro (hinside | ⟨-, hbar⟩)
    · exact hreleased hinside
    · exact absurd hbar (by decide)
  | _ =>
    change ¬ tokenOpener <:+: released text ++ []
    rwa [List.append_nil]

theorem keepsMarkerOut_iff_joins : KeepsMarkerOut deltas ↔ JoinsNoMarker deltas.flatten := by
  constructor
  · rintro ⟨habsent, hsilent⟩
    rw [scrubbed_eq] at habsent
    intro before ch after hsplit
    have hkept : kept .clean deltas.flatten = released before ++
        ((scrubByte (stateAfter before) ch).1 ++ kept (scrubByte (stateAfter before) ch).2 after) := by
      rw [hsplit, kept_split, kept_cons]
    constructor
    · intro held hspan hmarker hends
      have hholds := holds_of_held? ch hspan
      have hclean : (scrubByte (stateAfter before) ch).2 = .clean := by
        rcases hholds.next with hnext | hgrows
        · exact hnext
        · rw [hends] at hgrows
          exact nomatch hgrows
      constructor
      · have hreleases := hholds.releases
        generalize (scrubByte (stateAfter before) ch).1 = out at hreleases hkept ⊢
        generalize (scrubByte (stateAfter before) ch).2 = next at hreleases hkept
        cases hreleases with
        | nothing => rfl
        | all =>
          refine absurd ?_ habsent
          rw [hkept]
          exact hmarker.trans ((List.prefix_append ..).isInfix.trans (List.suffix_append ..).isInfix)
      · -- the opener has been read with the span
        obtain ⟨first, hfirst⟩ := suffix_snoc hholds.suffix ch
        obtain ⟨left, right, hspanned⟩ := hmarker
        have hread : before ++ [ch] = first ++ left ++ tokenOpener ++ right := by
          rw [← hfirst, ← hspanned]
          simp only [List.append_assoc]
        have htext : deltas.flatten = first ++ left ++ tokenOpener ++ (right ++ after) := by
          rw [← List.append_assoc, ← hread, hsplit, List.append_assoc]
          rfl
        have hrest := hsilent _ _ htext
        have hstate : stateAfter (first ++ left ++ tokenOpener ++ right) = .clean := by
          rw [← hread, stateAfter_snoc, hclean]
        have hpart : ∀ (read more rest : Bytes), kept (stateAfter read) (more ++ rest) = [] →
            kept (stateAfter (read ++ more)) rest = [] := by
          intro read more rest hnone
          induction more generalizing read with
          | nil => rwa [List.append_nil]
          | cons x more ih =>
            rw [List.cons_append, kept_cons, List.append_eq_nil_iff] at hnone
            have hnext := ih (read ++ [x]) (by rw [stateAfter_snoc]; exact hnone.2)
            rwa [List.append_assoc] at hnext
        have hafter := hpart _ _ _ hrest
        rwa [hstate] at hafter
    · intro hstate hbar hlast
      subst hbar
      rw [hstate] at hkept
      apply habsent
      rw [hkept]
      have hmarker : tokenOpener <:+: released before ++ [0x7C] := opener_snoc.mpr (.inr ⟨hlast, rfl⟩)
      rw [← List.append_assoc]
      exact hmarker.trans (List.prefix_append ..).isInfix
  · intro hfree
    exact ⟨scrubbed_eq deltas ▸ kept_free hfree, fun before after hsplit => silent_of_free hfree hsplit⟩

/-! ## What is given back -/

theorem release_ne_nil (state : ScrubState) (ch : UInt8) :
    (scrubByte state ch).1 ≠ [] ↔ GivesBack state ch := by
  cases state with
  | dead => simp [scrubByte, GivesBack]
  | clean =>
    rw [scrubByte, scrubClean, GivesBack]
    split_ifs <;> simp_all
  | star held =>
    rw [scrubByte, GivesBack]
    split_ifs <;> simp_all
  | fullParen held body =>
    rw [scrubByte, GivesBack, ← contains_iff]
    dsimp only
    simp only [List.length_append, List.length_singleton]
    split_ifs with hthree hopens hmore hcloses hlong
    · simp [hopens, hthree]
    · simp [hopens, hthree]
    · simp [hthree, hcloses]
    · simp [hmore, hcloses, hlong]
    · simp [hthree, hlong]
    · simp [hthree, hmore]
  | angleOpen =>
    rw [scrubByte, GivesBack]
    split_ifs <;> simp_all

theorem release_eq_nil (h : ¬ GivesBack state ch) : (scrubByte state ch).1 = [] := by
  by_contra hne
  exact h ((release_ne_nil state ch).mp hne)

/-- The last byte that is released is the one that is met, but for a `<` whose next byte opens
something. -/
theorem release_getLast? (h : GivesBack state ch) :
    (scrubByte state ch).1.getLast? = some 0x3C ↔ GivesBackAngle state ch := by
  rw [GivesBackAngle, and_iff_right h]
  cases state with
  | dead => exact h.elim
  | clean =>
    rw [scrubByte, scrubClean]
    obtain ⟨hstar, hangle, hwide⟩ := h
    simp [hstar, hangle, hwide]
  | star held =>
    obtain ⟨hstar, hends⟩ := h
    have hgiven : (ch == 0x0A || decide (120 < (held ++ [ch]).length)) = true := by
      rw [List.length_append, Bool.or_eq_true, beq_iff_eq, decide_eq_true_eq]
      exact hends
    rw [scrubByte, if_neg (by simpa using hstar), if_pos hgiven]
    simp
  | fullParen held body =>
    have hne := (release_ne_nil (.fullParen held body) ch).mpr h
    rw [scrubByte] at hne ⊢
    dsimp only at hne ⊢
    split_ifs at hne ⊢ <;> simp_all
  | angleOpen =>
    rw [scrubByte]
    split_ifs with hbar hstar hangle
    · exact absurd (beq_iff_eq.mp hbar) h
    · simp_all
    · simp_all
    · simp_all

theorem heldBack_snoc {first text : Bytes} : HeldBack first (text ++ [ch]) ↔
    HeldBack first text ∧ ¬ GivesBack (stateAfter (first ++ text)) ch := by
  constructor
  · intro h
    refine ⟨fun before x after hsplit => h before x (after ++ [ch]) ?_, h text ch [] rfl⟩
    rw [hsplit, List.append_assoc]
    rfl
  · rintro ⟨hheld, hlast⟩ before x after hsplit
    cases after using List.reverseRecOn with
    | nil =>
      obtain ⟨rfl, hx⟩ := List.append_inj' hsplit rfl
      rwa [← List.singleton_inj.mp hx]
    | append_singleton after y =>
      rw [← List.cons_append, ← List.append_assoc] at hsplit
      obtain ⟨htext, -⟩ := List.append_inj' hsplit rfl
      exact hheld before x after htext

theorem released_getLast? (text : Bytes) :
    (released text).getLast? = some 0x3C ↔ BehindAngle text := by
  induction text using List.reverseRecOn with
  | nil =>
    constructor
    · exact nofun
    · rintro ⟨first, ch, rest, hsplit, -⟩
      simp at hsplit
  | append_singleton text ch ih =>
    rw [released_snoc]
    by_cases hgives : GivesBack (stateAfter text) ch
    · rw [List.getLast?_append_of_ne_nil _ ((release_ne_nil _ _).mpr hgives),
        release_getLast? hgives]
      constructor
      · exact fun hangle => ⟨text, ch, [], rfl, hangle, fun _ _ _ hsplit => by simp at hsplit⟩
      · rintro ⟨first, x, rest, hsplit, hangle, hheld⟩
        cases rest using List.reverseRecOn with
        | nil =>
          obtain ⟨rfl, hx⟩ := List.append_inj' hsplit rfl
          rwa [List.singleton_inj.mp hx]
        | append_singleton rest y =>
          -- the last byte would have been held back
          rw [← List.cons_append, ← List.append_assoc] at hsplit
          obtain ⟨rfl, hy⟩ := List.append_inj' hsplit rfl
          obtain rfl := List.singleton_inj.mp hy
          refine absurd hgives ?_
          have hlast := (heldBack_snoc.mp hheld).2
          rwa [List.append_assoc] at hlast
    · rw [release_eq_nil hgives, List.append_nil, ih]
      constructor
      · rintro ⟨first, x, rest, rfl, hangle, hheld⟩
        refine ⟨first, x, rest ++ [ch], by simp, hangle, heldBack_snoc.mpr ⟨hheld, ?_⟩⟩
        rwa [List.append_assoc]
      · rintro ⟨first, x, rest, hsplit, hangle, hheld⟩
        cases rest using List.reverseRecOn with
        | nil =>
          obtain ⟨rfl, hx⟩ := List.append_inj' hsplit rfl
          obtain rfl := List.singleton_inj.mp hx
          exact absurd hangle.1 hgives
        | append_singleton rest y =>
          rw [← List.cons_append, ← List.append_assoc] at hsplit
          obtain ⟨htext, -⟩ := List.append_inj' hsplit rfl
          exact ⟨first, x, rest, htext, hangle, (heldBack_snoc.mp hheld).1⟩

theorem released_eq_nil (text : Bytes) : released text = [] ↔ HeldBack [] text := by
  induction text using List.reverseRecOn with
  | nil =>
    constructor
    · exact fun _ _ _ _ hsplit => by simp at hsplit
    · exact fun _ => rfl
  | append_singleton text ch ih =>
    rw [released_snoc, List.append_eq_nil_iff, heldBack_snoc, ih, List.nil_append,
      ← release_ne_nil, not_not]

theorem kept_eq_nil (text : Bytes) :
    kept .clean text = [] ↔ HeldBack [] text ∧ stateAfter text ≠ .angleOpen := by
  have hsplit := kept_split text []
  rw [List.append_nil] at hsplit
  rw [hsplit, List.append_eq_nil_iff, released_eq_nil]
  apply and_congr_right
  intro _
  cases stateAfter text with
  | angleOpen => simp [kept, StreamScrubber.feed, StreamScrubber.flush]
  | clean => simp [kept, StreamScrubber.feed, StreamScrubber.flush]
  | dead => simp [kept, StreamScrubber.feed, StreamScrubber.flush]
  | star held => simp [kept, StreamScrubber.feed, StreamScrubber.flush]
  | fullParen held body => simp [kept, StreamScrubber.feed, StreamScrubber.flush]

theorem joinsNoMarker_iff (text : Bytes) : JoinsNoMarker text ↔ MarkerStandsFree text := by
  unfold JoinsNoMarker MarkerStandsFree
  simp only [stateAfter_snoc, ← release_ne_nil, not_not, kept_eq_nil, ne_eq, released_getLast?]

/-- The opener stays out of what is kept exactly when no span hides it and no dropped span joins
it. -/
theorem keepsMarkerOut_iff (deltas : List Bytes) :
    KeepsMarkerOut deltas ↔ MarkerStandsFree deltas.flatten := by
  rw [keepsMarkerOut_iff_joins, joinsNoMarker_iff]

/-- A starred text that ends with its line is given back with the opener in it. -/
theorem keepsMarkerOut_fails : ¬ KeepsMarkerOut [[0x2A, 0x61, 0x3C], [0x7C, 0x62, 0x0A]] := by
  rintro ⟨habsent, -⟩
  apply habsent
  rw [show scrubbed [[0x2A, 0x61, 0x3C], [0x7C, 0x62, 0x0A]] =
    [0x2A, 0x61] ++ tokenOpener ++ [0x62, 0x0A] from by decide]
  exact List.infix_append ..

end FastTts.Hygiene
