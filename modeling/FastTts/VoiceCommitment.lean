import FastTts.VoiceStability

/-!
# The committed prefix

A token is to be committed once the last `stable_hypothesis_count` hypotheses agree on it, and the
committed prefix is only to grow. What is remembered of it is the number of its tokens, and its
text is spelled anew from the newest hypothesis: the promise is kept as long as a hypothesis that
is long enough to spell the prefix starts with the words of the last spelling.
-/

namespace FastTts.Voice

def words (text : Bytes) : List Bytes := (tokenize text).map Token.normalized

/-! ## Cutting a text behind a token -/

/-- What one round of the scan does. -/
structure Scanned where
  emitted : List Token
  length : ℕ
  current : Bytes

def scan (i : ℕ) (byte : UInt8) (rest current : Bytes) : Scanned :=
  if byte < 0x80 then
    if isSpace byte then ⟨flushToken [] current i, 1, []⟩
    else
      let word := if isAlnum byte || byte == 0x27 then current ++ [toLower byte] else current
      if rest.head?.all isSpace then ⟨flushToken [] word (i + 1), 1, []⟩ else ⟨[], 1, word⟩
  else
    let chunk := (byte :: rest).take (sequenceLength byte)
    let next := i + chunk.length
    if sequenceLength byte = 3 ∧ isCjkLead byte then
      if byte == 0xE3 && chunk.getD 1 0 == 0x80 then ⟨flushToken [] current i, chunk.length, []⟩
      else ⟨flushToken [] current i ++ [⟨chunk, next⟩], chunk.length, []⟩
    else if sequenceLength byte = 3 ∧ byte = 0xEF then
      ⟨flushToken [] current i, chunk.length, []⟩
    else if (byte :: rest).drop (sequenceLength byte) = [] then
      ⟨flushToken [] (current ++ chunk) next, chunk.length, []⟩
    else ⟨[], chunk.length, current ++ chunk⟩

theorem sequenceLength_pos (byte : UInt8) : 0 < sequenceLength byte := by
  rw [sequenceLength]
  split_ifs <;> decide

theorem flushToken_append (tokens emitted : List Token) (current : Bytes) (rawEnd : ℕ) :
    flushToken (tokens ++ emitted) current rawEnd =
      tokens ++ flushToken emitted current rawEnd := by
  rw [flushToken, flushToken]
  split_ifs
  · rfl
  · rw [List.append_assoc]

theorem flushToken_nil (tokens : List Token) (rawEnd : ℕ) : flushToken tokens [] rawEnd = tokens :=
  if_pos rfl

theorem tokenizeFrom_nil (fuel i : ℕ) (current : Bytes) (tokens : List Token) :
    tokenizeFrom fuel i [] current tokens = flushToken tokens current i := by
  cases fuel with
  | zero => rfl
  | succ fuel => rfl

theorem drop_take_length (text : Bytes) (n : ℕ) : text.drop (text.take n).length = text.drop n := by
  rw [List.length_take]
  rcases Nat.le_total n text.length with hle | hge
  · rw [min_eq_left hle]
  · rw [min_eq_right hge, List.drop_length, List.drop_eq_nil_of_le hge]

theorem tokenizeFrom_cons (fuel i : ℕ) (byte : UInt8) (rest current : Bytes)
    (tokens : List Token) : tokenizeFrom (fuel + 1) i (byte :: rest) current tokens =
      tokenizeFrom fuel (i + (scan i byte rest current).length)
        ((byte :: rest).drop (scan i byte rest current).length) (scan i byte rest current).current
        (tokens ++ (scan i byte rest current).emitted) := by
  rw [tokenizeFrom, scan]
  dsimp only
  by_cases hascii : byte < 0x80
  · rw [if_pos hascii, if_pos hascii]
    by_cases hspace : isSpace byte = true
    · rw [if_pos hspace, if_pos hspace]
      simp only [← flushToken_append, List.append_nil, List.drop_succ_cons, List.drop_zero]
    · rw [if_neg hspace, if_neg hspace]
      cases rest with
      | nil => simp [← flushToken_append]
      | cons next rest =>
        by_cases hnext : isSpace next = true
        · simp [hnext, ← flushToken_append]
        · simp [hnext]
  · rw [if_neg hascii, if_neg hascii]
    split_ifs with hcjk hpunct hwide hend
    · simp only [drop_take_length, ← flushToken_append, List.append_nil]
    · simp only [drop_take_length, ← flushToken_append, List.append_nil, ← List.append_assoc]
    · simp only [drop_take_length, ← flushToken_append, List.append_nil]
    · simp only [drop_take_length, ← flushToken_append, List.append_nil]
    · simp only [drop_take_length, List.append_nil]

theorem tokenizeFrom_tokens (fuel i : ℕ) (rest current : Bytes) (tokens : List Token) :
    tokenizeFrom fuel i rest current tokens = tokens ++ tokenizeFrom fuel i rest current [] := by
  induction fuel generalizing i rest current tokens with
  | zero => rw [tokenizeFrom, tokenizeFrom, ← flushToken_append, List.append_nil]
  | succ fuel ih =>
    cases rest with
    | nil => rw [tokenizeFrom_nil, tokenizeFrom_nil, ← flushToken_append, List.append_nil]
    | cons byte rest =>
      rw [tokenizeFrom_cons, tokenizeFrom_cons, ih, ih _ _ _ ([] ++ _), List.nil_append,
        List.append_assoc]

theorem scan_length (i : ℕ) (byte : UInt8) (rest current : Bytes) :
    0 < (scan i byte rest current).length ∧
      (scan i byte rest current).length ≤ (byte :: rest).length := by
  have hpos := sequenceLength_pos byte
  have hchunk : 0 < ((byte :: rest).take (sequenceLength byte)).length ∧
      ((byte :: rest).take (sequenceLength byte)).length ≤ (byte :: rest).length := by
    rw [List.length_take, List.length_cons]
    omega
  have hone : 0 < 1 ∧ 1 ≤ (byte :: rest).length := ⟨Nat.one_pos, Nat.le_add_left ..⟩
  rw [scan]
  dsimp only
  split_ifs
  all_goals first | exact hone | exact hchunk

variable {m i k : ℕ} {current : Bytes} {token : Token}

/-- The scan of a text that is cut behind the round sees the same bytes; where the cut is right
behind the round, the end of the text flushes what the next round would flush. -/
theorem scan_cut (i : ℕ) (byte : UInt8) (rest current : Bytes)
    (hm : (scan i byte rest current).length ≤ m + 1) :
    (scan i byte (rest.take m) current).length = (scan i byte rest current).length ∧
      ((scan i byte rest current).length = m + 1 →
        flushToken (scan i byte (rest.take m) current).emitted
            (scan i byte (rest.take m) current).current (i + (m + 1)) =
          flushToken (scan i byte rest current).emitted
            (scan i byte rest current).current (i + (m + 1))) ∧
      ((scan i byte rest current).length < m + 1 →
        scan i byte (rest.take m) current = scan i byte rest current) := by
  by_cases hascii : byte < 0x80
  · rw [scan, scan, if_pos hascii, if_pos hascii]
    by_cases hspace : isSpace byte = true
    · simp only [if_pos hspace, implies_true, and_self]
    · simp only [if_neg hspace]
      generalize (if (isAlnum byte || byte == 0x27) = true then current ++ [toLower byte]
        else current) = word
      cases m with
      | zero =>
        simp only [List.take_zero, List.head?_nil, Option.all_none, if_true]
        split_ifs
        · simp
        · simp [flushToken]
      | succ m =>
        have hhead : (rest.take (m + 1)).head? = rest.head? := by
          cases rest with
          | nil => rfl
          | cons next rest => rfl
        simp only [hhead, implies_true, and_self]
  · -- the chunk lies before the cut
    have hlength : (scan i byte rest current).length =
        ((byte :: rest).take (sequenceLength byte)).length := by
      rw [scan, if_neg hascii]
      dsimp only
      split_ifs <;> rfl
    rw [hlength, List.length_take] at hm
    have hchunk : (byte :: rest.take m).take (sequenceLength byte) =
        (byte :: rest).take (sequenceLength byte) := by
      rw [← List.take_succ_cons, List.take_take, List.take_eq_take_iff]
      omega
    have hdrop : min (sequenceLength byte) (byte :: rest).length < m + 1 →
        ((byte :: rest.take m).drop (sequenceLength byte) = [] ↔
          (byte :: rest).drop (sequenceLength byte) = []) := by
      intro hlt
      rw [List.drop_eq_nil_iff, List.drop_eq_nil_iff, ← List.take_succ_cons, List.length_take]
      omega
    rw [hlength, scan, scan, if_neg hascii, if_neg hascii]
    dsimp only
    rw [hchunk]
    generalize hbytes : (byte :: rest).take (sequenceLength byte) = chunk at *
    have hsize : chunk.length = min (sequenceLength byte) (byte :: rest).length := by
      rw [← hbytes, List.length_take]
    by_cases hcjk : sequenceLength byte = 3 ∧ isCjkLead byte = true
    · simp only [if_pos hcjk, implies_true, and_true]
      split_ifs <;> rfl
    · simp only [if_neg hcjk]
      by_cases hwide : sequenceLength byte = 3 ∧ byte = 0xEF
      · simp only [if_pos hwide, implies_true, and_self]
      · simp only [if_neg hwide]
        refine ⟨by split_ifs <;> rfl, fun heq => ?_, fun hlt => ?_⟩
        · rw [← heq]
          split_ifs <;> simp [flushToken]
        · rw [hsize] at hlt
          rw [if_congr (hdrop hlt) rfl rfl]

variable {rest text : Bytes}

theorem scan_emitted {byte : UInt8} (h : (scan i byte rest current).emitted[k]? = some token) :
    token.rawEnd = i ∧ k = 0 ∧ (scan i byte rest current).emitted.take 1 = flushToken [] current i ∨
      token.rawEnd = i + (scan i byte rest current).length ∧
        (scan i byte rest current).emitted.length = k + 1 ∧
        (scan i byte rest current).current = [] := by
  have hflush : ∀ {word : Bytes} {rawEnd : ℕ}, (flushToken [] word rawEnd)[k]? = some token →
      token.rawEnd = rawEnd ∧ k = 0 ∧ (flushToken [] word rawEnd).length = 1 := by
    intro word rawEnd h
    rw [flushToken] at h ⊢
    split_ifs at h ⊢ with hword
    · simp at h
    · cases k with
      | zero => exact ⟨by rw [← Option.some.inj h], rfl, rfl⟩
      | succ k => simp at h
  rw [scan] at h ⊢
  dsimp only at h ⊢
  have hbefore : (flushToken [] current i)[k]? = some token → token.rawEnd = i ∧ k = 0 ∧
      (flushToken [] current i).take 1 = flushToken [] current i := by
    intro h
    obtain ⟨hend, hk, hone⟩ := hflush h
    exact ⟨hend, hk, List.take_of_length_le hone.le⟩
  generalize (if (isAlnum byte || byte == 0x27) = true then current ++ [toLower byte]
    else current) = word at h ⊢
  split_ifs at h ⊢ with hascii hspace hhead hcjk hpunct hwide hend
  · exact .inl (hbefore h)
  · obtain ⟨hend, rfl, hone⟩ := hflush h
    exact .inr ⟨hend, hone, rfl⟩
  · simp at h
  · exact .inl (hbefore h)
  · dsimp only at h ⊢
    by_cases hk : k < (flushToken [] current i).length
    · rw [List.getElem?_append_left hk] at h
      obtain ⟨hend, rfl, hone⟩ := hflush h
      refine .inl ⟨hend, rfl, ?_⟩
      rw [List.take_append_of_le_length hone.ge, List.take_of_length_le hone.le]
    · rw [List.getElem?_append_right (by omega), List.getElem?_singleton] at h
      split_ifs at h with hzero
      refine .inr ⟨by rw [← Option.some.inj h], ?_, rfl⟩
      rw [List.length_append, List.length_singleton]
      omega
  · exact .inl (hbefore h)
  · obtain ⟨hend, rfl, hone⟩ := hflush h
    exact .inr ⟨hend, hone, rfl⟩
  · simp at h

theorem tokenizeFrom_cut_here (fuel i : ℕ) (byte : UInt8) (rest current : Bytes)
    (hm : (scan i byte rest current).length = m + 1) :
    tokenizeFrom (fuel + 1) i (byte :: rest.take m) current [] =
      flushToken (scan i byte rest current).emitted (scan i byte rest current).current
        (i + (m + 1)) := by
  obtain ⟨hlength, hflush, -⟩ := scan_cut i byte rest current hm.le
  rw [tokenizeFrom_cons, hlength, hm, List.drop_succ_cons,
    List.drop_eq_nil_of_le (List.length_take_le m rest), tokenizeFrom_nil, List.nil_append, hflush hm]

theorem tokenizeFrom_cut_later (fuel i : ℕ) (byte : UInt8) (rest current : Bytes)
    (hm : (scan i byte rest current).length < m + 1) :
    tokenizeFrom (fuel + 1) i (byte :: rest.take m) current [] =
      (scan i byte rest current).emitted ++
        tokenizeFrom fuel (i + (scan i byte rest current).length)
          (((byte :: rest).drop (scan i byte rest current).length).take
            (m + 1 - (scan i byte rest current).length)) (scan i byte rest current).current [] := by
  obtain ⟨-, -, hsame⟩ := scan_cut i byte rest current hm.le
  rw [tokenizeFrom_cons, hsame hm, List.nil_append, tokenizeFrom_tokens, ← List.take_succ_cons,
    List.drop_take]

theorem flushToken_getElem? (h : (flushToken [] current i)[k]? = some token) :
    token.rawEnd = i ∧ (flushToken [] current i).take (k + 1) = flushToken [] current i := by
  rw [flushToken] at h ⊢
  split_ifs at h ⊢ with hcurrent
  · simp at h
  · cases k with
    | zero => exact ⟨by rw [← Option.some.inj h], rfl⟩
    | succ k => simp at h

theorem tokenizeFrom_take {fuel : ℕ} (hfuel : rest.length ≤ fuel)
    (h : (tokenizeFrom fuel i rest current [])[k]? = some token) :
    i ≤ token.rawEnd ∧ ∀ fuel', (rest.take (token.rawEnd - i)).length ≤ fuel' →
      tokenizeFrom fuel' i (rest.take (token.rawEnd - i)) current [] =
        (tokenizeFrom fuel i rest current []).take (k + 1) := by
  induction fuel generalizing i rest current k with
  | zero =>
    obtain rfl := List.length_eq_zero_iff.mp (Nat.le_zero.mp hfuel)
    rw [tokenizeFrom] at h ⊢
    obtain ⟨hend, htake⟩ := flushToken_getElem? h
    exact ⟨hend.ge, fun fuel' _ => by rw [List.take_nil, tokenizeFrom_nil, htake]⟩
  | succ fuel ih =>
    cases rest with
    | nil =>
      rw [tokenizeFrom_nil] at h ⊢
      obtain ⟨hend, htake⟩ := flushToken_getElem? h
      exact ⟨hend.ge, fun fuel' _ => by rw [List.take_nil, tokenizeFrom_nil, htake]⟩
    | cons byte rest =>
      obtain ⟨hpos, hlength⟩ := scan_length i byte rest current
      rw [tokenizeFrom_cons, List.nil_append, tokenizeFrom_tokens] at h ⊢
      by_cases hk : k < (scan i byte rest current).emitted.length
      · rw [List.getElem?_append_left hk] at h
        rcases scan_emitted h with ⟨hend, rfl, hfirst⟩ | ⟨hend, hlast, hcurrent⟩
        · refine ⟨hend.ge, fun fuel' _ => ?_⟩
          rw [hend, Nat.sub_self, List.take_zero, tokenizeFrom_nil, Nat.zero_add,
            List.take_append_of_le_length hk, hfirst]
        · refine ⟨by omega, fun fuel' hfuel' => ?_⟩
          obtain ⟨m, hm⟩ := Nat.exists_eq_succ_of_ne_zero hpos.ne'
          rw [hend, Nat.add_sub_cancel_left, hm, List.take_succ_cons] at hfuel' ⊢
          obtain ⟨more, rfl⟩ := Nat.exists_eq_succ_of_ne_zero (Nat.ne_zero_of_lt hfuel')
          rw [tokenizeFrom_cut_here more i byte rest current hm, hcurrent, flushToken_nil,
            List.take_append_of_le_length hlast.ge, List.take_of_length_le hlast.le]
      · rw [List.getElem?_append_right (by omega)] at h
        have hrest : ((byte :: rest).drop (scan i byte rest current).length).length ≤ fuel := by
          rw [List.length_cons] at hfuel
          rw [List.length_drop, List.length_cons]
          omega
        obtain ⟨hend, hih⟩ := ih hrest h
        refine ⟨by omega, fun fuel' hfuel' => ?_⟩
        obtain ⟨m, hm⟩ := Nat.exists_eq_succ_of_ne_zero
          (show token.rawEnd - i ≠ 0 by omega)
        rw [hm, List.take_succ_cons] at hfuel' ⊢
        obtain ⟨more, rfl⟩ := Nat.exists_eq_succ_of_ne_zero (Nat.ne_zero_of_lt hfuel')
        have htake : (scan i byte rest current).emitted.length ≤ k + 1 := by omega
        rw [List.take_append, List.take_of_length_le htake,
          show k + 1 - (scan i byte rest current).emitted.length =
            k - (scan i byte rest current).emitted.length + 1 from by omega]
        rcases (show (scan i byte rest current).length ≤ m + 1 by omega).eq_or_lt with hhere | hlater
        · have hnext := hih 0
          rw [show token.rawEnd - (i + (scan i byte rest current).length) = 0 from by omega,
            List.take_zero, tokenizeFrom_nil] at hnext
          rw [tokenizeFrom_cut_here more i byte rest current hhere, ← hhere, ← hnext le_rfl,
            ← flushToken_append, List.append_nil]
        · rw [tokenizeFrom_cut_later more i byte rest current hlater]
          have hnext := hih more
          rw [show token.rawEnd - (i + (scan i byte rest current).length) =
            m + 1 - (scan i byte rest current).length from by omega] at hnext
          rw [hnext]
          rw [← List.drop_take, List.take_succ_cons, List.length_drop]
          rw [List.length_cons] at hfuel' ⊢
          omega

theorem tokenize_take (h : (tokenize text)[k]? = some token) :
    tokenize (text.take token.rawEnd) = (tokenize text).take (k + 1) := by
  obtain ⟨-, htake⟩ := tokenizeFrom_take le_rfl h
  rw [Nat.sub_zero] at htake
  exact htake _ le_rfl

theorem words_take (h : (tokenize text)[k]? = some token) :
    words (text.take token.rawEnd) = (words text).take (k + 1) := by
  rw [words, tokenize_take h, words, List.map_take]

/-! ## One update -/

namespace StableTracker

/-- The token lists that the tracker retains with the new hypothesis. -/
def retained (t : StableTracker) (hypothesis : Bytes) : List (List Token) :=
  let pushed := t.history ++ [tokenize hypothesis]
  pushed.drop (pushed.length - toSize t.params.stableHypothesisCount)

/-- The number of committed tokens with the new hypothesis. -/
def agreed (t : StableTracker) (hypothesis : Bytes) : ℕ :=
  if (t.retained hypothesis).length = toSize t.params.stableHypothesisCount then
    max t.committedTokens (commonTokens (t.retained hypothesis))
  else t.committedTokens

/-- The committed prefix is spelled from the new hypothesis. -/
def Respells (t : StableTracker) (hypothesis : Bytes) : Prop :=
  0 < t.agreed hypothesis ∧ t.agreed hypothesis ≤ (tokenize hypothesis).length ∧
    toSize t.params.minStableChars ≤
      (((tokenize hypothesis)[t.agreed hypothesis - 1]?).map Token.rawEnd).getD 0

instance (t : StableTracker) (hypothesis : Bytes) : Decidable (t.Respells hypothesis) :=
  inferInstanceAs (Decidable (_ ∧ _ ∧ _))

/-- A hypothesis from which the prefix is spelled starts with the words that are shown, and the
retained hypotheses agree on the words that it adds. -/
def Keeps (t : StableTracker) (hypothesis : Bytes) : Prop :=
  t.Respells hypothesis → words t.stable <+: words hypothesis ∧
    (t.agreed hypothesis = (words t.stable).length ∨
      t.agreed hypothesis = commonTokens (t.retained hypothesis))

instance (t : StableTracker) (hypothesis : Bytes) : Decidable (t.Keeps hypothesis) :=
  inferInstanceAs (Decidable (_ → _ ∧ _))

/-- The byte offset at which the committed prefix ends in the new hypothesis. -/
def respelledEnd (t : StableTracker) (hypothesis : Bytes) : ℕ :=
  (((tokenize hypothesis)[t.agreed hypothesis - 1]?).map Token.rawEnd).getD 0

section

variable (t : StableTracker) (hypothesis : Bytes)

theorem update_eq : t.update hypothesis =
    if t.Respells hypothesis then
      ({ t with
          hypothesis := hypothesis
          history := t.retained hypothesis
          committedTokens := t.agreed hypothesis
          stable := hypothesis.take (t.respelledEnd hypothesis)
          tentative := (hypothesis.drop (t.respelledEnd hypothesis)).dropWhile (· == 0x20) },
        decide (t.committedTokens < t.agreed hypothesis))
    else if t.stable = [] then
      ({ t with
          hypothesis := hypothesis
          history := t.retained hypothesis
          committedTokens := t.agreed hypothesis
          tentative := hypothesis }, false)
    else
      ({ t with
          hypothesis := hypothesis
          history := t.retained hypothesis
          committedTokens := t.agreed hypothesis }, false) :=
  rfl

theorem update_history : (t.update hypothesis).1.history = t.retained hypothesis := by
  rw [update_eq]
  split_ifs <;> rfl

theorem update_committedTokens : (t.update hypothesis).1.committedTokens = t.agreed hypothesis := by
  rw [update_eq]
  split_ifs <;> rfl

end

variable {hypothesis : Bytes}

theorem words_stable_of_respells {t : StableTracker} (h : t.Respells hypothesis) :
    words (t.update hypothesis).1.stable = (words hypothesis).take (t.agreed hypothesis) := by
  rw [update_eq, if_pos h]
  obtain ⟨hpos, hlength, -⟩ := h
  have htoken := List.getElem?_eq_getElem
    (show t.agreed hypothesis - 1 < (tokenize hypothesis).length by omega)
  dsimp only
  rw [respelledEnd, htoken]
  change words (hypothesis.take ((tokenize hypothesis)[t.agreed hypothesis - 1]).rawEnd) = _
  rw [words_take htoken, Nat.sub_add_cancel hpos]

theorem stable_of_not_respells {t : StableTracker} (h : ¬ t.Respells hypothesis) :
    (t.update hypothesis).1.stable = t.stable := by
  rw [update_eq, if_neg h]
  split_ifs <;> rfl

theorem common_of_lt {history : List (List Token)} {k : ℕ} (h : k < commonTokens history)
    {tokens : List Token} (hmem : tokens ∈ history) :
    (tokens[k]?).map Token.normalized = ((history.headD [])[k]?).map Token.normalized := by
  rw [commonTokens] at h
  have hall := List.mem_takeWhile_imp (List.getElem_mem h)
  rw [List.all_eq_true] at hall
  have hk := hall tokens hmem
  have hindex : ∀ (p : ℕ → Bool) (n : ℕ) (hlt : k < ((List.range n).takeWhile p).length),
      ((List.range n).takeWhile p)[k] = k := by
    intro p n hlt
    have hle := (List.takeWhile_prefix p (l := List.range n)).getElem hlt
    rw [hle, List.getElem_range]
  rw [hindex] at hk
  exact beq_iff_eq.mp hk

end StableTracker

/-! ## Runs -/

/-- The word at place `k` was the same in `count` hypotheses in a row. -/
def AgreedOn (count : ℕ) (hypotheses : List Bytes) (k : ℕ) (word : Bytes) : Prop :=
  ∃ before block after, hypotheses = before ++ block ++ after ∧ block.length = count ∧
    ∀ hypothesis ∈ block, (words hypothesis)[k]? = some word

theorem AgreedOn.snoc {count : ℕ} {hypotheses : List Bytes} {word : Bytes}
    (h : AgreedOn count hypotheses k word) (hypothesis : Bytes) :
    AgreedOn count (hypotheses ++ [hypothesis]) k word := by
  obtain ⟨before, block, after, rfl, hlength, hall⟩ := h
  exact ⟨before, block, after ++ [hypothesis], by simp, hlength, hall⟩

namespace StableTracker

/-- Every update of a run meets the condition. -/
def KeepsAll (t : StableTracker) : List Bytes → Prop
  | [] => True
  | hypothesis :: hypotheses =>
    t.Keeps hypothesis ∧ KeepsAll (t.update hypothesis).1 hypotheses

/-- The words that are shown are only added to, and each of them has been agreed on. -/
structure Commits (t : StableTracker) (hypotheses : List Bytes) : Prop where
  grows : ∀ before hypothesis after, hypotheses = before ++ hypothesis :: after →
    words (t.feed before).stable <+: words (t.feed (before ++ [hypothesis])).stable
  agreed : ∀ before after, hypotheses = before ++ after → ∀ k word,
    (words (t.feed before).stable)[k]? = some word →
      AgreedOn (toSize t.params.stableHypothesisCount) before k word

/-- What the tracker remembers of the hypotheses since the last reset. -/
structure Remembers (count : ℕ) (hypotheses : List Bytes) (t : StableTracker) : Prop where
  params : toSize t.params.stableHypothesisCount = count
  history : t.history = (hypotheses.map tokenize).drop (hypotheses.length - count)
  shown : (words t.stable).length ≤ t.committedTokens
  full : 0 < t.committedTokens → count ≤ hypotheses.length
  agreed : ∀ k word, (words t.stable)[k]? = some word → AgreedOn count hypotheses k word

variable {count : ℕ} {hypotheses : List Bytes} {t : StableTracker}

theorem retained_eq (h : Remembers count hypotheses t) (hypothesis : Bytes) :
    t.retained hypothesis = ((hypotheses ++ [hypothesis]).drop
      (hypotheses.length + 1 - count)).map tokenize := by
  rw [retained, h.params, h.history, List.map_drop, List.map_append, List.map_singleton]
  rw [List.length_append, List.length_drop, List.length_map, List.length_singleton]
  rcases Nat.lt_or_ge hypotheses.length count with hfew | hmany
  · rw [show hypotheses.length - count = 0 by omega, List.drop_zero]
    congr 1
  · rw [← List.drop_append_of_le_length (by simp), List.drop_drop]
    congr 1
    omega

variable {hypothesis : Bytes}

theorem agreedOn_common (h : Remembers count hypotheses t) {k : ℕ} {word : Bytes}
    (hfull : (t.retained hypothesis).length = count) (hk : k < commonTokens (t.retained hypothesis))
    (hword : (words hypothesis)[k]? = some word) :
    AgreedOn count (hypotheses ++ [hypothesis]) k word := by
  rw [retained_eq h] at hfull hk
  rw [List.length_map] at hfull
  refine ⟨(hypotheses ++ [hypothesis]).take (hypotheses.length + 1 - count), _, [], ?_, hfull, ?_⟩
  · rw [List.append_nil, List.take_append_drop]
  · intro other hother
    have hnewest : hypothesis ∈ (hypotheses ++ [hypothesis]).drop (hypotheses.length + 1 - count) := by
      have hpos := List.length_pos_of_mem hother
      rw [List.length_drop, List.length_append, List.length_singleton] at hpos
      rw [List.drop_append_of_le_length (by omega)]
      exact List.mem_append_right _ (List.mem_singleton_self _)
    have hsame := (common_of_lt hk (List.mem_map_of_mem hother)).trans
      (common_of_lt hk (List.mem_map_of_mem hnewest)).symm
    rw [words, List.getElem?_map] at hword ⊢
    exact hsame.trans hword

theorem Remembers.update (h : Remembers count hypotheses t) (hkeeps : t.Keeps hypothesis) :
    Remembers count (hypotheses ++ [hypothesis]) (t.update hypothesis).1 ∧
      words t.stable <+: words (t.update hypothesis).1.stable := by
  have hcommitted : t.committedTokens ≤ t.agreed hypothesis := by
    rw [StableTracker.agreed]
    split_ifs
    · exact le_max_left ..
    · exact le_rfl
  have hretained : (t.retained hypothesis).length = min count (hypotheses.length + 1) := by
    rw [retained_eq h, List.length_map, List.length_drop, List.length_append, List.length_singleton]
    omega
  have hfull : 0 < t.agreed hypothesis → count ≤ hypotheses.length + 1 := by
    intro hpos
    by_contra hfew
    rw [StableTracker.agreed, h.params, if_neg (by omega)] at hpos
    have := h.full hpos
    omega
  have hlength : (hypotheses ++ [hypothesis]).length = hypotheses.length + 1 := List.length_append
  have hhistory := (update_history t hypothesis).trans (retained_eq h hypothesis)
  rw [← hlength, List.map_drop] at hhistory
  by_cases hrespells : t.Respells hypothesis
  · obtain ⟨hstarts, hadds⟩ := hkeeps hrespells
    have hwords := words_stable_of_respells hrespells
    obtain ⟨hpos, henough, -⟩ := hrespells
    have hgrows : words t.stable <+: words (t.update hypothesis).1.stable := by
      rw [hwords, List.prefix_take_iff]
      exact ⟨hstarts, h.shown.trans hcommitted⟩
    refine ⟨⟨?_, hhistory, ?_, ?_, ?_⟩, hgrows⟩
    · rw [update_params, h.params]
    · rw [hwords, update_committedTokens]
      exact List.length_take_le ..
    · intro _
      rw [hlength]
      exact hfull hpos
    · intro k word hword
      rw [hwords, List.getElem?_take] at hword
      split_ifs at hword with hlt
      by_cases hshown : k < (words t.stable).length
      · obtain ⟨more, hmore⟩ := hstarts
        rw [← hmore, List.getElem?_append_left hshown] at hword
        exact (h.agreed k word hword).snoc hypothesis
      · have hcommon : t.agreed hypothesis = commonTokens (t.retained hypothesis) := by
          rcases hadds with hsame | hcommon
          · omega
          · exact hcommon
        have hfull := hfull hpos
        exact agreedOn_common h (by omega) (hcommon ▸ hlt) hword
  · have hstable := stable_of_not_respells hrespells
    rw [hstable]
    refine ⟨⟨?_, hhistory, ?_, ?_, ?_⟩, List.prefix_rfl⟩
    · rw [update_params, h.params]
    · rw [hstable, update_committedTokens]
      exact h.shown.trans hcommitted
    · intro hpos
      rw [update_committedTokens] at hpos
      rw [hlength]
      exact hfull hpos
    · intro k word hword
      rw [hstable] at hword
      exact (h.agreed k word hword).snoc hypothesis

theorem feed_snoc (t : StableTracker) (hypotheses : List Bytes) (hypothesis : Bytes) :
    t.feed (hypotheses ++ [hypothesis]) = ((t.feed hypotheses).update hypothesis).1 :=
  List.foldl_concat ..

theorem keepsAll_append (t : StableTracker) (before after : List Bytes) :
    t.KeepsAll (before ++ after) ↔ t.KeepsAll before ∧ (t.feed before).KeepsAll after := by
  induction before generalizing t with
  | nil => exact (and_iff_right trivial).symm
  | cons hypothesis before ih =>
    rw [List.cons_append, KeepsAll, KeepsAll, ih, and_assoc]
    rfl

theorem remembers_new (params : StabilityParams) :
    Remembers (toSize (new params).params.stableHypothesisCount) [] (new params) where
  params := rfl
  history := by simp [new]
  shown := Nat.le_refl 0
  full := fun h => absurd h (Nat.lt_irrefl 0)
  agreed := fun k word h => by simp [new, words, tokenize, tokenizeFrom, flushToken] at h

theorem remembers_feed (params : StabilityParams) (hypotheses : List Bytes)
    (h : (new params).KeepsAll hypotheses) :
    Remembers (toSize (new params).params.stableHypothesisCount) hypotheses
      ((new params).feed hypotheses) := by
  induction hypotheses using List.reverseRecOn with
  | nil => exact remembers_new params
  | append_singleton hypotheses hypothesis ih =>
    rw [keepsAll_append] at h
    rw [feed_snoc]
    exact ((ih h.1).update h.2.1).1

/-- As long as the hypotheses keep to what is shown, the commitment is kept since the last reset. -/
theorem commits_of_keepsAll (params : StabilityParams) (earlier hypotheses : List Bytes)
    (h : ((new params).feed earlier).reset.KeepsAll hypotheses) :
    ((new params).feed earlier).reset.Commits hypotheses := by
  rw [reset_feed_new] at h ⊢
  constructor
  · rintro before hypothesis after rfl
    obtain ⟨hbefore, hkeeps, -⟩ := (keepsAll_append ..).mp h
    rw [feed_snoc]
    exact ((remembers_feed params before hbefore).update hkeeps).2
  · rintro before after rfl
    obtain ⟨hbefore, -⟩ := (keepsAll_append ..).mp h
    exact (remembers_feed params before hbefore).agreed

/-- A hypothesis that spells a known word differently at first, and is then agreed upon. -/
theorem commits_light : ((new {}).feed [bytes "play"]).reset.Commits
    [bytes "turn on the light", bytes "Turn on the lights, now", bytes "turn on the lights now"] :=
  commits_of_keepsAll {} [bytes "play"] _ (by
    rw [reset_feed_new]
    exact ⟨by decide, by decide, by decide, trivial⟩)

/-- Two revised words are enough to spell two committed words. -/
theorem commits_fails : ¬ ((new {}).feed []).reset.Commits
    [bytes "turn on", bytes "turn on", bytes "burn up now"] := by
  intro h
  have hgrows := h.grows [bytes "turn on", bytes "turn on"] (bytes "burn up now") [] rfl
  exact absurd hgrows (by decide)

end StableTracker

end FastTts.Voice
