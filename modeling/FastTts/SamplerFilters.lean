import FastTts.HfSampler
import FastTts.ScoreFilters
import FastTts.StdSort
import Mathlib.Tactic.Linarith

/-!
# Top-k and top-p in exact numbers

With exact arithmetic `apply_top_k` is a cut of the scores and `apply_top_p` a removal up to a
mass. A token is an `int32_t`, so both need scores whose indices fit in one.
-/

namespace FastTts.HfSampler

open TorchRandom StdSort MassRemoval ScoreFilters

variable {K G : Type}

/-! ## Tokens -/

theorem tokenOf_eq {index : ℕ} (h : index < 2 ^ 31) : tokenOf index = index := by
  unfold tokenOf
  exact Int.bmod_eq_of_le (by omega) (by omega)

theorem tokens_nonneg {count : ℕ} (h : count ≤ 2 ^ 31) :
    ((List.range count).map tokenOf).any (· < 0) = false := by
  rw [List.any_eq_false]
  intro token htoken
  obtain ⟨index, hindex, rfl⟩ := List.mem_map.mp htoken
  rw [List.mem_range] at hindex
  rw [tokenOf_eq (by omega)]
  simp

section Exact

variable [Field K] [LinearOrder K]

/-- The arithmetic of the filters is exact. A score is a number or `-inf`, and the weight of a
score is any positive number. -/
structure Exact (arithmetic : Arithmetic (WithBot K) K) : Prop where
  less : ∀ a b, arithmetic.float.less a b = decide (a < b)
  equal : ∀ a b, arithmetic.float.equal a b = decide (a = b)
  isFinite : ∀ a, arithmetic.float.isFinite a = decide (a ≠ ⊥)
  zero : arithmetic.float.zero = ((0 : K) : WithBot K)
  one : arithmetic.float.one = ((1 : K) : WithBot K)
  negativeInfinity : arithmetic.float.negativeInfinity = ⊥
  sub : ∀ a b : K, arithmetic.float.sub a b = ((a - b : K) : WithBot K)
  toDouble : ∀ a : K, arithmetic.toDouble a = a
  doubleLess : ∀ a b, arithmetic.double.less a b = decide (a < b)
  doubleLessEqual : ∀ a b, arithmetic.double.lessEqual a b = decide (a ≤ b)
  doubleIsFinite : ∀ a, arithmetic.double.isFinite a = true
  doubleZero : arithmetic.double.zero = 0
  doubleOne : arithmetic.double.one = 1
  doubleAdd : ∀ a b, arithmetic.double.add a b = a + b
  doubleSub : ∀ a b, arithmetic.double.sub a b = a - b
  doubleDiv : ∀ a b, arithmetic.double.div a b = a / b
  exp_pos : ∀ a, 0 < arithmetic.double.exp a

variable {arithmetic : Arithmetic (WithBot K) K} {library : Library K G}

variable {minTokensToKeep : ℤ} {scores : List (WithBot K)} {index place : ℕ} {order : List ℕ}

omit [Field K] [LinearOrder K] in
theorem requireMinTokens_eq (h : 1 ≤ minTokensToKeep) :
    (requireMinTokens minTokensToKeep : ScratchM (WithBot K) K Unit) = pure () :=
  if_neg (by omega)

omit [Field K] [LinearOrder K] in
theorem scoreAt_eq (h : index < scores.length) :
    scoreAt arithmetic scores (index : ℤ) = scoreOf scores index := by
  rw [scoreAt, Int.toNat_natCast, scoreOf_eq_getElem h, List.getD_eq_getElem _ _ h]

/-! ## Top-k -/

theorem Exact.less_eq_byKey (h : Exact arithmetic) (scores : List (WithBot K)) :
    (fun lhs rhs => arithmetic.float.less (scoreAt arithmetic scores rhs)
      (scoreAt arithmetic scores lhs)) =
      byKey fun token => OrderDual.toDual (scoreAt arithmetic scores token) := by
  funext lhs rhs
  rw [h.less]
  rfl

omit [Field K] in
theorem exists_nth (arithmetic : Arithmetic (WithBot K) K) (hlibrary : Selects library.nthElement)
    (hlength : scores.length ≤ 2 ^ 31) (hplace : place < scores.length) :
    ∃ index < scores.length, (library.nthElement (byKey fun token =>
      OrderDual.toDual (scoreAt arithmetic scores token)) place
      ((List.range scores.length).map tokenOf))[place]? = some (index : ℤ) := by
  have hperm := hlibrary.perm _ (strictWeak_byKey fun token =>
    OrderDual.toDual (scoreAt arithmetic scores token)) place
    ((List.range scores.length).map tokenOf)
  have hcount := hperm.length_eq
  rw [List.length_map, List.length_range] at hcount
  have hnth := List.getElem?_eq_getElem (hplace.trans_eq hcount.symm)
  obtain ⟨index, hindex, htoken⟩ := List.mem_map.mp (hperm.mem_iff.mp (List.mem_of_getElem? hnth))
  rw [List.mem_range] at hindex
  rw [tokenOf_eq (by omega)] at htoken
  exact ⟨index, hindex, htoken ▸ hnth⟩

omit [Field K] in
theorem keep_le_countP (hlibrary : Selects library.nthElement) (hlength : scores.length ≤ 2 ^ 31)
    (hindex : index < scores.length)
    (hnth : (library.nthElement (byKey fun token =>
      OrderDual.toDual (scoreAt arithmetic scores token)) place
      ((List.range scores.length).map tokenOf))[place]? = some (index : ℤ)) :
    place + 1 ≤ scores.countP (scoreOf scores index ≤ ·) := by
  have hcount := hlibrary.le_countP
    (fun token => OrderDual.toDual (scoreAt arithmetic scores token)) hnth
  rw [List.countP_map] at hcount
  refine hcount.trans (le_of_eq ?_)
  rw [← countP_scores]
  refine List.countP_congr fun other hother => ?_
  rw [List.mem_range] at hother
  simp only [Function.comp_apply, OrderDual.toDual_le_toDual, decide_eq_true_iff]
  rw [tokenOf_eq (by omega), scoreAt_eq hother, scoreAt_eq hindex]

section

variable (h : Exact arithmetic)
include h

theorem keepFrom_eq {order : List ℤ} (hindex : index < scores.length)
    (hnth : order[place]? = some (index : ℤ)) :
    keepFrom arithmetic scores order place =
      .ok (scores.map fun score => if score < scoreOf scores index then ⊥ else score) := by
  have hthreshold : scores[index]? = some (scoreOf scores index) := by
    rw [scoreOf_eq_getElem hindex, List.getElem?_eq_getElem hindex]
  rw [keepFrom]
  simp only [hnth, Int.toNat_natCast, hthreshold, h.less, h.negativeInfinity, decide_eq_true_iff]

theorem applyTopK_cut (hlibrary : Selects library.nthElement) (hlength : scores.length ≤ 2 ^ 31)
    (topK : ℤ) (hmin : 1 ≤ minTokensToKeep) (scratch : HfSamplerScratch (WithBot K) K) :
    ∃ kept threshold scratch',
      applyTopK arithmetic library scores topK minTokensToKeep scratch = .ok kept scratch' ∧
        Cut (max topK minTokensToKeep) scores kept threshold := by
  unfold applyTopK
  rw [requireMinTokens_eq hmin]
  by_cases hall : topK ≤ 0 ∨ scores = [] ∨
      (scores.length : ℤ) ≤ min (scores.length : ℤ) (max topK minTokensToKeep)
  · exact ⟨scores, ⊥, scratch, congrFun (if_pos hall) scratch, Cut.refl _ scores⟩
  · have hshort : min (scores.length : ℤ) (max topK minTokensToKeep) < scores.length := by
      simp only [not_or, not_le] at hall
      exact hall.2.2
    have hkeep : min (scores.length : ℤ) (max topK minTokensToKeep) = max topK minTokensToKeep := by
      omega
    obtain ⟨index, hindex, hnth⟩ := exists_nth arithmetic hlibrary hlength
      (by omega : (max topK minTokensToKeep - 1).toNat < scores.length)
    have henough := keep_le_countP hlibrary hlength hindex hnth
    rw [← h.less_eq_byKey] at hnth
    generalize horder : library.nthElement (fun lhs rhs => arithmetic.float.less
      (scoreAt arithmetic scores rhs) (scoreAt arithmetic scores lhs))
      (max topK minTokensToKeep - 1).toNat ((List.range scores.length).map tokenOf) = order at hnth
    refine ⟨scores.map fun score => if score < scoreOf scores index then ⊥ else score,
      scoreOf scores index,
      HfSamplerScratch.forgetProbabilities { scratch with candidates := order }, ?_,
      ⟨rfl, ?_, .inr (by omega)⟩⟩
    · refine (congrFun (if_neg hall) scratch).trans ?_
      dsimp only
      rw [if_neg (by rw [tokens_nonneg hlength]; exact Bool.false_ne_true), hkeep, horder,
        keepFrom_eq h hindex hnth]
    · intro score hfew
      by_contra hlow
      have hmore : scores.countP (scoreOf scores index ≤ ·) ≤ scores.countP (score < ·) :=
        List.countP_mono_left fun other _ hother =>
          decide_eq_true ((not_le.mp hlow).trans_le (of_decide_eq_true hother))
      omega

/-! ## Top-p -/

theorem finiteTokens_eq (hlength : scores.length ≤ 2 ^ 31) :
    finiteTokens arithmetic scores = (finiteIndices scores).map fun index : ℕ => (index : ℤ) := by
  have hzip : scores.zipIdx =
      (List.range scores.length).map fun index => (scoreOf scores index, index) := by
    refine List.ext_getElem (by simp) fun index hindex hindex' => ?_
    rw [List.length_zipIdx] at hindex
    simp [scoreOf_eq_getElem hindex]
  rw [finiteTokens, hzip, List.filter_map, List.map_map, finiteIndices]
  simp only [Function.comp_def, h.isFinite]
  refine List.map_congr_left fun index hindex => ?_
  have hindex := List.mem_range.mp (List.mem_filter.mp hindex).1
  exact tokenOf_eq (by omega)

theorem Exact.tokenBefore_eq (scores : List (WithBot K)) :
    tokenBefore arithmetic scores =
      byKey fun token => toLex (scoreAt arithmetic scores token, token) := by
  funext lhs rhs
  rw [tokenBefore, h.equal, h.less, byKey]
  by_cases heq : scoreAt arithmetic scores lhs = scoreAt arithmetic scores rhs
  · simp [Prod.Lex.toLex_lt_toLex, heq]
  · simp [Prod.Lex.toLex_lt_toLex, heq]

end

/-- The tokens in the order in which top-p looks at them. -/
def rankedTokens (arithmetic : Arithmetic (WithBot K) K) (scores : List (WithBot K)) : List ℤ :=
  (finiteTokens arithmetic scores).mergeSort fun lhs rhs => !tokenBefore arithmetic scores rhs lhs

theorem exists_ranked (h : Exact arithmetic) (hlength : scores.length ≤ 2 ^ 31) :
    ∃ order, rankedTokens arithmetic scores = order.map (fun index : ℕ => (index : ℤ)) ∧
      Ranked scores order := by
  have hperm : (rankedTokens arithmetic scores).Perm
      ((finiteIndices scores).map fun index : ℕ => (index : ℤ)) := by
    rw [← finiteTokens_eq h hlength]
    exact List.mergeSort_perm _ _
  have hsorted : (rankedTokens arithmetic scores).Pairwise fun lhs rhs =>
      scoreAt arithmetic scores lhs ≤ scoreAt arithmetic scores rhs := by
    have htrans : ∀ a b c, (!tokenBefore arithmetic scores b a) = true →
        (!tokenBefore arithmetic scores c b) = true →
        (!tokenBefore arithmetic scores c a) = true := by
      intro a b c hab hbc
      rw [h.tokenBefore_eq, Bool.not_eq_true', byKey_eq_false] at hab hbc ⊢
      exact hab.trans hbc
    have htotal : ∀ a b, (!tokenBefore arithmetic scores b a ||
        !tokenBefore arithmetic scores a b) = true := by
      intro a b
      rw [h.tokenBefore_eq, Bool.or_eq_true, Bool.not_eq_true', Bool.not_eq_true', byKey_eq_false,
        byKey_eq_false]
      exact le_total _ _
    refine (List.pairwise_mergeSort htrans htotal _).imp fun {lhs rhs} hle => ?_
    rw [h.tokenBefore_eq, Bool.not_eq_true', byKey_eq_false] at hle
    exact Prod.Lex.monotone_fst _ _ hle
  have hcast : ((rankedTokens arithmetic scores).map Int.toNat).map (fun index : ℕ => (index : ℤ)) =
      rankedTokens arithmetic scores := by
    rw [List.map_map]
    conv_rhs => rw [← List.map_id (rankedTokens arithmetic scores)]
    refine List.map_congr_left fun token htoken => ?_
    obtain ⟨index, -, rfl⟩ := List.mem_map.mp (hperm.mem_iff.mp htoken)
    rfl
  have hindices : ((rankedTokens arithmetic scores).map Int.toNat).Perm (finiteIndices scores) := by
    have hback := hperm.map Int.toNat
    rw [List.map_map] at hback
    exact hback.trans (List.Perm.of_eq (List.map_id _))
  refine ⟨_, hcast.symm, hindices, ?_⟩
  rw [← hcast] at hsorted
  rw [List.pairwise_map] at hsorted
  refine hsorted.imp_of_mem fun {lhs rhs} hlhs hrhs hle => ?_
  rwa [scoreAt_eq (lt_length_of_scoreOf (mem_finiteIndices.mp (hindices.mem_iff.mp hlhs))),
    scoreAt_eq (lt_length_of_scoreOf (mem_finiteIndices.mp (hindices.mem_iff.mp hrhs)))] at hle

theorem foldl_topPStep [IsStrictOrderedRing K] (h : Exact arithmetic) {total limit : K}
    (protectedFrom : ℕ) (items : List (ℤ × K)) (hmass : ∀ item ∈ items, 0 ≤ item.2 / total)
    (start : ℕ) (loop : TopP (WithBot K) K) :
    ((items.zipIdx start).foldl (topPStep arithmetic total limit protectedFrom) loop).scores =
      without loop.scores (((items.map fun item => item.1.toNat)).take
        (removedCount limit (protectedFrom - start) loop.cumulative
          (items.map fun item => item.2 / total))) := by
  induction items generalizing start loop with
  | nil => rfl
  | cons item items ih =>
    have hrest : ∀ other ∈ items, 0 ≤ other.2 / total :=
      fun other hother => hmass other (List.mem_cons_of_mem _ hother)
    rw [List.zipIdx_cons, List.foldl_cons, ih hrest, List.map_cons, List.map_cons, removedCount]
    simp only [topPStep, h.doubleAdd, h.doubleDiv, h.doubleLessEqual, h.negativeInfinity,
      decide_eq_true_iff]
    by_cases hstep : start < protectedFrom ∧ loop.cumulative + item.2 / total ≤ limit
    · have hcap : protectedFrom - (start + 1) = protectedFrom - start - 1 := by omega
      rw [if_pos hstep, if_pos ⟨by omega, hstep.2⟩, List.take_succ_cons, hcap]
      rfl
    · have hdone : protectedFrom - (start + 1) = 0 ∨
          limit < loop.cumulative + item.2 / total := by
        by_cases hlimit : loop.cumulative + item.2 / total ≤ limit
        · left
          have hstart : ¬ start < protectedFrom := fun hstart => hstep ⟨hstart, hlimit⟩
          omega
        · exact .inr (not_le.mp hlimit)
      have hnot : ¬(0 < protectedFrom - start ∧ loop.cumulative + item.2 / total ≤ limit) :=
        fun hpos => hstep ⟨by omega, hpos.2⟩
      rw [if_neg hstep, if_neg hnot]
      dsimp only
      have hmasses : ∀ mass ∈ items.map (fun item => item.2 / total), 0 ≤ mass := by
        intro mass hmem
        obtain ⟨other, hother, rfl⟩ := List.mem_map.mp hmem
        exact hrest other hother
      rw [removedCount_eq_zero _ hmasses hdone]
      rfl

theorem weightOf_eq (h : Exact arithmetic) (hindex : scoreOf scores index ≠ ⊥) :
    weightOf arithmetic scores ((topScore scores : K) : WithBot K) (index : ℤ) =
      weightAt arithmetic.double.exp scores index := by
  rw [weightOf, scoreAt_eq (lt_length_of_scoreOf hindex), weightAt, if_neg hindex]
  nth_rewrite 1 [← coe_unbotD hindex]
  rw [h.sub, h.toDouble]

theorem foldl_add (h : Exact arithmetic) (weights : List K) :
    weights.foldl arithmetic.double.add arithmetic.double.zero = weights.sum := by
  have hadd : arithmetic.double.add = fun a b => a + b := funext fun a => funext (h.doubleAdd a)
  rw [hadd, h.doubleZero]
  exact List.sum_eq_foldl.symm

theorem sum_weights {exp : K → K} (h : Ranked scores order) :
    (order.map (weightAt exp scores)).sum = totalWeight exp scores := by
  have hset : order.toFinset ⊆ Finset.range scores.length := by
    intro index hindex
    rw [List.mem_toFinset, h.mem_iff] at hindex
    exact Finset.mem_range.mpr (lt_length_of_scoreOf hindex)
  rw [← List.sum_toFinset _ h.nodup, totalWeight]
  refine Finset.sum_subset hset fun index _ hout => ?_
  rw [List.mem_toFinset, h.mem_iff, not_not] at hout
  exact if_pos hout

def rankedWeights (arithmetic : Arithmetic (WithBot K) K) (scores : List (WithBot K)) : List K :=
  (rankedTokens arithmetic scores).map (weightOf arithmetic scores
    (scoreAt arithmetic scores ((rankedTokens arithmetic scores).getLastD 0)))

theorem rankedWeights_eq (h : Exact arithmetic)
    (hranked : rankedTokens arithmetic scores = order.map fun index : ℕ => (index : ℤ))
    (horder : Ranked scores order) :
    rankedWeights arithmetic scores = order.map (weightAt arithmetic.double.exp scores) := by
  by_cases hnone : order = []
  · rw [rankedWeights, hranked, hnone]
    rfl
  · have hmax : scoreAt arithmetic scores ((rankedTokens arithmetic scores).getLastD 0) =
        ((topScore scores : K) : WithBot K) := by
      rw [hranked, List.getLastD_eq_getLast?, List.getLast?_map,
        List.getLast?_eq_some_getLast hnone, Option.map_some, Option.getD_some,
        scoreAt_eq (lt_length_of_scoreOf (horder.mem_iff.mp (List.getLast_mem hnone))),
        horder.scoreOf_getLast hnone]
    rw [rankedWeights, hmax, hranked, List.map_map]
    exact List.map_congr_left fun index hindex => weightOf_eq h (horder.mem_iff.mp hindex)

theorem totalWeight_pos [IsStrictOrderedRing K] (h : Exact arithmetic)
    (horder : Ranked scores order) (hne : order ≠ []) :
    0 < totalWeight arithmetic.double.exp scores := by
  rw [← sum_weights horder]
  refine List.sum_pos _ ?_ (by simpa using hne)
  intro weight hweight
  obtain ⟨index, hindex, rfl⟩ := List.mem_map.mp hweight
  rw [weightAt, if_neg (horder.mem_iff.mp hindex)]
  exact h.exp_pos _

theorem topPLoop_scores [IsStrictOrderedRing K] (h : Exact arithmetic)
    (hranked : rankedTokens arithmetic scores = order.map fun index : ℕ => (index : ℤ))
    (horder : Ranked scores order) (hne : order ≠ []) (limit : K) (minKeep : ℕ) :
    (((rankedTokens arithmetic scores).zip (rankedWeights arithmetic scores)).zipIdx.foldl
      (topPStep arithmetic (totalWeight arithmetic.double.exp scores) limit
        ((rankedTokens arithmetic scores).length -
          min minKeep (rankedTokens arithmetic scores).length))
      ⟨arithmetic.double.zero, scores, []⟩).scores =
      withoutLowest arithmetic.double.exp limit minKeep scores order := by
  have htotal := totalWeight_pos h horder hne
  have hitems : (rankedTokens arithmetic scores).zip (rankedWeights arithmetic scores) =
      order.map fun index : ℕ => ((index : ℤ), weightAt arithmetic.double.exp scores index) := by
    rw [rankedWeights_eq h hranked horder, hranked]
    exact List.zip_map'
  have hpos : ∀ item ∈ order.map fun index : ℕ =>
      ((index : ℤ), weightAt arithmetic.double.exp scores index),
      0 ≤ item.2 / totalWeight arithmetic.double.exp scores := by
    intro item hitem
    obtain ⟨index, hindex, rfl⟩ := List.mem_map.mp hitem
    rw [weightAt, if_neg (horder.mem_iff.mp hindex)]
    exact div_nonneg (h.exp_pos _).le htotal.le
  rw [hitems, foldl_topPStep h _ _ hpos, List.map_map, List.map_map, h.doubleZero, withoutLowest,
    trimCount, hranked, List.length_map]
  have hindices : order.map ((fun item : ℤ × K => item.1.toNat) ∘ fun index : ℕ =>
      ((index : ℤ), weightAt arithmetic.double.exp scores index)) = order :=
    List.map_id order
  rw [hindices]
  rfl

theorem applyTopP_trimmed [IsStrictOrderedRing K] (h : Exact arithmetic)
    (hlength : scores.length ≤ 2 ^ 31) (data : ℕ) {topP : K} (hpos : 0 ≤ topP) (hlt : topP < 1)
    (hmin : 1 ≤ minTokensToKeep) (scratch : HfSamplerScratch (WithBot K) K) :
    ∃ kept scratch', applyTopP arithmetic scores data (topP : WithBot K) minTokensToKeep scratch =
        .ok kept scratch' ∧
      Trimmed arithmetic.double.exp (1 - topP) minTokensToKeep.toNat scores kept := by
  obtain ⟨order, hranked, horder⟩ := exists_ranked h hlength
  have htrimmed : Trimmed arithmetic.double.exp (1 - topP) minTokensToKeep.toNat scores _ :=
    horder.trimmed (sub_nonneg.mpr hlt.le)
  have hbelow : ¬ ¬ arithmetic.float.less (topP : WithBot K) arithmetic.float.one = true := by
    rw [not_not, h.less, h.one, decide_eq_true_iff, WithBot.coe_lt_coe]
    exact hlt
  have hvalid : ¬(arithmetic.float.less (topP : WithBot K) arithmetic.float.zero = true ∨
      ¬ arithmetic.float.isFinite (topP : WithBot K) = true) := by
    rw [h.less, h.zero, h.isFinite, decide_eq_true_iff, decide_eq_true_iff, WithBot.coe_lt_coe,
      not_or, not_not, not_lt]
    exact ⟨hpos, WithBot.coe_ne_bot⟩
  unfold applyTopP
  rw [requireMinTokens_eq hmin, if_neg hbelow, if_neg hvalid]
  have hperm : (rankedTokens arithmetic scores).Perm (finiteTokens arithmetic scores) :=
    List.mergeSort_perm _ _
  by_cases hnone : order = []
  · have hkept : withoutLowest arithmetic.double.exp (1 - topP) minTokensToKeep.toNat scores
        order = scores := by
      rw [hnone]
      rfl
    rw [hkept] at htrimmed
    have htokens : finiteTokens arithmetic scores = [] := by
      rw [hranked, hnone] at hperm
      exact hperm.nil_eq.symm
    by_cases hempty : scores = []
    · exact ⟨scores, scratch, congrFun (if_pos hempty) scratch, htrimmed⟩
    · exact ⟨scores, _, (congrFun (if_neg hempty) scratch).trans (if_pos htokens), htrimmed⟩
  · have hempty : scores ≠ [] := by
      rintro rfl
      exact hnone horder.perm.eq_nil
    have htokens : finiteTokens arithmetic scores ≠ [] := by
      intro hnil
      rw [hnil, hranked, List.perm_nil, List.map_eq_nil_iff] at hperm
      exact hnone hperm
    have hany : ¬ (finiteTokens arithmetic scores).any (· < 0) = true := by
      rw [finiteTokens_eq h hlength]
      simp
    have hsum : (rankedWeights arithmetic scores).foldl arithmetic.double.add
        arithmetic.double.zero = totalWeight arithmetic.double.exp scores := by
      rw [rankedWeights_eq h hranked horder, foldl_add h, sum_weights horder]
    have hmass : ¬(¬ arithmetic.double.less arithmetic.double.zero
        ((rankedWeights arithmetic scores).foldl arithmetic.double.add
          arithmetic.double.zero) = true ∨
        ¬ arithmetic.double.isFinite ((rankedWeights arithmetic scores).foldl
          arithmetic.double.add arithmetic.double.zero) = true) := by
      rw [hsum, h.doubleZero, h.doubleLess, h.doubleIsFinite, decide_eq_true_iff]
      simpa using totalWeight_pos h horder hnone
    have hlimit : arithmetic.double.sub arithmetic.double.one
        (arithmetic.toDouble (topP : WithBot K)) = 1 - topP := by
      rw [h.doubleSub, h.doubleOne, h.toDouble]
    have hloop := topPLoop_scores h hranked horder hnone (1 - topP) minTokensToKeep.toNat
    rw [← hloop, ← hsum, ← hlimit] at htrimmed
    exact ⟨_, _, (congrFun (if_neg hempty) scratch).trans ((if_neg htokens).trans
      ((if_neg hany).trans (if_neg hmass))), hlimit ▸ htrimmed⟩

/-! ## Both filters -/

/-- Both filters return, and leave what top-k and top-p should. -/
theorem filters_filtered [IsStrictOrderedRing K] (h : Exact arithmetic)
    (hlibrary : Selects library.nthElement) (scores : List (WithBot K))
    (hlength : scores.length ≤ 2 ^ 31) (topK : ℤ) {topP : K} (hpos : 0 ≤ topP) (hlt : topP < 1)
    {minTokensToKeep : ℤ} (hmin : 1 ≤ minTokensToKeep) (data : ℕ)
    (scratch : HfSamplerScratch (WithBot K) K) :
    ∃ cut after scratch₁ scratch₂,
      applyTopK arithmetic library scores topK minTokensToKeep scratch = .ok cut scratch₁ ∧
      applyTopP arithmetic cut data (topP : WithBot K) minTokensToKeep scratch₁ =
        .ok after scratch₂ ∧
      Filtered arithmetic.double.exp topK topP minTokensToKeep scores cut after := by
  obtain ⟨cut, threshold, scratch₁, hcut, hscores⟩ :=
    applyTopK_cut h hlibrary hlength topK hmin scratch
  have hlength' : cut.length ≤ 2 ^ 31 := by
    rw [hscores.kept_eq, List.length_map]
    exact hlength
  obtain ⟨after, scratch₂, hafter, htrimmed⟩ :=
    applyTopP_trimmed h hlength' data hpos hlt hmin scratch₁
  exact ⟨cut, after, scratch₁, scratch₂, hcut, hafter, hscores.filtered htrimmed⟩

omit [Field K] [LinearOrder K] in
theorem applyTopK_undefined (arithmetic : Arithmetic (WithBot K) K) (library : Library K G)
    (hlength : 2 ^ 31 < scores.length) {topK : ℤ} (hpos : 0 < topK) (hmin : 1 ≤ minTokensToKeep)
    (hkeep : max topK minTokensToKeep < scores.length) (scratch : HfSamplerScratch (WithBot K) K) :
    ∃ scratch', applyTopK arithmetic library scores topK minTokensToKeep scratch =
      .error .undefined scratch' := by
  have hall : ¬(topK ≤ 0 ∨ scores = [] ∨
      (scores.length : ℤ) ≤ min (scores.length : ℤ) (max topK minTokensToKeep)) := by
    rintro (htop | rfl | hlong)
    · omega
    · exact absurd hlength (Nat.not_lt_zero _)
    · omega
  have hany : ((List.range scores.length).map tokenOf).any (· < 0) = true := by
    rw [List.any_eq_true]
    refine ⟨_, List.mem_map_of_mem (List.mem_range.mpr hlength), ?_⟩
    decide
  unfold applyTopK
  rw [requireMinTokens_eq hmin]
  exact ⟨_, (congrFun (if_neg hall) scratch).trans (if_pos hany)⟩

end Exact

/-! ## An exact arithmetic -/

def scoreOps : FloatOps (WithBot ℚ) where
  zero := ((0 : ℚ) : WithBot ℚ)
  one := ((1 : ℚ) : WithBot ℚ)
  negativeInfinity := ⊥
  less lhs rhs := decide (lhs < rhs)
  lessEqual lhs rhs := decide (lhs ≤ rhs)
  equal lhs rhs := decide (lhs = rhs)
  isFinite score := decide (score ≠ ⊥)
  add := WithBot.map₂ (· + ·)
  sub := WithBot.map₂ (· - ·)
  mul := WithBot.map₂ (· * ·)
  div := WithBot.map₂ (· / ·)
  neg := WithBot.map (- ·)
  exp := id
  log := id
  log1p := id
  ofNat n := ((n : ℚ) : WithBot ℚ)

def growing (value : ℚ) : ℚ := if value ≤ 0 then 1 / (1 - value) else 1 + value

def weightOps : FloatOps ℚ := { exactOps with exp := growing }

def exactScores : Arithmetic (WithBot ℚ) ℚ where
  float := scoreOps
  double := weightOps
  toDouble score := score.unbotD 0
  toFloat value := (value : WithBot ℚ)
  kInvTwoPow32 := ((1 / 2 ^ 32 : ℚ) : WithBot ℚ)
  half := ((1 / 2 : ℚ) : WithBot ℚ)

theorem growing_pos (value : ℚ) : 0 < growing value := by
  unfold growing
  split_ifs with h
  · exact one_div_pos.mpr (by linarith)
  · linarith

theorem exact_exactScores : Exact exactScores where
  less _ _ := rfl
  equal _ _ := rfl
  isFinite _ := rfl
  zero := rfl
  one := rfl
  negativeInfinity := rfl
  sub _ _ := rfl
  toDouble _ := rfl
  doubleLess _ _ := rfl
  doubleLessEqual _ _ := rfl
  doubleIsFinite _ := rfl
  doubleZero := rfl
  doubleOne := rfl
  doubleAdd _ _ := rfl
  doubleSub _ _ := rfl
  doubleDiv _ _ := rfl
  exp_pos := growing_pos

/-- A selection that sorts, and a draw of the first index. -/
def sortingLibrary : Library ℚ ℕ where
  nthElement before _ items := insertionSorted before items
  discreteDistribution _ rng := (0, rng)

theorem selects_sortingLibrary : Selects sortingLibrary.nthElement :=
  sorts_insertionSorted.selects

theorem filters_filtered_five : ∃ cut after scratch₁ scratch₂,
    applyTopK exactScores sortingLibrary [3, ⊥, 1, 2, 2] 3 1 HfSamplerScratch.fresh =
      .ok cut scratch₁ ∧
    applyTopP exactScores cut 0 ((1 / 2 : ℚ) : WithBot ℚ) 1 scratch₁ = .ok after scratch₂ ∧
    Filtered growing 3 (1 / 2) 1 [3, ⊥, 1, 2, 2] cut after :=
  filters_filtered exact_exactScores selects_sortingLibrary [3, ⊥, 1, 2, 2]
    (by simp) 3 (by norm_num) (by norm_num) (le_refl 1) 0 HfSamplerScratch.fresh

/-- With more scores than an `int32_t` has indices, top-k reads out of bounds. -/
theorem filters_not_past_int32 : ¬ ∀ (scores : List (WithBot ℚ)) (topK minTokensToKeep : ℤ)
    (topP : ℚ), 0 ≤ topP → topP < 1 → 1 ≤ minTokensToKeep →
    ∃ cut after scratch₁ scratch₂,
      applyTopK exactScores sortingLibrary scores topK minTokensToKeep HfSamplerScratch.fresh =
        .ok cut scratch₁ ∧
      applyTopP exactScores cut 0 (topP : WithBot ℚ) minTokensToKeep scratch₁ =
        .ok after scratch₂ ∧
      Filtered growing topK topP minTokensToKeep scores cut after := by
  intro h
  have hlength : (List.replicate (2 ^ 31 + 1) (0 : WithBot ℚ)).length = 2 ^ 31 + 1 :=
    List.length_replicate
  obtain ⟨cut, -, scratch₁, -, hcut, -⟩ := h (List.replicate (2 ^ 31 + 1) 0) 1 1 0 le_rfl
    one_pos le_rfl
  obtain ⟨scratch', hundefined⟩ := applyTopK_undefined exactScores sortingLibrary
    (by rw [hlength]; omega) one_pos (le_refl 1)
    (by rw [hlength]; omega) HfSamplerScratch.fresh
  rw [hundefined] at hcut
  cases hcut

end FastTts.HfSampler
