import FastTts.MassRemoval
import Mathlib.Algebra.BigOperators.Field
import Mathlib.Algebra.Order.BigOperators.Group.Finset
import Mathlib.Algebra.Order.Field.Basic
import Mathlib.Data.List.GetD

/-!
# Filters on scores

A score is a number, or `-inf` where a token is out. One filter cuts what is below a threshold. The
other takes out the lowest tokens up to a mass of the softmax of the scores, and none of a protected
number.
-/

namespace FastTts.ScoreFilters

open MassRemoval

variable {K : Type}

section Scores

def scoreOf (scores : List (WithBot K)) (index : ℕ) : WithBot K := scores.getD index ⊥

theorem scoreOf_eq_getElem {scores : List (WithBot K)} {index : ℕ} (h : index < scores.length) :
    scoreOf scores index = scores[index] := List.getD_eq_getElem _ _ h

theorem lt_length_of_scoreOf {scores : List (WithBot K)} {index : ℕ}
    (h : scoreOf scores index ≠ ⊥) : index < scores.length := by
  by_contra hout
  exact h (List.getD_eq_default _ _ (not_lt.mp hout))

theorem map_scoreOf (scores : List (WithBot K)) :
    (List.range scores.length).map (scoreOf scores) = scores := by
  refine List.ext_getElem (by simp) fun index hindex hindex' => ?_
  rw [List.getElem_map, List.getElem_range, scoreOf_eq_getElem hindex']

theorem countP_scores (scores : List (WithBot K)) (p : WithBot K → Bool) :
    (List.range scores.length).countP (fun index => p (scoreOf scores index)) =
      scores.countP p := by
  conv_rhs => rw [← map_scoreOf scores, List.countP_map]
  rfl

theorem scoreOf_set (scores : List (WithBot K)) (token index : ℕ) :
    scoreOf (scores.set token ⊥) index = if index = token then ⊥ else scoreOf scores index := by
  simp only [scoreOf, List.getD_eq_getElem?_getD, List.getElem?_set]
  split_ifs with hsame <;> simp_all

def without (scores : List (WithBot K)) (tokens : List ℕ) : List (WithBot K) :=
  tokens.foldl (fun scores token => scores.set token ⊥) scores

theorem length_without (scores : List (WithBot K)) (tokens : List ℕ) :
    (without scores tokens).length = scores.length := by
  induction tokens generalizing scores with
  | nil => rfl
  | cons token tokens ih => exact (ih _).trans List.length_set

theorem scoreOf_without (scores : List (WithBot K)) (tokens : List ℕ) (index : ℕ) :
    scoreOf (without scores tokens) index = if index ∈ tokens then ⊥ else scoreOf scores index := by
  induction tokens generalizing scores with
  | nil => simp [without]
  | cons token tokens ih =>
    have hstep : without scores (token :: tokens) = without (scores.set token ⊥) tokens := rfl
    rw [hstep, ih, scoreOf_set]
    by_cases htoken : index = token
    · simp [htoken]
    · simp [htoken]

end Scores

section Cut

variable [LinearOrder K]

/-- The scores from a threshold on, where a score is from it on if fewer scores than are asked for
are higher. -/
structure Cut (keep : ℤ) (scores kept : List (WithBot K)) (threshold : WithBot K) : Prop where
  kept_eq : kept = scores.map fun score => if score < threshold then ⊥ else score
  above : ∀ score, (scores.countP (score < ·) : ℤ) < keep → threshold ≤ score
  enough : threshold = ⊥ ∨ keep ≤ scores.countP (threshold ≤ ·)

theorem Cut.refl (keep : ℤ) (scores : List (WithBot K)) : Cut keep scores scores ⊥ where
  kept_eq := by simp
  above _ _ := bot_le
  enough := .inl rfl

def finiteCount (scores : List (WithBot K)) : ℕ := scores.countP (· ≠ ⊥)

def finiteIndices (scores : List (WithBot K)) : List ℕ :=
  (List.range scores.length).filter fun index => scoreOf scores index ≠ ⊥

theorem length_finiteIndices (scores : List (WithBot K)) :
    (finiteIndices scores).length = finiteCount scores := by
  rw [finiteIndices, ← List.countP_eq_length_filter]
  exact countP_scores scores fun score => score ≠ ⊥

theorem mem_finiteIndices {scores : List (WithBot K)} {index : ℕ} :
    index ∈ finiteIndices scores ↔ scoreOf scores index ≠ ⊥ := by
  rw [finiteIndices, List.mem_filter, List.mem_range, decide_eq_true_iff]
  exact ⟨And.right, fun h => ⟨lt_length_of_scoreOf h, h⟩⟩

theorem finiteIndices_nodup (scores : List (WithBot K)) : (finiteIndices scores).Nodup :=
  List.nodup_range.filter _

variable {keep : ℤ} {kept : List (WithBot K)} {threshold : WithBot K}

section

variable {scores : List (WithBot K)} (h : Cut keep scores kept threshold)
include h

theorem Cut.scoreOf_kept (index : ℕ) : scoreOf kept index =
      if scoreOf scores index < threshold then ⊥ else scoreOf scores index := by
  rw [h.kept_eq]
  by_cases hindex : index < scores.length
  · rw [scoreOf_eq_getElem (by rwa [List.length_map]), List.getElem_map,
      scoreOf_eq_getElem hindex]
  · rw [scoreOf, scoreOf, List.getD_eq_default _ _ (by rw [List.length_map]; omega),
      List.getD_eq_default _ _ (by omega), ite_self]

theorem Cut.le_finiteCount : min keep (finiteCount scores) ≤ finiteCount kept := by
  by_cases hbot : threshold = ⊥
  · have hkept : kept = scores := by
      rw [h.kept_eq, hbot]
      simp
    rw [hkept]
    exact min_le_right _ _
  · have henough := h.enough.resolve_left hbot
    have hle : scores.countP (threshold ≤ ·) ≤ finiteCount kept := by
      rw [finiteCount, h.kept_eq, List.countP_map]
      refine List.countP_mono_left fun score _ hscore => ?_
      have hscore : threshold ≤ score := of_decide_eq_true hscore
      simp only [Function.comp_apply, if_neg (not_lt.mpr hscore), decide_eq_true_iff]
      rintro rfl
      exact hbot (le_bot_iff.mp hscore)
    omega

theorem Cut.finiteCount_le : finiteCount kept ≤ finiteCount scores := by
  rw [finiteCount, finiteCount, h.kept_eq, List.countP_map]
  refine List.countP_mono_left fun score _ hscore => ?_
  simp only [Function.comp_apply, decide_eq_true_iff] at hscore ⊢
  split_ifs at hscore with hlow
  · exact absurd rfl hscore
  · exact hscore

end

/-- The tokens that are not out, the lowest score first. -/
structure Ranked (scores : List (WithBot K)) (order : List ℕ) : Prop where
  perm : order.Perm (finiteIndices scores)
  sorted : order.Pairwise fun lhs rhs => scoreOf scores lhs ≤ scoreOf scores rhs

variable {scores : List (WithBot K)} {order : List ℕ}

theorem Ranked.mem_iff (h : Ranked scores order) {index : ℕ} :
    index ∈ order ↔ scoreOf scores index ≠ ⊥ := by
  rw [h.perm.mem_iff, mem_finiteIndices]

theorem Ranked.nodup (h : Ranked scores order) : order.Nodup :=
  h.perm.nodup_iff.mpr (finiteIndices_nodup scores)

theorem Ranked.length_eq (h : Ranked scores order) : order.length = finiteCount scores := by
  rw [h.perm.length_eq, length_finiteIndices]

theorem le_foldr_max {scores : List (WithBot K)} {score : WithBot K} (h : score ∈ scores) :
    score ≤ scores.foldr max ⊥ := by
  induction scores with
  | nil => exact absurd h List.not_mem_nil
  | cons first scores ih =>
    rw [List.foldr_cons]
    obtain rfl | h := List.mem_cons.mp h
    · exact le_max_left _ _
    · exact (ih h).trans (le_max_right _ _)

theorem foldr_max_mem {scores : List (WithBot K)} (h : scores.foldr max ⊥ ≠ ⊥) :
    scores.foldr max ⊥ ∈ scores := by
  induction scores with
  | nil => exact absurd rfl h
  | cons first scores ih =>
    rw [List.foldr_cons] at h ⊢
    obtain hmax | hmax := max_choice first (scores.foldr max ⊥)
    · rw [hmax]
      exact List.mem_cons_self
    · rw [hmax] at h ⊢
      exact List.mem_cons_of_mem _ (ih h)

end Cut

section Mass

variable [Field K] [LinearOrder K]

def topScore (scores : List (WithBot K)) : K := (scores.foldr max ⊥).unbotD 0

/-- The weight of an index, from its distance to the highest score. -/
def weightAt (exp : K → K) (scores : List (WithBot K)) (index : ℕ) : K :=
  if scoreOf scores index = ⊥ then 0
  else exp ((scoreOf scores index).unbotD 0 - topScore scores)

def totalWeight (exp : K → K) (scores : List (WithBot K)) : K :=
  ∑ index ∈ Finset.range scores.length, weightAt exp scores index

def softmax (exp : K → K) (scores : List (WithBot K)) (index : ℕ) : K :=
  weightAt exp scores index / totalWeight exp scores

/-- The mass of the tokens that a filter has taken out. -/
def removedMass (exp : K → K) (before after : List (WithBot K)) : K :=
  ∑ index ∈ (Finset.range before.length).filter fun index =>
    scoreOf before index ≠ ⊥ ∧ scoreOf after index = ⊥, softmax exp before index

/-- What a removal up to a mass leaves. -/
structure Trimmed (exp : K → K) (limit : K) (minKeep : ℕ) (before after : List (WithBot K)) :
    Prop where
  length_eq : after.length = before.length
  keeps : ∀ index, scoreOf after index = scoreOf before index ∨ scoreOf after index = ⊥
  lowest : ∀ removed kept, scoreOf after removed = ⊥ → scoreOf after kept ≠ ⊥ →
    scoreOf before removed ≤ scoreOf before kept
  mass_le : removedMass exp before after ≤ limit
  enough : min minKeep (finiteCount before) ≤ finiteCount after
  maximal : ∀ index, scoreOf after index ≠ ⊥ →
    (∀ other, scoreOf after other ≠ ⊥ → scoreOf after index ≤ scoreOf after other) →
    limit < removedMass exp before after + softmax exp before index ∨
      finiteCount after ≤ min minKeep (finiteCount before)

omit [LinearOrder K] in
theorem coe_unbotD {score : WithBot K} (h : score ≠ ⊥) :
    ((score.unbotD 0 : K) : WithBot K) = score := by
  obtain ⟨value, rfl⟩ := WithBot.ne_bot_iff_exists.mp h
  rfl

theorem Ranked.scoreOf_getLast {scores : List (WithBot K)} {order : List ℕ}
    (h : Ranked scores order) (hne : order ≠ []) :
    scoreOf scores (order.getLast hne) = ((topScore scores : K) : WithBot K) := by
  have hlast := h.mem_iff.mp (List.getLast_mem hne)
  have hmem : scoreOf scores (order.getLast hne) ∈ scores := by
    rw [scoreOf_eq_getElem (lt_length_of_scoreOf hlast)]
    exact List.getElem_mem _
  have hle := le_foldr_max hmem
  have hfinite : scores.foldr max ⊥ ≠ ⊥ := by
    intro hbot
    rw [hbot, le_bot_iff] at hle
    exact hlast hle
  obtain ⟨index, hindex, hget⟩ := List.getElem_of_mem (foldr_max_mem hfinite)
  rw [← scoreOf_eq_getElem hindex] at hget
  have hin : index ∈ order := h.mem_iff.mpr (hget ▸ hfinite)
  have hbelow : scoreOf scores index ≤ scoreOf scores (order.getLast hne) := by
    obtain hsame | hbefore := (List.mem_append.mp
      ((List.dropLast_append_getLast hne).symm ▸ hin)).symm
    · rw [List.mem_singleton.mp hsame]
    · have hsorted := h.sorted
      rw [← List.dropLast_append_getLast hne, List.pairwise_append] at hsorted
      exact hsorted.2.2 index hbefore _ List.mem_cons_self
  rw [topScore, coe_unbotD hfinite]
  exact le_antisymm hle (hget ▸ hbelow)

def trimCount (exp : K → K) (limit : K) (minKeep : ℕ) (scores : List (WithBot K))
    (order : List ℕ) : ℕ :=
  removedCount limit (order.length - min minKeep order.length) 0 (order.map (softmax exp scores))

def withoutLowest (exp : K → K) (limit : K) (minKeep : ℕ) (scores : List (WithBot K))
    (order : List ℕ) : List (WithBot K) :=
  without scores (order.take (trimCount exp limit minKeep scores order))

variable {exp : K → K} {limit : K} {minKeep : ℕ} {scores : List (WithBot K)} {order : List ℕ}

theorem trimCount_le (exp : K → K) (limit : K) (minKeep : ℕ) (scores : List (WithBot K))
    (order : List ℕ) :
    trimCount exp limit minKeep scores order ≤ order.length - min minKeep order.length :=
  removedCount_le_cap _ _ _

theorem Ranked.scoreOf_withoutLowest_ne_bot (h : Ranked scores order) {index : ℕ} :
    scoreOf (withoutLowest exp limit minKeep scores order) index ≠ ⊥ ↔
      index ∈ order.drop (trimCount exp limit minKeep scores order) := by
  generalize hcount : trimCount exp limit minKeep scores order = count
  have hsplit : (order.take count ++ order.drop count).Nodup := by
    rw [List.take_append_drop]
    exact h.nodup
  have hmem : index ∈ order ↔ index ∈ order.take count ∨ index ∈ order.drop count := by
    rw [← List.mem_append, List.take_append_drop]
  rw [withoutLowest, hcount, scoreOf_without]
  split_ifs with hin
  · simp only [ne_eq, not_true_eq_false, false_iff]
    exact fun hdrop => (List.nodup_append.mp hsplit).2.2 index hin index hdrop rfl
  · rw [← h.mem_iff, hmem]
    simp [hin]

theorem Ranked.finiteCount_withoutLowest (h : Ranked scores order) :
    finiteCount (withoutLowest exp limit minKeep scores order) =
      order.length - trimCount exp limit minKeep scores order := by
  have hperm : (finiteIndices (withoutLowest exp limit minKeep scores order)).Perm
      (order.drop (trimCount exp limit minKeep scores order)) :=
    (List.perm_ext_iff_of_nodup (finiteIndices_nodup _) (h.nodup.sublist (List.drop_sublist _ _))).mpr
      fun index => mem_finiteIndices.trans h.scoreOf_withoutLowest_ne_bot
  rw [← length_finiteIndices, hperm.length_eq, List.length_drop]

theorem Ranked.removedMass_withoutLowest (h : Ranked scores order) :
    removedMass exp scores (withoutLowest exp limit minKeep scores order) =
      ((order.map (softmax exp scores)).take (trimCount exp limit minKeep scores order)).sum := by
  generalize hcount : trimCount exp limit minKeep scores order = count
  have hset : ((Finset.range scores.length).filter fun index => scoreOf scores index ≠ ⊥ ∧
      scoreOf (withoutLowest exp limit minKeep scores order) index = ⊥) =
      (order.take count).toFinset := by
    ext index
    rw [Finset.mem_filter, Finset.mem_range, List.mem_toFinset, withoutLowest, hcount, scoreOf_without]
    constructor
    · rintro ⟨-, hfinite, hout⟩
      by_contra hin
      rw [if_neg hin] at hout
      exact hfinite hout
    · intro hin
      have hfinite := h.mem_iff.mp (List.mem_of_mem_take hin)
      exact ⟨lt_length_of_scoreOf hfinite, hfinite, if_pos hin⟩
  rw [removedMass, hset, List.sum_toFinset _ (h.nodup.sublist (List.take_sublist _ _)),
    List.map_take]

theorem scoreOf_withoutLowest_of_ne_bot {index : ℕ}
    (h : scoreOf (withoutLowest exp limit minKeep scores order) index ≠ ⊥) :
    scoreOf (withoutLowest exp limit minKeep scores order) index = scoreOf scores index := by
  rw [withoutLowest, scoreOf_without] at h ⊢
  split_ifs at h ⊢ with hin
  · exact absurd rfl h
  · rfl

theorem softmax_congr {first second : ℕ} (h : scoreOf scores first = scoreOf scores second) :
    softmax exp scores first = softmax exp scores second := by
  rw [softmax, softmax, weightAt, weightAt, h]

theorem Ranked.trimmed (h : Ranked scores order) (hlimit : 0 ≤ limit) :
    Trimmed exp limit minKeep scores (withoutLowest exp limit minKeep scores order) := by
  have hcap := trimCount_le exp limit minKeep scores order
  constructor
  · exact length_without _ _
  · intro index
    rw [withoutLowest, scoreOf_without]
    split_ifs
    · exact .inr rfl
    · exact .inl rfl
  · intro removed kept hremoved hkept
    rw [h.scoreOf_withoutLowest_ne_bot] at hkept
    rw [withoutLowest, scoreOf_without] at hremoved
    split_ifs at hremoved with hin
    · have hsplit := h.sorted
      rw [← List.take_append_drop (trimCount exp limit minKeep scores order) order,
        List.pairwise_append] at hsplit
      exact hsplit.2.2 removed hin kept hkept
    · rw [hremoved]
      exact bot_le
  · rw [h.removedMass_withoutLowest]
    have hsum := sum_removed_le (order.length - min minKeep order.length)
      (order.map (softmax exp scores)) hlimit
    rwa [zero_add] at hsum
  · rw [h.finiteCount_withoutLowest, ← h.length_eq]
    omega
  · intro index hindex hlowest
    have hstays := h.scoreOf_withoutLowest_ne_bot.mp hindex
    have hcount : trimCount exp limit minKeep scores order < order.length := by
      by_contra hall
      rw [List.drop_eq_nil_of_le (not_lt.mp hall)] at hstays
      exact List.not_mem_nil hstays
    -- The first token that stays has the lowest score too, so it has the same mass.
    have hnext : order[trimCount exp limit minKeep scores order] ∈
        order.drop (trimCount exp limit minKeep scores order) := by
      rw [List.drop_eq_getElem_cons hcount]
      exact List.mem_cons_self
    have hsame : softmax exp scores index =
        softmax exp scores order[trimCount exp limit minKeep scores order] := by
      have hnext' := h.scoreOf_withoutLowest_ne_bot.mpr hnext
      have hbelow := hlowest _ hnext'
      rw [scoreOf_withoutLowest_of_ne_bot hindex, scoreOf_withoutLowest_of_ne_bot hnext'] at hbelow
      refine softmax_congr (hbelow.antisymm ?_)
      have hsorted := h.sorted.sublist
        (List.drop_sublist (trimCount exp limit minKeep scores order) order)
      rw [List.drop_eq_getElem_cons hcount] at hstays hsorted
      obtain rfl | hlater := List.mem_cons.mp hstays
      · exact le_rfl
      · exact (List.pairwise_cons.mp hsorted).1 index hlater
    rw [h.finiteCount_withoutLowest, h.removedMass_withoutLowest, ← h.length_eq]
    have hmasses : removedCount limit (order.length - min minKeep order.length) 0
        (order.map (softmax exp scores)) < (order.map (softmax exp scores)).length := by
      rw [List.length_map]
      exact hcount
    obtain hend | hmass := limit_lt_sum _ _ hmasses
    · right
      rw [trimCount, hend]
      omega
    · left
      rw [List.take_succ_eq_append_getElem hmasses, List.sum_append,
        List.sum_singleton, List.getElem_map, zero_add] at hmass
      rwa [hsame]

end Mass

section Both

variable [Field K] [LinearOrder K]

/-- What the two filters leave: `cut` is what the first one has left. -/
structure Filtered (exp : K → K) (topK : ℤ) (topP : K) (minKeep : ℤ)
    (scores cut after : List (WithBot K)) : Prop where
  length_eq : after.length = scores.length
  keeps : ∀ index, scoreOf after index ≠ ⊥ → scoreOf after index = scoreOf scores index
  lowest : ∀ removed kept, scoreOf after removed = ⊥ → scoreOf after kept ≠ ⊥ →
    scoreOf scores removed ≤ scoreOf scores kept
  topK_kept : ∀ index < scores.length,
    (scores.countP (scoreOf scores index < ·) : ℤ) < max topK minKeep →
      scoreOf cut index = scoreOf scores index
  mass_le : removedMass exp cut after ≤ 1 - topP
  enough : min minKeep.toNat (finiteCount scores) ≤ finiteCount after
  maximal : ∀ index, scoreOf after index ≠ ⊥ →
    (∀ other, scoreOf after other ≠ ⊥ → scoreOf after index ≤ scoreOf after other) →
    1 - topP < removedMass exp cut after + softmax exp cut index ∨
      finiteCount after ≤ min minKeep.toNat (finiteCount scores)

theorem Cut.filtered {exp : K → K} {topK minKeep : ℤ} {topP : K}
    {scores cut after : List (WithBot K)} {threshold : WithBot K}
    (hcut : Cut (max topK minKeep) scores cut threshold)
    (h : Trimmed exp (1 - topP) minKeep.toNat cut after) :
    Filtered exp topK topP minKeep scores cut after := by
  have hleft : min minKeep.toNat (finiteCount cut) = min minKeep.toNat (finiteCount scores) := by
    have henough := hcut.le_finiteCount
    have hfewer := hcut.finiteCount_le
    omega
  have hkept : ∀ index, scoreOf after index ≠ ⊥ → scoreOf cut index = scoreOf scores index ∧
      threshold ≤ scoreOf scores index := by
    intro index hindex
    have hsame := (h.keeps index).resolve_right hindex
    rw [hsame, hcut.scoreOf_kept] at hindex
    rw [hcut.scoreOf_kept]
    split_ifs at hindex ⊢ with hlow
    · exact absurd rfl hindex
    · exact ⟨rfl, not_lt.mp hlow⟩
  constructor
  · rw [h.length_eq, hcut.kept_eq, List.length_map]
  · intro index hindex
    rw [(h.keeps index).resolve_right hindex, (hkept index hindex).1]
  · intro removed kept hremoved hstays
    obtain ⟨hsame, hthreshold⟩ := hkept kept hstays
    have hle := h.lowest removed kept hremoved hstays
    rw [hsame, hcut.scoreOf_kept] at hle
    split_ifs at hle with hlow
    · exact hlow.le.trans hthreshold
    · exact hle
  · intro index hindex hfew
    rw [hcut.scoreOf_kept, if_neg (not_lt.mpr (hcut.above _ hfew))]
  · exact h.mass_le
  · rw [← hleft]
    exact h.enough
  · rw [← hleft]
    exact h.maximal

end Both

end FastTts.ScoreFilters
