import Mathlib.Algebra.BigOperators.Group.List.Lemmas
import Mathlib.Algebra.Order.Group.Defs

/-!
# Removal up to a mass

Items are removed one by one from the front of a list as long as the mass that has been looked at
stays within a limit, and a number of items at the end is never removed.
-/

namespace FastTts.MassRemoval

variable {K : Type*} [AddCommGroup K] [LinearOrder K]

/-- How many items are removed after a mass has been. -/
def removedCount (limit : K) (cap : ℕ) (cumulative : K) : List K → ℕ
  | [] => 0
  | mass :: masses =>
    if 0 < cap ∧ cumulative + mass ≤ limit then
      removedCount limit (cap - 1) (cumulative + mass) masses + 1
    else 0

variable {limit : K}

theorem removedCount_le_cap (cap : ℕ) (cumulative : K) (masses : List K) :
    removedCount limit cap cumulative masses ≤ cap := by
  induction masses generalizing cap cumulative with
  | nil => exact Nat.zero_le _
  | cons mass masses ih =>
    rw [removedCount]
    split_ifs with h
    · have hrest := ih (cap - 1) (cumulative + mass)
      omega
    · exact Nat.zero_le _

variable {cumulative : K} {masses : List K}

theorem sum_removed_le (cap : ℕ) (masses : List K) (h : cumulative ≤ limit) :
    cumulative + (masses.take (removedCount limit cap cumulative masses)).sum ≤ limit := by
  induction masses generalizing cap cumulative with
  | nil => simpa [removedCount] using h
  | cons mass masses ih =>
    rw [removedCount]
    split_ifs with hstep
    · rw [List.take_succ_cons, List.sum_cons, ← add_assoc]
      exact ih (cap - 1) hstep.2
    · simpa using h

/-- The removal ends where the items are protected, or where the next one is too much. -/
theorem limit_lt_sum (cap : ℕ) (cumulative : K)
    (h : removedCount limit cap cumulative masses < masses.length) :
    removedCount limit cap cumulative masses = cap ∨
      limit < cumulative + (masses.take (removedCount limit cap cumulative masses + 1)).sum := by
  induction masses generalizing cap cumulative with
  | nil => exact absurd h (Nat.not_lt_zero _)
  | cons mass masses ih =>
    rw [removedCount] at h ⊢
    split_ifs at h ⊢ with hstep
    · rw [List.length_cons] at h
      obtain hcap | hlimit := ih (cap - 1) (cumulative + mass) (by omega)
      · left
        omega
      · right
        rwa [List.take_succ_cons, List.sum_cons, ← add_assoc]
    · obtain hcap | hlimit := not_and_or.mp hstep
      · left
        omega
      · right
        simpa using hlimit

theorem removedCount_eq_zero [IsOrderedAddMonoid K] (cap : ℕ) (hmass : ∀ mass ∈ masses, 0 ≤ mass)
    (h : cap = 0 ∨ limit < cumulative) : removedCount limit cap cumulative masses = 0 := by
  cases masses with
  | nil => rfl
  | cons mass masses =>
    have hfirst := hmass mass List.mem_cons_self
    rw [removedCount, if_neg]
    rintro ⟨hpos, hle⟩
    obtain rfl | hlt := h
    · exact absurd hpos (Nat.lt_irrefl 0)
    · exact absurd (hlt.trans_le (le_add_of_nonneg_right hfirst)) (not_lt.mpr hle)

end FastTts.MassRemoval
