import Mathlib.Logic.Function.Basic

/-!
# Exclusive holders

A family of mutexes and a map that says which mutex each of the possible holders holds. The
relation between the two is kept when a free mutex is taken, when a holder hands its mutex on, and
when it gives it up together with the mutex.
-/

namespace FastTts

open Function (update)

variable {ω γ : Type*}

/-- No mutex has two holders, and a mutex that is held is locked. -/
structure Exclusive (holder : ω → Option γ) (locked : γ → Bool) : Prop where
  unique : ∀ o o' g, holder o = some g → holder o' = some g → o = o'
  locked : ∀ o g, holder o = some g → locked g = true

namespace Exclusive

variable {holder : ω → Option γ} {locked : γ → Bool}

theorem free (locked : γ → Bool) : Exclusive (fun _ : ω => none) locked where
  unique _ _ _ h := nomatch h
  locked _ _ h := nomatch h

variable [DecidableEq ω] {g : γ}

theorem update_eq_some {o p : ω} {held : Option γ} : update holder o held p = some g ↔
    p = o ∧ held = some g ∨ p ≠ o ∧ holder p = some g := by
  by_cases hp : p = o <;> simp [hp]

theorem of_dropped {o p : ω} (h : update holder o none p = some g) : p ≠ o ∧ holder p = some g :=
  (update_eq_some.mp h).resolve_left nofun

theorem drop (h : Exclusive holder locked) (o : ω) : Exclusive (update holder o none) locked where
  unique p q g hp hq := h.unique p q g (of_dropped hp).2 (of_dropped hq).2
  locked p g hp := h.locked p g (of_dropped hp).2

variable [DecidableEq γ]

theorem take (h : Exclusive holder locked) (o : ω) (hg : ∀ p, holder p ≠ some g) :
    Exclusive (update holder o (some g)) (update locked g true) where
  unique p q g' hp hq := by
    rw [update_eq_some] at hp hq
    rcases hp with ⟨rfl, hp⟩ | ⟨-, hp⟩ <;> rcases hq with ⟨rfl, hq⟩ | ⟨-, hq⟩
    · rfl
    · exact absurd (hq.trans hp.symm) (hg q)
    · exact absurd (hp.trans hq.symm) (hg p)
    · exact h.unique p q g' hp hq
  locked p g' hp := by
    by_cases hg' : g' = g
    · rw [hg', Function.update_self]
    · rw [Function.update_of_ne hg']
      rcases update_eq_some.mp hp with ⟨-, hp⟩ | ⟨-, hp⟩
      · exact absurd (Option.some.inj hp).symm hg'
      · exact h.locked p g' hp

theorem acquire (h : Exclusive holder locked) (o : ω) (hfree : locked g = false) :
    Exclusive (update holder o (some g)) (update locked g true) :=
  h.take o fun p hp => absurd (h.locked p g hp) (by rw [hfree]; exact Bool.false_ne_true)

theorem give (h : Exclusive holder locked) {o o' : ω} (hne : o ≠ o') :
    Exclusive (update (update holder o' (holder o)) o none) locked := by
  rw [Function.update_comm hne.symm]
  have hdrop := h.drop o
  cases hheld : holder o with
  | none => exact hdrop.drop o'
  | some g =>
    have hg : ∀ p, update holder o none p ≠ some g := fun p hp =>
      (of_dropped hp).1 (h.unique p o g (of_dropped hp).2 hheld)
    have htake := hdrop.take o' hg
    have hsame : update locked g true = locked :=
      Function.update_eq_self_iff.mpr (h.locked o g hheld).symm
    rwa [hsame] at htake

theorem release (h : Exclusive holder locked) {o : ω} (hheld : holder o = some g) :
    Exclusive (update holder o none) (update locked g false) where
  unique := (h.drop o).unique
  locked p g' hp := by
    obtain ⟨hpo, hp⟩ := of_dropped hp
    have hne : g' ≠ g := by
      rintro rfl
      exact hpo (h.unique p o g' hp hheld)
    rw [Function.update_of_ne hne]
    exact h.locked p g' hp

end Exclusive

end FastTts
