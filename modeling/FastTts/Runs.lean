import Mathlib.Tactic.SplitIfs

/-!
# Runs of a guarded transition system

A system is a partial step function: `step s a = some s'` performs action `a`, and `none` says
that `a` is not enabled. `Reaches step P s₀ s` collects the states that a run from `s₀` can reach
when every step of the run meets the guard `P`, which may look at the state before the step and
at the action. The guard `Always` admits every run.
-/

namespace FastTts

variable {σ τ α : Type*}

inductive Reaches (step : σ → α → Option σ) (P : σ → α → Prop) (s₀ : σ) : σ → Prop
  | start : Reaches step P s₀ s₀
  | next {s s' : σ} {a : α} : Reaches step P s₀ s → P s a → step s a = some s' →
      Reaches step P s₀ s'

/-- The guard of an unrestricted run. -/
def Always (_ : σ) (_ : α) : Prop := True

/-- Performs a list of actions in order, as long as each passes the test `ok`. -/
def replay (step : σ → α → Option σ) (ok : σ → α → Bool) : σ → List α → Option σ
  | s, [] => some s
  | s, a :: as => if ok s a then (step s a).bind (fun s' => replay step ok s' as) else none

namespace Reaches

variable {step : σ → α → Option σ} {P Q : σ → α → Prop} {s₀ s s' : σ}

theorem invariant {Inv : σ → Prop} (h : Reaches step P s₀ s) (hinit : Inv s₀)
    (hstep : ∀ s a s', Inv s → P s a → step s a = some s' → Inv s') : Inv s := by
  induction h with
  | start => exact hinit
  | next _ hP hs ih => exact hstep _ _ _ ih hP hs

theorem trans (h : Reaches step P s₀ s) (h' : Reaches step P s s') : Reaches step P s₀ s' := by
  induction h' with
  | start => exact h
  | next _ hP hs ih => exact .next ih hP hs

theorem of_replay {ok : σ → α → Bool} (hok : ∀ s a, ok s a = true → P s a) (as : List α)
    (h : Reaches step P s₀ s) (hr : replay step ok s as = some s') : Reaches step P s₀ s' := by
  induction as generalizing s with
  | nil =>
    have he : s = s' := Option.some.inj hr
    exact he ▸ h
  | cons a as ih =>
    rw [replay] at hr
    split_ifs at hr with ha
    obtain ⟨t, hs, ht⟩ := Option.bind_eq_some_iff.mp hr
    exact ih (.next h (hok s a ha) hs) ht

end Reaches

theorem exists_reached {step : σ → α → Option σ} {P : σ → α → Prop} {ok : σ → α → Bool}
    (hok : ∀ s a, ok s a = true → P s a) {s : σ} {as : List α} {test : σ → Bool}
    (h : (replay step ok s as).any test = true) : ∃ s', Reaches step P s s' ∧ test s' = true := by
  cases hr : replay step ok s as with
  | none =>
    rw [hr] at h
    cases h
  | some s' =>
    rw [hr] at h
    exact ⟨s', Reaches.of_replay hok as .start hr, h⟩

theorem exists_run {step : σ → α → Option σ} {s : σ} (as : List α) (test : σ → Bool)
    (h : (replay step (fun _ _ => true) s as).any test = true) :
    ∃ s', Reaches step Always s s' ∧ test s' = true :=
  exists_reached (fun _ _ _ => trivial) h

end FastTts
