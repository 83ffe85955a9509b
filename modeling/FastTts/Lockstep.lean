import Mathlib.Init

/-!
# Two computations in lockstep

Two computations on a state that may fail, started from states that go together: they give the same
value and states that go together, or fail with the same error.
-/

namespace FastTts

variable {ε σ α β : Type}

/-- The same value or the same error, with states that go together. -/
inductive SameResult (Q E : σ → σ → Prop) :
    EStateM.Result ε σ α → EStateM.Result ε σ α → Prop
  | ok {a : α} {s t : σ} (h : Q s t) : SameResult Q E (.ok a s) (.ok a t)
  | error {e : ε} {s t : σ} (h : E s t) : SameResult Q E (.error e s) (.error e t)

def Lockstep (P Q E : σ → σ → Prop) (m n : EStateM ε σ α) : Prop :=
  ∀ s t, P s t → SameResult Q E (m s) (n t)

namespace Lockstep

variable {P P' Q Q' R E : σ → σ → Prop} {m n : EStateM ε σ α}

theorem bind {f g : α → EStateM ε σ β} (h : Lockstep P Q E m n)
    (hrest : ∀ a, Lockstep Q R E (f a) (g a)) : Lockstep P R E (m >>= f) (n >>= g) := by
  intro s t hst
  have hfirst := h s t hst
  change SameResult R E (EStateM.bind m f s) (EStateM.bind n g t)
  unfold EStateM.bind
  generalize m s = r at hfirst ⊢
  generalize n t = r' at hfirst ⊢
  cases hfirst with
  | ok hnext => exact hrest _ _ _ hnext
  | error herror => exact .error herror

theorem pure (a : α) (h : ∀ s t, P s t → Q s t) :
    Lockstep P Q E (Pure.pure a : EStateM ε σ α) (Pure.pure a) :=
  fun s t hst => .ok (h s t hst)

theorem throw (e : ε) (h : ∀ s t, P s t → E s t) :
    Lockstep P Q E (MonadExcept.throw e : EStateM ε σ α) (MonadExcept.throw e) :=
  fun s t hst => .error (h s t hst)

theorem modify {f g : σ → σ} (h : ∀ s t, P s t → Q (f s) (g t)) :
    Lockstep P Q E (modify f : EStateM ε σ PUnit) (modify g) :=
  fun s t hst => .ok (h s t hst)

theorem ite {c : Prop} [Decidable c] {m' n' : EStateM ε σ α} (h : c → Lockstep P Q E m n)
    (h' : ¬ c → Lockstep P Q E m' n') :
    Lockstep P Q E (if c then m else m') (if c then n else n') := by
  by_cases hc : c
  · rw [if_pos hc, if_pos hc]
    exact h hc
  · rw [if_neg hc, if_neg hc]
    exact h' hc

theorem weaken (h : Lockstep P' Q' E m n) (hbefore : ∀ s t, P s t → P' s t)
    (hafter : ∀ s t, Q' s t → Q s t) : Lockstep P Q E m n := by
  intro s t hst
  have hsame := h s t (hbefore s t hst)
  generalize m s = r at hsame ⊢
  generalize n t = r' at hsame ⊢
  cases hsame with
  | ok hnext => exact .ok (hafter _ _ hnext)
  | error herror => exact .error herror

end Lockstep

end FastTts
