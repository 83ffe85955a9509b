import Mathlib.Data.List.Infix

/-!
# Programs that can break off

A program over a state ends with a value or an exception, and leaves a state behind in both cases.
It follows a specification, another such program, if it ends in the same way with the same log; it
may also break off at a fault, and its log is then the first part of what the specification logs.
-/

namespace FastTts.Program

variable {ε δ σ τ ω α β γ ζ : Type}

def endState : EStateM.Result ε σ α → σ
  | .ok _ s => s
  | .error _ s => s

/-- What is compared: the specification's exceptions as exceptions of the program, the exceptions
that are faults, both logs, and what holds of a state that an exception leaves behind. -/
structure View (ε δ σ τ ω : Type) where
  lift : δ → ε
  fault : ε → Prop
  log : σ → List ω
  specLog : τ → List ω
  safe : σ → Prop

variable (view : View ε δ σ τ ω)

inductive View.Agree (Q : α → β → σ → τ → Prop) :
    EStateM.Result ε σ α → EStateM.Result δ τ β → Prop
  | value {a : α} {b : β} {s : σ} {t : τ} : Q a b s t → Agree Q (.ok a s) (.ok b t)
  | thrown {e : δ} {s : σ} {t : τ} : view.safe s → view.log s = view.specLog t →
      Agree Q (.error (view.lift e) s) (.error e t)
  | broken {e : ε} {s : σ} {r : EStateM.Result δ τ β} : view.fault e → view.safe s →
      List.IsPrefix (view.log s) (view.specLog (endState r)) → Agree Q (.error e s) r

/-- From related states, `m` ends as the specification `n` does or breaks off. -/
def View.Follows (P : σ → τ → Prop) (m : EStateM ε σ α) (n : EStateM δ τ β)
    (Q : α → β → σ → τ → Prop) : Prop :=
  ∀ s t, P s t → view.Agree Q (m s) (n t)

/-- A specification that only adds to its log. -/
def View.Extends (n : EStateM δ τ β) : Prop :=
  ∀ t, List.IsPrefix (view.specLog t) (view.specLog (endState (n t)))

variable {view}

/-! ## Logs that grow -/

theorem View.Extends.of_eq {n : EStateM δ τ β}
    (h : ∀ t, view.specLog (endState (n t)) = view.specLog t) : view.Extends n := by
  intro t
  rw [h t]

theorem View.Extends.pure (b : β) : view.Extends (pure b) :=
  .of_eq fun _ => rfl

theorem View.Extends.throw (e : δ) : view.Extends (throw e : EStateM δ τ β) :=
  .of_eq fun _ => rfl

theorem View.Extends.bind {n : EStateM δ τ α} {l : α → EStateM δ τ β} (h : view.Extends n)
    (hl : ∀ a, view.Extends (l a)) : view.Extends (n >>= l) := by
  intro t
  have hfirst := h t
  change List.IsPrefix _ (view.specLog (endState (EStateM.bind n l t)))
  rw [EStateM.bind]
  cases hn : n t with
  | ok a t' =>
    rw [hn] at hfirst
    exact hfirst.trans (hl a t')
  | error e t' =>
    rw [hn] at hfirst
    exact hfirst

theorem View.Extends.ite {c : Prop} [Decidable c] {n n' : EStateM δ τ β} (h : view.Extends n)
    (h' : view.Extends n') : view.Extends (if c then n else n') := by
  split_ifs
  · exact h
  · exact h'

/-! ## Following a specification -/

namespace View.Follows

variable {P P' : σ → τ → Prop} {Q Q' : α → β → σ → τ → Prop}

variable {m : EStateM ε σ α} {n : EStateM δ τ β} {b : β} {k : α → EStateM ε σ γ}
  {R : γ → ζ → σ → τ → Prop}

theorem weaken (h : view.Follows P m n Q) (hP : ∀ s t, P' s t → P s t)
    (hQ : ∀ a b s t, Q a b s t → Q' a b s t) : view.Follows P' m n Q' := by
  intro s t hst
  have hagree := h s t (hP s t hst)
  generalize m s = r at hagree ⊢
  generalize n t = r' at hagree ⊢
  cases hagree with
  | value hvalue => exact .value (hQ _ _ _ _ hvalue)
  | thrown hsafe hlog => exact .thrown hsafe hlog
  | broken hfault hsafe hlog => exact .broken hfault hsafe hlog

theorem pure {a : α} (h : ∀ s t, P s t → Q a b s t) : view.Follows P (pure a) (pure b) Q :=
  fun s t hst => .value (h s t hst)

theorem throw {e : δ} (h : ∀ s t, P s t → view.safe s ∧ view.log s = view.specLog t) :
    view.Follows P (throw (view.lift e)) (throw e) Q :=
  fun s t hst => .thrown (h s t hst).1 (h s t hst).2

theorem bind {l : β → EStateM δ τ ζ} (h : view.Follows P m n Q) (hl : ∀ b, view.Extends (l b))
    (hk : ∀ a b, view.Follows (Q a b) (k a) (l b) R) : view.Follows P (m >>= k) (n >>= l) R := by
  intro s t hst
  have hfirst := h s t hst
  change view.Agree R (EStateM.bind m k s) (EStateM.bind n l t)
  rw [EStateM.bind, EStateM.bind]
  cases hm : m s with
  | ok a s' =>
    cases hn : n t with
    | ok b t' =>
      rw [hm, hn] at hfirst
      cases hfirst with
      | value hvalue => exact hk a b s' t' hvalue
    | error e t' =>
      rw [hm, hn] at hfirst
      cases hfirst
  | error e s' =>
    rw [hm] at hfirst
    cases hn : n t with
    | ok b t' =>
      rw [hn] at hfirst
      cases hfirst with
      | broken hfault hsafe hlog => exact .broken hfault hsafe (hlog.trans (hl b t'))
    | error e' t' =>
      rw [hn] at hfirst
      cases hfirst with
      | thrown hsafe hlog => exact .thrown hsafe hlog
      | broken hfault hsafe hlog => exact .broken hfault hsafe hlog

theorem bind_same {n : EStateM δ τ α} {S : α → σ → τ → Prop} {l : α → EStateM δ τ ζ}
    (h : view.Follows P m n fun a b s t => a = b ∧ S a s t) (hl : ∀ a, view.Extends (l a))
    (hk : ∀ a, view.Follows (S a) (k a) (l a) R) : view.Follows P (m >>= k) (n >>= l) R := by
  apply bind h hl
  intro a b s t hst
  obtain ⟨rfl, hS⟩ := hst
  exact hk a s t hS

theorem bind_left {n : EStateM δ τ ζ} (h : view.Follows P m (Pure.pure b) Q) (hn : view.Extends n)
    (hk : ∀ a, view.Follows (Q a b) (k a) n R) : view.Follows P (m >>= k) n R := by
  intro s t hst
  have hfirst : view.Agree Q (m s) (.ok b t) := h s t hst
  change view.Agree R (EStateM.bind m k s) (n t)
  rw [EStateM.bind]
  cases hm : m s with
  | ok a s' =>
    rw [hm] at hfirst
    cases hfirst with
    | value hvalue => exact hk a s' t hvalue
  | error e s' =>
    rw [hm] at hfirst
    cases hfirst with
    | broken hfault hsafe hlog => exact .broken hfault hsafe (hlog.trans (hn t))

theorem fixed (h : view.Follows P m (Pure.pure b) Q) (t₀ : τ) :
    view.Follows (fun s t => P s t ∧ t = t₀) m (Pure.pure b)
      fun a b' s t => Q a b' s t ∧ t = t₀ := by
  rintro s t ⟨hst, rfl⟩
  have hfirst : view.Agree Q (m s) (.ok b t) := h s t hst
  change view.Agree _ (m s) (.ok b t)
  generalize m s = r at hfirst ⊢
  cases hfirst with
  | value hvalue => exact .value ⟨hvalue, rfl⟩
  | broken hfault hsafe hlog => exact .broken hfault hsafe hlog

theorem bind_right {R : γ → β → σ → τ → Prop} (h : view.Follows P m n Q)
    (hk : ∀ a b, view.Follows (Q a b) (k a) (Pure.pure b) R) : view.Follows P (m >>= k) n R := by
  intro s t hst
  have hfirst := h s t hst
  change view.Agree R (EStateM.bind m k s) (n t)
  rw [EStateM.bind]
  generalize n t = r at hfirst ⊢
  generalize m s = r' at hfirst ⊢
  cases hfirst with
  | value hvalue => exact hk _ _ _ _ hvalue
  | thrown hsafe hlog => exact .thrown hsafe hlog
  | broken hfault hsafe hlog => exact .broken hfault hsafe hlog

theorem ite {c : Prop} [Decidable c] {m' : EStateM ε σ α} {n' : EStateM δ τ β}
    (h : c → view.Follows P m n Q) (h' : ¬ c → view.Follows P m' n' Q) :
    view.Follows P (if c then m else m') (if c then n else n') Q := by
  split_ifs with hc
  · exact h hc
  · exact h' hc

end View.Follows

end FastTts.Program
