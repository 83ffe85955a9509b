import FastTts.Bytes
import FastTts.Exclusive
import FastTts.Runs
import Mathlib.Data.Sum.Basic

/-!
# The guard of a model's runs

`BusyGuard` serializes the runs of one model by a mutex and notes since when the model is busy.
Both are given up by the destructor of the `Lock` that `acquire` hands out. One step is one access
to what threads share; the storage of `Lock` objects, several guards and any number of threads in
`acquire` are part of the state, and the clock's readings are part of the actions.
-/

namespace FastTts.Busy

variable {τ η γ : Type*}

def modelRunHasOverrun (busySinceMs nowMs timeoutMs : ℤ) : Bool :=
  if timeoutMs ≤ 0 ∨ busySinceMs = 0 then false
  else timeoutMs < nowMs - busySinceMs

inductive ServerBusyError
  | overrun (label : Bytes) (ranMs timeoutMs : ℤ)
  | timedOut (label : Bytes) (timeoutMs : ℤ)
  deriving DecidableEq

def ServerBusyError.what : ServerBusyError → Bytes
  | .overrun label ranMs timeoutMs =>
    bytes "model '" ++ label ++ bytes "' is busy: current inference has run " ++
      bytes (toString ranMs) ++ bytes " ms (busy_timeout_ms=" ++ bytes (toString timeoutMs) ++
      bytes "); the previous request has likely wedged and cannot be cancelled"
  | .timedOut label timeoutMs =>
    bytes "model '" ++ label ++ bytes "' is busy: timed out after " ++
      bytes (toString timeoutMs) ++ bytes " ms waiting for the inference lock"

structure UniqueLock (γ : Type*) where
  mutex : Option γ := none
  ownsLock : Bool := false
  deriving DecidableEq

structure Lock (γ : Type*) where
  guard : Option γ := none
  lock : UniqueLock γ := {}
  deriving DecidableEq

/-- What stands in a place where a `Lock` can be: the destructor first marks the guard as idle,
and the destructor of its member unlocks the mutex afterwards. -/
inductive Place (γ : Type*)
  | absent
  | live (l : Lock γ)
  | dying (l : Lock γ)
  deriving DecidableEq

inductive Acquire (γ : Type*)
  | outside
  | entered (guard : γ) (timeoutMs : ℤ) (label : Bytes)
  | waiting (guard : γ) (timeoutMs : ℤ) (label : Bytes)
  | holding (guard : γ)
  | threw (error : ServerBusyError)
  deriving DecidableEq

structure State (τ η γ : Type*) where
  threads : τ → Acquire γ
  places : η → Place γ
  locked : γ → Bool
  busySinceMs : γ → ℤ

def initial : State τ η γ := ⟨fun _ => .outside, fun _ => .absent, fun _ => false, fun _ => 0⟩

inductive Action (τ η γ : Type*)
  | call (thread : τ) (guard : γ) (timeoutMs : ℤ) (label : Bytes)
  | check (thread : τ) (nowMs : ℤ)
  | lock (thread : τ)
  | timeOut (thread : τ)
  /-- The time is stored and the `Lock` is returned into a place. -/
  | store (thread : τ) (nowMs : ℤ) (place : η)
  | create (place : η)
  | moveConstruct (place source : η)
  | moveAssign (place source : η)
  | destroy (place : η)
  | unlock (place : η)

section Step

variable [DecidableEq τ] [DecidableEq η] [DecidableEq γ]

def State.setThread (s : State τ η γ) (thread : τ) (a : Acquire γ) : State τ η γ :=
  { s with threads := Function.update s.threads thread a }

def State.setPlace (s : State τ η γ) (place : η) (p : Place γ) : State τ η γ :=
  { s with places := Function.update s.places place p }

def State.unlock (s : State τ η γ) : UniqueLock γ → State τ η γ
  | ⟨some guard, true⟩ => { s with locked := Function.update s.locked guard false }
  | _ => s

def step (s : State τ η γ) : Action τ η γ → Option (State τ η γ)
  | .call thread guard timeoutMs label =>
    match s.threads thread with
    | .outside | .threw _ => some (s.setThread thread (.entered guard timeoutMs label))
    | _ => none
  | .check thread nowMs =>
    match s.threads thread with
    | .entered guard timeoutMs label =>
      if timeoutMs ≤ 0 then none
      else
        let since := s.busySinceMs guard
        if modelRunHasOverrun since nowMs timeoutMs then
          some (s.setThread thread (.threw (.overrun label (nowMs - since) timeoutMs)))
        else some (s.setThread thread (.waiting guard timeoutMs label))
    | _ => none
  | .lock thread =>
    match s.threads thread with
    | .entered guard timeoutMs _ =>
      if timeoutMs ≤ 0 ∧ s.locked guard = false then
        some { s.setThread thread (.holding guard) with
          locked := Function.update s.locked guard true }
      else none
    | .waiting guard _ _ =>
      if s.locked guard = false then
        some { s.setThread thread (.holding guard) with
          locked := Function.update s.locked guard true }
      else none
    | _ => none
  | .timeOut thread =>
    match s.threads thread with
    | .waiting _ timeoutMs label => some (s.setThread thread (.threw (.timedOut label timeoutMs)))
    | _ => none
  | .store thread nowMs place =>
    match s.threads thread, s.places place with
    | .holding guard, .absent =>
      some { (s.setThread thread .outside).setPlace place (.live ⟨some guard, ⟨some guard, true⟩⟩) with
        busySinceMs := Function.update s.busySinceMs guard nowMs }
    | _, _ => none
  | .create place =>
    match s.places place with
    | .absent => some (s.setPlace place (.live {}))
    | _ => none
  | .moveConstruct place source =>
    match s.places place, s.places source with
    | .absent, .live l =>
      some ((s.setPlace place (.live l)).setPlace source (.live { l with lock := {} }))
    | _, _ => none
  | .moveAssign place source =>
    match s.places place, s.places source with
    -- Assigned from itself, a lock that has been unlocked is left empty.
    | .live old, .live l =>
      some (((s.unlock old.lock).setPlace place (.live l)).setPlace source
        (.live { l with lock := {} }))
    | _, _ => none
  | .destroy place =>
    match s.places place with
    | .live l =>
      match l.guard, l.lock.ownsLock with
      | some guard, true =>
        some { s.setPlace place (.dying l) with
          busySinceMs := Function.update s.busySinceMs guard 0 }
      | _, _ => some (s.setPlace place (.dying l))
    | _ => none
  | .unlock place =>
    match s.places place with
    | .dying l => some ((s.unlock l.lock).setPlace place .absent)
    | _ => none

end Step

/-! ## Who holds a mutex -/

def UniqueLock.held (u : UniqueLock γ) : Option γ := if u.ownsLock then u.mutex else none

def Acquire.held : Acquire γ → Option γ
  | .holding guard => some guard
  | _ => none

def Place.held : Place γ → Option γ
  | .absent => none
  | .live l | .dying l => l.lock.held

/-- The mutex that a thread in `acquire`, or the `Lock` in a place, holds. -/
def State.holder (s : State τ η γ) : τ ⊕ η → Option γ :=
  Sum.elim (fun thread => (s.threads thread).held) (fun place => (s.places place).held)

/-- The `Lock` in the place owns the guard. -/
def State.Owns (s : State τ η γ) (place : η) (guard : γ) : Prop :=
  ∃ l, s.places place = .live l ∧ l.lock.held = some guard

/-- A guard has one owner at most, and without an owner it is idle: no caller fails fast. -/
structure State.InStep (s : State τ η γ) : Prop where
  one : ∀ guard place place', s.Owns place guard → s.Owns place' guard → place = place'
  idle : ∀ guard, (∀ place, ¬ s.Owns place guard) → s.busySinceMs guard = 0 ∧
    ∀ nowMs timeoutMs, modelRunHasOverrun (s.busySinceMs guard) nowMs timeoutMs = false

/-- No `Lock` that owns a guard is assigned to. -/
def SparesOwners (s : State τ η γ) : Action τ η γ → Prop
  | .moveAssign place _ => ∀ guard, ¬ s.Owns place guard
  | _ => True

structure Inv (s : State τ η γ) : Prop where
  exclusive : Exclusive s.holder s.locked
  /-- The pointer of a `Lock` is not moved along with the mutex, but copied. -/
  same : ∀ place l, s.places place = .live l → l.lock.held ≠ none → l.guard = l.lock.held
  busy : ∀ guard, s.busySinceMs guard ≠ 0 → ∃ place, s.Owns place guard

theorem inv_initial : Inv (initial : State τ η γ) where
  exclusive := by
    have hholder : (initial : State τ η γ).holder = fun _ => none := by
      funext o
      cases o <;> rfl
    rw [hholder]
    exact .free _
  same _ _ h := nomatch h
  busy _ h := absurd rfl h

theorem owns_of_places {s s' : State τ η γ} {place : η} {guard : γ} (h : s.Owns place guard)
    (hplace : s'.places place = s.places place) : s'.Owns place guard := by
  obtain ⟨l, hl, hheld⟩ := h
  exact ⟨l, hplace.trans hl, hheld⟩

theorem Inv.inStep {s : State τ η γ} (h : Inv s) : s.InStep where
  one guard place place' howns howns' := by
    have hheld : ∀ {p : η}, s.Owns p guard → s.holder (.inr p) = some guard := by
      rintro p ⟨l, hl, hheld⟩
      exact (congrArg Place.held hl).trans hheld
    exact Sum.inr.inj (h.exclusive.unique _ _ guard (hheld howns) (hheld howns'))
  idle guard hnone := by
    have hidle : s.busySinceMs guard = 0 := by
      by_contra hbusy
      obtain ⟨place, howns⟩ := h.busy guard hbusy
      exact hnone place howns
    refine ⟨hidle, fun nowMs timeoutMs => ?_⟩
    rw [modelRunHasOverrun, if_pos (.inr hidle)]

section Unlock

variable [DecidableEq γ]

@[simp] theorem holder_unlock (s : State τ η γ) (u : UniqueLock γ) :
    (s.unlock u).holder = s.holder := by
  unfold State.unlock
  split <;> rfl

theorem unlock_of_held {u : UniqueLock γ} {guard : γ} (h : u.held = some guard) (s : State τ η γ) :
    s.unlock u = { s with locked := Function.update s.locked guard false } := by
  obtain ⟨mutex, _ | _⟩ := u
  · exact nomatch h
  · obtain rfl : mutex = some guard := h
    rfl

theorem unlock_of_held_none {u : UniqueLock γ} (h : u.held = none) (s : State τ η γ) :
    s.unlock u = s := by
  obtain ⟨_ | guard, _ | _⟩ := u
  · rfl
  · rfl
  · rfl
  · exact nomatch h

end Unlock

section Places

variable [DecidableEq η]

theorem setPlace_same (s : State τ η γ) (place : η) (p : Place γ) :
    (s.setPlace place p).places place = p := Function.update_self ..

theorem setPlace_of_ne {place place' : η} (h : place' ≠ place) (s : State τ η γ) (p : Place γ) :
    (s.setPlace place p).places place' = s.places place' := Function.update_of_ne h ..

variable [DecidableEq τ]

@[simp] theorem holder_setThread (s : State τ η γ) (thread : τ) (a : Acquire γ) :
    (s.setThread thread a).holder = Function.update s.holder (.inl thread) a.held := by
  rw [State.holder, State.holder, Sum.update_elim_inl]
  congr 1
  exact Function.comp_update Acquire.held s.threads thread a

@[simp] theorem holder_setPlace (s : State τ η γ) (place : η) (p : Place γ) :
    (s.setPlace place p).holder = Function.update s.holder (.inr place) p.held := by
  rw [State.holder, State.holder, Sum.update_elim_inr]
  congr 1
  exact Function.comp_update Place.held s.places place p

end Places

/-! ## Steps -/

section Steps

variable [DecidableEq τ] [DecidableEq η] {s : State τ η γ}

theorem inv_setThread (h : Inv s) (thread : τ) {a : Acquire γ} (ha : a.held = none) :
    Inv (s.setThread thread a) where
  exclusive := by
    rw [holder_setThread, ha]
    exact h.exclusive.drop _
  same := h.same
  busy := h.busy

theorem inv_create (h : Inv s) {place : η} (habsent : s.places place = .absent) :
    Inv (s.setPlace place (.live {})) where
  exclusive := by
    rw [holder_setPlace]
    exact h.exclusive.drop _
  same place' l hl := by
    by_cases hplace : place' = place
    · rw [hplace, setPlace_same] at hl
      obtain rfl := Place.live.inj hl
      exact fun hheld => absurd rfl hheld
    · rw [setPlace_of_ne hplace] at hl
      exact h.same place' l hl
  busy guard hbusy := by
    obtain ⟨owner, howns⟩ := h.busy guard hbusy
    refine ⟨owner, owns_of_places howns (setPlace_of_ne ?_ _ _)⟩
    rintro rfl
    obtain ⟨l, hl, -⟩ := howns
    rw [habsent] at hl
    exact nomatch hl

theorem inv_destroy (h : Inv s) {place : η} {l : Lock γ} (hplace : s.places place = .live l)
    {busySinceMs : γ → ℤ}
    (hidle : ∀ guard, busySinceMs guard ≠ 0 → s.busySinceMs guard ≠ 0 ∧ l.lock.held ≠ some guard) :
    Inv { s.setPlace place (.dying l) with busySinceMs := busySinceMs } where
  exclusive := by
    change Exclusive (s.setPlace place (.dying l)).holder s.locked
    have hheld : s.holder (.inr place) = (Place.live l).held := congrArg Place.held hplace
    rw [holder_setPlace]
    change Exclusive (Function.update s.holder (.inr place) (Place.live l).held) s.locked
    rw [← hheld, Function.update_eq_self]
    exact h.exclusive
  same place' l' hl' := by
    by_cases hne : place' = place
    · rw [hne] at hl'
      exact nomatch (setPlace_same s place _).symm.trans hl'
    · exact h.same place' l' ((setPlace_of_ne hne _ _).symm.trans hl')
  busy guard hbusy := by
    obtain ⟨hbefore, hother⟩ := hidle guard hbusy
    obtain ⟨owner, howns⟩ := h.busy guard hbefore
    refine ⟨owner, owns_of_places howns (setPlace_of_ne ?_ _ _)⟩
    rintro rfl
    obtain ⟨l', hl', hheld⟩ := howns
    obtain rfl := Place.live.inj (hplace.symm.trans hl')
    exact hother hheld

variable [DecidableEq γ]

theorem inv_move (h : Inv s) {place source : η} {l : Lock γ} (hsource : s.places source = .live l)
    (hplace : ∀ guard, ¬ s.Owns place guard) :
    Inv ((s.setPlace place (.live l)).setPlace source (.live { l with lock := {} })) where
  exclusive := by
    rw [holder_setPlace, holder_setPlace]
    have hheld : s.holder (.inr source) = (Place.live l).held := congrArg Place.held hsource
    by_cases hself : source = place
    · rw [hself, Function.update_idem]
      exact h.exclusive.drop _
    · rw [← hheld]
      exact h.exclusive.give fun heq => hself (Sum.inr.inj heq)
  same place' l' hl' := by
    by_cases hfrom : place' = source
    · rw [hfrom, setPlace_same] at hl'
      obtain rfl := Place.live.inj hl'
      exact fun hheld => absurd rfl hheld
    · rw [setPlace_of_ne hfrom] at hl'
      by_cases hto : place' = place
      · rw [hto, setPlace_same] at hl'
        obtain rfl := Place.live.inj hl'
        exact h.same source l hsource
      · rw [setPlace_of_ne hto] at hl'
        exact h.same place' l' hl'
  busy guard hbusy := by
    obtain ⟨owner, howns⟩ := h.busy guard hbusy
    by_cases hfrom : owner = source
    · -- the mutex has moved along
      rw [hfrom] at howns
      have hne : place ≠ source := by
        rintro rfl
        exact hplace guard howns
      obtain ⟨l', hl', hheld⟩ := howns
      obtain rfl := Place.live.inj (hsource.symm.trans hl')
      exact ⟨place, l, (setPlace_of_ne hne _ _).trans (setPlace_same ..), hheld⟩
    · have hto : owner ≠ place := by
        rintro rfl
        exact hplace guard howns
      exact ⟨owner, owns_of_places howns
        ((setPlace_of_ne hfrom _ _).trans (setPlace_of_ne hto _ _))⟩

theorem inv_lock (h : Inv s) (thread : τ) {guard : γ} (hfree : s.locked guard = false) :
    Inv { s.setThread thread (.holding guard) with
      locked := Function.update s.locked guard true } where
  exclusive := by
    change Exclusive (s.setThread thread (.holding guard)).holder _
    rw [holder_setThread]
    exact h.exclusive.acquire _ hfree
  same := h.same
  busy := h.busy

theorem inv_store (h : Inv s) {thread : τ} {place : η} {guard : γ} (nowMs : ℤ)
    (hholding : s.threads thread = .holding guard) (habsent : s.places place = .absent) :
    Inv { (s.setThread thread .outside).setPlace place (.live ⟨some guard, ⟨some guard, true⟩⟩) with
      busySinceMs := Function.update s.busySinceMs guard nowMs } where
  exclusive := by
    change Exclusive ((s.setThread thread .outside).setPlace place _).holder s.locked
    have hheld : s.holder (.inl thread) = some guard := congrArg Acquire.held hholding
    have hgive := h.exclusive.give (Sum.inl_ne_inr : Sum.inl thread ≠ Sum.inr place)
    rw [Function.update_comm Sum.inr_ne_inl, hheld] at hgive
    rw [holder_setPlace, holder_setThread]
    exact hgive
  same place' l hl := by
    by_cases hplace : place' = place
    · rw [hplace] at hl
      obtain rfl := Place.live.inj ((setPlace_same _ place _).symm.trans hl)
      exact fun _ => rfl
    · exact h.same place' l ((setPlace_of_ne hplace _ _).symm.trans hl)
  busy guard' hbusy := by
    by_cases hguard : guard' = guard
    · exact ⟨place, _, setPlace_same _ place _, by rw [hguard]; rfl⟩
    · change Function.update s.busySinceMs guard nowMs guard' ≠ 0 at hbusy
      rw [Function.update_of_ne hguard] at hbusy
      obtain ⟨owner, howns⟩ := h.busy guard' hbusy
      refine ⟨owner, owns_of_places howns (setPlace_of_ne ?_ _ _)⟩
      rintro rfl
      obtain ⟨l, hl, -⟩ := howns
      rw [habsent] at hl
      exact nomatch hl

theorem inv_unlock (h : Inv s) {place : η} {l : Lock γ} (hplace : s.places place = .dying l) :
    Inv ((s.unlock l.lock).setPlace place .absent) := by
  have hheld : s.holder (.inr place) = l.lock.held := congrArg Place.held hplace
  have hkept : ∀ {s' : State τ η γ}, s'.places = s.places → s'.busySinceMs = s.busySinceMs →
      Exclusive (Function.update s.holder (.inr place) none) s'.locked → s'.holder = s.holder →
        Inv (s'.setPlace place .absent) := by
    intro s' hplaces hbusy hexclusive hholder
    refine ⟨?_, fun place' l' hl' hheld' => ?_, fun guard hguard => ?_⟩
    · rw [holder_setPlace, hholder]
      exact hexclusive
    · by_cases hne : place' = place
      · rw [hne, setPlace_same] at hl'
        exact nomatch hl'
      · rw [setPlace_of_ne hne, hplaces] at hl'
        exact h.same place' l' hl' hheld'
    · have hbefore : s.busySinceMs guard ≠ 0 := hbusy ▸ hguard
      obtain ⟨owner, howns⟩ := h.busy guard hbefore
      refine ⟨owner, owns_of_places howns
        ((setPlace_of_ne ?_ _ _).trans (congrFun hplaces owner))⟩
      rintro rfl
      obtain ⟨l', hl', -⟩ := howns
      rw [hplace] at hl'
      exact nomatch hl'
  cases hlock : l.lock.held with
  | none =>
    rw [unlock_of_held_none hlock]
    exact hkept rfl rfl (h.exclusive.drop _) rfl
  | some guard =>
    rw [unlock_of_held hlock]
    exact hkept rfl rfl (h.exclusive.release (hheld.trans hlock)) rfl

theorem inv_step {a : Action τ η γ} {s' : State τ η γ} (h : Inv s) (hspares : SparesOwners s a)
    (hstep : step s a = some s') : Inv s' := by
  cases a with
  | call thread guard timeoutMs label =>
    rw [step] at hstep
    split at hstep
    · obtain rfl := Option.some.inj hstep
      exact inv_setThread h thread rfl
    · obtain rfl := Option.some.inj hstep
      exact inv_setThread h thread rfl
    · exact nomatch hstep
  | check thread nowMs =>
    rw [step] at hstep
    split at hstep
    · dsimp only at hstep
      split_ifs at hstep
      · obtain rfl := Option.some.inj hstep
        exact inv_setThread h thread rfl
      · obtain rfl := Option.some.inj hstep
        exact inv_setThread h thread rfl
    · exact nomatch hstep
  | lock thread =>
    rw [step] at hstep
    split at hstep
    · split_ifs at hstep with hfree
      obtain rfl := Option.some.inj hstep
      exact inv_lock h thread hfree.2
    · split_ifs at hstep with hfree
      obtain rfl := Option.some.inj hstep
      exact inv_lock h thread hfree
    · exact nomatch hstep
  | timeOut thread =>
    rw [step] at hstep
    split at hstep
    · obtain rfl := Option.some.inj hstep
      exact inv_setThread h thread rfl
    · exact nomatch hstep
  | store thread nowMs place =>
    rw [step] at hstep
    split at hstep
    · rename_i hholding habsent
      obtain rfl := Option.some.inj hstep
      exact inv_store h nowMs hholding habsent
    · exact nomatch hstep
  | create place =>
    rw [step] at hstep
    split at hstep
    · rename_i habsent
      obtain rfl := Option.some.inj hstep
      exact inv_create h habsent
    · exact nomatch hstep
  | moveConstruct place source =>
    rw [step] at hstep
    split at hstep
    · rename_i habsent hsource
      obtain rfl := Option.some.inj hstep
      refine inv_move h hsource ?_
      rintro guard ⟨l, hl, -⟩
      rw [habsent] at hl
      exact nomatch hl
    · exact nomatch hstep
  | moveAssign place source =>
    rw [step] at hstep
    split at hstep
    · rename_i old l hplace hsource
      obtain rfl := Option.some.inj hstep
      have hold : old.lock.held = none := by
        rw [Option.eq_none_iff_forall_ne_some]
        exact fun guard hheld => hspares guard ⟨old, hplace, hheld⟩
      rw [unlock_of_held_none hold]
      exact inv_move h hsource hspares
    · exact nomatch hstep
  | destroy place =>
    rw [step] at hstep
    split at hstep
    · rename_i l hplace
      split at hstep
      · rename_i guard hguard howns
        obtain rfl := Option.some.inj hstep
        refine inv_destroy h hplace fun guard' hbusy => ?_
        by_cases hne : guard' = guard
        · rw [hne, Function.update_self] at hbusy
          exact absurd rfl hbusy
        · rw [Function.update_of_ne hne] at hbusy
          refine ⟨hbusy, fun hheld => hne ?_⟩
          have hsame := h.same place l hplace (by rw [hheld]; exact Option.some_ne_none _)
          rw [hguard, hheld] at hsame
          exact (Option.some.inj hsame).symm
      · rename_i hnone
        obtain rfl := Option.some.inj hstep
        refine inv_destroy h hplace fun guard hbusy => ⟨hbusy, fun hheld => ?_⟩
        have hsame := h.same place l hplace (by rw [hheld]; exact Option.some_ne_none _)
        have howns : l.lock.ownsLock = true := by
          by_contra hnot
          rw [UniqueLock.held, if_neg hnot] at hheld
          exact nomatch hheld
        exact hnone guard (hsame.trans hheld) howns
    · exact nomatch hstep
  | unlock place =>
    rw [step] at hstep
    split at hstep
    · rename_i l hplace
      obtain rfl := Option.some.inj hstep
      exact inv_unlock h hplace
    · exact nomatch hstep

end Steps

/-- The test whether a move-assignment spares the owners. -/
def sparesOwners (s : State Unit Bool Unit) : Action Unit Bool Unit → Bool
  | .moveAssign place _ => (s.places place).held == none
  | _ => true

theorem sparesOwners_sound (s : State Unit Bool Unit) (a : Action Unit Bool Unit)
    (hok : sparesOwners s a = true) : SparesOwners s a := by
  cases a with
  | moveAssign place source =>
    rintro guard ⟨l, hl, hheld⟩
    have hnone : (s.places place).held = none := beq_iff_eq.mp hok
    rw [hl] at hnone
    exact absurd (hheld.symm.trans hnone) (Option.some_ne_none _)
  | _ => trivial

end FastTts.Busy
