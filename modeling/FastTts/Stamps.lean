import Mathlib.Data.List.Basic

/-!
# Visits that are marked with a stamp

An item is changed at its first visit: a mark for each item holds the stamp of the last scan that
visited it, and a scan with a stamp that no mark holds begins with no item visited. The marks need
not be cleared between scans.
-/

namespace FastTts.Stamps

variable {W A : Type*}

def visit [DecidableEq W] (stamp : W) (change : A → A) (state : List W × List A) (i : ℕ) :
    List W × List A :=
  if state.1[i]? = some stamp then state
  else (state.1.set i stamp, state.2.modify i change)

/-- Every item that is visited is changed once. -/
def changed (change : A → A) (visits : List ℕ) (items : List A) : List A :=
  items.mapIdx fun i item => if i ∈ visits then change item else item

/-- A scan, after these visits. -/
structure Scanned (stamp : W) (change : A → A) (marks : List W) (items : List A) (visits : List ℕ)
    (state : List W × List A) : Prop where
  length_eq : state.1.length = marks.length
  visited : ∀ i < marks.length, state.1[i]? = some stamp ↔ i ∈ visits
  others : ∀ mark ∈ state.1, mark = stamp ∨ mark ∈ marks
  items_eq : state.2 = changed change visits items

variable {stamp : W} {change : A → A} {marks : List W} {items : List A} {visits : List ℕ}
  {state : List W × List A}

theorem Scanned.start (h : stamp ∉ marks) :
    Scanned stamp change marks items [] (marks, items) where
  length_eq := rfl
  visited := by
    intro i _
    constructor
    · intro hi
      exact absurd (List.mem_of_getElem? hi) h
    · intro hi
      cases hi
  others := fun mark hmark => Or.inr hmark
  items_eq := by
    apply List.ext_getElem?
    intro i
    simp [changed]

variable {i : ℕ}

theorem Scanned.again (h : Scanned stamp change marks items visits state) (hi : i < marks.length)
    (hmark : state.1[i]? = some stamp) :
    Scanned stamp change marks items (visits ++ [i]) state := by
  have hseen := (h.visited i hi).mp hmark
  have hmem : ∀ j, j ∈ visits ++ [i] ↔ j ∈ visits := by
    intro j
    rw [List.mem_append, List.mem_singleton]
    constructor
    · rintro (hj | rfl)
      · exact hj
      · exact hseen
    · exact Or.inl
  refine ⟨h.length_eq, ?_, h.others, ?_⟩
  · intro j hj
    rw [h.visited j hj, hmem]
  · rw [h.items_eq]
    simp only [changed, hmem]

theorem changed_append_singleton (hnew : i ∉ visits) :
    changed change (visits ++ [i]) items = (changed change visits items).modify i change := by
  apply List.ext_getElem?
  intro j
  rw [changed, changed, List.getElem?_modify, List.getElem?_mapIdx, List.getElem?_mapIdx]
  by_cases hji : i = j
  · subst hji
    simp [hnew]
  · have hother : j ∈ visits ++ [i] ↔ j ∈ visits := by simp [Ne.symm hji]
    simp [hji, hother]

theorem Scanned.first (h : Scanned stamp change marks items visits state) (hi : i < marks.length)
    (hmark : ¬ state.1[i]? = some stamp) :
    Scanned stamp change marks items (visits ++ [i])
      (state.1.set i stamp, state.2.modify i change) := by
  have hnew : i ∉ visits := fun hseen => hmark ((h.visited i hi).mpr hseen)
  refine ⟨?_, ?_, ?_, ?_⟩
  · rw [List.length_set, h.length_eq]
  · intro j hj
    by_cases hji : i = j
    · subst hji
      rw [List.getElem?_set_self (by rw [h.length_eq]; exact hi)]
      simp
    · rw [List.getElem?_set_ne hji, h.visited j hj, List.mem_append, List.mem_singleton]
      constructor
      · exact Or.inl
      · rintro (hmem | rfl)
        · exact hmem
        · exact absurd rfl hji
  · intro mark hmark
    rcases List.mem_or_eq_of_mem_set hmark with hold | hstamp
    · exact h.others mark hold
    · exact Or.inl hstamp
  · rw [h.items_eq, changed_append_singleton hnew]

variable [DecidableEq W]

theorem Scanned.visit (h : Scanned stamp change marks items visits state) (hi : i < marks.length) :
    Scanned stamp change marks items (visits ++ [i]) (visit stamp change state i) := by
  unfold Stamps.visit
  by_cases hmark : state.1[i]? = some stamp
  · rw [if_pos hmark]
    exact h.again hi hmark
  · rw [if_neg hmark]
    exact h.first hi hmark

variable (change items visits) in
theorem foldl_visit (h : stamp ∉ marks) (hvisits : ∀ i ∈ visits, i < marks.length) :
    Scanned stamp change marks items visits (visits.foldl (visit stamp change) (marks, items)) := by
  have hrun : ∀ done rest : List ℕ, ∀ state, Scanned stamp change marks items done state →
      (∀ i ∈ rest, i < marks.length) →
      Scanned stamp change marks items (done ++ rest) (rest.foldl (visit stamp change) state) := by
    intro done rest
    induction rest generalizing done with
    | nil =>
      intro state hdone _
      rwa [List.append_nil]
    | cons i rest ih =>
      intro state hdone hrest
      have hnext := ih (done ++ [i]) _ (hdone.visit (hrest i List.mem_cons_self))
        fun j hj => hrest j (List.mem_cons_of_mem i hj)
      rwa [List.append_assoc] at hnext
  exact hrun [] visits (marks, items) (Scanned.start h) hvisits

end FastTts.Stamps
