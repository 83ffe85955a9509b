import FastTts.Json
import Mathlib.Algebra.Order.Group.Int
import Mathlib.Data.List.Dedup
import Mathlib.Data.List.Sort

/-!
# Capacities of graphs

A graph is prepared for a capacity out of a fixed list. How the capacity for a request is chosen
depends on the mode and on what is prepared already.
-/

namespace FastTts.GraphCapacities

inductive GraphCapacityMode
  | fixed
  | tiered
  | grow
  | double
  | unsupported
  deriving DecidableEq, Repr

/-- `std::sort` and `std::unique`. -/
def sortedUnique (capacities : List ℤ) : List ℤ := capacities.dedup.insertionSort (· ≤ ·)

/-- The capacities are those of a list that the constructor accepts. -/
structure DiscreteGraphCapacityAdapter where
  configured : List ℤ
  nonempty : configured ≠ []
  positive : ∀ capacity ∈ configured, 0 < capacity
  int64 : ∀ capacity ∈ configured, capacity < 2 ^ 63

namespace DiscreteGraphCapacityAdapter

variable (adapter : DiscreteGraphCapacityAdapter)

def capacities : List ℤ := sortedUnique adapter.configured

def baseCapacity : ℤ := adapter.capacities.headD 0

def fixedCapacity : ℤ := adapter.capacities.headD 0

/-- `std::lower_bound` in a sorted list. -/
def canonicalCapacityForRequest (requestSize : ℤ) : Except Exception ℤ :=
  if requestSize ≤ 0 then .error (bytes "graph capacity request size must be positive")
  else if adapter.capacities = [] then .error (bytes "graph capacity list must not be empty")
  else match adapter.capacities.find? (requestSize ≤ ·) with
    | none => .error (bytes "request exceeds configured graph capacity")
    | some capacity => .ok capacity

/-- What is prepared afterwards. -/
def prepareCapacity (prepared : List ℤ) (capacity : ℤ) : Except Exception (List ℤ) :=
  if capacity ∈ adapter.capacities then .ok (prepared ++ [capacity])
  else .error (bytes "selected graph capacity is not configured")

end DiscreteGraphCapacityAdapter

def selectSmallestPreparedFittingCapacity (prepared : List ℤ) (requestSize : ℤ) : ℤ :=
  (prepared.find? (requestSize ≤ ·)).getD 0

def checkedDoubleCapacityRequest (requestSize : ℤ) : Except Exception ℤ :=
  if requestSize ≤ 0 then .error (bytes "graph capacity request size must be positive")
  else if (2 ^ 63 - 1) / 2 < requestSize then
    .error (bytes "graph capacity request size is too large to double")
  else .ok (requestSize * 2)

def selectedCapacity (mode : GraphCapacityMode) (adapter : DiscreteGraphCapacityAdapter)
    (prepared : List ℤ) (requestSize : ℤ) : Except Exception ℤ :=
  match mode with
  | .fixed =>
    if adapter.fixedCapacity ≤ 0 then .error (bytes "fixed graph capacity must be positive")
    else if 0 < requestSize ∧ adapter.fixedCapacity < requestSize then
      .error (bytes "request exceeds fixed graph capacity")
    else .ok adapter.fixedCapacity
  | .tiered =>
    if requestSize ≤ 0 then .ok adapter.baseCapacity
    else
      let selected := selectSmallestPreparedFittingCapacity prepared requestSize
      if selected = 0 then adapter.canonicalCapacityForRequest requestSize else .ok selected
  | .grow =>
    if requestSize ≤ 0 then .ok (prepared.getLast?.getD adapter.baseCapacity)
    else
      let selected := prepared.getLast?.getD 0
      if selected < requestSize then adapter.canonicalCapacityForRequest requestSize
      else .ok selected
  | .double =>
    if requestSize ≤ 0 then .ok (prepared.getLast?.getD adapter.baseCapacity)
    else
      let selected := prepared.getLast?.getD 0
      if selected < requestSize then
        checkedDoubleCapacityRequest requestSize >>= adapter.canonicalCapacityForRequest
      else .ok selected
  | .unsupported => .error (bytes "graph capacity mode is unsupported")

/-- The capacity for a request, and what is prepared afterwards. -/
def ensurePrepared (mode : GraphCapacityMode) (adapter : DiscreteGraphCapacityAdapter)
    (prepared : List ℤ) (requestSize : ℤ) : Except Exception (ℤ × List ℤ) := do
  let selected ← selectedCapacity mode adapter (sortedUnique prepared) requestSize
  if selected ≤ 0 then .error (bytes "graph capacity selection must be positive")
  else if selected ∈ sortedUnique prepared then .ok (selected, prepared)
  else (adapter.prepareCapacity prepared selected).map (Prod.mk selected)

def selectCapacityForRun (mode : GraphCapacityMode) (adapter : DiscreteGraphCapacityAdapter)
    (prepared : List ℤ) (requestSize : ℤ) : Except Exception ℤ :=
  if requestSize ≤ 0 then .error (bytes "graph capacity request size must be positive")
  else match mode with
    | .fixed =>
      if adapter.fixedCapacity ≤ 0 then .error (bytes "fixed graph capacity must be positive")
      else if adapter.fixedCapacity < requestSize then
        .error (bytes "request exceeds fixed graph capacity")
      else .ok adapter.fixedCapacity
    | .tiered =>
      let capacity := selectSmallestPreparedFittingCapacity (sortedUnique prepared) requestSize
      if 0 < capacity then .ok capacity else adapter.canonicalCapacityForRequest requestSize
    | .grow =>
      match (sortedUnique prepared).getLast? with
      | some last =>
        if requestSize ≤ last then .ok last else adapter.canonicalCapacityForRequest requestSize
      | none => adapter.canonicalCapacityForRequest requestSize
    | .double =>
      let doubled := checkedDoubleCapacityRequest requestSize >>= adapter.canonicalCapacityForRequest
      match (sortedUnique prepared).getLast? with
      | some last => if requestSize ≤ last then .ok last else doubled
      | none => doubled
    | .unsupported => .error (bytes "graph capacity mode is unsupported")

/-- What a sequence of calls leaves prepared. A call that throws prepares nothing. -/
def preparedBy (mode : GraphCapacityMode) (adapter : DiscreteGraphCapacityAdapter) :
    List ℤ → List ℤ → List ℤ
  | prepared, [] => prepared
  | prepared, requestSize :: requests =>
    match ensurePrepared mode adapter prepared requestSize with
    | .ok (_, after) => preparedBy mode adapter after requests
    | .error _ => preparedBy mode adapter prepared requests

/-! ## What a call does -/

variable {mode : GraphCapacityMode} {adapter : DiscreteGraphCapacityAdapter}
  {prepared after : List ℤ} {requestSize capacity : ℤ}

theorem mem_sortedUnique {l : List ℤ} : capacity ∈ sortedUnique l ↔ capacity ∈ l := by
  rw [sortedUnique, List.mem_insertionSort, List.mem_dedup]

theorem le_getLast {l : List ℤ} {last : ℤ} (hlast : (sortedUnique l).getLast? = some last)
    (h : capacity ∈ l) : capacity ≤ last := by
  have hsorted : (sortedUnique l).Pairwise (· ≤ ·) := List.pairwise_insertionSort _ _
  obtain ⟨front, hfront⟩ := List.getLast?_eq_some_iff.mp hlast
  rw [hfront, List.pairwise_append] at hsorted
  rcases List.mem_append.mp (hfront ▸ mem_sortedUnique.mpr h) with hmem | hmem
  · exact hsorted.2.2 capacity hmem last List.mem_cons_self
  · exact (List.mem_singleton.mp hmem).le

def Largest (adapter : DiscreteGraphCapacityAdapter) (largest : ℤ) : Prop :=
  largest ∈ adapter.configured ∧ ∀ capacity ∈ adapter.configured, capacity ≤ largest

theorem canonical_ok
    (h : adapter.canonicalCapacityForRequest requestSize = .ok capacity) :
    capacity ∈ adapter.configured ∧ requestSize ≤ capacity := by
  unfold DiscreteGraphCapacityAdapter.canonicalCapacityForRequest at h
  split_ifs at h
  split at h
  · cases h
  · next hfind =>
    cases h
    exact ⟨mem_sortedUnique.mp (List.mem_of_find?_eq_some hfind),
      by simpa using List.find?_some hfind⟩

theorem exists_canonical (hpositive : 0 < requestSize) (h : capacity ∈ adapter.configured)
    (hfits : requestSize ≤ capacity) :
    ∃ canonical, adapter.canonicalCapacityForRequest requestSize = .ok canonical := by
  have hmem : capacity ∈ adapter.capacities := mem_sortedUnique.mpr h
  unfold DiscreteGraphCapacityAdapter.canonicalCapacityForRequest
  simp only [if_neg (not_le.mpr hpositive), if_neg (List.ne_nil_of_mem hmem)]
  split
  · next hnone => exact absurd hfits (by simpa using List.find?_eq_none.mp hnone capacity hmem)
  · exact ⟨_, rfl⟩

def Chooses (mode : GraphCapacityMode) : Prop := mode = .tiered ∨ mode = .grow ∨ mode = .double

/-- What is asked for where nothing that is prepared fits. -/
def asked (mode : GraphCapacityMode) (adapter : DiscreteGraphCapacityAdapter) (requestSize : ℤ) :
    Except Exception ℤ :=
  if mode = .double then
    checkedDoubleCapacityRequest requestSize >>= adapter.canonicalCapacityForRequest
  else adapter.canonicalCapacityForRequest requestSize

theorem asked_ok (hpositive : 0 < requestSize)
    (h : asked mode adapter requestSize = .ok capacity) :
    capacity ∈ adapter.configured ∧ requestSize ≤ capacity := by
  unfold asked at h
  split_ifs at h
  · obtain ⟨doubled, hdoubled, h⟩ := except_bind_ok h
    unfold checkedDoubleCapacityRequest at hdoubled
    split_ifs at hdoubled
    cases hdoubled
    obtain ⟨hmem, hfits⟩ := canonical_ok h
    exact ⟨hmem, by omega⟩
  · exact canonical_ok h

theorem getLast?_of_fits (hmem : capacity ∈ prepared) :
    ∃ last ∈ prepared, (sortedUnique prepared).getLast? = some last ∧ capacity ≤ last := by
  have hne := List.ne_nil_of_mem (mem_sortedUnique.mpr hmem)
  have hlast := List.getLast?_eq_some_getLast hne
  exact ⟨_, mem_sortedUnique.mp (List.getLast_mem hne), hlast, le_getLast hlast hmem⟩

theorem find?_of_fits (hmem : capacity ∈ prepared) (hfits : requestSize ≤ capacity) :
    ∃ found ∈ prepared, (sortedUnique prepared).find? (requestSize ≤ ·) = some found ∧
      requestSize ≤ found := by
  cases hfind : (sortedUnique prepared).find? (requestSize ≤ ·) with
  | none =>
    have hnone := List.find?_eq_none.mp hfind capacity (mem_sortedUnique.mpr hmem)
    exact absurd hfits (by simpa using hnone)
  | some found =>
    exact ⟨found, mem_sortedUnique.mp (List.mem_of_find?_eq_some hfind), rfl,
      by simpa using List.find?_some hfind⟩

theorem ensurePrepared_of_fits (hmode : Chooses mode) (hpositive : 0 < requestSize)
    (hmem : capacity ∈ prepared) (hfits : requestSize ≤ capacity) :
    ∃ chosen ∈ prepared, requestSize ≤ chosen ∧
      ensurePrepared mode adapter prepared requestSize = .ok (chosen, prepared) ∧
      selectCapacityForRun mode adapter prepared requestSize = .ok chosen := by
  obtain ⟨found, hfound, hfind, hle⟩ := find?_of_fits hmem hfits
  obtain ⟨last, hlastMem, hlast, hlastLe⟩ := getLast?_of_fits hmem
  have hsize : ¬ requestSize ≤ 0 := by omega
  rcases hmode with rfl | rfl | rfl
  · have hne : ¬ found = 0 ∧ 0 < found ∧ ¬ found ≤ 0 := by omega
    exact ⟨found, hfound, hle, by
      simp [ensurePrepared, selectedCapacity, selectSmallestPreparedFittingCapacity, hfind, hsize,
        hne, mem_sortedUnique, hfound, bind, Except.bind], by
      simp [selectCapacityForRun, selectSmallestPreparedFittingCapacity, hfind, hsize, hne]⟩
  all_goals
    have hne : ¬ last < requestSize ∧ requestSize ≤ last ∧ ¬ last ≤ 0 := by omega
    exact ⟨last, hlastMem, hne.2.1, by
      simp [ensurePrepared, selectedCapacity, hlast, hsize, hne, mem_sortedUnique, hlastMem, bind,
        Except.bind], by simp [selectCapacityForRun, hlast, hsize, hne]⟩

theorem ensurePrepared_of_small (hmode : Chooses mode) (hpositive : 0 < requestSize)
    (hsmall : ∀ capacity ∈ prepared, capacity < requestSize) :
    ensurePrepared mode adapter prepared requestSize =
      (asked mode adapter requestSize).map fun capacity => (capacity, prepared ++ [capacity]) := by
  have hsize : ¬ requestSize ≤ 0 := by omega
  have hfind : (sortedUnique prepared).find? (requestSize ≤ ·) = none :=
    List.find?_eq_none.mpr fun capacity h => by
      simpa using hsmall capacity (mem_sortedUnique.mp h)
  have hlast : (sortedUnique prepared).getLast?.getD 0 < requestSize := by
    cases h : (sortedUnique prepared).getLast? with
    | none => exact hpositive
    | some last => exact hsmall last (mem_sortedUnique.mp (List.mem_of_getLast? h))
  have hselected : selectedCapacity mode adapter (sortedUnique prepared) requestSize =
      asked mode adapter requestSize := by
    rcases hmode with rfl | rfl | rfl <;>
      simp [selectedCapacity, selectSmallestPreparedFittingCapacity, asked, hsize, hfind, hlast]
  rw [ensurePrepared, hselected]
  cases hasked : asked mode adapter requestSize with
  | error what => rfl
  | ok capacity =>
    obtain ⟨hmem, hfits⟩ := asked_ok hpositive hasked
    have hnew : capacity ∉ prepared := fun h => absurd (hsmall capacity h) (not_lt.mpr hfits)
    have hconfigured : capacity ∈ adapter.capacities := mem_sortedUnique.mpr hmem
    simp [bind, Except.bind, Except.map, not_le.mpr (hpositive.trans_le hfits), mem_sortedUnique,
      hnew, DiscreteGraphCapacityAdapter.prepareCapacity, hconfigured]

theorem select_of_small (hmode : Chooses mode) (hpositive : 0 < requestSize)
    (hsmall : ∀ capacity ∈ prepared, capacity < requestSize) (hfits : requestSize ≤ capacity) :
    selectCapacityForRun mode adapter (prepared ++ [capacity]) requestSize = .ok capacity := by
  have hmem : capacity ∈ prepared ++ [capacity] := by simp
  obtain ⟨chosen, hchosen, hle, -, hselect⟩ := ensurePrepared_of_fits hmode hpositive hmem hfits
  rcases List.mem_append.mp hchosen with h | h
  · exact absurd (hsmall chosen h) (not_lt.mpr hle)
  · rwa [List.mem_singleton.mp h] at hselect

theorem ensurePrepared_configured
    (h : ensurePrepared mode adapter prepared requestSize = .ok (capacity, after))
    (hprepared : ∀ c ∈ prepared, c ∈ adapter.configured) : ∀ c ∈ after, c ∈ adapter.configured := by
  obtain ⟨selected, -, h⟩ := except_bind_ok h
  split_ifs at h
  · cases h
    exact hprepared
  · unfold DiscreteGraphCapacityAdapter.prepareCapacity at h
    split_ifs at h with hmem
    · cases h
      intro c hc
      rcases List.mem_append.mp hc with hc | hc
      · exact hprepared c hc
      · exact List.mem_singleton.mp hc ▸ mem_sortedUnique.mp hmem
    · cases h

theorem preparedBy_configured (requests : List ℤ) (h : ∀ c ∈ prepared, c ∈ adapter.configured) :
    ∀ c ∈ preparedBy mode adapter prepared requests, c ∈ adapter.configured := by
  induction requests generalizing prepared with
  | nil => exact h
  | cons requestSize requests ih =>
    rw [preparedBy]
    split
    · next hcall => exact ih (ensurePrepared_configured hcall h)
    · exact ih h

/-- A request is served by what `ensurePrepared` returns, and refused only where no configured
capacity fits. -/
structure Serves (mode : GraphCapacityMode) (adapter : DiscreteGraphCapacityAdapter)
    (prepared : List ℤ) (requestSize : ℤ) : Prop where
  succeeds : (∃ result, ensurePrepared mode adapter prepared requestSize = .ok result) ↔
    ∃ capacity ∈ adapter.configured, requestSize ≤ capacity
  fits : ∀ capacity after,
    ensurePrepared mode adapter prepared requestSize = .ok (capacity, after) →
      capacity ∈ after ∧ capacity ∈ adapter.configured ∧ requestSize ≤ capacity ∧
        selectCapacityForRun mode adapter after requestSize = .ok capacity

theorem serves_of_fits (hmode : Chooses mode) (hpositive : 0 < requestSize)
    (hprepared : ∀ c ∈ prepared, c ∈ adapter.configured) (hmem : capacity ∈ prepared)
    (hfits : requestSize ≤ capacity) : Serves mode adapter prepared requestSize := by
  obtain ⟨chosen, hchosen, hle, hensure, hselect⟩ :=
    ensurePrepared_of_fits hmode hpositive hmem hfits
  refine ⟨⟨fun _ => ⟨chosen, hprepared chosen hchosen, hle⟩, fun _ => ⟨_, hensure⟩⟩, ?_⟩
  intro capacity after h
  cases hensure.symm.trans h
  exact ⟨hchosen, hprepared chosen hchosen, hle, hselect⟩

/-- Where nothing that is prepared fits, a request is served if what is asked for in its place is
there whenever it is. -/
theorem serves_iff_asked (hmode : Chooses mode) (hpositive : 0 < requestSize)
    (hsmall : ∀ capacity ∈ prepared, capacity < requestSize) :
    Serves mode adapter prepared requestSize ↔
      ((∃ capacity ∈ adapter.configured, requestSize ≤ capacity) →
        ∃ capacity, asked mode adapter requestSize = .ok capacity) := by
  have hensure : ensurePrepared mode adapter prepared requestSize = _ :=
    ensurePrepared_of_small hmode hpositive hsmall
  constructor
  · intro h hfits
    obtain ⟨result, hresult⟩ := h.succeeds.mpr hfits
    rw [hensure] at hresult
    cases hasked : asked mode adapter requestSize with
    | error what => rw [hasked] at hresult; cases hresult
    | ok capacity => exact ⟨capacity, rfl⟩
  · intro h
    refine ⟨⟨?_, fun hfits => ?_⟩, fun capacity after hcall => ?_⟩
    · rintro ⟨result, hresult⟩
      rw [hensure] at hresult
      cases hasked : asked mode adapter requestSize with
      | error what => rw [hasked] at hresult; cases hresult
      | ok capacity => exact ⟨capacity, asked_ok hpositive hasked⟩
    · obtain ⟨capacity, hasked⟩ := h hfits
      exact ⟨_, by rw [hensure, hasked]; rfl⟩
    · rw [hensure] at hcall
      cases hasked : asked mode adapter requestSize with
      | error what => rw [hasked] at hcall; cases hcall
      | ok chosen =>
        rw [hasked] at hcall
        cases hcall
        obtain ⟨hmem, hle⟩ := asked_ok hpositive hasked
        exact ⟨by simp, hmem, hle, select_of_small hmode hpositive hsmall hle⟩

theorem asked_iff {largest : ℤ} (hlargest : Largest adapter largest) (hpositive : 0 < requestSize) :
    ((∃ capacity ∈ adapter.configured, requestSize ≤ capacity) →
        ∃ capacity, asked mode adapter requestSize = .ok capacity) ↔
      mode ≠ .double ∨ largest < requestSize ∨ requestSize * 2 ≤ largest := by
  have hfits : ∀ size, (∃ capacity ∈ adapter.configured, size ≤ capacity) ↔ size ≤ largest :=
    fun size => ⟨fun ⟨capacity, hmem, hle⟩ => hle.trans (hlargest.2 capacity hmem),
      fun hle => ⟨largest, hlargest.1, hle⟩⟩
  have hint64 := adapter.int64 largest hlargest.1
  rw [hfits]
  by_cases hmode : mode = .double
  · simp only [hmode, ne_eq, not_true_eq_false, false_or, asked, if_true]
    constructor
    · intro h
      by_contra! hbetween
      obtain ⟨capacity, hasked⟩ := h hbetween.1
      obtain ⟨doubled, hdoubled, hasked⟩ := except_bind_ok hasked
      unfold checkedDoubleCapacityRequest at hdoubled
      split_ifs at hdoubled
      cases hdoubled
      obtain ⟨hmem, hle⟩ := canonical_ok hasked
      exact absurd (hlargest.2 capacity hmem) (not_le.mpr (hbetween.2.trans_le hle))
    · rintro (hlt | hle) hsize
      · exact absurd hsize (not_le.mpr hlt)
      · have hdoubled : checkedDoubleCapacityRequest requestSize = .ok (requestSize * 2) := by
          rw [checkedDoubleCapacityRequest, if_neg (by omega), if_neg (by omega)]
        rw [hdoubled]
        exact exists_canonical (by omega) hlargest.1 hle
  · simp only [hmode, ne_eq, not_false_eq_true, true_or, iff_true, asked, if_false]
    exact fun hle => exists_canonical hpositive hlargest.1 hle

/-- After any calls, a request is served unless its double has to be asked for and is too large
while the request itself is not. -/
theorem ensurePrepared_serves_iff (hmode : Chooses mode) {largest : ℤ}
    (hlargest : Largest adapter largest) (requests : List ℤ) (hpositive : 0 < requestSize) :
    Serves mode adapter (preparedBy mode adapter [] requests) requestSize ↔
      mode ≠ .double ∨ largest < requestSize ∨ requestSize * 2 ≤ largest ∨
        ∃ capacity ∈ preparedBy mode adapter [] requests, requestSize ≤ capacity := by
  have hprepared : ∀ c ∈ preparedBy mode adapter [] requests, c ∈ adapter.configured :=
    preparedBy_configured requests (by simp)
  by_cases hfits : ∃ capacity ∈ preparedBy mode adapter [] requests, requestSize ≤ capacity
  · obtain ⟨capacity, hmem, hle⟩ := hfits
    have hserves := serves_of_fits hmode hpositive hprepared hmem hle
    exact ⟨fun _ => .inr (.inr (.inr ⟨capacity, hmem, hle⟩)), fun _ => hserves⟩
  · rw [serves_iff_asked hmode hpositive (by push Not at hfits; exact hfits),
      asked_iff hlargest hpositive, or_iff_left hfits]

theorem four_accepted : ∀ capacity ∈ [(4 : ℤ)], 0 < capacity ∧ capacity < 2 ^ 63 := by decide

def oneCapacity : DiscreteGraphCapacityAdapter :=
  ⟨[4], List.cons_ne_nil _ _, fun c h => (four_accepted c h).1, fun c h => (four_accepted c h).2⟩

/-- A second request of two finds the capacity of four prepared. -/
theorem ensurePrepared_serves_two :
    Serves .double oneCapacity (preparedBy .double oneCapacity [] [1, 2]) 2 :=
  have hlargest : Largest oneCapacity 4 :=
    ⟨List.mem_cons_self, fun _ h => (List.mem_singleton.mp h).le⟩
  (ensurePrepared_serves_iff (.inr (.inr rfl)) hlargest [1, 2] (by decide)).mpr
    (.inr (.inr (.inl (by decide))))

/-- A request of three is refused though four is configured. -/
theorem not_serves_three :
    ¬ ∀ (mode : GraphCapacityMode) (adapter : DiscreteGraphCapacityAdapter) (requests : List ℤ)
      (requestSize : ℤ), Chooses mode → 0 < requestSize →
      Serves mode adapter (preparedBy mode adapter [] requests) requestSize := by
  intro h
  obtain ⟨result, hresult⟩ := (h .double oneCapacity [] 3 (.inr (.inr rfl)) (by decide)).succeeds.mpr
    ⟨4, List.mem_cons_self, by decide⟩
  have hthrows : ensurePrepared .double oneCapacity (preparedBy .double oneCapacity [] []) 3 =
      .error (bytes "request exceeds configured graph capacity") := rfl
  rw [hthrows] at hresult
  cases hresult

end FastTts.GraphCapacities
