import Mathlib.Data.List.Sort
import Mathlib.Data.Prod.Lex

/-!
# Sorting that need not be stable

A sort by a comparison leaves a permutation in which nothing comes before what it follows. How it
leaves elements that compare equal is open, so two results may differ there and nowhere else.
-/

namespace FastTts.StdSort

variable {α β κ : Type*} (before : α → α → Bool)

/-- A comparison that a sort may be called with. -/
structure StrictWeak : Prop where
  irrefl : ∀ a, before a a = false
  asymm : ∀ a b, before a b = true → before b a = false
  weak : ∀ a b c, before b a = false → before c b = false → before c a = false

/-- What a sort by a comparison promises. -/
structure Sorts (sort : (α → α → Bool) → List α → List α) : Prop where
  perm : ∀ before, StrictWeak before → ∀ items, (sort before items).Perm items
  sorted : ∀ before, StrictWeak before → ∀ items,
    (sort before items).Pairwise fun a b => before b a = false

section ByKey

variable [LinearOrder κ]

def byKey (key : α → κ) (a b : α) : Bool := decide (key a < key b)

variable {key : α → κ} {sort : (α → α → Bool) → List α → List α}

theorem byKey_eq_false {a b : α} : byKey key b a = false ↔ key a ≤ key b := by
  simp [byKey]

theorem strictWeak_byKey (key : α → κ) : StrictWeak (byKey key) where
  irrefl _ := byKey_eq_false.mpr le_rfl
  asymm _ _ h := byKey_eq_false.mpr (of_decide_eq_true h).le
  weak _ _ _ hab hbc :=
    byKey_eq_false.mpr ((byKey_eq_false.mp hab).trans (byKey_eq_false.mp hbc))

theorem Sorts.perm_byKey (h : Sorts sort) (key : α → κ) (items : List α) :
    (sort (byKey key) items).Perm items :=
  h.perm _ (strictWeak_byKey key) items

theorem Sorts.pairwise_byKey (h : Sorts sort) (key : α → κ) (items : List α) :
    (sort (byKey key) items).Pairwise fun a b => key a ≤ key b :=
  (h.sorted _ (strictWeak_byKey key) items).imp byKey_eq_false.mp

/-- Two sorted lists of the same elements look the same through a view that tells no elements
apart that compare equal. -/
theorem map_eq_of_perm {view : α → β} (key' : β → κ) {l₁ l₂ : List α}
    (hview : ∀ a, key' (view a) = key a)
    (htie : ∀ a ∈ l₁, ∀ b ∈ l₂, key a = key b → view a = view b)
    (h₁ : l₁.Pairwise fun a b => key a ≤ key b) (h₂ : l₂.Pairwise fun a b => key a ≤ key b)
    (hperm : (l₁.map view).Perm (l₂.map view)) : l₁.map view = l₂.map view := by
  have hle : ∀ {l : List α}, (l.Pairwise fun a b => key a ≤ key b) →
      (l.map view).Pairwise fun a b => key' a ≤ key' b := by
    intro l h
    simpa [List.pairwise_map, hview] using h
  refine hperm.eq_of_pairwise ?_ (hle h₁) (hle h₂)
  simp only [List.mem_map]
  rintro _ _ ⟨a, ha, rfl⟩ ⟨b, hb, rfl⟩ hab hba
  rw [hview, hview] at hab hba
  exact htie a ha b hb (hab.antisymm hba)

end ByKey

theorem perm_of_filter [DecidableEq α] [DecidableEq κ] (group : α → κ) {l₁ l₂ : List α}
    (h : ∀ k, (l₁.filter fun a => group a = k).Perm (l₂.filter fun a => group a = k)) :
    l₁.Perm l₂ := by
  rw [List.perm_iff_count]
  intro a
  have hcount := (h (group a)).count_eq a
  rwa [List.count_filter (by simp), List.count_filter (by simp)] at hcount

variable {items : List α}

theorem flatMap_filter_perm [DecidableEq κ] (group : α → κ) {keys : List κ} (hkeys : keys.Nodup)
    (h : ∀ a ∈ items, group a ∈ keys) :
    (keys.flatMap fun k => items.filter fun a => group a = k).Perm items := by
  induction keys generalizing items with
  | nil =>
    rw [List.eq_nil_iff_forall_not_mem.mpr fun a ha => List.not_mem_nil (h a ha)]
    exact List.Perm.nil
  | cons k rest ih =>
    obtain ⟨hnew, hrest⟩ := List.nodup_cons.mp hkeys
    -- The classes of the other keys are those of the items that are left.
    have hleft : ∀ a ∈ items.filter fun a => !decide (group a = k), group a ∈ rest := fun a ha => by
      obtain ⟨hmem, hne⟩ := List.mem_filter.mp ha
      exact (List.mem_cons.mp (h a hmem)).resolve_left (by simpa using hne)
    have hothers := ih hrest hleft
    have hsame : (rest.flatMap fun key => (items.filter fun a => !decide (group a = k)).filter
        fun a => group a = key) = rest.flatMap fun key => items.filter fun a => group a = key := by
      refine List.flatMap_congr fun key hkey => ?_
      rw [List.filter_filter]
      refine List.filter_congr fun a _ => ?_
      have hne : key ≠ k := fun heq => hnew (heq ▸ hkey)
      by_cases hgroup : group a = key <;> simp [hgroup, hne]
    rw [hsame] at hothers
    rw [List.flatMap_cons]
    exact (hothers.append_left _).trans (List.filter_append_perm _ items)

theorem pairwise_of_filter [DecidableEq κ] (group : α → κ) {r : α → α → Prop}
    (h : ∀ k, (items.filter fun a => group a = k).Pairwise r) :
    items.Pairwise fun a b => group a = group b → r a b := by
  induction items with
  | nil => exact List.Pairwise.nil
  | cons first rest ih =>
    refine List.pairwise_cons.mpr ⟨?_, ih fun k => ?_⟩
    · intro b hb heq
      have hgroup := h (group first)
      rw [List.filter_cons_of_pos (by simp)] at hgroup
      exact (List.pairwise_cons.mp hgroup).1 b (List.mem_filter.mpr ⟨hb, by simp [heq]⟩)
    · exact (h k).sublist ((List.sublist_cons_self _ _).filter _)

/-- Insertion sort, which keeps the order of what compares equal. -/
def insertionSorted (items : List α) : List α :=
  items.insertionSort fun a b => before b a = false

theorem sorted_insertionSorted {before : α → α → Bool} (h : StrictWeak before)
    (items : List α) : (insertionSorted before items).Pairwise fun a b => before b a = false := by
  have : Std.Total fun a b : α => before b a = false := ⟨fun a b => by
    cases hba : before b a
    · exact .inl rfl
    · exact .inr (h.asymm b a hba)⟩
  have : IsTrans α fun a b => before b a = false := ⟨h.weak⟩
  exact List.pairwise_insertionSort _ items

theorem sorts_insertionSorted : Sorts (insertionSorted (α := α)) where
  perm _ _ items := List.perm_insertionSort _ items
  sorted _ h := sorted_insertionSorted h

/-- A sort that turns around what compares equal. -/
def turnedSorted (items : List α) : List α :=
  insertionSorted before items.reverse

/-! ## Selection -/

/-- What a selection by a comparison promises: the element at the place is one that a sort would
put there. -/
structure Selects (select : (α → α → Bool) → ℕ → List α → List α) : Prop where
  perm : ∀ before, StrictWeak before → ∀ place items, (select before place items).Perm items
  front : ∀ before, StrictWeak before → ∀ place items nth,
    (select before place items)[place]? = some nth →
      ∀ a ∈ (select before place items).take place, before nth a = false
  back : ∀ before, StrictWeak before → ∀ place items nth,
    (select before place items)[place]? = some nth →
      ∀ a ∈ (select before place items).drop (place + 1), before a nth = false

theorem Sorts.selects {sort : (α → α → Bool) → List α → List α} (h : Sorts sort) :
    Selects fun before _ items => sort before items where
  perm before hbefore _ items := h.perm before hbefore items
  front before hbefore place items nth hnth a ha := by
    have hsorted := h.sorted before hbefore items
    obtain ⟨hplace, rfl⟩ := List.getElem?_eq_some_iff.mp hnth
    obtain ⟨i, hi, rfl⟩ := List.mem_take_iff_getElem.mp ha
    exact List.pairwise_iff_getElem.mp hsorted i place _ hplace (by omega)
  back before hbefore place items nth hnth a ha := by
    have hsorted := h.sorted before hbefore items
    obtain ⟨hplace, rfl⟩ := List.getElem?_eq_some_iff.mp hnth
    obtain ⟨i, hi, rfl⟩ := List.mem_drop_iff_getElem.mp ha
    exact List.pairwise_iff_getElem.mp hsorted place _ hplace _ (by omega)

section Rank

variable [LinearOrder κ]

/-- As many elements as a selection puts in front have a key that is at most the one it selects. -/
theorem Selects.le_countP {select : (α → α → Bool) → ℕ → List α → List α} (h : Selects select)
    (key : α → κ) {place : ℕ} {items : List α} {nth : α}
    (hnth : (select (byKey key) place items)[place]? = some nth) :
    place + 1 ≤ items.countP fun a => key a ≤ key nth := by
  have hfront := h.front _ (strictWeak_byKey key) place items nth hnth
  obtain ⟨hplace, hget⟩ := List.getElem?_eq_some_iff.mp hnth
  have hall : ∀ a ∈ (select (byKey key) place items).take (place + 1), key a ≤ key nth := by
    intro a ha
    rw [List.take_succ_eq_append_getElem hplace, hget, List.mem_append, List.mem_singleton] at ha
    obtain ha | rfl := ha
    · exact byKey_eq_false.mp (hfront a ha)
    · exact le_rfl
  calc place + 1
      = ((select (byKey key) place items).take (place + 1)).length := by
        rw [List.length_take]
        omega
    _ = ((select (byKey key) place items).take (place + 1)).countP fun a => key a ≤ key nth :=
        (List.countP_eq_length.mpr (by simpa using hall)).symm
    _ ≤ (select (byKey key) place items).countP fun a => key a ≤ key nth :=
        (List.take_sublist _ _).countP_le
    _ = items.countP fun a => key a ≤ key nth :=
        (h.perm _ (strictWeak_byKey key) place items).countP_eq _

end Rank

end FastTts.StdSort
