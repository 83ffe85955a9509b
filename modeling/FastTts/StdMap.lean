import Mathlib.Data.List.Induction
import Mathlib.Order.Lattice

/-!
# Maps in the order of their keys

A map is the list of its entries, in the order of the keys. Items that are put under their keys one
after the other lie there in the order in which they came.
-/

namespace FastTts.StdMap

variable {κ α β γ : Type*} [LinearOrder κ]

/-- The value at a key is changed, where an absent one is put there first. -/
def update (key : κ) (absent : β) (change : β → β) : List (κ × β) → List (κ × β)
  | [] => [(key, change absent)]
  | (k, value) :: rest =>
    if key < k then (key, change absent) :: (k, value) :: rest
    else if k < key then (k, value) :: update key absent change rest
    else (k, change value) :: rest

def find? (key : κ) (entries : List (κ × β)) : Option β :=
  (entries.find? fun entry => entry.1 = key).map Prod.snd

def groupBy (key : α → κ) (items : List α) : List (κ × List α) :=
  items.foldl (fun groups item => update (key item) [] (· ++ [item]) groups) []

variable {key : κ} {absent : β} {change : β → β} {entries : List (κ × β)}

theorem mem_update_keys {k : κ} :
    k ∈ (update key absent change entries).map Prod.fst ↔ k = key ∨ k ∈ entries.map Prod.fst := by
  induction entries with
  | nil => simp [update]
  | cons entry rest ih =>
    obtain ⟨k', value⟩ := entry
    unfold update
    split_ifs with hlt hgt
    · simp
    · simp only [List.map_cons, List.mem_cons, ih]
      tauto
    · obtain rfl : key = k' := le_antisymm (not_lt.mp hgt) (not_lt.mp hlt)
      simp

theorem pairwise_update (h : (entries.map Prod.fst).Pairwise (· < ·)) :
    ((update key absent change entries).map Prod.fst).Pairwise (· < ·) := by
  induction entries with
  | nil => simp [update]
  | cons entry rest ih =>
    obtain ⟨k', value⟩ := entry
    obtain ⟨hfirst, hrest⟩ := List.pairwise_cons.mp h
    unfold update
    split_ifs with hlt hgt
    · refine List.pairwise_cons.mpr ⟨?_, h⟩
      rintro k (_ | ⟨_, hk⟩)
      · exact hlt
      · exact lt_trans hlt (hfirst k hk)
    · refine List.pairwise_cons.mpr ⟨?_, ih hrest⟩
      intro k hk
      rcases mem_update_keys.mp hk with rfl | hk
      · exact hgt
      · exact hfirst k hk
    · exact h

@[simp] theorem find?_nil (key : κ) : find? key ([] : List (κ × β)) = none := rfl

theorem find?_cons (key : κ) (entry : κ × β) (entries : List (κ × β)) :
    find? key (entry :: entries) = if entry.1 = key then some entry.2 else find? key entries := by
  unfold find?
  rw [List.find?_cons]
  split_ifs with h <;> simp [h]

theorem find?_eq_none : find? key entries = none ↔ key ∉ entries.map Prod.fst := by
  simp only [find?, Option.map_eq_none_iff, List.find?_eq_none, List.mem_map, not_exists, not_and]
  simp

theorem find?_update (h : (entries.map Prod.fst).Pairwise (· < ·)) (k : κ) :
    find? k (update key absent change entries) =
      if k = key then some (change ((find? key entries).getD absent)) else find? k entries := by
  induction entries with
  | nil => simp [update, find?_cons, eq_comm]
  | cons entry rest ih =>
    obtain ⟨k', value⟩ := entry
    obtain ⟨hfirst, hrest⟩ := List.pairwise_cons.mp h
    rcases lt_trichotomy key k' with hlt | rfl | hgt
    · have hnone : find? key ((k', value) :: rest) = none := by
        rw [find?_eq_none]
        rintro (_ | ⟨_, hmem⟩)
        · exact lt_irrefl _ hlt
        · exact lt_irrefl _ (lt_trans hlt (hfirst key hmem))
      rw [update, if_pos hlt, hnone, find?_cons]
      simp only [eq_comm (a := key), Option.getD_none]
    · rw [update, if_neg (lt_irrefl _), if_neg (lt_irrefl _), find?_cons, find?_cons, find?_cons]
      split_ifs <;> simp_all
    · rw [update, if_neg (lt_asymm hgt), if_pos hgt, find?_cons, find?_cons, find?_cons, ih hrest,
        if_neg (ne_of_lt hgt)]
      split_ifs with hfst hk
      · exact absurd (hfst.trans hk) (ne_of_lt hgt)
      all_goals rfl

theorem pairwise_groupBy (key : α → κ) (items : List α) :
    ((groupBy key items).map Prod.fst).Pairwise (· < ·) := by
  induction items using List.reverseRecOn with
  | nil => simp [groupBy]
  | append_singleton items item ih =>
    unfold groupBy at ih ⊢
    rw [List.foldl_append]
    exact pairwise_update ih

theorem find?_groupBy (key : α → κ) (items : List α) (k : κ) :
    (find? k (groupBy key items)).getD [] = items.filter (key · = k) := by
  induction items using List.reverseRecOn with
  | nil => rfl
  | append_singleton items item ih =>
    have hsorted := pairwise_groupBy key items
    unfold groupBy at ih hsorted ⊢
    rw [List.foldl_append, List.filter_append, ← ih]
    simp only [List.foldl_cons, List.foldl_nil]
    rw [find?_update hsorted]
    split_ifs with hk
    · simp [hk]
    · simp [Ne.symm hk]

theorem find?_of_mem (h : (entries.map Prod.fst).Pairwise (· < ·)) {entry : κ × β}
    (hentry : entry ∈ entries) : find? entry.1 entries = some entry.2 := by
  induction entries with
  | nil => simp at hentry
  | cons first rest ih =>
    obtain ⟨hfirst, hrest⟩ := List.pairwise_cons.mp h
    rw [find?_cons]
    rcases List.mem_cons.mp hentry with rfl | hmem
    · rw [if_pos rfl]
    · rw [if_neg (hfirst entry.1 (List.mem_map_of_mem hmem)).ne, ih hrest hmem]

theorem mem_groupBy {key : α → κ} {items : List α} {entry : κ × List α}
    (h : entry ∈ groupBy key items) : entry.2 = items.filter (key · = entry.1) := by
  rw [← find?_groupBy, find?_of_mem (pairwise_groupBy key items) h]
  rfl

theorem filter_flatMap {key : γ → κ} {make : β → List γ} (habsent : make absent = [])
    (h : (entries.map Prod.fst).Pairwise (· < ·))
    (hmake : ∀ entry ∈ entries, ∀ c ∈ make entry.2, key c = entry.1) (k : κ) :
    (entries.flatMap fun entry => make entry.2).filter (key · = k) =
      make ((find? k entries).getD absent) := by
  induction entries with
  | nil => exact habsent.symm
  | cons entry rest ih =>
    obtain ⟨hfirst, hrest⟩ := List.pairwise_cons.mp h
    have ih := ih hrest fun e he => hmake e (List.mem_cons_of_mem _ he)
    have hmade := hmake entry List.mem_cons_self
    rw [List.flatMap_cons, List.filter_append, ih, find?_cons]
    split_ifs with hk
    · have hnone : find? k rest = none := by
        rw [find?_eq_none, ← hk]
        exact fun hmem => lt_irrefl _ (hfirst entry.1 hmem)
      rw [hnone, Option.getD_none, habsent, List.append_nil]
      exact List.filter_eq_self.mpr fun c hc => by simp [hmade c hc, hk]
    · rw [List.filter_eq_nil_iff.mpr fun c hc => by simp [hmade c hc, hk], List.nil_append]

end FastTts.StdMap
