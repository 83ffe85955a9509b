import Mathlib.Data.List.Nodup
import Mathlib.Data.List.Perm.Subperm
import Mathlib.Data.List.Range

/-!
# Rings of slots

A ring of `n` slots into which items are written one after the other, item `base` first into slot
zero: when the ring is full, an item takes the slot of the one `n` items before it.
-/

namespace FastTts.Ring

variable {R : Type*}

/-- The ring holds the last `count` items before item `stop`, each in its slot. -/
structure Placed (row : ℕ → R) (n base count stop : ℕ) (slots : List R) : Prop where
  length : slots.length = n
  count_le : count ≤ n
  base_le : base + count ≤ stop
  filling : count < n → stop = base + count
  holds : ∀ p, stop - count ≤ p → p < stop → slots[(p - base) % n]? = some (row p)

variable {row : ℕ → R} {n base count stop : ℕ} {slots : List R}

theorem mod_ne {a b n : ℕ} (hab : a < b) (hbn : b < a + n) : a % n ≠ b % n := by
  intro heq
  have hsub : (b - a) % n = 0 := Nat.sub_mod_eq_zero_of_mod_eq heq.symm
  rw [Nat.mod_eq_of_lt (by omega)] at hsub
  omega

theorem Placed.push (h : Placed row n base count stop slots) (hn : 0 < n) :
    Placed row n base (min (count + 1) n) (stop + 1)
      (slots.set ((stop - base) % n) (row stop)) := by
  have hcount := h.count_le
  have hbase := h.base_le
  constructor
  · rw [List.length_set]
    exact h.length
  · exact min_le_right _ _
  · omega
  · intro hlt
    have hfilling := h.filling (by omega)
    omega
  · intro p hfirst hlast
    rcases Nat.lt_succ_iff_lt_or_eq.mp hlast with hold | rfl
    · have hpast : stop - count ≤ p := by omega
      have hslot : (stop - base) % n ≠ (p - base) % n := by
        refine (mod_ne ?_ ?_).symm
        · have hle : base ≤ p := by omega
          omega
        · by_cases hfull : count = n
          · omega
          · have hfilling := h.filling (by omega)
            omega
      rw [List.getElem?_set_ne hslot]
      exact h.holds p hpast hold
    · rw [List.getElem?_set_self]
      rw [h.length]
      exact Nat.mod_lt _ hn

theorem Placed.perm (h : Placed row n base count stop slots) :
    (slots.take count).Perm ((List.range count).map fun i => row (stop - count + i)) := by
  have hcount := h.count_le
  have hbase := h.base_le
  let slot := fun i => (stop - count + i - base) % n
  have hlt : ∀ i < count, slot i < count := by
    intro i hi
    by_cases hfull : count = n
    · rw [hfull]
      exact Nat.mod_lt _ (by omega)
    · have hfilling := h.filling (by omega)
      have hsmall : stop - count + i - base = i := by omega
      change (stop - count + i - base) % n < count
      rw [hsmall, Nat.mod_eq_of_lt (by omega)]
      exact hi
  have hslots : ((List.range count).map slot).Perm (List.range count) := by
    apply List.Subperm.perm_of_length_le
    · apply List.subperm_of_subset
      · rw [List.nodup_map_iff_inj_on List.nodup_range]
        intro i hi j hj heq
        rw [List.mem_range] at hi hj
        by_contra hne
        rcases Nat.lt_or_gt_of_ne hne with hij | hji
        · exact mod_ne (by omega) (by omega) heq
        · exact mod_ne (by omega) (by omega) heq.symm
      · intro s hs
        obtain ⟨i, hi, rfl⟩ := List.mem_map.mp hs
        exact List.mem_range.mpr (hlt i (List.mem_range.mp hi))
    · rw [List.length_map]
  have htake : (List.range count).map (fun s => slots[s]?) = (slots.take count).map some := by
    apply List.ext_getElem?
    intro s
    rw [List.getElem?_map, List.getElem?_map, List.getElem?_take]
    rcases Nat.lt_or_ge s count with hs | hs
    · have hin : s < slots.length := by
        rw [h.length]
        omega
      rw [List.getElem?_range hs, if_pos hs, Option.map_some, List.getElem?_eq_getElem hin,
        Option.map_some]
    · rw [List.getElem?_eq_none (by simpa using hs), if_neg (Nat.not_lt.mpr hs)]
      rfl
  have hrows : (List.range count).map (fun i => some (row (stop - count + i))) =
      ((List.range count).map slot).map fun s => slots[s]? := by
    rw [List.map_map]
    apply List.map_congr_left
    intro i hi
    rw [List.mem_range] at hi
    exact (h.holds _ (by omega) (by omega)).symm
  have hperm := hslots.map fun s => slots[s]?
  rw [← hrows, htake] at hperm
  have hmap : (List.range count).map (fun i => some (row (stop - count + i))) =
      ((List.range count).map fun i => row (stop - count + i)).map some := by
    rw [List.map_map]
    rfl
  rw [hmap] at hperm
  exact ((List.map_perm_map_iff fun _ _ => Option.some.inj).mp hperm).symm

end FastTts.Ring
