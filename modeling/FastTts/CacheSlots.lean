import Mathlib.Data.List.Nodup

/-!
# Cache slots

A cache holds up to `capacity` entries. A clock ticks at each use, and a new entry takes the place
of the one that was used longest ago.
-/

namespace FastTts

structure CacheEntry (K V : Type) where
  key : K
  value : V
  lastUsed : ℕ
  deriving DecidableEq, Repr

structure CacheSlots (K V : Type) where
  capacity : ℕ
  tick : ℕ
  entries : List (CacheEntry K V)
  deriving DecidableEq, Repr

namespace CacheSlots

variable {K V : Type} [DecidableEq K]

def empty (capacity : ℕ) : CacheSlots K V := ⟨capacity, 0, []⟩

def updateFirst (key : K) (f : CacheEntry K V → CacheEntry K V) :
    List (CacheEntry K V) → List (CacheEntry K V)
  | [] => []
  | entry :: entries =>
    if entry.key = key then f entry :: entries else entry :: updateFirst key f entries

def get? (slots : CacheSlots K V) (key : K) : Option V :=
  (slots.entries.find? fun entry => entry.key = key).map (·.value)

/-- Looking an entry up is a use of it. -/
def find (slots : CacheSlots K V) (key : K) : CacheSlots K V × Option V :=
  match slots.get? key with
  | none => (slots, none)
  | some value => ({ slots with
      tick := slots.tick + 1
      entries := updateFirst key ({ · with lastUsed := slots.tick + 1 }) slots.entries },
      some value)

/-- The first of the entries that were used longest ago; `best` is the time of use at `oldest`. -/
def oldestFrom (oldest best : ℕ) : ℕ → List (CacheEntry K V) → ℕ
  | _, [] => oldest
  | i, entry :: entries =>
    if entry.lastUsed < best then oldestFrom i entry.lastUsed (i + 1) entries
    else oldestFrom oldest best (i + 1) entries

def eraseLru (slots : CacheSlots K V) : CacheSlots K V :=
  match slots.entries with
  | [] => slots
  | entry :: entries =>
    { slots with entries := slots.entries.eraseIdx (oldestFrom 0 entry.lastUsed 1 entries) }

def makeRoom (slots : CacheSlots K V) : CacheSlots K V :=
  if slots.capacity ≤ slots.entries.length then slots.eraseLru else slots

def put (slots : CacheSlots K V) (key : K) (value : V) : CacheSlots K V :=
  if slots.capacity = 0 then { slots with entries := [] }
  else if (slots.get? key).isSome then { slots with
    tick := slots.tick + 1
    entries := updateFirst key (fun _ => ⟨key, value, slots.tick + 1⟩) slots.entries }
  else { slots.makeRoom with
    tick := slots.tick + 1
    entries := slots.makeRoom.entries ++ [⟨key, value, slots.tick + 1⟩] }

/-- Writes through the pointer that `find` returned. -/
def write (slots : CacheSlots K V) (key : K) (f : V → V) : CacheSlots K V :=
  { slots with
    entries := updateFirst key (fun entry => { entry with value := f entry.value }) slots.entries }

def clear (slots : CacheSlots K V) : CacheSlots K V := { slots with entries := [] }

omit [DecidableEq K] in
theorem oldestFrom_lt {bound : ℕ} (entries : List (CacheEntry K V)) {oldest best i : ℕ}
    (holdest : oldest < bound) (hlast : i + entries.length ≤ bound) :
    oldestFrom oldest best i entries < bound := by
  induction entries generalizing oldest best i with
  | nil => exact holdest
  | cons entry entries ih =>
    rw [List.length_cons] at hlast
    rw [oldestFrom]
    split_ifs
    · exact ih (by omega) (by omega)
    · exact ih holdest (by omega)

omit [DecidableEq K] in
theorem length_eraseLru (slots : CacheSlots K V) :
    slots.eraseLru.entries.length = slots.entries.length - 1 := by
  rw [eraseLru]
  cases hentries : slots.entries with
  | nil => rw [hentries]; rfl
  | cons entry entries =>
    have hindex : oldestFrom 0 entry.lastUsed 1 entries < (entry :: entries).length :=
      oldestFrom_lt entries (by simp) (by simp [Nat.add_comm])
    exact List.length_eraseIdx_of_lt hindex

def evictToCapacity (slots : CacheSlots K V) : CacheSlots K V :=
  if slots.capacity < slots.entries.length then slots.eraseLru.evictToCapacity else slots
termination_by slots.entries.length
decreasing_by
  rw [length_eraseLru]
  omega

def setCapacity (slots : CacheSlots K V) (capacity : ℕ) : CacheSlots K V :=
  { slots with capacity := capacity }.evictToCapacity

/-! ## One entry a key -/

def Keyed (slots : CacheSlots K V) : Prop :=
  (slots.entries.map (·.key)).Nodup

omit [DecidableEq K] in
theorem keyed_empty (capacity : ℕ) : (empty capacity : CacheSlots K V).Keyed :=
  List.nodup_nil

variable {key : K} {f : CacheEntry K V → CacheEntry K V} {entry : CacheEntry K V}
  {slots : CacheSlots K V}

theorem keys_updateFirst (hf : ∀ entry, entry.key = key → (f entry).key = key)
    (entries : List (CacheEntry K V)) :
    (updateFirst key f entries).map (·.key) = entries.map (·.key) := by
  induction entries with
  | nil => rfl
  | cons entry entries ih =>
    by_cases hkey : entry.key = key
    · rw [updateFirst, if_pos hkey, List.map_cons, List.map_cons, hf entry hkey, hkey]
    · rw [updateFirst, if_neg hkey, List.map_cons, List.map_cons, ih]

theorem mem_updateFirst {entries : List (CacheEntry K V)} (hkeys : (entries.map (·.key)).Nodup)
    (h : entry ∈ updateFirst key f entries) :
    (entry ∈ entries ∧ entry.key ≠ key) ∨ ∃ old ∈ entries, old.key = key ∧ entry = f old := by
  induction entries with
  | nil => cases h
  | cons head entries ih =>
    rw [List.map_cons, List.nodup_cons] at hkeys
    by_cases hkey : head.key = key
    · rw [updateFirst, if_pos hkey] at h
      rcases List.mem_cons.mp h with hhead | hrest
      · exact .inr ⟨head, List.mem_cons_self, hkey, hhead⟩
      · refine .inl ⟨List.mem_cons_of_mem _ hrest, ?_⟩
        intro hsame
        apply hkeys.1
        rw [hkey, ← hsame]
        exact List.mem_map_of_mem hrest
    · rw [updateFirst, if_neg hkey] at h
      rcases List.mem_cons.mp h with hhead | hrest
      · subst hhead
        exact .inl ⟨List.mem_cons_self, hkey⟩
      · rcases ih hkeys.2 hrest with ⟨hmem, hne⟩ | ⟨old, hmem, hold, hentry⟩
        · exact .inl ⟨List.mem_cons_of_mem _ hmem, hne⟩
        · exact .inr ⟨old, List.mem_cons_of_mem _ hmem, hold, hentry⟩

theorem find?_updateFirst_self (key : K) (f : CacheEntry K V → CacheEntry K V)
    (hf : ∀ entry, entry.key = key → (f entry).key = key) (entries : List (CacheEntry K V)) :
    (updateFirst key f entries).find? (fun entry => entry.key = key) =
      (entries.find? fun entry => entry.key = key).map f := by
  induction entries with
  | nil => rfl
  | cons entry entries ih =>
    by_cases hkey : entry.key = key
    · rw [updateFirst, if_pos hkey, List.find?_cons_of_pos (by simpa using hf entry hkey),
        List.find?_cons_of_pos (by simpa using hkey)]
      rfl
    · rw [updateFirst, if_neg hkey, List.find?_cons_of_neg (by simpa using hkey),
        List.find?_cons_of_neg (by simpa using hkey), ih]

omit [DecidableEq K] in
theorem entries_eraseLru (slots : CacheSlots K V) :
    List.Sublist slots.eraseLru.entries slots.entries := by
  rw [eraseLru]
  split
  · exact List.Sublist.refl _
  · exact List.eraseIdx_sublist ..

omit [DecidableEq K] in
theorem entries_makeRoom (slots : CacheSlots K V) :
    List.Sublist slots.makeRoom.entries slots.entries := by
  rw [makeRoom]
  split_ifs
  · exact slots.entries_eraseLru
  · exact List.Sublist.refl _

theorem get?_eq_none (h : slots.get? key = none) : ∀ entry ∈ slots.entries, entry.key ≠ key := by
  intro entry hentry
  have hfind := List.find?_eq_none.mp (Option.map_eq_none_iff.mp h) entry hentry
  simpa using hfind

theorem mem_of_get? {value : V} (h : slots.get? key = some value) :
    ∃ entry ∈ slots.entries, entry.key = key ∧ entry.value = value := by
  obtain ⟨entry, hfind, hvalue⟩ := Option.map_eq_some_iff.mp h
  refine ⟨entry, List.mem_of_find?_eq_some hfind, ?_, hvalue⟩
  simpa using List.find?_some hfind

theorem get?_of_mem (h : slots.Keyed) (hentry : entry ∈ slots.entries) :
    slots.get? entry.key = some entry.value := by
  cases hget : slots.get? entry.key with
  | none => exact absurd rfl (get?_eq_none hget entry hentry)
  | some value =>
    obtain ⟨other, hother, hkey, hvalue⟩ := mem_of_get? hget
    have hsame : other = entry := List.inj_on_of_nodup_map h hother hentry hkey
    rw [← hvalue, hsame]

/-! ## What an operation leaves -/

theorem keyed_updateFirst (h : slots.Keyed) (hf : ∀ entry, entry.key = key → (f entry).key = key)
    (tick : ℕ) : (CacheSlots.mk slots.capacity tick (updateFirst key f slots.entries)).Keyed := by
  rw [Keyed, keys_updateFirst hf]
  exact h

theorem keyed_find (h : slots.Keyed) (key : K) : (slots.find key).1.Keyed := by
  rw [find]
  split
  · exact h
  · apply keyed_updateFirst h
    intro entry hkey
    exact hkey

omit [DecidableEq K] in
theorem keyed_makeRoom (h : slots.Keyed) : slots.makeRoom.Keyed :=
  List.Nodup.sublist (slots.entries_makeRoom.map _) h

theorem keyed_put (h : slots.Keyed) (key : K) (value : V) : (slots.put key value).Keyed := by
  rw [put]
  split_ifs with hcapacity hheld
  · exact List.nodup_nil
  · apply keyed_updateFirst h
    intro entry _
    rfl
  · have hnone : slots.get? key = none := by simpa using hheld
    rw [Keyed, List.map_append, List.nodup_append]
    refine ⟨keyed_makeRoom h, List.nodup_singleton _, ?_⟩
    intro k hk k' hk'
    obtain ⟨entry, hentry, rfl⟩ := List.mem_map.mp hk
    rw [List.map_singleton, List.mem_singleton] at hk'
    subst hk'
    exact get?_eq_none hnone entry (slots.entries_makeRoom.subset hentry)

theorem keyed_write (h : slots.Keyed) (key : K) (f : V → V) : (slots.write key f).Keyed := by
  apply keyed_updateFirst h
  intro entry hkey
  exact hkey

@[simp] theorem get?_find (slots : CacheSlots K V) (key : K) :
    (slots.find key).2 = slots.get? key := by
  rw [find]
  cases slots.get? key <;> rfl

theorem get?_put (hcapacity : slots.capacity ≠ 0) (key : K) (value : V) :
    (slots.put key value).get? key = some value := by
  rw [put, if_neg hcapacity]
  split_ifs with hheld
  · have hself := find?_updateFirst_self key (fun _ => ⟨key, value, slots.tick + 1⟩)
      (fun _ _ => rfl) slots.entries
    rw [get?, hself]
    obtain ⟨entry, hfind, _⟩ := Option.map_eq_some_iff.mp (Option.eq_some_of_isSome hheld)
    rw [hfind]
    rfl
  · have hnone : slots.get? key = none := by simpa using hheld
    have hroom : slots.makeRoom.entries.find? (fun entry => entry.key = key) = none := by
      rw [List.find?_eq_none]
      intro entry hentry
      simpa using get?_eq_none hnone entry (slots.entries_makeRoom.subset hentry)
    rw [get?, List.find?_append, hroom]
    simp

theorem get?_write (slots : CacheSlots K V) (key : K) (f : V → V) :
    (slots.write key f).get? key = (slots.get? key).map f := by
  have hself := find?_updateFirst_self key (fun entry => { entry with value := f entry.value })
    (fun _ hkey => hkey) slots.entries
  rw [get?, write, hself, get?, Option.map_map, Option.map_map]
  rfl

theorem get?_find_self (slots : CacheSlots K V) (key : K) :
    (slots.find key).1.get? key = slots.get? key := by
  have hself := find?_updateFirst_self key ({ · with lastUsed := slots.tick + 1 })
    (fun _ hkey => hkey) slots.entries
  rw [find]
  split
  · rfl
  · rw [get?, hself, get?, Option.map_map]
    rfl

theorem mem_find (h : slots.Keyed) (hentry : entry ∈ (slots.find key).1.entries) :
    ∃ old ∈ slots.entries, old.key = entry.key ∧ old.value = entry.value := by
  rw [find] at hentry
  split at hentry
  · exact ⟨entry, hentry, rfl, rfl⟩
  · rcases mem_updateFirst h hentry with ⟨hmem, _⟩ | ⟨old, hmem, _, rfl⟩
    · exact ⟨entry, hmem, rfl, rfl⟩
    · exact ⟨old, hmem, rfl, rfl⟩

theorem mem_put (h : slots.Keyed) {value : V} (hentry : entry ∈ (slots.put key value).entries) :
    (entry ∈ slots.entries ∧ entry.key ≠ key) ∨ (entry.key = key ∧ entry.value = value) := by
  rw [put] at hentry
  split_ifs at hentry with hcapacity hheld
  · cases hentry
  · rcases mem_updateFirst h hentry with hold | ⟨_, _, _, rfl⟩
    · exact .inl hold
    · exact .inr ⟨rfl, rfl⟩
  · have hnone : slots.get? key = none := by simpa using hheld
    rcases List.mem_append.mp hentry with hold | hnew
    · have hmem := slots.entries_makeRoom.subset hold
      exact .inl ⟨hmem, get?_eq_none hnone entry hmem⟩
    · rw [List.mem_singleton] at hnew
      subst hnew
      exact .inr ⟨rfl, rfl⟩

theorem mem_write (h : slots.Keyed) {f : V → V} (hentry : entry ∈ (slots.write key f).entries) :
    (entry ∈ slots.entries ∧ entry.key ≠ key) ∨
      ∃ old ∈ slots.entries, old.key = key ∧ entry.key = key ∧ entry.value = f old.value := by
  rcases mem_updateFirst h hentry with hold | ⟨old, hmem, hkey, rfl⟩
  · exact .inl hold
  · exact .inr ⟨old, hmem, hkey, hkey, rfl⟩

theorem capacity_find (slots : CacheSlots K V) (key : K) :
    (slots.find key).1.capacity = slots.capacity := by
  rw [find]
  cases slots.get? key <;> rfl

omit [DecidableEq K] in
theorem capacity_makeRoom (slots : CacheSlots K V) : slots.makeRoom.capacity = slots.capacity := by
  rw [makeRoom, eraseLru]
  split_ifs
  · split <;> rfl
  · rfl

theorem capacity_put (slots : CacheSlots K V) (key : K) (value : V) :
    (slots.put key value).capacity = slots.capacity := by
  rw [put]
  split_ifs
  · rfl
  · rfl
  · exact slots.capacity_makeRoom

end CacheSlots

end FastTts
