import FastTts.CacheSlots
import Mathlib.Data.List.Dedup
import Mathlib.Data.List.Induction
import Mathlib.Data.List.Perm.Basic

/-!
# Cache slots are a list in the order of use

The reference keeps its items in the order of their last use, the oldest one first. The slots find
the oldest one by the ticks of its entries, which lie in no order.
-/

namespace FastTts

/-- The items of a cache, the one that was used longest ago first. -/
structure LruList (K V : Type) where
  capacity : ℕ
  items : List (K × V)
  deriving DecidableEq, Repr

variable {K V : Type} [DecidableEq K]

namespace LruList

def without (key : K) (items : List (K × V)) : List (K × V) := items.filter fun item => item.1 ≠ key

/-- What is left when all but the last `room` items go. -/
def latest (room : ℕ) (items : List (K × V)) : List (K × V) := items.drop (items.length - room)

def empty (capacity : ℕ) : LruList K V := ⟨capacity, []⟩

def value? (list : LruList K V) (key : K) : Option V :=
  (list.items.find? fun item => item.1 = key).map (·.2)

def find (list : LruList K V) (key : K) : LruList K V × Option V :=
  match list.value? key with
  | none => (list, none)
  | some value => ({ list with items := without key list.items ++ [(key, value)] }, some value)

def put (list : LruList K V) (key : K) (value : V) : LruList K V :=
  if list.capacity = 0 then { list with items := [] }
  else { list with items := latest (list.capacity - 1) (without key list.items) ++ [(key, value)] }

def setCapacity (list : LruList K V) (capacity : ℕ) : LruList K V :=
  ⟨capacity, latest capacity list.items⟩

def clear (list : LruList K V) : LruList K V := { list with items := [] }

end LruList

inductive SlotCall (K V : Type)
  | put (key : K) (value : V)
  | find (key : K)
  | setCapacity (capacity : ℕ)
  | clear
  deriving DecidableEq, Repr

namespace SlotCall

/-- A call on the slots, and what it returns: `find` alone returns something. -/
def onSlots (slots : CacheSlots K V) : SlotCall K V → CacheSlots K V × Option V
  | put key value => (slots.put key value, none)
  | find key => slots.find key
  | setCapacity capacity => (slots.setCapacity capacity, none)
  | clear => (slots.clear, none)

def onList (list : LruList K V) : SlotCall K V → LruList K V × Option V
  | put key value => (list.put key value, none)
  | find key => list.find key
  | setCapacity capacity => (list.setCapacity capacity, none)
  | clear => (list.clear, none)

def used : SlotCall K V → Option K
  | put key _ => some key
  | find key => some key
  | setCapacity _ => none
  | clear => none

def putFor (key : K) : SlotCall K V → Option V
  | put other value => if other = key then some value else none
  | find _ => none
  | setCapacity _ => none
  | clear => none

def lastPut (key : K) (calls : List (SlotCall K V)) : Option V :=
  (calls.filterMap (putFor key)).getLast?

def order (calls : List (SlotCall K V)) : List K := (calls.filterMap used).dedup

/-- What the calls leave and what they return, one behind the other. -/
def slotsRun (slots : CacheSlots K V) (calls : List (SlotCall K V)) :
    CacheSlots K V × List (Option V) :=
  calls.foldl (fun run call =>
    ((onSlots run.1 call).1, run.2 ++ [(onSlots run.1 call).2])) (slots, [])

def listRun (list : LruList K V) (calls : List (SlotCall K V)) : LruList K V × List (Option V) :=
  calls.foldl (fun run call =>
    ((onList run.1 call).1, run.2 ++ [(onList run.1 call).2])) (list, [])

end SlotCall

namespace CacheSlots

/-! ## Entries in the order of their ticks -/

/-- The entries in the order of their last use. -/
structure InOrder (entries order : List (CacheEntry K V)) : Prop where
  perm : order.Perm entries
  sorted : order.Pairwise fun a b => a.lastUsed < b.lastUsed

omit [DecidableEq K] in
theorem oldestFrom_le (all entries : List (CacheEntry K V)) (oldest best i : ℕ)
    (hall : all.drop i = entries) (holdest : (all[oldest]?).map (·.lastUsed) = some best)
    (hbest : ∀ entry ∈ all.take i, best ≤ entry.lastUsed) :
    ∃ entry, all[oldestFrom oldest best i entries]? = some entry ∧
      ∀ other ∈ all, entry.lastUsed ≤ other.lastUsed := by
  induction entries generalizing oldest best i with
  | nil =>
    obtain ⟨entry, hentry, rfl⟩ := Option.map_eq_some_iff.mp holdest
    have hlength : all.length ≤ i := List.drop_eq_nil_iff.mp hall
    rw [List.take_of_length_le hlength] at hbest
    exact ⟨entry, hentry, hbest⟩
  | cons entry entries ih =>
    have hnext : all.drop (i + 1) = entries := by
      rw [← List.tail_drop, hall, List.tail_cons]
    have hentry : all[i]? = some entry := by
      have hhead := congrArg List.head? hall
      rwa [List.head?_drop, List.head?_cons] at hhead
    have htake : all.take (i + 1) = all.take i ++ [entry] := by
      rw [List.take_add_one, hentry]
      rfl
    rw [oldestFrom]
    split_ifs with hless
    · apply ih _ _ _ hnext
      · rw [hentry]
        rfl
      · rw [htake]
        intro other hother
        rcases List.mem_append.mp hother with hold | hnew
        · have := hbest other hold
          omega
        · exact Nat.le_of_eq (by rw [List.mem_singleton.mp hnew])
    · apply ih _ _ _ hnext holdest
      rw [htake]
      intro other hother
      rcases List.mem_append.mp hother with hold | hnew
      · exact hbest other hold
      · rw [List.mem_singleton.mp hnew]
        omega

variable {slots : CacheSlots K V} {order : List (CacheEntry K V)} {key : K}
  {f : CacheEntry K V → CacheEntry K V} {entry : CacheEntry K V} {list : LruList K V}

omit [DecidableEq K] in
theorem InOrder.eraseLru (h : InOrder slots.entries order) :
    InOrder slots.eraseLru.entries order.tail := by
  rw [CacheSlots.eraseLru]
  split
  · next hentries =>
    rw [hentries] at h ⊢
    rw [h.perm.eq_nil]
    exact ⟨.nil, .nil⟩
  · next entry entries hentries =>
    obtain ⟨oldest, holdest, hleast⟩ := oldestFrom_le slots.entries entries 0 entry.lastUsed 1
      (by rw [hentries]; rfl) (by rw [hentries]; rfl) (by rw [hentries]; simp)
    obtain ⟨hindex, hget⟩ := List.getElem?_eq_some_iff.mp holdest
    have herased := List.getElem_cons_eraseIdx_perm hindex
    rw [hget] at herased
    cases order with
    | nil => exact absurd (h.perm.symm.eq_nil) (by rw [hentries]; simp)
    | cons first rest =>
      obtain ⟨hfirst, hrest⟩ := List.pairwise_cons.mp h.sorted
      have hmem : oldest ∈ first :: rest := h.perm.mem_iff.mpr (List.mem_of_getElem? holdest)
      have hsame : oldest = first := by
        rcases List.mem_cons.mp hmem with hhead | htail
        · exact hhead
        · have hlater := hfirst oldest htail
          have hle := hleast first (h.perm.mem_iff.mp List.mem_cons_self)
          omega
      subst hsame
      exact ⟨(List.perm_cons oldest).mp (h.perm.trans herased.symm), hrest⟩

variable {entries : List (CacheEntry K V)} {value : V}

omit [DecidableEq K] in
theorem InOrder.length (h : InOrder entries order) :
    order.length = entries.length := h.perm.length_eq

omit [DecidableEq K] in
theorem capacity_eraseLru (slots : CacheSlots K V) : slots.eraseLru.capacity = slots.capacity := by
  rw [CacheSlots.eraseLru]
  split <;> rfl

omit [DecidableEq K] in
theorem tick_eraseLru (slots : CacheSlots K V) : slots.eraseLru.tick = slots.tick := by
  rw [CacheSlots.eraseLru]
  split <;> rfl

omit [DecidableEq K] in
theorem InOrder.evictToCapacity (slots : CacheSlots K V) (h : InOrder slots.entries order) :
    slots.evictToCapacity.capacity = slots.capacity ∧ slots.evictToCapacity.tick = slots.tick ∧
      InOrder slots.evictToCapacity.entries (order.drop (order.length - slots.capacity)) := by
  fun_induction CacheSlots.evictToCapacity slots generalizing order with
  | case1 slots hfull ih =>
    obtain ⟨hcapacity, htick, horder⟩ := ih h.eraseLru
    rw [slots.capacity_eraseLru] at hcapacity horder
    rw [slots.tick_eraseLru] at htick
    refine ⟨hcapacity, htick, ?_⟩
    have hlength := h.length
    have hdrop : order.tail.length - slots.capacity + 1 = order.length - slots.capacity := by
      rw [List.length_tail]
      omega
    rwa [← List.drop_one, List.drop_drop, Nat.add_comm 1, List.drop_one, hdrop] at horder
  | case2 slots hroom =>
    have hlength := h.length
    rw [Nat.sub_eq_zero_of_le (by omega)]
    exact ⟨rfl, rfl, h⟩

omit [DecidableEq K] in
theorem InOrder.makeRoom (h : InOrder slots.entries order) (hsome : slots.capacity ≠ 0)
    (hroom : slots.entries.length ≤ slots.capacity) :
    InOrder slots.makeRoom.entries (order.drop (order.length - (slots.capacity - 1))) := by
  have hlength := h.length
  rw [CacheSlots.makeRoom]
  split_ifs with hfull
  · have hone : order.length - (slots.capacity - 1) = 1 := by omega
    rw [hone, List.drop_one]
    exact h.eraseLru
  · have hzero : order.length - (slots.capacity - 1) = 0 := by omega
    rwa [hzero]

theorem perm_updateFirst (hkeys : (entries.map (·.key)).Nodup)
    (hfind : (entries.find? fun entry => entry.key = key) = some entry) :
    (updateFirst key f entries).Perm
      ((entries.filter fun entry => entry.key ≠ key) ++ [f entry]) := by
  induction entries with
  | nil => cases hfind
  | cons head entries ih =>
    rw [List.map_cons, List.nodup_cons] at hkeys
    by_cases hkey : head.key = key
    · rw [List.find?_cons_of_pos (by simpa using hkey)] at hfind
      rw [← Option.some_inj.mp hfind]
      have hrest : (entries.filter fun entry => entry.key ≠ key) = entries := by
        rw [List.filter_eq_self]
        intro other hother
        have hne : other.key ≠ head.key := by
          intro hsame
          apply hkeys.1
          rw [← hsame]
          exact List.mem_map_of_mem hother
        simpa [← hkey] using hne
      rw [updateFirst, if_pos hkey, List.filter_cons_of_neg (by simpa using hkey), hrest]
      exact (List.perm_append_singleton _ _).symm
    · rw [List.find?_cons_of_neg (by simpa using hkey)] at hfind
      rw [updateFirst, if_neg hkey, List.filter_cons_of_pos (by simpa using hkey), List.cons_append]
      exact (ih hkeys.2 hfind).cons head

theorem InOrder.update (hkeyed : slots.Keyed) (h : InOrder slots.entries order)
    (hticks : ∀ entry ∈ order, entry.lastUsed ≤ slots.tick)
    (hf : ∀ entry, (f entry).lastUsed = slots.tick + 1)
    (hfind : (slots.entries.find? fun entry => entry.key = key) = some entry) :
    InOrder (updateFirst key f slots.entries)
      ((order.filter fun entry => entry.key ≠ key) ++ [f entry]) := by
  constructor
  · have hfilter := h.perm.filter fun entry => entry.key ≠ key
    exact (hfilter.append_right [f entry]).trans (perm_updateFirst hkeyed hfind).symm
  · refine List.pairwise_append.mpr ⟨h.sorted.filter _, List.pairwise_singleton _ _, ?_⟩
    intro a ha b hb
    rw [List.mem_singleton.mp hb, hf]
    exact Nat.lt_succ_of_le (hticks a (List.mem_of_mem_filter ha))

theorem get?_perm (h : slots.Keyed) (hperm : order.Perm slots.entries) (key : K) :
    (order.find? fun entry => entry.key = key).map (·.value) = slots.get? key := by
  have hkeyed : (CacheSlots.mk slots.capacity slots.tick order).Keyed := by
    rw [Keyed] at h ⊢
    exact (hperm.map _).nodup_iff.mpr h
  change (CacheSlots.mk slots.capacity slots.tick order).get? key = slots.get? key
  cases hget : slots.get? key with
  | none =>
    cases hother : (CacheSlots.mk slots.capacity slots.tick order).get? key with
    | none => rfl
    | some value =>
      obtain ⟨entry, hentry, hkey, -⟩ := mem_of_get? hother
      exact absurd hkey (get?_eq_none hget entry (hperm.mem_iff.mp hentry))
  | some value =>
    obtain ⟨entry, hentry, rfl, rfl⟩ := mem_of_get? hget
    exact get?_of_mem hkeyed (hperm.mem_iff.mpr hentry)

/-! ## The slots and the list -/

def item (entry : CacheEntry K V) : K × V := (entry.key, entry.value)

/-- The list has the items of the slots, in the order of their ticks. -/
structure Tracks (slots : CacheSlots K V) (list : LruList K V) : Prop where
  capacity : list.capacity = slots.capacity
  keyed : slots.Keyed
  room : slots.entries.length ≤ slots.capacity
  order : ∃ order, InOrder slots.entries order ∧ (∀ entry ∈ order, entry.lastUsed ≤ slots.tick) ∧
    list.items = order.map item

theorem map_item_filter (key : K) (order : List (CacheEntry K V)) :
    (order.filter fun entry => entry.key ≠ key).map item =
      LruList.without key (order.map item) := by
  rw [LruList.without, List.filter_map]
  rfl

theorem Tracks.value? (h : slots.Tracks list) (key : K) : list.value? key = slots.get? key := by
  obtain ⟨order, horder, -, hitems⟩ := h.order
  rw [LruList.value?, hitems, List.find?_map, Option.map_map, ← get?_perm h.keyed horder.perm]
  rfl

theorem length_updateFirst (key : K) (hf : ∀ entry, entry.key = key → (f entry).key = key)
    (entries : List (CacheEntry K V)) : (updateFirst key f entries).length = entries.length := by
  have hkeys := congrArg List.length (keys_updateFirst hf entries)
  rwa [List.length_map, List.length_map] at hkeys

theorem Tracks.use (h : slots.Tracks list)
    (hfind : (slots.entries.find? fun entry => entry.key = key) = some entry)
    (hitem : item (f entry) = (key, value)) (hkey : ∀ entry, entry.key = key → (f entry).key = key)
    (htick : ∀ entry, (f entry).lastUsed = slots.tick + 1) :
    Tracks ⟨slots.capacity, slots.tick + 1, updateFirst key f slots.entries⟩
      ⟨list.capacity, LruList.without key list.items ++ [(key, value)]⟩ := by
  obtain ⟨order, horder, hticks, hitems⟩ := h.order
  refine ⟨h.capacity, keyed_updateFirst h.keyed hkey _, ?_, _,
    horder.update h.keyed hticks htick hfind, ?_, ?_⟩
  · rw [length_updateFirst key hkey]
    exact h.room
  · intro other hother
    rcases List.mem_append.mp hother with hold | hnew
    · exact Nat.le_succ_of_le (hticks other (List.mem_of_mem_filter hold))
    · exact Nat.le_of_eq (by rw [List.mem_singleton.mp hnew, htick])
  · rw [List.map_append, map_item_filter, List.map_singleton, hitem, hitems]

theorem Tracks.find (h : slots.Tracks list) (key : K) :
    (slots.find key).1.Tracks (list.find key).1 ∧ (slots.find key).2 = (list.find key).2 := by
  rw [CacheSlots.find, LruList.find, h.value? key]
  cases hget : slots.get? key with
  | none => exact ⟨h, rfl⟩
  | some value =>
    obtain ⟨entry, hfind, rfl⟩ := Option.map_eq_some_iff.mp hget
    have hkey : entry.key = key := by simpa using List.find?_some hfind
    refine ⟨h.use hfind ?_ (fun _ hsame => hsame) fun _ => rfl, rfl⟩
    rw [← hkey]
    rfl

omit [DecidableEq K] in
theorem Tracks.drop {kept : CacheSlots K V} (h : slots.Tracks list) {n : ℕ}
    (hkept : ∀ order, InOrder slots.entries order → InOrder kept.entries (order.drop n))
    {capacity : ℕ} (hcapacity : kept.capacity = capacity) (htick : kept.tick = slots.tick)
    (hroom : kept.entries.length ≤ capacity) : kept.Tracks ⟨capacity, list.items.drop n⟩ := by
  obtain ⟨order, horder, hticks, hitems⟩ := h.order
  have hdropped := hkept order horder
  refine ⟨hcapacity.symm, ?_, by rwa [hcapacity], _, hdropped, ?_, ?_⟩
  · have hkeyed := h.keyed
    rw [Keyed] at hkeyed ⊢
    have hall := (horder.perm.map _).nodup_iff.mpr hkeyed
    exact (hdropped.perm.map _).nodup_iff.mp (hall.sublist ((List.drop_sublist n order).map _))
  · intro entry hentry
    rw [htick]
    exact hticks entry (List.mem_of_mem_drop hentry)
  · rw [hitems, List.map_drop]

omit [DecidableEq K] in
theorem Tracks.length (h : slots.Tracks list) : list.items.length = slots.entries.length := by
  obtain ⟨order, horder, -, hitems⟩ := h.order
  rw [hitems, List.length_map, horder.length]

omit [DecidableEq K] in
theorem InOrder.setCapacity (h : InOrder slots.entries order) (capacity : ℕ) :
    (slots.setCapacity capacity).capacity = capacity ∧
      (slots.setCapacity capacity).tick = slots.tick ∧
      InOrder (slots.setCapacity capacity).entries (order.drop (order.length - capacity)) :=
  InOrder.evictToCapacity ⟨capacity, slots.tick, slots.entries⟩ h

omit [DecidableEq K] in
theorem Tracks.setCapacity (h : slots.Tracks list) (capacity : ℕ) :
    (slots.setCapacity capacity).Tracks (list.setCapacity capacity) := by
  obtain ⟨order, horder, -⟩ := h.order
  obtain ⟨hcapacity, htick, hleft⟩ := horder.setCapacity capacity
  have hlength := h.length
  rw [LruList.setCapacity, LruList.latest, hlength]
  refine h.drop (fun order horder => ?_) hcapacity htick ?_
  · have hleft := (horder.setCapacity capacity).2.2
    rwa [horder.length] at hleft
  · rw [← hleft.length, List.length_drop]
    omega

omit [DecidableEq K] in
theorem Tracks.clear (h : slots.Tracks list) : slots.clear.Tracks list.clear :=
  ⟨h.capacity, List.nodup_nil, Nat.zero_le _, [], ⟨.nil, .nil⟩, by simp, rfl⟩

theorem Tracks.push (h : slots.Tracks list) (hnew : slots.get? key = none)
    (hroom : slots.entries.length < slots.capacity) (value : V) :
    Tracks ⟨slots.capacity, slots.tick + 1, slots.entries ++ [⟨key, value, slots.tick + 1⟩]⟩
      ⟨list.capacity, list.items ++ [(key, value)]⟩ := by
  obtain ⟨order, horder, hticks, hitems⟩ := h.order
  refine ⟨h.capacity, ?_, by simpa using Nat.succ_le_of_lt hroom,
    order ++ [⟨key, value, slots.tick + 1⟩], ?_, ?_, ?_⟩
  · have hkeyed := h.keyed
    rw [Keyed] at hkeyed ⊢
    rw [List.map_append, List.map_singleton]
    refine List.nodup_append.mpr ⟨hkeyed, List.nodup_singleton _, ?_⟩
    intro other hother last hlast
    obtain ⟨entry, hentry, rfl⟩ := List.mem_map.mp hother
    rw [List.mem_singleton.mp hlast]
    exact get?_eq_none hnew entry hentry
  · refine ⟨horder.perm.append_right _, List.pairwise_append.mpr
      ⟨horder.sorted, List.pairwise_singleton _ _, ?_⟩⟩
    intro a ha b hb
    rw [List.mem_singleton.mp hb]
    exact Nat.lt_succ_of_le (hticks a ha)
  · intro entry hentry
    rcases List.mem_append.mp hentry with hold | hlast
    · exact Nat.le_succ_of_le (hticks entry hold)
    · exact Nat.le_of_eq (by rw [List.mem_singleton.mp hlast])
  · rw [List.map_append, hitems]
    rfl

theorem without_of_absent (h : list.value? key = none) :
    LruList.without key list.items = list.items := by
  rw [LruList.value?, Option.map_eq_none_iff, List.find?_eq_none] at h
  exact List.filter_eq_self.mpr fun item hitem => by simpa using h item hitem

theorem length_without (h : list.value? key = some value) :
    (LruList.without key list.items).length < list.items.length := by
  obtain ⟨item, hfind, -⟩ := Option.map_eq_some_iff.mp h
  have hkey : item.1 = key := by simpa using List.find?_some hfind
  refine List.length_filter_lt_length_iff_exists.mpr ⟨item, List.mem_of_find?_eq_some hfind, ?_⟩
  simpa using hkey

omit [DecidableEq K] in
theorem tick_makeRoom (slots : CacheSlots K V) : slots.makeRoom.tick = slots.tick := by
  rw [makeRoom]
  split_ifs
  · exact slots.tick_eraseLru
  · rfl

theorem get?_makeRoom (h : slots.get? key = none) : slots.makeRoom.get? key = none := by
  cases hget : slots.makeRoom.get? key with
  | none => rfl
  | some value =>
    obtain ⟨entry, hentry, hkey, -⟩ := mem_of_get? hget
    exact absurd hkey (get?_eq_none h entry (slots.entries_makeRoom.subset hentry))

theorem Tracks.put (h : slots.Tracks list) (key : K) (value : V) :
    (slots.put key value).Tracks (list.put key value) := by
  have hlength := h.length
  have hroom := h.room
  rw [CacheSlots.put, LruList.put, h.capacity]
  by_cases hnone : slots.capacity = 0
  · rw [if_pos hnone, if_pos hnone]
    have hclear := h.clear
    rwa [CacheSlots.clear, LruList.clear, h.capacity] at hclear
  rw [if_neg hnone, if_neg hnone]
  cases hget : slots.get? key with
  | some old =>
    have hshort := length_without ((h.value? key).trans hget)
    have hall : LruList.latest (slots.capacity - 1) (LruList.without key list.items) =
        LruList.without key list.items := by
      rw [LruList.latest, Nat.sub_eq_zero_of_le (by omega), List.drop_zero]
    obtain ⟨entry, hfind, -⟩ := Option.map_eq_some_iff.mp hget
    have huse := h.use hfind (f := fun _ => ⟨key, value, slots.tick + 1⟩) rfl (fun _ _ => rfl)
      fun _ => rfl
    rw [hall]
    rwa [h.capacity] at huse
  | none =>
    rw [without_of_absent ((h.value? key).trans hget), LruList.latest, hlength]
    obtain ⟨order, horder, -⟩ := h.order
    have hleft := horder.makeRoom hnone hroom
    have hshort : slots.makeRoom.entries.length ≤ slots.capacity - 1 := by
      have horderLength := horder.length
      rw [← hleft.length, List.length_drop]
      omega
    have hmade : slots.makeRoom.Tracks
        ⟨slots.capacity, list.items.drop (slots.entries.length - (slots.capacity - 1))⟩ := by
      refine h.drop (fun order horder => ?_) slots.capacity_makeRoom slots.tick_makeRoom (by omega)
      have hleft := horder.makeRoom hnone hroom
      rwa [horder.length] at hleft
    have hpush := hmade.push (get?_makeRoom hget) (by rw [slots.capacity_makeRoom]; omega) value
    rw [slots.tick_makeRoom] at hpush
    exact hpush

end CacheSlots

namespace SlotCall

open CacheSlots LruList

/-! ## What the list keeps of the calls -/

variable {slots : CacheSlots K V} {list : LruList K V} {key : K} {calls : List (SlotCall K V)}

theorem tracks_call (h : slots.Tracks list) (call : SlotCall K V) :
    (onSlots slots call).1.Tracks (onList list call).1 ∧
      (onSlots slots call).2 = (onList list call).2 := by
  cases call with
  | put key value => exact ⟨h.put key value, rfl⟩
  | find key => exact h.find key
  | setCapacity capacity => exact ⟨h.setCapacity capacity, rfl⟩
  | clear => exact ⟨h.clear, rfl⟩

/-- The items of a list and the calls that led to it. -/
structure Recorded (calls : List (SlotCall K V)) (list : LruList K V) : Prop where
  order : List.Sublist (list.items.map Prod.fst) (order calls)
  values : ∀ item ∈ list.items, lastPut item.1 calls = some item.2

theorem dedup_append_singleton (keys : List K) (key : K) :
    (keys ++ [key]).dedup = (keys.dedup.filter fun other => other ≠ key) ++ [key] := by
  induction keys with
  | nil => simp
  | cons head keys ih =>
    rw [List.cons_append, List.dedup_cons, List.dedup_cons, ih]
    by_cases hhead : head = key
    · subst hhead
      by_cases hmem : head ∈ keys <;> simp [hmem]
    · by_cases hmem : head ∈ keys <;> simp [hmem, hhead]

theorem order_append (calls : List (SlotCall K V)) (call : SlotCall K V) :
    order (calls ++ [call]) = match used call with
      | none => order calls
      | some key => ((order calls).filter fun other => other ≠ key) ++ [key] := by
  unfold order
  rw [List.filterMap_append]
  cases hused : used call with
  | none => simp [hused]
  | some key => simp [hused, dedup_append_singleton]

theorem lastPut_append (key : K) (calls : List (SlotCall K V)) (call : SlotCall K V) :
    lastPut key (calls ++ [call]) = (putFor key call).or (lastPut key calls) := by
  unfold lastPut
  rw [List.filterMap_append]
  cases hput : putFor key call with
  | none => simp [hput]
  | some value => simp [hput]

theorem map_without (key : K) (items : List (K × V)) :
    (without key items).map Prod.fst = (items.map Prod.fst).filter fun other => other ≠ key := by
  rw [without, List.filter_map]
  rfl

variable {items kept : List (K × V)} {keys : List K} {gone : K}

theorem sublist_without (h : List.Sublist (items.map Prod.fst) keys) (key : K) :
    List.Sublist ((without key items).map Prod.fst) (keys.filter fun other => other ≠ key) := by
  rw [map_without]
  exact h.filter _

theorem mem_without {item : K × V} : item ∈ without key items ↔ item ∈ items ∧ item.1 ≠ key := by
  rw [without, List.mem_filter, decide_eq_true_eq]

theorem Recorded.use (h : Recorded calls list) {call : SlotCall K V} (hused : used call = some key)
    (hothers : ∀ other, other ≠ key → putFor other call = none) {value : V}
    (hvalue : lastPut key (calls ++ [call]) = some value)
    (hkept : List.Sublist kept (without key list.items)) (capacity : ℕ) :
    Recorded (calls ++ [call]) ⟨capacity, kept ++ [(key, value)]⟩ := by
  constructor
  · rw [order_append, hused, List.map_append]
    exact ((hkept.map _).trans (sublist_without h.order key)).append (List.Sublist.refl [key])
  · intro item hitem
    rcases List.mem_append.mp hitem with hold | hnew
    · obtain ⟨hmem, hne⟩ := mem_without.mp (hkept.subset hold)
      rw [lastPut_append, hothers item.1 hne]
      exact h.values item hmem
    · rw [List.mem_singleton.mp hnew]
      exact hvalue

theorem Recorded.keep (h : Recorded calls list) {call : SlotCall K V} (hcall : used call = none)
    (hput : ∀ key, putFor key call = none) (hkept : List.Sublist kept list.items) (capacity : ℕ) :
    Recorded (calls ++ [call]) ⟨capacity, kept⟩ := by
  constructor
  · rw [order_append, hcall]
    exact (hkept.map _).trans h.order
  · intro item hitem
    rw [lastPut_append, hput]
    exact h.values item (hkept.subset hitem)

theorem Recorded.call (h : Recorded calls list) (call : SlotCall K V) :
    Recorded (calls ++ [call]) (onList list call).1 := by
  cases call with
  | put key value =>
    by_cases hnone : list.capacity = 0
    · simp only [onList, LruList.put, if_pos hnone]
      exact ⟨List.nil_sublist _, fun _ hitem => absurd hitem List.not_mem_nil⟩
    · simp only [onList, LruList.put, if_neg hnone]
      refine h.use rfl (fun other hother => ?_) ?_ (List.drop_sublist _ _) _
      · rw [putFor, if_neg (Ne.symm hother)]
      · rw [lastPut_append, putFor, if_pos rfl]
        rfl
  | find key =>
    simp only [onList, LruList.find]
    cases hvalue : list.value? key with
    | none =>
      constructor
      · rw [order_append]
        have hwithout := sublist_without h.order key
        rw [without_of_absent hvalue] at hwithout
        exact hwithout.trans (List.sublist_append_left _ _)
      · intro item hitem
        rw [lastPut_append]
        exact h.values item hitem
    | some value =>
      refine h.use rfl (fun _ _ => rfl) ?_ (List.Sublist.refl _) _
      obtain ⟨item, hfind, rfl⟩ := Option.map_eq_some_iff.mp hvalue
      have hkey : item.1 = key := by simpa using List.find?_some hfind
      rw [lastPut_append, ← hkey]
      exact h.values item (List.mem_of_find?_eq_some hfind)
  | setCapacity capacity => exact h.keep rfl (fun _ => rfl) (List.drop_sublist _ _) capacity
  | clear => exact h.keep rfl (fun _ => rfl) (List.nil_sublist _) list.capacity

omit [DecidableEq K] in
theorem pair_sublist {kept : K} {n : ℕ} (hgone : gone ∈ keys) (hgone' : gone ∉ keys.drop n)
    (hkept : kept ∈ keys.drop n) : List.Sublist [gone, kept] keys := by
  have htake : gone ∈ keys.take n := by
    rw [← List.take_append_drop n keys] at hgone
    exact (List.mem_append.mp hgone).resolve_right hgone'
  have hpair := (List.singleton_sublist.mpr htake).append (List.singleton_sublist.mpr hkept)
  rwa [List.take_append_drop, List.singleton_append] at hpair

theorem gone_before_kept (hrecorded : Recorded calls list)
    (hroom : list.items.length ≤ list.capacity) (call : SlotCall K V) {kept : K}
    (hgone : gone ∈ list.items.map Prod.fst)
    (hgone' : gone ∉ (onList list call).1.items.map Prod.fst)
    (hkept : kept ∈ list.items.map Prod.fst)
    (hkept' : kept ∈ (onList list call).1.items.map Prod.fst) :
    List.Sublist [gone, kept] (order calls) := by
  cases call with
  | put key value =>
    by_cases hnone : list.capacity = 0
    · simp only [onList, LruList.put, if_pos hnone, List.map_nil] at hkept'
      exact absurd hkept' List.not_mem_nil
    · simp only [onList, LruList.put, if_neg hnone, List.map_append, List.mem_append, not_or,
        latest, List.map_drop, map_without] at hgone' hkept'
      obtain ⟨hdropped, hother⟩ := hgone'
      have hfilter : ∀ other, other ∈ list.items.map Prod.fst → other ≠ key →
          other ∈ (list.items.map Prod.fst).filter fun other => other ≠ key := by
        intro other hmem hne
        exact List.mem_filter.mpr ⟨hmem, by simpa using hne⟩
      have hgoneKey : gone ∈ (list.items.map Prod.fst).filter fun other => other ≠ key :=
        hfilter gone hgone (by simpa using hother)
      rcases hkept' with hleft | hput
      · exact (pair_sublist hgoneKey hdropped hleft).trans
          (List.filter_sublist.trans hrecorded.order)
      · -- the key has an item, so that there is room for all others
        have hkey : kept = key := by simpa using hput
        subst hkey
        cases hvalue : list.value? kept with
        | none =>
          have hall := without_of_absent hvalue
          rw [← hall, map_without] at hkept
          exact absurd (List.mem_filter.mp hkept).2 (by simp)
        | some old =>
          have hshort := length_without hvalue
          rw [Nat.sub_eq_zero_of_le (by omega), List.drop_zero] at hdropped
          exact absurd hgoneKey hdropped
  | find key =>
    simp only [onList, LruList.find] at hgone'
    cases hvalue : list.value? key with
    | none => rw [hvalue] at hgone'; exact absurd hgone hgone'
    | some value =>
      rw [hvalue, List.map_append, List.mem_append, not_or, map_without] at hgone'
      exact absurd (List.mem_filter.mpr ⟨hgone, by simpa using hgone'.2⟩) hgone'.1
  | setCapacity capacity =>
    simp only [onList, LruList.setCapacity, latest, List.map_drop] at hgone' hkept'
    exact (pair_sublist hgone hgone' hkept').trans hrecorded.order
  | clear => exact absurd hkept' List.not_mem_nil

/-! ## Every order of calls -/

theorem tick_call (slots : CacheSlots K V) (call : SlotCall K V) (list : LruList K V)
    (h : slots.Tracks list) : (onSlots slots call).1.tick ≤ slots.tick + 1 := by
  cases call with
  | put key value =>
    rw [onSlots, CacheSlots.put]
    split_ifs
    · exact Nat.le_succ _
    · exact Nat.le_refl _
    · exact Nat.le_refl _
  | find key =>
    rw [onSlots, CacheSlots.find]
    split
    · exact Nat.le_succ _
    · exact Nat.le_refl _
  | setCapacity capacity =>
    obtain ⟨order, horder, -⟩ := h.order
    exact Nat.le_succ_of_le (Nat.le_of_eq (horder.setCapacity capacity).2.1)
  | clear => exact Nat.le_succ _

/-- The slots that calls have led to, and the list that the same calls have led to. The clock counts
calls: it would come round after `2 ^ 64` of them. -/
structure IsLru (calls : List (SlotCall K V)) (slots : CacheSlots K V) (list : LruList K V) :
    Prop where
  capacity : slots.capacity = list.capacity
  entries : (slots.entries.map item).Perm list.items
  order : List.Sublist (list.items.map Prod.fst) (order calls)
  keyed : (slots.entries.map fun entry => entry.key).Nodup
  room : slots.entries.length ≤ slots.capacity
  values : ∀ entry ∈ slots.entries, lastPut entry.key calls = some entry.value
  evicted : ∀ call, ∀ gone ∈ slots.entries, ∀ kept ∈ slots.entries,
    (∀ entry ∈ (onSlots slots call).1.entries, entry.key ≠ gone.key) →
    (∃ entry ∈ (onSlots slots call).1.entries, entry.key = kept.key) →
    List.Sublist [gone.key, kept.key] (SlotCall.order calls)
  clock : slots.tick ≤ calls.length

omit [DecidableEq K] in
theorem Tracks.perm (h : slots.Tracks list) : (slots.entries.map item).Perm list.items := by
  obtain ⟨order, horder, -, hitems⟩ := h.order
  rw [hitems]
  exact (horder.perm.map item).symm

omit [DecidableEq K] in
theorem mem_keys (h : slots.Tracks list) :
    key ∈ list.items.map Prod.fst ↔ ∃ entry ∈ slots.entries, entry.key = key := by
  rw [((Tracks.perm h).map Prod.fst).symm.mem_iff, List.map_map, List.mem_map]
  rfl

theorem isLru (h : slots.Tracks list) (hrecorded : Recorded calls list)
    (hclock : slots.tick ≤ calls.length) :
    IsLru calls slots list where
  capacity := h.capacity.symm
  entries := Tracks.perm h
  order := hrecorded.order
  keyed := h.keyed
  room := h.room
  values entry hentry := hrecorded.values (item entry)
    ((Tracks.perm h).mem_iff.mp (List.mem_map_of_mem hentry))
  evicted call gone hgone kept hkept hgone' hkept' := by
    have hcall := (tracks_call h call).1
    have hroom : list.items.length ≤ list.capacity := by
      rw [h.length, h.capacity]
      exact h.room
    refine gone_before_kept hrecorded hroom call ((mem_keys h).mpr ⟨gone, hgone, rfl⟩) ?_
      ((mem_keys h).mpr ⟨kept, hkept, rfl⟩) ((mem_keys hcall).mpr hkept')
    intro hmem
    obtain ⟨entry, hentry, hkey⟩ := (mem_keys hcall).mp hmem
    exact hgone' entry hentry hkey
  clock := hclock

omit [DecidableEq K] in
theorem tracks_empty (capacity : ℕ) :
    (CacheSlots.empty capacity : CacheSlots K V).Tracks (LruList.empty capacity) :=
  ⟨rfl, List.nodup_nil, Nat.zero_le _, [], ⟨.nil, .nil⟩, by simp, rfl⟩

theorem slotsRun_append (slots : CacheSlots K V) (calls : List (SlotCall K V))
    (call : SlotCall K V) :
    slotsRun slots (calls ++ [call]) = ((onSlots (slotsRun slots calls).1 call).1,
      (slotsRun slots calls).2 ++ [(onSlots (slotsRun slots calls).1 call).2]) := by
  rw [slotsRun, List.foldl_append]
  rfl

theorem listRun_append (list : LruList K V) (calls : List (SlotCall K V)) (call : SlotCall K V) :
    listRun list (calls ++ [call]) = ((onList (listRun list calls).1 call).1,
      (listRun list calls).2 ++ [(onList (listRun list calls).1 call).2]) := by
  rw [listRun, List.foldl_append]
  rfl

theorem run_invariant (capacity : ℕ) (calls : List (SlotCall K V)) :
    (slotsRun (CacheSlots.empty capacity) calls).1.Tracks
        (listRun (LruList.empty capacity) calls).1 ∧
      (slotsRun (CacheSlots.empty capacity) calls).2 = (listRun (LruList.empty capacity) calls).2 ∧
      Recorded calls (listRun (LruList.empty capacity) calls).1 ∧
      (slotsRun (CacheSlots.empty capacity) calls).1.tick ≤ calls.length := by
  induction calls using List.reverseRecOn with
  | nil =>
    exact ⟨tracks_empty capacity, rfl, ⟨.slnil, by simp [listRun, LruList.empty]⟩,
      Nat.le_refl _⟩
  | append_singleton calls call ih =>
    obtain ⟨htracks, hresults, hrecorded, hclock⟩ := ih
    obtain ⟨hnext, hresult⟩ := tracks_call htracks call
    have htick := tick_call _ call _ htracks
    rw [slotsRun_append, listRun_append, List.length_append, List.length_singleton, hresult,
      hresults]
    exact ⟨hnext, rfl, hrecorded.call call, Nat.le_trans htick (Nat.succ_le_succ hclock)⟩

/-- The slots return what the list returns and hold its items, whatever the calls are. -/
theorem slotsRun_isLru (capacity : ℕ) (calls : List (SlotCall K V)) :
    (slotsRun (CacheSlots.empty capacity) calls).2 = (listRun (LruList.empty capacity) calls).2 ∧
      IsLru calls (slotsRun (CacheSlots.empty capacity) calls).1
        (listRun (LruList.empty capacity) calls).1 := by
  obtain ⟨htracks, hresults, hrecorded, hclock⟩ := run_invariant capacity calls
  exact ⟨hresults, isLru htracks hrecorded hclock⟩

example : (slotsRun (CacheSlots.empty 2) [.put 1 10, .put 2 20, .find 1, .put 3 30, .find 2]).2 =
    [none, none, some 10, none, none] := by decide

end SlotCall

end FastTts
