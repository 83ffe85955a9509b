import Mathlib.Data.Multiset.Basic
import FastTts.KvCache
import FastTts.QwenMasks

/-!
# The causal decoder stack

A layer projects a position's state to a query, a key and a value, and its output is a function of
the query and of what the position sees. The rotation of a key by its position is kept unevaluated:
the row that is cached is the pair of both. The whole sequence goes through the stack under the
causal mask; a decode step goes through it alone, with the rows of the positions before it in the
cache. Both give the states of the causal stack below, in which there are no masks and no slots.
-/

namespace FastTts.Qwen

open Blocks Kv

structure Seen (K V : Type) where
  position : ℤ
  key : K
  value : V
  deriving DecidableEq, Repr

structure DecoderLayer (H Q K V : Type) where
  query : ℤ → H → Q
  key : H → K
  value : H → V
  output : H → Q → Multiset (Seen K V) → H

variable {H Q K V : Type} (layer : DecoderLayer H Q K V)

def DecoderLayer.attend (position : ℤ) (hidden : H) (seen : List (Seen K V)) : H :=
  layer.output hidden (layer.query position hidden) seen

def triples (keys : List (ℤ × K)) (values : List V) : List (Seen K V) :=
  List.zipWith (fun key value => ⟨key.1, key.2, value⟩) keys values

/-- The columns that a row of the mask shows. -/
def seenThrough (mask : List Mask) (keys : List (ℤ × K)) (values : List V) : List (Seen K V) :=
  ((mask.zip (triples keys values)).filter fun column => column.1 = .visible).map Prod.snd

/-! ## Prefill -/

/-- What a layer leaves for the cache, and what each of its rows has seen. -/
structure LayerTrace (K V : Type) where
  keys : List (ℤ × K)
  values : List V
  seen : List (List (Seen K V))

def DecoderLayer.build (positions : List ℤ) (mask : List Mask)
    (hidden : List H) : LayerTrace K V × List H :=
  let keys := positions.zip (hidden.map layer.key)
  let values := hidden.map layer.value
  let seen := (List.range hidden.length).map fun row =>
    seenThrough (slice hidden.length row mask) keys values
  (⟨keys, values, seen⟩, (hidden.zip (positions.zip seen)).map fun (h, position, seen) =>
    layer.attend position h seen)

def buildStack : List (DecoderLayer H Q K V) → List ℤ → List Mask → List H →
    List (LayerTrace K V) × List H
  | [], _, _, hidden => ([], hidden)
  | layer :: layers, positions, mask, hidden =>
    let (trace, hidden) := layer.build positions mask hidden
    let (traces, hidden) := buildStack layers positions mask hidden
    (trace :: traces, hidden)

/-! ## A decode step -/

/-- The step's rows go into its slot before the attention reads the cache. -/
def DecoderLayer.buildWithStaticCacheTail (position : ℤ)
    (slot : ℕ) (mask : List Mask) (cache : LayerCache (ℤ × K) V) (hidden : H) :
    LayerCache (ℤ × K) V × List (Seen K V) × H :=
  let keys := setRows cache.keyTensor [slot] [(position, layer.key hidden)]
  let values := setRows cache.valueTensor [slot] [layer.value hidden]
  let seen := seenThrough mask keys values
  (⟨keys, values⟩, seen, layer.attend position hidden seen)

def buildStaticCacheTail : List (DecoderLayer H Q K V) → ℤ → ℕ → List Mask →
    List (LayerCache (ℤ × K) V) → H → List (LayerCache (ℤ × K) V) × List (List (Seen K V)) × H
  | layer :: layers, position, slot, mask, cache :: caches, hidden =>
    let (cache, seen, hidden) := layer.buildWithStaticCacheTail position slot mask cache hidden
    let (caches, rest, hidden) := buildStaticCacheTail layers position slot mask caches hidden
    (cache :: caches, seen :: rest, hidden)
  | _, _, _, _, _, hidden => ([], [], hidden)

/-! ## The causal stack -/

def causalTriples (hidden : List H) : List (Seen K V) :=
  hidden.mapIdx fun position h => ⟨position, layer.key h, layer.value h⟩

/-- Each position sees those up to its own. -/
def causalLayer (hidden : List H) : List H :=
  hidden.mapIdx fun position h =>
    layer.attend position h ((causalTriples layer hidden).take (position + 1))

def causalStack : List (DecoderLayer H Q K V) → List H → List (List (Seen K V)) × List H
  | [], hidden => ([], hidden)
  | layer :: layers, hidden =>
    let (rest, out) := causalStack layers (causalLayer layer hidden)
    (causalTriples layer hidden :: rest, out)

theorem length_causalLayer (hidden : List H) : (causalLayer layer hidden).length = hidden.length :=
  List.length_mapIdx

theorem causalTriples_take (hidden : List H) (n : ℕ) :
    causalTriples layer (hidden.take n) = (causalTriples layer hidden).take n := by
  apply List.ext_getElem?
  intro position
  rw [causalTriples, causalTriples, List.getElem?_mapIdx, List.getElem?_take, List.getElem?_take,
    List.getElem?_mapIdx]
  split_ifs <;> rfl

theorem causalLayer_take (hidden : List H) (n : ℕ) :
    causalLayer layer (hidden.take n) = (causalLayer layer hidden).take n := by
  apply List.ext_getElem?
  intro position
  rw [causalLayer, causalLayer, List.getElem?_mapIdx, List.getElem?_take, List.getElem?_take,
    List.getElem?_mapIdx]
  by_cases hposition : position < n
  · rw [if_pos hposition, if_pos hposition, causalTriples_take, List.take_take, Nat.min_eq_left]
    exact hposition
  · rw [if_neg hposition, if_neg hposition]
    rfl

variable (layers : List (DecoderLayer H Q K V))

theorem causalStack_take (hidden : List H) (n : ℕ) :
    causalStack layers (hidden.take n) =
      ((causalStack layers hidden).1.map (List.take n), (causalStack layers hidden).2.take n) := by
  induction layers generalizing hidden with
  | nil => rfl
  | cons layer layers ih =>
    rw [causalStack, causalStack, causalLayer_take, ih, causalTriples_take]
    rfl

theorem length_causalStack (hidden : List H) :
    (causalStack layers hidden).2.length = hidden.length := by
  induction layers generalizing hidden with
  | nil => rfl
  | cons layer layers ih =>
    rw [causalStack]
    exact (ih _).trans (length_causalLayer layer hidden)

/-! ## Masks -/

variable {steps : ℕ}

theorem seenThrough_shownRow {shown : ℕ} (h : shown ≤ steps) (keys : List (ℤ × K))
    (values : List V) : seenThrough (shownRow steps shown) keys values =
      (triples keys values).take shown := by
  rw [seenThrough]
  exact filter_shownRow h (triples keys values)

/-! ## Prefill gives the causal states -/

def ids (steps : ℕ) : List ℤ := (List.range steps).map fun (i : ℕ) => (0 : ℤ) + i

theorem getElem?_ids {p : ℕ} (h : p < steps) : (ids steps)[p]? = some (p : ℤ) := by
  rw [ids, List.getElem?_map, List.getElem?_range h, Option.map_some, Int.zero_add]

theorem qwenPositionIds_eq (h : 0 < steps) : qwenPositionIds steps 0 = .ok (ids steps) := by
  have hsteps : ¬ (steps : ℤ) ≤ 0 := by omega
  rw [qwenPositionIds, validateSteps, if_neg hsteps, Int.toNat_natCast]
  rfl

theorem take_ids {n : ℕ} (h : n ≤ steps) : (ids steps).take n = ids n := by
  rw [ids, ids, ← List.map_take, List.take_range, Nat.min_eq_left h]

theorem length_ids (steps : ℕ) : (ids steps).length = steps := by
  rw [ids, List.length_map, List.length_range]

theorem triples_prefill (hidden : List H) :
    triples ((ids hidden.length).zip (hidden.map layer.key)) (hidden.map layer.value) =
      causalTriples layer hidden := by
  apply List.ext_getElem?
  intro p
  rw [triples, causalTriples, List.getElem?_mapIdx, List.getElem?_zipWith, List.zip,
    List.getElem?_zipWith, List.getElem?_map, List.getElem?_map]
  rcases Nat.lt_or_ge p hidden.length with hp | hp
  · rw [getElem?_ids hp, List.getElem?_eq_getElem hp]
    rfl
  · rw [List.getElem?_eq_none hp]
    cases (ids hidden.length)[p]? <;> rfl

theorem build_causal (hidden : List H) :
    layer.build (ids hidden.length) (causalSquare hidden.length) hidden =
      (⟨(ids hidden.length).zip (hidden.map layer.key), hidden.map layer.value,
        (List.range hidden.length).map fun row => (causalTriples layer hidden).take (row + 1)⟩,
        causalLayer layer hidden) := by
  have hseen : (List.range hidden.length).map (fun row =>
      seenThrough (slice hidden.length row (causalSquare hidden.length))
        ((ids hidden.length).zip (hidden.map layer.key)) (hidden.map layer.value)) =
      (List.range hidden.length).map fun row => (causalTriples layer hidden).take (row + 1) := by
    apply List.map_congr_left
    intro row hrow
    rw [List.mem_range] at hrow
    rw [slice_causalSquare hrow, seenThrough_shownRow hrow, triples_prefill]
  rw [DecoderLayer.build]
  simp only [hseen]
  rw [Prod.mk.injEq]
  refine ⟨rfl, ?_⟩
  apply List.ext_getElem?
  intro p
  rw [causalLayer, List.getElem?_mapIdx, List.getElem?_map, List.zip, List.getElem?_zipWith,
    List.zip, List.getElem?_zipWith, List.getElem?_map]
  rcases Nat.lt_or_ge p hidden.length with hp | hp
  · rw [getElem?_ids hp, List.getElem?_eq_getElem hp, List.getElem?_range hp]
    rfl
  · rw [List.getElem?_eq_none hp]
    rfl

/-- What a layer leaves, in terms of what it sees. -/
structure LayerTrace.Causal (steps : ℕ) (trace : LayerTrace K V) (seen : List (Seen K V)) :
    Prop where
  triples : triples trace.keys trace.values = seen
  keys : trace.keys.length = steps
  values : trace.values.length = steps
  rows : trace.seen = (List.range steps).map fun row => seen.take (row + 1)

theorem buildStack_causal (hidden : List H) :
    List.Forall₂ (LayerTrace.Causal hidden.length)
      (buildStack layers (ids hidden.length) (causalSquare hidden.length) hidden).1
      (causalStack layers hidden).1 ∧
    (buildStack layers (ids hidden.length) (causalSquare hidden.length) hidden).2 =
      (causalStack layers hidden).2 := by
  induction layers generalizing hidden with
  | nil => exact ⟨.nil, rfl⟩
  | cons layer layers ih =>
    obtain ⟨htraces, hout⟩ := ih (causalLayer layer hidden)
    rw [length_causalLayer] at htraces hout
    rw [buildStack, build_causal, causalStack]
    refine ⟨.cons ⟨triples_prefill layer hidden, ?_, ?_, rfl⟩ htraces, hout⟩
    · simp [length_ids]
    · exact List.length_map ..

theorem exists_of_forall₂ {α β : Type} {R : α → β → Prop} {l : List α} {l' : List β}
    (h : List.Forall₂ R l l') : ∀ a ∈ l, ∃ b ∈ l', R a b := by
  induction h with
  | nil => exact fun a ha => absurd ha List.not_mem_nil
  | cons hab _ ih =>
    intro a ha
    rcases List.mem_cons.mp ha with rfl | ha
    · exact ⟨_, List.mem_cons_self, hab⟩
    · obtain ⟨b, hb, hab⟩ := ih a ha
      exact ⟨b, List.mem_cons_of_mem _ hb, hab⟩

/-! ## A decode step gives the causal state -/

/-- The first `count` of the slots hold the first of the triples. -/
structure Holds (slots count : ℕ) (cache : LayerCache (ℤ × K) V) (seen : List (Seen K V)) :
    Prop where
  keys : cache.keyTensor.length = slots
  values : cache.valueTensor.length = slots
  rows : (triples cache.keyTensor cache.valueTensor).take count = seen.take count

theorem triples_set {keys : List (ℤ × K)} {values : List V} {slot : ℕ} (key : ℤ × K) (value : V) :
    triples (keys.set slot key) (values.set slot value) =
      (triples keys values).set slot ⟨key.1, key.2, value⟩ := by
  induction keys generalizing values slot with
  | nil => rfl
  | cons k keys ih =>
    cases values with
    | nil => cases slot <;> rfl
    | cons v values =>
      cases slot with
      | zero => rfl
      | succ slot =>
        have hrest := @ih values slot
        simp only [triples] at hrest
        simp only [triples, List.set_cons_succ, List.zipWith_cons_cons, hrest]

variable {slots t : ℕ} {hidden : List H} {h : H}

theorem buildWithStaticCacheTail_causal {cache : LayerCache (ℤ × K) V} (ht : hidden[t]? = some h)
    (hslots : t < slots) (hcache : Holds slots t cache (causalTriples layer hidden)) :
    (layer.buildWithStaticCacheTail t t (shownRow slots (t + 1)) cache h).2 =
        ((causalTriples layer hidden).take (t + 1),
          layer.attend t h ((causalTriples layer hidden).take (t + 1))) ∧
      Holds slots (t + 1) (layer.buildWithStaticCacheTail t t (shownRow slots (t + 1)) cache h).1
        (causalTriples layer hidden) := by
  have hlen : (triples cache.keyTensor cache.valueTensor).length = slots := by
    rw [triples, List.length_zipWith, hcache.keys, hcache.values, Nat.min_self]
  have htriple : (causalTriples layer hidden)[t]? = some ⟨t, layer.key h, layer.value h⟩ := by
    rw [causalTriples, List.getElem?_mapIdx, ht]
    rfl
  have hrows : (triples (cache.keyTensor.set t (t, layer.key h))
      (cache.valueTensor.set t (layer.value h))).take (t + 1) =
      (causalTriples layer hidden).take (t + 1) := by
    rw [triples_set, take_succ_set (by omega), hcache.rows, List.take_add_one, htriple]
    rfl
  have hseen : seenThrough (shownRow slots (t + 1)) (cache.keyTensor.set t (t, layer.key h))
      (cache.valueTensor.set t (layer.value h)) = (causalTriples layer hidden).take (t + 1) := by
    rw [seenThrough_shownRow hslots, hrows]
  constructor
  · simp only [DecoderLayer.buildWithStaticCacheTail, setRows, List.zip_cons_cons, List.zip_nil_left,
      List.foldl_cons, List.foldl_nil, hseen]
  · constructor
    · exact (List.length_set ..).trans hcache.keys
    · exact (List.length_set ..).trans hcache.values
    · exact hrows

theorem buildStaticCacheTail_causal {caches : List (LayerCache (ℤ × K) V)}
    (ht : hidden[t]? = some h) (hslots : t < slots)
    (hcaches : List.Forall₂ (Holds slots t) caches (causalStack layers hidden).1) :
    ∃ caches' out, buildStaticCacheTail layers t t (shownRow slots (t + 1)) caches h =
        (caches', (causalStack layers hidden).1.map (List.take (t + 1)), out) ∧
      List.Forall₂ (Holds slots (t + 1)) caches' (causalStack layers hidden).1 ∧
      (causalStack layers hidden).2[t]? = some out := by
  induction layers generalizing hidden h caches with
  | nil =>
    cases hcaches with
    | nil => exact ⟨[], h, rfl, .nil, ht⟩
  | cons layer layers ih =>
    rw [causalStack] at hcaches ⊢
    cases hcaches with
    | cons hcache hrest =>
      obtain ⟨hout, hholds⟩ := buildWithStaticCacheTail_causal layer ht hslots hcache
      have hnext : (causalLayer layer hidden)[t]? =
          some (layer.attend t h ((causalTriples layer hidden).take (t + 1))) := by
        rw [causalLayer, List.getElem?_mapIdx, ht]
        rfl
      obtain ⟨caches', out, hstack, hcaches', hlast⟩ := ih hnext hrest
      refine ⟨_, out, ?_, .cons hholds hcaches', hlast⟩
      rw [buildStaticCacheTail]
      simp only [hout, hstack]
      rfl

end FastTts.Qwen
