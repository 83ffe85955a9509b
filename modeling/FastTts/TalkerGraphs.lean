import FastTts.CacheSlots
import FastTts.QwenMasks
import FastTts.TalkerFrames

/-!
# The talker's graphs

What the graphs keep on the device from one run to the next: the rows of a prompt in a prefill
graph, those of a prompt and its frames in the step graph, those of one frame in the code predictor.
A step graph masks the rows beyond those that count, so only the first rows of its layers matter.
-/

namespace FastTts.Talker

open Kv Qwen

variable {F K V G : Type}

abbrev Layers (K V : Type) := List (LayerCache K V)

/-! ## Layers of rows -/

/-- The rows that the mask shows, other than the one that the step writes before it reads. -/
def shownRows {R : Type} (mask : List Mask) (slot : ℕ) (rows : List R) : List R :=
  (((mask.set slot .masked).zip rows).filter fun column => column.1 = .visible).map Prod.snd

def shownLayers (mask : List Mask) (slot : ℕ) (layers : Layers K V) : Layers K V :=
  layers.map fun layer =>
    ⟨shownRows mask slot layer.keyTensor, shownRows mask slot layer.valueTensor⟩

/-- The mask that a step uploads: the valid steps and the slot behind them. -/
def stepMask (cacheSteps validSteps : ℕ) : List Mask :=
  showStep (List.replicate cacheSteps .masked) 0 validSteps validSteps

def writeSlot (slot : ℕ) (key : ℕ → K) (value : ℕ → V) (layers : Layers K V) : Layers K V :=
  layers.mapIdx fun i layer =>
    ⟨layer.keyTensor.set slot (key i), layer.valueTensor.set slot (value i)⟩

def heldLayers (steps : ℕ) (layers : Layers K V) : Layers K V :=
  layers.map fun layer => ⟨layer.keyTensor.take steps, layer.valueTensor.take steps⟩

def appendLayers (key : ℕ → K) (value : ℕ → V) (layers : Layers K V) : Layers K V :=
  layers.mapIdx fun i layer =>
    ⟨layer.keyTensor ++ [key i], layer.valueTensor ++ [value i]⟩

def computedLayers (count steps : ℕ) (key : ℕ → ℕ → K) (value : ℕ → ℕ → V) : Layers K V :=
  (List.range count).map fun layer =>
    ⟨(List.range steps).map (key layer), (List.range steps).map (value layer)⟩

/-- Other rows in the same places. -/
def scrambleLayers (key : ℕ → ℕ → K) (value : ℕ → ℕ → V) (layers : Layers K V) : Layers K V :=
  layers.mapIdx fun i layer =>
    ⟨layer.keyTensor.mapIdx fun row _ => key i row, layer.valueTensor.mapIdx fun row _ => value i row⟩

/-- Copies the first rows of each layer over those of another. -/
def copyLayers (steps : ℕ) (source layers : Layers K V) : Layers K V :=
  (source.zip layers).map fun (src, dst) =>
    ⟨src.keyTensor.take steps ++ dst.keyTensor.drop steps,
      src.valueTensor.take steps ++ dst.valueTensor.drop steps⟩

structure Sized (count steps : ℕ) (layers : Layers K V) : Prop where
  count : layers.length = count
  key : ∀ layer ∈ layers, layer.keyTensor.length = steps
  value : ∀ layer ∈ layers, layer.valueTensor.length = steps

theorem sized_computed (count steps : ℕ) (key : ℕ → ℕ → K) (value : ℕ → ℕ → V) :
    Sized count steps (computedLayers count steps key value) := by
  constructor
  · rw [computedLayers, List.length_map, List.length_range]
  · intro layer hlayer
    obtain ⟨i, _, rfl⟩ := List.mem_map.mp hlayer
    rw [List.length_map, List.length_range]
  · intro layer hlayer
    obtain ⟨i, _, rfl⟩ := List.mem_map.mp hlayer
    rw [List.length_map, List.length_range]

variable {count steps size : ℕ} {layers : Layers K V}

theorem sized_mapIdx {steps' : ℕ} {f : ℕ → LayerCache K V → LayerCache K V}
    (h : Sized count steps layers)
    (hkey : ∀ i layer, layer.keyTensor.length = steps → (f i layer).keyTensor.length = steps')
    (hvalue : ∀ i layer, layer.valueTensor.length = steps → (f i layer).valueTensor.length = steps') :
    Sized count steps' (layers.mapIdx f) := by
  constructor
  · rw [List.length_mapIdx, h.count]
  · intro layer hlayer
    obtain ⟨i, hi, rfl⟩ := List.mem_mapIdx.mp hlayer
    exact hkey i _ (h.key _ (List.getElem_mem hi))
  · intro layer hlayer
    obtain ⟨i, hi, rfl⟩ := List.mem_mapIdx.mp hlayer
    exact hvalue i _ (h.value _ (List.getElem_mem hi))

theorem sized_writeSlot (h : Sized count steps layers) (slot : ℕ) (key : ℕ → K) (value : ℕ → V) :
    Sized count steps (writeSlot slot key value layers) := by
  apply sized_mapIdx h
  · intro i layer hlayer
    rw [List.length_set, hlayer]
  · intro i layer hlayer
    rw [List.length_set, hlayer]

theorem sized_scramble (h : Sized count steps layers) (key : ℕ → ℕ → K) (value : ℕ → ℕ → V) :
    Sized count steps (scrambleLayers key value layers) := by
  apply sized_mapIdx h
  · intro i layer hlayer
    rw [List.length_mapIdx, hlayer]
  · intro i layer hlayer
    rw [List.length_mapIdx, hlayer]

variable {source : Layers K V} {cacheSteps : ℕ}

theorem sized_copy (hsource : Sized count steps source) (h : Sized count size layers)
    (hsteps : steps ≤ size) : Sized count size (copyLayers steps source layers) := by
  have hmem : ∀ layer ∈ copyLayers steps source layers, ∃ src ∈ source, ∃ dst ∈ layers,
      layer = ⟨src.keyTensor.take steps ++ dst.keyTensor.drop steps,
        src.valueTensor.take steps ++ dst.valueTensor.drop steps⟩ := by
    intro layer hlayer
    obtain ⟨⟨src, dst⟩, hpair, rfl⟩ := List.mem_map.mp hlayer
    exact ⟨src, (List.of_mem_zip hpair).1, dst, (List.of_mem_zip hpair).2, rfl⟩
  constructor
  · rw [copyLayers, List.length_map, List.length_zip, hsource.count, h.count, Nat.min_self]
  · intro layer hlayer
    obtain ⟨src, hsrc, dst, hdst, rfl⟩ := hmem layer hlayer
    rw [List.length_append, List.length_take, List.length_drop, hsource.key src hsrc,
      h.key dst hdst]
    omega
  · intro layer hlayer
    obtain ⟨src, hsrc, dst, hdst, rfl⟩ := hmem layer hlayer
    rw [List.length_append, List.length_take, List.length_drop, hsource.value src hsrc,
      h.value dst hdst]
    omega

/-! ## The rows that count -/

theorem shownRows_shownRow {R : Type} (h : steps < cacheSteps) (rows : List R) :
    shownRows (shownRow cacheSteps (steps + 1)) steps rows = rows.take steps := by
  have hmask : (shownRow cacheSteps (steps + 1)).set steps .masked = shownRow cacheSteps steps := by
    have hleft : cacheSteps - steps = cacheSteps - (steps + 1) + 1 := by omega
    rw [shownRow, shownRow, hleft, List.replicate_succ', List.replicate_succ, List.append_assoc,
      List.set_append_right _ _ (by rw [List.length_replicate]), List.length_replicate,
      Nat.sub_self]
    rfl
  rw [shownRows, hmask]
  exact filter_shownRow h.le rows

theorem shownLayers_stepMask (h : steps < cacheSteps) (layers : Layers K V) :
    shownLayers (stepMask cacheSteps steps) steps layers = heldLayers steps layers := by
  have hrow := showStep_row [] [] h
  rw [List.append_nil, List.append_nil, List.nil_append, List.nil_append, List.length_nil] at hrow
  rw [shownLayers, heldLayers, stepMask, hrow]
  apply List.map_congr_left
  intro layer _
  rw [shownRows_shownRow h, shownRows_shownRow h]

theorem heldLayers_writeSlot {slot : ℕ} (h : Sized count size layers) (hslot : slot < size)
    (key : ℕ → K) (value : ℕ → V) :
    heldLayers (slot + 1) (writeSlot slot key value layers) =
      appendLayers key value (heldLayers slot layers) := by
  apply List.ext_getElem
  · simp [heldLayers, writeSlot, appendLayers]
  · intro i hi _
    have hlayer : i < layers.length := by
      simpa [heldLayers, writeSlot] using hi
    have hmem := List.getElem_mem hlayer
    simp only [heldLayers, writeSlot, appendLayers, List.getElem_map, List.getElem_mapIdx]
    rw [Blocks.take_succ_set (by rw [h.key _ hmem]; exact hslot),
      Blocks.take_succ_set (by rw [h.value _ hmem]; exact hslot)]

theorem heldLayers_copy (hsource : Sized count steps source) (h : Sized count size layers) :
    heldLayers steps (copyLayers steps source layers) = source := by
  apply List.ext_getElem
  · rw [heldLayers, copyLayers, List.length_map, List.length_map, List.length_zip, hsource.count,
      h.count, Nat.min_self]
  · intro i hi hi'
    have hkey := hsource.key _ (List.getElem_mem hi')
    have hvalue := hsource.value _ (List.getElem_mem hi')
    simp only [heldLayers, copyLayers, List.getElem_map, List.getElem_zip]
    rw [List.take_append_of_le_length (by rw [List.length_take]; omega),
      List.take_append_of_le_length (by rw [List.length_take]; omega), List.take_take,
      List.take_take, Nat.min_self, List.take_of_length_le hkey.le,
      List.take_of_length_le hvalue.le]

end FastTts.Talker
