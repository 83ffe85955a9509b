import FastTts.Blocks
import FastTts.Json

/-!
# Position ids and attention masks

A mask value is zero or minus infinity: the column takes part in the attention of a row or it does
not. The masks are filled by loops over flat arrays.
-/

namespace FastTts.Qwen

open Blocks

inductive Mask
  | masked
  | visible
  deriving DecidableEq, Repr

def validateSteps (steps : ℤ) (label : Bytes) : Except Exception Unit :=
  if steps ≤ 0 then .error (label ++ bytes " requires positive step count") else .ok ()

def qwenPositionIds (steps offset : ℤ) : Except Exception (List ℤ) := do
  validateSteps steps (bytes "qwen_position_ids")
  return (List.range steps.toNat).map fun (i : ℕ) => offset + i

def setVisible (mask : List Mask) (columns : List ℕ) : List Mask :=
  columns.foldl (fun mask column => mask.set column .visible) mask

/-- A square mask: each row sees the columns up to its own. -/
def causalSquare (steps : ℕ) : List Mask :=
  (List.range steps).foldl
    (fun one row => setVisible one ((List.range (row + 1)).map fun col => row * steps + col))
    (List.replicate (steps * steps) .masked)

def causalPrefillMaskValues (batchSize steps : ℤ) : Except Exception (List Mask) := do
  if batchSize ≤ 0 then
    .error (bytes "qwen_causal_prefill_mask_values requires positive batch size")
  else
    validateSteps steps (bytes "qwen_causal_prefill_mask_values")
    if batchSize = 1 then return causalSquare steps.toNat
    else return (List.replicate batchSize.toNat (causalSquare steps.toNat)).flatten

/-- The checks of both step masks; `label` is the function's name. -/
def validateStepMask (label : Bytes) (maskSteps visiblePrefixSteps currentSlot : ℤ) :
    Except Exception Unit := do
  validateSteps maskSteps label
  if visiblePrefixSteps < 0 ∨ maskSteps < visiblePrefixSteps then
    .error (label ++ bytes " visible prefix is out of range")
  else if currentSlot < 0 ∨ maskSteps ≤ currentSlot then
    .error (label ++ bytes " current slot is out of range")
  else .ok ()

/-- One row of a step mask, from column `offset` on. -/
def showStep (mask : List Mask) (offset visiblePrefixSteps currentSlot : ℕ) : List Mask :=
  (setVisible mask ((List.range visiblePrefixSteps).map fun i => offset + i)).set
    (offset + currentSlot) .visible

def cachedStepMask (maskSteps visiblePrefixSteps currentSlot : ℤ) :
    Except Exception (List Mask) := do
  validateStepMask (bytes "write_qwen_cached_step_mask") maskSteps visiblePrefixSteps currentSlot
  return showStep (List.replicate maskSteps.toNat .masked) 0 visiblePrefixSteps.toNat
    currentSlot.toNat

def batchedCachedStepMask (batchSize maskSteps visiblePrefixSteps currentSlot : ℤ) :
    Except Exception (List Mask) := do
  if batchSize ≤ 0 then
    .error (bytes "write_qwen_batched_cached_step_mask requires positive batch size")
  else
    validateStepMask (bytes "write_qwen_batched_cached_step_mask") maskSteps visiblePrefixSteps
      currentSlot
    return (List.range batchSize.toNat).foldl
      (fun mask batch => showStep mask (batch * maskSteps.toNat) visiblePrefixSteps.toNat
        currentSlot.toNat)
      (List.replicate (batchSize.toNat * maskSteps.toNat) .masked)

/-! ## What the masks show -/

def shownRow (steps shown : ℕ) : List Mask :=
  List.replicate shown .visible ++ List.replicate (steps - shown) .masked

variable {steps shown slot : ℕ}

theorem length_shownRow (h : shown ≤ steps) : (shownRow steps shown).length = steps := by
  rw [shownRow, List.length_append, List.length_replicate, List.length_replicate]
  omega

theorem filter_shownRow {R : Type} (h : shown ≤ steps) (rows : List R) :
    (((shownRow steps shown).zip rows).filter fun column => column.1 = .visible).map Prod.snd =
      rows.take shown := by
  have hmasked : ∀ (rest : List R) (n : ℕ),
      ((List.replicate n Mask.masked).zip rest).filter (fun column => column.1 = .visible) =
        [] := by
    intro rest n
    rw [List.filter_eq_nil_iff]
    intro column hcolumn
    have hmask := (List.of_mem_zip (a := column.1) (b := column.2) hcolumn).1
    rw [List.eq_of_mem_replicate hmask]
    decide
  induction shown generalizing rows steps with
  | zero =>
    rw [shownRow, List.replicate_zero, List.nil_append, hmasked]
    rfl
  | succ shown ih =>
    cases rows with
    | nil =>
      rw [List.zip_nil_right]
      rfl
    | cons row rows =>
      have hless : shown ≤ steps - 1 := by omega
      have hrow : shownRow steps (shown + 1) = .visible :: shownRow (steps - 1) shown := by
        have hleft : steps - 1 - shown = steps - (shown + 1) := by omega
        rw [shownRow, shownRow, hleft, List.replicate_succ, List.cons_append]
      rw [hrow, List.zip_cons_cons, List.filter_cons_of_pos rfl, List.map_cons, ih hless rows,
        List.take_succ_cons]

theorem set_shownRow {before after : List Mask} (h : shown < steps) :
    (before ++ shownRow steps shown ++ after).set (before.length + shown) .visible =
      before ++ shownRow steps (shown + 1) ++ after := by
  have hleft : steps - shown = steps - (shown + 1) + 1 := by omega
  have hsplit : before ++ shownRow steps shown ++ after =
      (before ++ List.replicate shown .visible) ++
        (.masked :: (List.replicate (steps - (shown + 1)) .masked ++ after)) := by
    rw [shownRow, hleft, List.replicate_succ]
    simp
  have hindex : before.length + shown = (before ++ List.replicate shown Mask.visible).length := by
    rw [List.length_append, List.length_replicate]
  rw [hsplit, hindex, List.set_append_right _ _ le_rfl, Nat.sub_self, List.set_cons_zero, shownRow,
    List.replicate_succ']
  simp

theorem setVisible_row (before after : List Mask) (h : shown ≤ steps) :
    setVisible (before ++ List.replicate steps .masked ++ after)
      ((List.range shown).map fun i => before.length + i) =
        before ++ shownRow steps shown ++ after := by
  induction shown with
  | zero => rfl
  | succ shown ih =>
    have hprevious := ih (by omega)
    rw [setVisible] at hprevious ⊢
    rw [List.range_succ, List.map_append, List.foldl_append, hprevious]
    exact set_shownRow (by omega)

theorem causalSquare_eq (steps : ℕ) :
    causalSquare steps = ((List.range steps).map fun row => shownRow steps (row + 1)).flatten := by
  have hmasked : List.replicate (steps * steps) Mask.masked =
      (List.replicate steps (List.replicate steps .masked)).flatten :=
    List.flatten_replicate_replicate.symm
  rw [causalSquare, hmasked]
  apply foldl_rows (n := steps)
  · intro row hrow
    exact length_shownRow hrow
  · intro row hrow before after hbefore
    rw [← hbefore]
    exact setVisible_row before after hrow

theorem length_causalSquare (steps : ℕ) : (causalSquare steps).length = steps * steps := by
  rw [causalSquare_eq, length_flatten (n := steps), List.length_map, List.length_range]
  intro row hrow
  obtain ⟨i, hi, rfl⟩ := List.mem_map.mp hrow
  rw [List.mem_range] at hi
  exact length_shownRow (by omega)

theorem slice_causalSquare {row : ℕ} (h : row < steps) :
    slice steps row (causalSquare steps) = shownRow steps (row + 1) := by
  rw [causalSquare_eq, slice_flatten, List.getD_eq_getElem?_getD, List.getElem?_map,
    List.getElem?_range h]
  · rfl
  · intro r hr
    obtain ⟨i, hi, rfl⟩ := List.mem_map.mp hr
    rw [List.mem_range] at hi
    exact length_shownRow (by omega)

theorem causalPrefillMaskValues_one (h : 0 < steps) :
    causalPrefillMaskValues 1 steps = .ok (causalSquare steps) := by
  have hsteps : ¬ (steps : ℤ) ≤ 0 := by omega
  rw [causalPrefillMaskValues, validateSteps, if_neg (by decide), if_neg hsteps, Int.toNat_natCast]
  rfl

theorem causalPrefillMaskValues_eq {batch : ℕ} (hbatch : 0 < batch) (h : 0 < steps) :
    causalPrefillMaskValues batch steps = .ok (List.replicate batch (causalSquare steps)).flatten := by
  have hpos : ¬ (batch : ℤ) ≤ 0 := by omega
  have hsteps : ¬ (steps : ℤ) ≤ 0 := by omega
  rw [causalPrefillMaskValues, validateSteps, if_neg hpos, if_neg hsteps, Int.toNat_natCast,
    Int.toNat_natCast]
  by_cases hone : batch = 1
  · subst hone
    simp only [List.replicate_one, List.flatten_singleton]
    rfl
  · have hmany : ¬ (batch : ℤ) = 1 := by omega
    rw [if_neg hmany]
    rfl

theorem showStep_row (before after : List Mask) (h : slot < steps) :
    showStep (before ++ List.replicate steps .masked ++ after) before.length slot slot =
      before ++ shownRow steps (slot + 1) ++ after := by
  rw [showStep, setVisible_row before after (by omega)]
  exact set_shownRow h

theorem cachedStepMask_eq (h : slot < steps) :
    cachedStepMask steps slot slot = .ok (shownRow steps (slot + 1)) := by
  have hsteps : ¬ (steps : ℤ) ≤ 0 := by omega
  have hprefix : ¬ ((slot : ℤ) < 0 ∨ (steps : ℤ) < slot) := by omega
  have hslot : ¬ ((slot : ℤ) < 0 ∨ (steps : ℤ) ≤ slot) := by omega
  have hrow := showStep_row [] [] h
  rw [List.append_nil, List.append_nil, List.nil_append, List.nil_append, List.length_nil] at hrow
  rw [cachedStepMask, validateStepMask, validateSteps, if_neg hsteps, if_neg hprefix, if_neg hslot]
  simp only [Int.toNat_natCast, hrow]
  rfl

theorem batchedCachedStepMask_eq {batch : ℕ} (hbatch : 0 < batch) (h : slot < steps) :
    batchedCachedStepMask batch steps slot slot =
      .ok (List.replicate batch (shownRow steps (slot + 1))).flatten := by
  have hpos : ¬ (batch : ℤ) ≤ 0 := by omega
  have hsteps : ¬ (steps : ℤ) ≤ 0 := by omega
  have hprefix : ¬ ((slot : ℤ) < 0 ∨ (steps : ℤ) < slot) := by omega
  have hslot : ¬ ((slot : ℤ) < 0 ∨ (steps : ℤ) ≤ slot) := by omega
  have hmasked : List.replicate (batch * steps) Mask.masked =
      (List.replicate batch (List.replicate steps .masked)).flatten :=
    List.flatten_replicate_replicate.symm
  have hall : (List.range batch).foldl (fun mask batch => showStep mask (batch * steps) slot slot)
      (List.replicate (batch * steps) .masked) =
      (List.replicate batch (shownRow steps (slot + 1))).flatten := by
    have hshown : List.replicate batch (shownRow steps (slot + 1)) =
        (List.range batch).map fun _ => shownRow steps (slot + 1) := by
      rw [List.map_const', List.length_range]
    rw [hmasked, hshown]
    apply foldl_rows (n := steps)
    · intro row _
      exact length_shownRow h
    · intro row _ before after hbefore
      rw [← hbefore]
      exact showStep_row before after h
  rw [batchedCachedStepMask, if_neg hpos, validateStepMask, validateSteps, if_neg hsteps,
    if_neg hprefix, if_neg hslot]
  simp only [Int.toNat_natCast, hall]
  rfl

end FastTts.Qwen
