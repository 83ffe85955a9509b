import FastTts.JsonWriting

/-!
# Workflow steps over a batch

A step with `foreach` runs once for each item of a batch, over one map of values that is put back
before every item.
-/

namespace FastTts.Workflow

open JsonText (natText)

/-- An unordered map of texts. -/
abbrev Values := Bytes → Option Bytes

def Values.set (values : Values) (key value : Bytes) : Values := fun k =>
  if k = key then some value else values k

structure WorkflowContext where
  values : Values
  batches : Bytes → Option (List Values)

def under (id field : Bytes) : Bytes := id ++ bytes "." ++ field

def withItem (values item : Values) : Values := fun key =>
  if bytes "item." <+: key then (item (key.drop 5)).or (values key) else values key

def record (id : Bytes) (values : Values) (recorded : List (Bytes × Bytes)) : Values :=
  recorded.foldl (fun values field => values.set (under id field.1) field.2) values

/-- The item with every value whose key begins with the id of the step and a dot. -/
def outputItem (id : Bytes) (item values : Values) : Values := fun field =>
  (values (under id field)).or (item field)

/-- The loop over the items, from the values that the last one left. What a step records may depend
on all the values that it sees. -/
def foreachItems (results : Values → List (Bytes × Bytes)) (id : Bytes) (baseValues : Values) :
    Values → List Values → Values × List Values
  | values, [] => (values, [])
  | _, item :: items =>
    let values := withItem baseValues item
    let values := record id values (results values)
    let (last, outputItems) := foreachItems results id baseValues values items
    (last, outputItem id item values :: outputItems)

def runWorkflowStepForeach (results : Values → List (Bytes × Bytes)) (id sourceId : Bytes)
    (context : WorkflowContext) : Except Exception WorkflowContext :=
  if sourceId = id then
    .error (bytes "workflow foreach cannot reference the current step: " ++ id)
  else match context.batches sourceId with
    | none => .error (bytes "workflow foreach source is not a batch: " ++ sourceId)
    | some sourceItems =>
      let (_, outputItems) := foreachItems results id context.values context.values sourceItems
      .ok ⟨context.values.set (under id (bytes "count")) (natText outputItems.length),
        fun batch => if batch = id then some outputItems else context.batches batch⟩

/-- The loop for a model is written again, with a request in the place of the step. -/
def runModelStepForeach (results : Values → List (Bytes × Bytes)) (id sourceId : Bytes)
    (context : WorkflowContext) : Except Exception WorkflowContext :=
  runWorkflowStepForeach results id sourceId context

/-! ## What an item gets -/

variable {results : Values → List (Bytes × Bytes)} {id sourceId field : Bytes}
  {recorded : List (Bytes × Bytes)} {item values other : Values} {context : WorkflowContext}
  {items : List Values}

/-- An item with fields that are recorded one after the other. -/
def withFields (item : Values) (recorded : List (Bytes × Bytes)) : Values :=
  recorded.foldl (fun item field => item.set field.1 field.2) item

theorem withFields_of_notMem (h : field ∉ recorded.map Prod.fst) :
    withFields item recorded field = item field := by
  induction recorded generalizing item with
  | nil => rfl
  | cons first rest ih =>
    rw [List.map_cons, List.mem_cons, not_or] at h
    exact (ih h.2).trans (if_neg h.1)

theorem withFields_of_mem (h : field ∈ recorded.map Prod.fst) :
    withFields item recorded field = withFields other recorded field := by
  induction recorded generalizing item other with
  | nil => simp at h
  | cons first rest ih =>
    by_cases hrest : field ∈ rest.map Prod.fst
    · exact ih hrest
    · obtain rfl : field = first.1 := by simpa [hrest] using h
      have hset : ∀ item : Values, withFields item (first :: rest) first.1 = some first.2 :=
        fun item => (withFields_of_notMem hrest).trans (if_pos rfl)
      rw [hset item, hset other]

theorem outputItem_record : outputItem id item (record id values recorded) =
    withFields (outputItem id item values) recorded := by
  induction recorded generalizing values with
  | nil => rfl
  | cons first rest ih =>
    rw [record, List.foldl_cons]
    refine ih.trans (congrArg (withFields · rest) (funext fun field => ?_))
    simp only [outputItem, Values.set, under, List.append_cancel_left_eq]
    split_ifs <;> rfl

theorem foreachItems_eq (baseValues : Values) :
    (foreachItems results id baseValues values items).2 = items.map fun item =>
      withFields (outputItem id item (withItem baseValues item))
        (results (withItem baseValues item)) := by
  induction items generalizing values with
  | nil => rfl
  | cons item items ih => rw [foreachItems, List.map_cons, ← ih, ← outputItem_record]

/-- What a step over a batch is for. -/
structure Isolated (results : Values → List (Bytes × Bytes)) (id : Bytes)
    (context : WorkflowContext) (items : List Values) (after : WorkflowContext) : Prop where
  outputs : after.batches id = some (items.map fun item =>
    withFields item (results (withItem context.values item)))
  batches : ∀ batch ≠ id, after.batches batch = context.batches batch
  values : after.values = context.values.set (under id (bytes "count")) (natText items.length)

/-- No value of an earlier step, or of the item, passes for one that the step records. -/
def Unmixed (results : Values → List (Bytes × Bytes)) (id : Bytes) (values item : Values) : Prop :=
  ∀ field value, withItem values item (under id field) = some value →
    field ∈ (results (withItem values item)).map Prod.fst ∨ item field = some value

theorem withFields_eq_iff : withFields (outputItem id item (withItem values item))
      (results (withItem values item)) = withFields item (results (withItem values item)) ↔
    Unmixed results id values item := by
  constructor
  · intro h field value hvalue
    refine or_iff_not_imp_left.mpr fun hmem => ?_
    have hfield := congrFun h field
    rw [withFields_of_notMem hmem, withFields_of_notMem hmem, outputItem, hvalue] at hfield
    exact hfield.symm
  · intro h
    funext field
    by_cases hmem : field ∈ (results (withItem values item)).map Prod.fst
    · exact withFields_of_mem hmem
    · rw [withFields_of_notMem hmem, withFields_of_notMem hmem, outputItem]
      cases hvalue : withItem values item (under id field) with
      | none => rfl
      | some value => exact ((h field value hvalue).resolve_left hmem).symm

section

variable (hsource : sourceId ≠ id) (hitems : context.batches sourceId = some items)
include hsource hitems

theorem runWorkflowStepForeach_eq :
    runWorkflowStepForeach results id sourceId context =
      .ok ⟨context.values.set (under id (bytes "count")) (natText items.length), fun batch =>
        if batch = id then some (items.map fun item =>
          withFields (outputItem id item (withItem context.values item))
            (results (withItem context.values item))) else context.batches batch⟩ := by
  simp only [runWorkflowStepForeach, if_neg hsource, hitems, foreachItems_eq, List.length_map]

theorem isolated_iff :
    (∃ after, runWorkflowStepForeach results id sourceId context = .ok after ∧
      Isolated results id context items after) ↔
      ∀ item ∈ items, Unmixed results id context.values item := by
  rw [runWorkflowStepForeach_eq hsource hitems]
  constructor
  · rintro ⟨after, ⟨⟩, hisolated⟩ item hitem
    have houtputs := hisolated.outputs
    dsimp only at houtputs
    rw [if_pos rfl, Option.some_inj, List.map_inj_left] at houtputs
    exact withFields_eq_iff.mp (houtputs item hitem)
  · intro h
    refine ⟨_, rfl, ?_, fun batch hbatch => if_neg hbatch, rfl⟩
    dsimp only
    rw [if_pos rfl, Option.some_inj, List.map_inj_left]
    exact fun item hitem => withFields_eq_iff.mpr (h item hitem)

/-- A step over a batch gives each item just what it records for it, exactly where no other value
has a key that begins with its id. The order of the items is the order of the outputs alone. -/
theorem foreach_isolated_iff :
    ((∃ after, runWorkflowStepForeach results id sourceId context = .ok after ∧
      Isolated results id context items after) ∧
      ∀ permuted, permuted.Perm items → ∃ after others outputs permutedOutputs,
        runWorkflowStepForeach results id sourceId context = .ok after ∧
        runWorkflowStepForeach results id sourceId ⟨context.values, fun batch =>
          if batch = sourceId then some permuted else context.batches batch⟩ = .ok others ∧
        after.batches id = some outputs ∧ others.batches id = some permutedOutputs ∧
        permutedOutputs.Perm outputs ∧ others.values = after.values) ↔
      ∀ item ∈ items, Unmixed results id context.values item := by
  rw [isolated_iff hsource hitems, and_iff_left]
  intro permuted hperm
  refine ⟨_, _, _, _, runWorkflowStepForeach_eq hsource hitems,
    runWorkflowStepForeach_eq hsource (if_pos rfl), if_pos rfl, if_pos rfl, hperm.map _, ?_⟩
  rw [hperm.length_eq]

end

/-- A batch of one empty item, with a workflow input. -/
def oneItem (key : Bytes) : WorkflowContext :=
  ⟨fun k => if k = key then some [] else none, fun _ => some [fun _ => none]⟩

theorem foreach_isolated_iff_oneItem :
    ∃ after, runWorkflowStepForeach (fun _ => [(bytes "text", [])]) (bytes "s") (bytes "b")
        (oneItem (bytes "s.text")) = .ok after ∧
      Isolated (fun _ => [(bytes "text", [])]) (bytes "s") (oneItem (bytes "s.text"))
        [fun _ => none] after := by
  refine ((foreach_isolated_iff (by decide) rfl).mpr fun item hitem field value hvalue => ?_).1
  obtain rfl := List.mem_singleton.mp hitem
  have hkey : under (bytes "s") field = bytes "s" ++ bytes "." ++ bytes "text" := by
    by_contra hne
    have hother : under (bytes "s") field ≠ bytes "s.text" := hne
    simp [withItem, oneItem, hother] at hvalue
  exact .inl (List.mem_singleton.mpr (List.append_cancel_left hkey))

/-- An input whose name begins with the id of the step gets into every item. -/
theorem not_isolated_input :
    ¬ ∀ (results : Values → List (Bytes × Bytes)) (id sourceId : Bytes) (context : WorkflowContext)
      (items : List Values), sourceId ≠ id → context.batches sourceId = some items →
      ∃ after, runWorkflowStepForeach results id sourceId context = .ok after ∧
        Isolated results id context items after := by
  intro h
  have hisolated := h (fun _ => []) (bytes "s") (bytes "b") (oneItem (bytes "s.text")) _
    (by decide) rfl
  have hmixed := (isolated_iff (by decide) rfl).mp hisolated _ List.mem_cons_self (bytes "text") []
    (by decide)
  simp at hmixed

end FastTts.Workflow
