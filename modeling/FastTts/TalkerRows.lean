import FastTts.Runs
import Mathlib.Data.Nat.Notation

/-!
# Garbage in the caches of the talker

A step attends to every row of its static cache, and a masked row that holds a NaN spoils the
result. The buffer of the step graph is cleared when it is allocated, that of the code predictor is
not: its prefill writes two rows, and each step one.
-/

namespace FastTts.TalkerRows

/-- Rows are held when they have been cleared or written, in the keys and values of all layers. -/
structure Cache where
  cacheSteps : ℕ
  held : ℕ → Bool
  validSteps : ℕ

/-- A graph copies rows to the front. -/
def Cache.copied (cache : Cache) (steps : ℕ) : Cache :=
  { cache with held := fun i => decide (i < steps) || cache.held i, validSteps := steps }

/-- What a step reads: its own row is set before. A graph that fails to compute keeps its cache. -/
def Cache.read (cache : Cache) (i : ℕ) : Bool := decide (i = cache.validSteps) || cache.held i

def Cache.stepped (cache : Cache) (fails : Bool) : Cache :=
  if fails then cache else ⟨cache.cacheSteps, cache.read, cache.validSteps + 1⟩

structure Graphs where
  stepGraph : Option Cache
  predictor : Option Cache

inductive Event
  | buildStepGraph (cacheSteps : ℕ)
  | transferPrefillState (steps : ℕ)
  | runStep (fails : Bool)
  | releaseCachedStepGraph
  | buildPredictor
  | runPredictorPrefill
  | runPredictorStep (group : ℕ) (fails : Bool)

/-- What touches a cache in `generate`, with `num_code_groups`. A step graph takes over the state of
the one before, if it fits. -/
def step (groups : ℕ) (s : Graphs) : Event → Option Graphs
  | .buildStepGraph cacheSteps =>
    let exported := (s.stepGraph.map (·.validSteps)).getD 0
    some { s with stepGraph := some ⟨cacheSteps, fun _ => true,
      if exported ≤ cacheSteps then exported else 0⟩ }
  | .transferPrefillState steps => do
    let graph ← s.stepGraph
    if graph.cacheSteps < steps then none
    else some { s with stepGraph := some (graph.copied steps) }
  | .runStep fails => do
    let graph ← s.stepGraph
    if graph.cacheSteps ≤ graph.validSteps then none
    else some { s with stepGraph := some (graph.stepped fails) }
  | .releaseCachedStepGraph => some { s with stepGraph := none }
  | .buildPredictor =>
    if groups ≤ 1 then none
    else some { s with predictor := some (s.predictor.getD ⟨groups, fun _ => false, 0⟩) }
  | .runPredictorPrefill => do
    let graph ← s.predictor
    some { s with predictor := some (graph.copied 2) }
  | .runPredictorStep group fails => do
    let graph ← s.predictor
    if group = 0 ∨ groups - 1 ≤ group ∨ graph.validSteps = 0 ∨ groups ≤ graph.validSteps then none
    else some { s with predictor := some (graph.stepped fails) }

/-- The cache that the graph of an event attends to. -/
def attended (s : Graphs) : Event → Option Cache
  | .runStep _ => s.stepGraph
  | .runPredictorStep _ _ => s.predictor
  | _ => none

/-- The predictor takes no step, or its prefill and one step fill its cache. -/
def FillsRows (groups : ℕ) (_ : Graphs) (event : Event) : Prop :=
  ∀ group fails, event = .runPredictorStep group fails → groups ≤ 3

/-- The step graph holds every row, and a predictor after its prefill two. -/
structure Clean (groups : ℕ) (s : Graphs) : Prop where
  stepGraph : ∀ graph, s.stepGraph = some graph → ∀ i, graph.held i = true
  predictor : ∀ graph, s.predictor = some graph → graph.cacheSteps = groups ∧
    (graph.validSteps = 0 ∨ 2 ≤ graph.validSteps ∧ ∀ i < 2, graph.held i = true)

variable {groups : ℕ} {s s' : Graphs} {event : Event} {cache : Cache}

theorem clean_step (h : Clean groups s) (hstep : step groups s event = some s') :
    Clean groups s' := by
  obtain ⟨hgraph, hpredictor⟩ := h
  cases event with
  | buildStepGraph cacheSteps =>
    obtain rfl := Option.some.inj hstep
    exact ⟨by rintro _ ⟨rfl⟩ _; rfl, hpredictor⟩
  | transferPrefillState steps =>
    obtain ⟨graph, heq, hrest⟩ := Option.bind_eq_some_iff.mp hstep
    split_ifs at hrest
    obtain rfl := Option.some.inj hrest
    exact ⟨by rintro _ ⟨rfl⟩ i; simp [Cache.copied, hgraph graph heq], hpredictor⟩
  | runStep fails =>
    obtain ⟨graph, heq, hrest⟩ := Option.bind_eq_some_iff.mp hstep
    split_ifs at hrest
    obtain rfl := Option.some.inj hrest
    refine ⟨?_, hpredictor⟩
    rintro _ ⟨rfl⟩ i
    cases fails <;> simp [Cache.stepped, Cache.read, hgraph graph heq]
  | releaseCachedStepGraph =>
    obtain rfl := Option.some.inj hstep
    exact ⟨nofun, hpredictor⟩
  | buildPredictor =>
    simp only [step] at hstep
    split_ifs at hstep
    obtain rfl := Option.some.inj hstep
    refine ⟨hgraph, ?_⟩
    rintro _ ⟨rfl⟩
    cases hold : s.predictor with
    | none => exact ⟨rfl, .inl rfl⟩
    | some old => exact hpredictor old hold
  | runPredictorPrefill =>
    obtain ⟨graph, heq, hrest⟩ := Option.bind_eq_some_iff.mp hstep
    obtain rfl := Option.some.inj hrest
    refine ⟨hgraph, ?_⟩
    rintro _ ⟨rfl⟩
    exact ⟨(hpredictor graph heq).1, .inr ⟨Nat.le_refl _, fun i hi => by
      simp only [Cache.copied, decide_eq_true hi, Bool.true_or]⟩⟩
  | runPredictorStep group fails =>
    obtain ⟨graph, heq, hrest⟩ := Option.bind_eq_some_iff.mp hstep
    split_ifs at hrest with hguard
    obtain rfl := Option.some.inj hrest
    obtain ⟨hsize, hvalid⟩ := hpredictor graph heq
    refine ⟨hgraph, ?_⟩
    rintro _ ⟨rfl⟩
    refine ⟨by cases fails <;> exact hsize, .inr ?_⟩
    obtain ⟨hvalid, hfirst⟩ := hvalid.resolve_left (by omega)
    cases fails with
    | true => exact ⟨hvalid, hfirst⟩
    | false => exact ⟨Nat.le_succ_of_le hvalid, fun i hi => by
        simp [Cache.stepped, Cache.read, hfirst i hi]⟩

/-- No step reads garbage in a run whose predictor has no row to leave out. -/
theorem rows_held (hreach : Reaches (step groups) (FillsRows groups) ⟨none, none⟩ s)
    (hfills : FillsRows groups s event) (hstep : step groups s event = some s')
    (hcache : attended s event = some cache) :
    ∀ i < cache.cacheSteps, cache.read i = true := by
  have hclean : Clean groups s := hreach.invariant ⟨nofun, nofun⟩ fun _ _ _ h _ => clean_step h
  intro i hi
  rw [Cache.read, Bool.or_eq_true, decide_eq_true_iff]
  cases event with
  | runStep fails => exact .inr (hclean.stepGraph cache hcache i)
  | runPredictorStep group fails =>
    have hsmall := hfills group fails rfl
    obtain ⟨graph, heq, hrest⟩ := Option.bind_eq_some_iff.mp hstep
    obtain rfl : graph = cache := Option.some.inj (heq.symm.trans hcache)
    split_ifs at hrest with hguard
    obtain ⟨hsize, hvalid⟩ := hclean.predictor graph heq
    obtain ⟨hvalid, hfirst⟩ := hvalid.resolve_left (by omega)
    by_cases hslot : i = graph.validSteps
    · exact .inl hslot
    · exact .inr (hfirst i (by omega))
  | _ => cases hcache

theorem rows_held_three : ∃ s s' cache, Reaches (step 3) (FillsRows 3) ⟨none, none⟩ s ∧
    step 3 s (.runPredictorStep 1 false) = some s' ∧
      attended s (.runPredictorStep 1 false) = some cache ∧
        ∀ i < cache.cacheSteps, cache.read i = true :=
  have hfills : ∀ s event, FillsRows 3 s event := fun _ _ _ _ _ => Nat.le_refl 3
  have hreach := Reaches.next (a := .runPredictorPrefill)
    (.next (a := .buildPredictor) .start (hfills _ _) rfl) (hfills _ _) rfl
  ⟨_, _, _, hreach, rfl, rfl, rows_held hreach (hfills _ (.runPredictorStep 1 false)) rfl rfl⟩

/-- With four groups, the first step of the predictor reads the last row before it is written. -/
theorem predictor_reads_garbage : ¬ ∀ groups s event s' cache,
    Reaches (step groups) Always ⟨none, none⟩ s → step groups s event = some s' →
      attended s event = some cache → ∀ i < cache.cacheSteps, cache.read i = true := by
  intro h
  have hreach : Reaches (step 4) Always ⟨none, none⟩ _ := .next (a := .runPredictorPrefill)
    (.next (a := .buildPredictor) .start trivial rfl) trivial rfl
  cases h 4 _ (.runPredictorStep 1 false) _ _ hreach rfl rfl 3 (by decide)

end FastTts.TalkerRows
