import FastTts.KvCache
import FastTts.Ring
import Mathlib

/-!
# Decoding with a bounded static cache

`BoundedStaticKVDecodeCursor` chooses the slot of the next step: the first free one, and once the
cache is full the absolute position modulo the number of slots. Rows are imported oldest first,
whatever the position of the oldest, so that the two choices agree only if that position is a
multiple of the number of slots. The number of slots is a power of two, or the window.
-/

namespace FastTts.BoundedKv

open Kv FastTts.Ring

/-! ## The cursor -/

structure Step where
  position : ℤ
  validSteps : ℤ
  cacheSteps : ℤ
  cacheSlot : ℤ
  deriving DecidableEq, Repr

structure Cursor where
  validSteps : ℤ
  absoluteEnd : ℤ
  cacheSteps : ℤ
  deriving DecidableEq, Repr

def positiveCacheSteps : Exception :=
  bytes "BoundedStaticKVDecodeCursor requires positive cache_steps"

variable {K V : Type}

def Cursor.importState (state : TransformerKVState K V) (cacheSteps : ℤ) :
    Except Exception Cursor :=
  if cacheSteps ≤ 0 then .error positiveCacheSteps
  else if cacheSteps < state.steps then
    .error (bytes "BoundedStaticKVDecodeCursor state exceeds cache capacity")
  else if state.layers.any fun layer => layer.validSteps ≠ state.steps then
    .error (bytes "BoundedStaticKVDecodeCursor requires consistent per-layer valid_steps")
  else .ok ⟨state.steps, state.currentEnd, cacheSteps⟩

def Cursor.resetToEmpty (cacheSteps : ℤ) : Except Exception Cursor :=
  if cacheSteps ≤ 0 then .error positiveCacheSteps else .ok ⟨0, 0, cacheSteps⟩

def Cursor.nextStep (cursor : Cursor) : Except Exception Step :=
  if cursor.cacheSteps ≤ 0 then
    .error (bytes "BoundedStaticKVDecodeCursor requires imported state before decode")
  else .ok ⟨cursor.absoluteEnd, cursor.validSteps, cursor.cacheSteps,
    if cursor.validSteps < cursor.cacheSteps then cursor.validSteps
    else cursor.absoluteEnd.tmod cursor.cacheSteps⟩

def Cursor.advanceAfterDirectAppend (cursor : Cursor) (steps : ℤ) : Except Exception Cursor :=
  if steps ≤ 0 then .ok cursor
  else if cursor.cacheSteps ≤ 0 then
    .error (bytes "BoundedStaticKVDecodeCursor requires imported state before advance")
  else .ok { cursor with
    validSteps := if cursor.validSteps < cursor.cacheSteps then
        min cursor.cacheSteps (cursor.validSteps + steps)
      else cursor.validSteps
    absoluteEnd := cursor.absoluteEnd + steps }

def shouldAdvanceGraphCache (step : Step) : Bool := decide (step.validSteps < step.cacheSteps)

def advancedGraph (graph : TransformerKVCache K V) (before : Step) (steps : ℤ) :
    Except Exception (TransformerKVCache K V) :=
  if shouldAdvanceGraphCache before then graph.advanceAfterDirectAppend steps else .ok graph

/-! ## The size of the cache -/

section Size

structure BoundedStaticKVDecodeConfig where
  slidingWindow : ℤ
  minCacheSteps : ℤ
  label : Bytes
  deriving DecidableEq

/-- The loop, for a number of rounds; nothing if they run out or the bucket leaves 64 bits. -/
def doubledBucket (target window : ℤ) : ℕ → ℤ → Option ℤ
  | 0, _ => none
  | rounds + 1, bucket =>
    if bucket < target ∧ bucket < window then
      if bucket * 2 < 2 ^ 63 then doubledBucket target window rounds (bucket * 2) else none
    else some bucket

variable (config : BoundedStaticKVDecodeConfig) (requiredSteps : ℤ)

def targetSteps : ℤ :=
  max (min (max requiredSteps 1) config.slidingWindow)
    (min config.minCacheSteps config.slidingWindow)

/-- A bucket that starts at one has left 64 bits after 63 rounds. -/
def boundedStaticKvCacheStepsForRequired : Except Exception (Option ℤ) :=
  if config.slidingWindow ≤ 0 then
    .error (config.label ++ bytes " requires a positive sliding_window")
  else if config.minCacheSteps ≤ 0 then
    .error (config.label ++ bytes " requires a positive min_cache_steps")
  else .ok ((doubledBucket (targetSteps config requiredSteps) config.slidingWindow 64 1).map
    (min · config.slidingWindow))

theorem doubledBucket_eq {target : ℕ} {window : ℤ} (hwindow : target ≤ window)
    (hfit : target ≤ 2 ^ 62) (rounds k : ℕ) (hk : k ≤ Nat.clog 2 target)
    (hrounds : Nat.clog 2 target < k + rounds) :
    doubledBucket target window rounds (2 ^ k) = some (2 ^ Nat.clog 2 target) := by
  induction rounds generalizing k with
  | zero => omega
  | succ rounds ih =>
    rw [doubledBucket]
    rcases lt_or_ge (2 ^ k) target with hlt | hge
    · have hclog : k + 1 ≤ Nat.clog 2 target := (Nat.lt_clog_iff_pow_lt Nat.one_lt_two).mpr hlt
      have hlt' : (2 ^ k : ℤ) < target := by exact_mod_cast hlt
      rw [if_pos ⟨hlt', hlt'.trans_le hwindow⟩, if_pos (by omega), ← pow_succ]
      exact ih (k + 1) hclog (by omega)
    · have hclog : Nat.clog 2 target ≤ k := Nat.clog_le_of_le_pow hge
      have hge' : (target : ℤ) ≤ 2 ^ k := by exact_mod_cast hge
      rw [if_neg fun h => h.1.not_ge hge', hk.antisymm hclog]

theorem targetSteps_mono (config : BoundedStaticKVDecodeConfig) : Monotone (targetSteps config) :=
  fun _ _ h => max_le_max (min_le_min (max_le_max h le_rfl) le_rfl) le_rfl

theorem targetSteps_bounds (hwindow : 0 < config.slidingWindow) (hmin : 0 < config.minCacheSteps) :
    0 < targetSteps config requiredSteps ∧
      targetSteps config requiredSteps ≤ config.slidingWindow ∧
        min (max requiredSteps 1) config.slidingWindow ≤ targetSteps config requiredSteps ∧
          targetSteps config requiredSteps ≤ max requiredSteps config.minCacheSteps := by
  unfold targetSteps
  omega

theorem le_two_pow_clog (n : ℤ) : n ≤ 2 ^ Nat.clog 2 n.toNat :=
  (Int.self_le_toNat n).trans (by exact_mod_cast Nat.le_pow_clog Nat.one_lt_two _)

variable {config}

section

variable (hwindow : 0 < config.slidingWindow) (hfit : config.slidingWindow ≤ 2 ^ 62)
  (hmin : 0 < config.minCacheSteps)

include hwindow hfit hmin

theorem cacheSteps_eq :
    boundedStaticKvCacheStepsForRequired config requiredSteps = .ok (some (min
      (2 ^ Nat.clog 2 (targetSteps config requiredSteps).toNat) config.slidingWindow)) := by
  obtain ⟨hpos, hle, -, -⟩ := targetSteps_bounds config requiredSteps hwindow hmin
  obtain ⟨target, htarget⟩ := Int.eq_ofNat_of_zero_le hpos.le
  have hfits : target ≤ 2 ^ 62 := by omega
  have hbucket := doubledBucket_eq (htarget ▸ hle) hfits 64 0 (Nat.zero_le _)
    (Nat.lt_succ_of_le ((Nat.clog_le_of_le_pow hfits).trans (by decide)))
  rw [pow_zero] at hbucket
  rw [boundedStaticKvCacheStepsForRequired, if_neg (by omega), if_neg (by omega), htarget,
    hbucket, Int.toNat_natCast]
  rfl

/-- The bucket is the least power of two that holds the target, or the window. -/
theorem cacheSteps_bucket :
    ∃ steps : ℤ → ℤ, Monotone steps ∧ ∀ requiredSteps,
      boundedStaticKvCacheStepsForRequired config requiredSteps = .ok (some (steps requiredSteps)) ∧
        min (max requiredSteps 1) config.slidingWindow ≤ steps requiredSteps ∧
          steps requiredSteps ≤ config.slidingWindow ∧
            ((∃ k, steps requiredSteps = 2 ^ k) ∨ steps requiredSteps = config.slidingWindow) ∧
              steps requiredSteps < 2 * max requiredSteps config.minCacheSteps := by
  refine ⟨_, ?_, fun requiredSteps => ⟨cacheSteps_eq requiredSteps hwindow hfit hmin, ?_⟩⟩
  · intro first second h
    have hexponent := Nat.clog_mono_right 2 (Int.toNat_le_toNat (targetSteps_mono config h))
    exact min_le_min (pow_le_pow_right₀ one_le_two hexponent) le_rfl
  · obtain ⟨hpos, hle, hlower, hupper⟩ := targetSteps_bounds config requiredSteps hwindow hmin
    obtain ⟨target, htarget⟩ := Int.eq_ofNat_of_zero_le hpos.le
    have hholds : (target : ℤ) ≤ 2 ^ Nat.clog 2 target := le_two_pow_clog target
    have hsmall : (2 ^ Nat.clog 2 target : ℤ) < 2 * target := by
      rcases Nat.lt_or_ge 1 target with hone | hone
      · have hpred : 2 ^ (Nat.clog 2 target - 1) < target :=
          Nat.pow_pred_clog_lt_self Nat.one_lt_two hone
        have hclogPos : 0 < Nat.clog 2 target := Nat.clog_pos Nat.one_lt_two hone
        have hdouble : 2 ^ Nat.clog 2 target = 2 ^ (Nat.clog 2 target - 1) * 2 := by
          rw [← pow_succ, Nat.sub_add_cancel hclogPos]
        exact_mod_cast (by omega : 2 ^ Nat.clog 2 target < 2 * target)
      · rw [Nat.clog_of_right_le_one hone]
        omega
    simp only [htarget, Int.toNat_natCast]
    refine ⟨by omega, min_le_right _ _, ?_, by omega⟩
    rcases min_choice (2 ^ Nat.clog 2 target : ℤ) config.slidingWindow with h | h
    · exact .inl ⟨_, h⟩
    · exact .inr h

end

def smallWindow : BoundedStaticKVDecodeConfig := ⟨300, 4, []⟩

theorem cacheSteps_bucket_five :
    0 < smallWindow.slidingWindow ∧ smallWindow.slidingWindow ≤ 2 ^ 62 ∧
      0 < smallWindow.minCacheSteps ∧ ∃ steps : ℤ → ℤ, Monotone steps ∧
        boundedStaticKvCacheStepsForRequired smallWindow 5 = .ok (some (steps 5)) ∧
          steps 5 < 2 * max 5 4 :=
  have ⟨steps, hmono, hsteps⟩ := cacheSteps_bucket (by decide : 0 < smallWindow.slidingWindow)
    (by decide) (by decide)
  ⟨by decide, by decide, by decide, steps, hmono, (hsteps 5).1, (hsteps 5).2.2.2.2⟩

end Size

/-! ## The runtime -/

/-- The cache stands for the graph that computes with it. -/
structure Runtime (K V : Type) where
  label : Bytes
  cursor : Cursor
  graph : Option (TransformerKVCache K V)

def Runtime.importState [Inhabited K] [Inhabited V] (r : Runtime K V)
    (state : TransformerKVState K V) : Except Exception (Runtime K V) :=
  match r.graph with
  | none => .error (r.label ++ bytes " requires a graph before importing KV state")
  | some graph => do
    let graph ← graph.importState state
    let cursor ← Cursor.importState state graph.cacheSteps
    return { r with cursor := cursor, graph := some graph }

/-- The graph forgets its rows without clearing them. -/
def Runtime.resetToEmptyCache (r : Runtime K V) : Except Exception (Runtime K V) :=
  match r.graph with
  | none => .error (r.label ++ bytes " requires a graph before reset")
  | some graph => do
    let graph ← graph.retainPrefix 0
    let cursor ← Cursor.resetToEmpty graph.cacheSteps
    return { r with cursor := cursor, graph := some graph }

def Runtime.nextStep (r : Runtime K V) : Except Exception Step :=
  match r.graph with
  | none => .error (r.label ++ bytes " requires an initialized graph before decode")
  | some _ => r.cursor.nextStep

def Runtime.advanceAfterDirectAppend (r : Runtime K V) (steps : ℤ) :
    Except Exception (Runtime K V) :=
  match r.graph with
  | none => .error (r.label ++ bytes " requires an initialized graph before cache advance")
  | some graph => do
    let before ← r.cursor.nextStep
    let graph ← advancedGraph graph before steps
    let cursor ← r.cursor.advanceAfterDirectAppend steps
    return { r with cursor := cursor, graph := some graph }

/-! ## Rounds -/

/-- The absolute position that a row belongs to; `none` is a row of zeros. -/
abbrev Row : Type := Option ℕ

def written (cache : TransformerKVCache Row Row) (step : Step) : TransformerKVCache Row Row :=
  { cache with layers := cache.layers.map fun layer =>
    ⟨layer.keyTensor.set step.cacheSlot.toNat (some step.position.toNat),
      layer.valueTensor.set step.cacheSlot.toNat (some step.position.toNat)⟩ }

/-- The graph writes the rows of the step into its slot, and the step is counted. -/
def Runtime.decodeRound (r : Runtime Row Row) : Except Exception (Runtime Row Row) := do
  let step ← r.nextStep
  { r with graph := r.graph.map (written · step) }.advanceAfterDirectAppend 1

def Runtime.rounds (r : Runtime Row Row) : ℕ → Except Exception (Runtime Row Row)
  | 0 => .ok r
  | count + 1 => do
    let r ← r.rounds count
    r.decodeRound

/-- The rows of `count` positions, from `first` on. -/
def rowsFrom (first count : ℕ) : List Row := (List.range count).map fun i => some (first + i)

/-- The first `count` slots hold the last `count` positions before `stop`, each in one slot. -/
def SlotsHold (r : Runtime Row Row) (stop count : ℕ) : Prop :=
  ∃ graph, r.graph = some graph ∧ ∀ layer ∈ graph.layers,
    (layer.keyTensor.take count).Perm (rowsFrom (stop - count) count) ∧
      (layer.valueTensor.take count).Perm (rowsFrom (stop - count) count)

/-- If the cache is full, the next step's slot is that of the oldest position. -/
def OverwritesOldest (r : Runtime Row Row) (stop : ℕ) : Prop :=
  ∃ graph step, r.graph = some graph ∧ r.nextStep = .ok step ∧
    (step.validSteps = step.cacheSteps → ∀ layer ∈ graph.layers,
      layer.keyTensor[step.cacheSlot.toNat]? = some (some (stop - step.cacheSteps.toNat)) ∧
        layer.valueTensor[step.cacheSlot.toNat]? = some (some (stop - step.cacheSteps.toNat)))

/-- Cursor, graph and slots agree on what has been decoded. -/
structure Ready (r : Runtime Row Row) (n base count stop : ℕ) (graph : TransformerKVCache Row Row) :
    Prop where
  graph_eq : r.graph = some graph
  cursor : r.cursor = ⟨count, stop, n⟩
  cacheSteps : graph.cacheSteps = n
  validSteps : graph.validSteps = count
  keys : ∀ layer ∈ graph.layers, Placed some n base count stop layer.keyTensor
  values : ∀ layer ∈ graph.layers, Placed some n base count stop layer.valueTensor
  nonempty : graph.layers ≠ []

section Rounds

variable {r : Runtime Row Row} {n base count stop : ℕ} {graph : TransformerKVCache Row Row}

/-- The slot that the cursor chooses. -/
def slotOf (n count stop : ℕ) : ℕ := if count < n then count else stop % n

theorem nextStep_ready (hn : 0 < n) (h : Ready r n base count stop graph) :
    r.nextStep = .ok ⟨stop, count, n, slotOf n count stop⟩ := by
  have hpos : ¬ (n : ℤ) ≤ 0 := by omega
  rw [Runtime.nextStep, h.graph_eq, h.cursor]
  simp only [Cursor.nextStep, if_neg hpos, slotOf]
  by_cases hcount : count < n
  · have hcast : (count : ℤ) < n := by exact_mod_cast hcount
    rw [if_pos hcount, if_pos hcast]
  · have hcast : ¬ (count : ℤ) < n := by exact_mod_cast hcount
    rw [if_neg hcount, if_neg hcast]
    rfl

theorem count_le (h : Ready r n base count stop graph) : count ≤ n := by
  obtain ⟨layer, hlayer⟩ := List.exists_mem_of_ne_nil _ h.nonempty
  exact (h.keys layer hlayer).count_le

def stepped (graph : TransformerKVCache Row Row) (n count stop : ℕ) : TransformerKVCache Row Row :=
  { graph with
    validSteps := (min (count + 1) n : ℕ)
    currentEnd := if count < n then graph.currentEnd + 1 else graph.currentEnd
    layers := graph.layers.map fun layer =>
      ⟨layer.keyTensor.set (slotOf n count stop) (some stop),
        layer.valueTensor.set (slotOf n count stop) (some stop)⟩ }

theorem cursor_advanced (hn : 0 < n) (hle : count ≤ n) :
    Cursor.advanceAfterDirectAppend ⟨count, stop, n⟩ 1 =
      .ok ⟨(min (count + 1) n : ℕ), (stop + 1 : ℕ), n⟩ := by
  have hpos : ¬ (n : ℤ) ≤ 0 := by omega
  have hvalid : (if (count : ℤ) < n then min (n : ℤ) (count + 1) else count) =
      ((min (count + 1) n : ℕ) : ℤ) := by
    split_ifs <;> omega
  rw [Cursor.advanceAfterDirectAppend, if_neg (by decide)]
  simp only [if_neg hpos, hvalid]
  rfl

theorem graph_advanced (h : Ready r n base count stop graph) :
    advancedGraph (written graph ⟨stop, count, n, slotOf n count stop⟩)
      ⟨stop, count, n, slotOf n count stop⟩ 1 = .ok (stepped graph n count stop) := by
  have hle := count_le h
  simp only [advancedGraph, shouldAdvanceGraphCache, decide_eq_true_eq, Int.ofNat_lt]
  by_cases hcount : count < n
  · have hroom : ¬ (n : ℤ) < (count : ℤ) + 1 := by omega
    have hmin : min (count + 1) n = count + 1 := by omega
    rw [if_pos hcount, TransformerKVCache.advanceAfterDirectAppend, if_neg (by decide), stepped,
      if_pos hcount, hmin]
    simp only [written, h.cacheSteps, h.validSteps, if_neg hroom]
    rfl
  · have hmin : min (count + 1) n = count := by omega
    rw [if_neg hcount, stepped, if_neg hcount, hmin, ← h.validSteps]
    rfl

theorem decodeRound_ready (hn : 0 < n) (h : Ready r n base count stop graph) :
    r.decodeRound = .ok { r with
      cursor := ⟨(min (count + 1) n : ℕ), (stop + 1 : ℕ), n⟩
      graph := some (stepped graph n count stop) } := by
  have hnext := nextStep_ready hn h
  have hcursor : r.cursor.nextStep = .ok ⟨stop, count, n, slotOf n count stop⟩ := by
    rw [Runtime.nextStep, h.graph_eq] at hnext
    exact hnext
  rw [Runtime.decodeRound, hnext]
  change Runtime.advanceAfterDirectAppend { r with graph := r.graph.map _ } 1 = _
  rw [h.graph_eq, Option.map_some, Runtime.advanceAfterDirectAppend]
  simp only [hcursor]
  change (advancedGraph (written graph ⟨stop, count, n, slotOf n count stop⟩)
    ⟨stop, count, n, slotOf n count stop⟩ 1 >>= fun graph =>
      r.cursor.advanceAfterDirectAppend 1 >>= fun cursor =>
        Except.ok { r with cursor := cursor, graph := some graph }) = _
  rw [graph_advanced h, h.cursor, cursor_advanced hn (count_le h)]
  rfl

/-- The chosen slot is that of the ring, if the cache is not full or the ring starts at a multiple
of its size. -/
theorem slotOf_ring (hle : count ≤ n) (hbase : base + count ≤ stop)
    (hfilling : count < n → stop = base + count) (hchoice : count < n ∨ base % n = 0) :
    slotOf n count stop = (stop - base) % n := by
  rw [slotOf]
  by_cases hcount : count < n
  · have hfree : stop - base = count := by
      have hstop := hfilling hcount
      omega
    rw [if_pos hcount, hfree, Nat.mod_eq_of_lt hcount]
  · have hmultiple : base % n = 0 := hchoice.resolve_left hcount
    rw [if_neg hcount]
    have hsum : (stop - base + base) % n = (stop - base) % n := by
      rw [Nat.add_mod, hmultiple, Nat.add_zero, Nat.mod_mod]
    rw [← hsum, Nat.sub_add_cancel (by omega)]

theorem decodeRound_ok (hn : 0 < n) (h : Ready r n base count stop graph)
    (hchoice : count < n ∨ base % n = 0) :
    ∃ r', r.decodeRound = .ok r' ∧
      Ready r' n base (min (count + 1) n) (stop + 1) (stepped graph n count stop) := by
  refine ⟨_, decodeRound_ready hn h, rfl, rfl, h.cacheSteps, rfl, ?_, ?_, ?_⟩
  · intro layer hlayer
    obtain ⟨before, hbefore, rfl⟩ := List.mem_map.mp hlayer
    have hplaced := h.keys before hbefore
    rw [slotOf_ring hplaced.count_le hplaced.base_le hplaced.filling hchoice]
    exact hplaced.push hn
  · intro layer hlayer
    obtain ⟨before, hbefore, rfl⟩ := List.mem_map.mp hlayer
    have hplaced := h.values before hbefore
    rw [slotOf_ring hplaced.count_le hplaced.base_le hplaced.filling hchoice]
    exact hplaced.push hn
  · intro hnil
    exact h.nonempty (List.map_eq_nil_iff.mp hnil)

theorem slotsHold_ready (h : Ready r n base count stop graph) : SlotsHold r stop count :=
  ⟨graph, h.graph_eq, fun layer hlayer =>
    ⟨(h.keys layer hlayer).perm, (h.values layer hlayer).perm⟩⟩

theorem overwritesOldest_ready (hn : 0 < n) (h : Ready r n base count stop graph)
    (hchoice : count < n ∨ base % n = 0) : OverwritesOldest r stop := by
  refine ⟨graph, _, h.graph_eq, nextStep_ready hn h, fun hfull layer hlayer => ?_⟩
  have hcount : count = n := Int.ofNat_inj.mp hfull
  have hkeys := h.keys layer hlayer
  have hbase := hkeys.base_le
  have hslot : slotOf n count stop = (stop - n - base) % n := by
    have hsum : stop - base = stop - n - base + n := by omega
    rw [slotOf_ring hkeys.count_le hbase hkeys.filling hchoice, hsum, Nat.add_mod_right]
  simp only [Int.toNat_natCast, hslot]
  exact ⟨hkeys.holds _ (by omega) (by omega),
    (h.values layer hlayer).holds _ (by omega) (by omega)⟩

theorem rounds_ready (hn : 0 < n) (h : Ready r n base count stop graph) (rounds : ℕ)
    (hchoice : count + rounds ≤ n ∨ base % n = 0) :
    ∃ r' graph', r.rounds rounds = .ok r' ∧
      Ready r' n base (min (count + rounds) n) (stop + rounds) graph' := by
  induction rounds with
  | zero =>
    have hmin : min (count + 0) n = count := Nat.min_eq_left (count_le h)
    refine ⟨r, graph, rfl, ?_⟩
    rw [hmin]
    exact h
  | succ rounds ih =>
    obtain ⟨r', graph', hrounds, hready⟩ := ih (hchoice.imp_left fun hle => by omega)
    have hnext : min (count + rounds) n < n ∨ base % n = 0 :=
      hchoice.imp_left fun hle => by omega
    obtain ⟨r'', hround, hready'⟩ := decodeRound_ok hn hready hnext
    refine ⟨r'', stepped graph' n (min (count + rounds) n) (stop + rounds), ?_, ?_⟩
    · rw [Runtime.rounds, hrounds]
      exact hround
    · have hmin : min (min (count + rounds) n + 1) n = min (count + (rounds + 1)) n := by omega
      rw [hmin] at hready'
      exact hready'

/-- The oldest position stays in slot zero although it is no longer among the last ones. -/
theorem not_slotsHold_wrapped (hn : 0 < n) (h : Ready r n base n stop graph)
    (hstop : stop = base + n) (hbase : base % n ≠ 0) :
    ∃ r', r.decodeRound = .ok r' ∧ ¬ SlotsHold r' (stop + 1) n := by
  refine ⟨_, decodeRound_ready hn h, ?_⟩
  rintro ⟨graph', hgraph', hslots⟩
  obtain rfl := Option.some.inj hgraph'
  obtain ⟨layer, hlayer⟩ := List.exists_mem_of_ne_nil _ h.nonempty
  have hplaced := h.keys layer hlayer
  have hzero : layer.keyTensor[0]? = some (some base) := by
    have hholds := hplaced.holds base (by omega) (by omega)
    rwa [Nat.sub_self, Nat.zero_mod] at hholds
  have hslot : slotOf n n stop ≠ 0 := by
    rw [slotOf, if_neg (Nat.lt_irrefl n), hstop, Nat.add_mod_right]
    exact hbase
  have hkept : (layer.keyTensor.set (slotOf n n stop) (some stop))[0]? = some (some base) := by
    rw [List.getElem?_set_ne hslot]
    exact hzero
  have hmem : some base ∈ (layer.keyTensor.set (slotOf n n stop) (some stop)).take n := by
    apply List.mem_of_getElem? (i := 0)
    rw [List.getElem?_take, if_pos hn]
    exact hkept
  have hperm := (hslots _ (List.mem_map_of_mem hlayer)).1
  have hlast := hperm.mem_iff.mp hmem
  obtain ⟨i, _, hi⟩ := List.mem_map.mp hlast
  have heq := Option.some.inj hi
  omega

end Rounds

/-! ## Starting -/

structure WellFormed (graph : TransformerKVCache Row Row) (n : ℕ) : Prop where
  positive : 0 < n
  cacheSteps : graph.cacheSteps = n
  validSteps : 0 ≤ graph.validSteps
  nonempty : graph.layers ≠ []
  keys : ∀ layer ∈ graph.layers, layer.keyTensor.length = n
  values : ∀ layer ∈ graph.layers, layer.valueTensor.length = n

/-- The state holds the rows of its positions, oldest first. -/
structure OldestFirst (state : TransformerKVState Row Row) (validSteps currentEnd : ℕ) : Prop where
  currentEnd_eq : state.currentEnd = currentEnd
  validSteps_le : validSteps ≤ currentEnd
  steps : ∀ layer ∈ state.layers, layer.validSteps = validSteps
  key : ∀ layer ∈ state.layers, layer.key = rowsFrom (currentEnd - validSteps) validSteps
  value : ∀ layer ∈ state.layers, layer.value = rowsFrom (currentEnd - validSteps) validSteps

theorem length_rowsFrom (first count : ℕ) : (rowsFrom first count).length = count := by
  rw [rowsFrom, List.length_map, List.length_range]

variable {v : ℕ}

theorem placed_padded {n stop : ℕ} (hv : v ≤ n) (hstop : v ≤ stop) :
    Placed some n (stop - v) v stop (padded (rowsFrom (stop - v) v) n) := by
  have hlen := length_rowsFrom (stop - v) v
  constructor
  · rw [padded, List.length_append, List.length_replicate, hlen, Int.toNat_natCast]
    omega
  · exact hv
  · omega
  · omega
  · intro p hfirst hlast
    have hindex : (p - (stop - v)) % n = p - (stop - v) := Nat.mod_eq_of_lt (by omega)
    have hin : p - (stop - v) < v := by omega
    have hsum : stop - v + (p - (stop - v)) = p := by omega
    rw [hindex, padded, List.getElem?_append_left (by omega), rowsFrom, List.getElem?_map,
      List.getElem?_range hin, Option.map_some, hsum]

section

variable {r : Runtime Row Row} {graph : TransformerKVCache Row Row} {n : ℕ}
  (hgraph : r.graph = some graph) (hwell : WellFormed graph n)
include hgraph hwell

theorem importState_ready {state : TransformerKVState Row Row} {stop : ℕ} (hv : v ≤ n)
    (hlayers : state.layers.length = graph.layers.length) (hstate : OldestFirst state v stop) :
    ∃ r₀ graph₀, r.importState state = .ok r₀ ∧ Ready r₀ n (stop - v) v stop graph₀ := by
  have hsome := List.length_pos_iff.mpr hwell.nonempty
  have hpos := hwell.positive
  have hfits : state.Fits v graph.layers.length graph.cacheSteps := by
    refine ⟨hlayers, hsome, ?_, ?_, ?_, ?_, hstate.steps⟩
    · intro layer hlayer
      rw [hstate.key layer hlayer, length_rowsFrom]
    · intro layer hlayer
      rw [hstate.value layer hlayer, length_rowsFrom]
    · rw [hwell.cacheSteps]
      exact_mod_cast hv
    · rw [hwell.cacheSteps]
      exact_mod_cast hpos
  have hcursor : Cursor.importState state graph.cacheSteps = .ok ⟨v, stop, n⟩ := by
    have hconsistent : ¬ (state.layers.any fun layer => layer.validSteps ≠ state.steps) = true := by
      rw [hfits.steps_eq]
      simpa using hstate.steps
    rw [Cursor.importState, if_neg (Int.not_le.mpr hfits.positive), hfits.steps_eq,
      if_neg (Int.not_lt.mpr hfits.room)]
    rw [hfits.steps_eq] at hconsistent
    rw [if_neg hconsistent, hstate.currentEnd_eq, hwell.cacheSteps]
  let imported : TransformerKVCache Row Row := ⟨graph.cacheSteps, v, state.currentEnd,
    state.layers.map fun layer =>
      ⟨padded layer.key graph.cacheSteps, padded layer.value graph.cacheSteps⟩⟩
  refine ⟨{ r with cursor := ⟨v, stop, n⟩, graph := some imported }, imported, ?_, ?_⟩
  · rw [Runtime.importState, hgraph]
    simp only [importState_ok hfits]
    change (Cursor.importState state graph.cacheSteps >>= fun cursor =>
      Except.ok { r with cursor := cursor, graph := some imported }) = _
    rw [hcursor]
    rfl
  · refine ⟨rfl, rfl, hwell.cacheSteps, rfl, ?_, ?_, ?_⟩
    · intro layer hlayer
      obtain ⟨source, hsource, rfl⟩ := List.mem_map.mp hlayer
      change Placed some n (stop - v) v stop (padded source.key graph.cacheSteps)
      rw [hstate.key source hsource, hwell.cacheSteps]
      exact placed_padded hv hstate.validSteps_le
    · intro layer hlayer
      obtain ⟨source, hsource, rfl⟩ := List.mem_map.mp hlayer
      change Placed some n (stop - v) v stop (padded source.value graph.cacheSteps)
      rw [hstate.value source hsource, hwell.cacheSteps]
      exact placed_padded hv hstate.validSteps_le
    · intro hnil
      rw [List.map_eq_nil_iff] at hnil
      rw [hnil] at hlayers
      exact absurd hlayers.symm (Nat.ne_of_gt hsome)

theorem resetToEmptyCache_ready :
    ∃ r₀ graph₀, r.resetToEmptyCache = .ok r₀ ∧ Ready r₀ n 0 0 0 graph₀ := by
  have hvalid := hwell.validSteps
  have hpos := hwell.positive
  have hretain : graph.retainPrefix 0 = .ok { graph with validSteps := 0, currentEnd := 0 } := by
    rw [TransformerKVCache.retainPrefix, if_neg]
    omega
  have hcursor : Cursor.resetToEmpty graph.cacheSteps = .ok ⟨0, 0, n⟩ := by
    rw [Cursor.resetToEmpty, hwell.cacheSteps, if_neg]
    omega
  refine ⟨{ r with
    cursor := ⟨0, 0, n⟩, graph := some { graph with validSteps := 0, currentEnd := 0 } },
    { graph with validSteps := 0, currentEnd := 0 }, ?_, rfl, rfl, hwell.cacheSteps, rfl, ?_, ?_,
    hwell.nonempty⟩
  · rw [Runtime.resetToEmptyCache, hgraph]
    simp only [hretain]
    change (Cursor.resetToEmpty graph.cacheSteps >>= _) = _
    rw [hcursor]
    rfl
  · intro layer hlayer
    exact ⟨hwell.keys layer hlayer, Nat.zero_le n, le_rfl, fun _ => rfl,
      fun p _ hp => absurd hp (Nat.not_lt_zero p)⟩
  · intro layer hlayer
    exact ⟨hwell.values layer hlayer, Nat.zero_le n, le_rfl, fun _ => rfl,
      fun p _ hp => absurd hp (Nat.not_lt_zero p)⟩

/-- The slots hold the last positions throughout the rounds after an import exactly if the cache
does not wrap in them or the oldest imported position is a multiple of the number of slots. -/
theorem slots_hold_iff :
    (∀ (state : TransformerKVState Row Row) (v stop rounds : ℕ), v ≤ n →
      state.layers.length = graph.layers.length → OldestFirst state v stop →
      ∃ r₀, r.importState state = .ok r₀ ∧
        ((∀ k ≤ rounds, ∃ r', r₀.rounds k = .ok r' ∧ SlotsHold r' (stop + k) (min (v + k) n)) ↔
          v + rounds ≤ n ∨ (stop - v) % n = 0) ∧
        (v + rounds ≤ n ∨ (stop - v) % n = 0 →
          ∀ k < rounds, ∃ r', r₀.rounds k = .ok r' ∧ OverwritesOldest r' (stop + k))) ∧
    ∃ r₀, r.resetToEmptyCache = .ok r₀ ∧ ∀ k, ∃ r', r₀.rounds k = .ok r' ∧
      SlotsHold r' k (min k n) ∧ OverwritesOldest r' k := by
  have hn := hwell.positive
  constructor
  · intro state v stop rounds hv hlayers hstate
    obtain ⟨r₀, graph₀, himport, hready⟩ := importState_ready hgraph hwell hv hlayers hstate
    refine ⟨r₀, himport, ⟨?_, ?_⟩, ?_⟩
    · intro hholds
      by_contra hneither
      rw [not_or] at hneither
      obtain ⟨full, graph', hrounds, hfull⟩ := rounds_ready hn hready (n - v) (.inl (by omega))
      have hmin : min (v + (n - v)) n = n := by omega
      rw [hmin] at hfull
      have hstop : stop + (n - v) = stop - v + n := by
        have hle := hstate.validSteps_le
        omega
      obtain ⟨wrapped, hround, hbroken⟩ := not_slotsHold_wrapped hn hfull hstop hneither.2
      obtain ⟨r', hrounds', hslots⟩ := hholds (n - v + 1) (by omega)
      rw [Runtime.rounds, hrounds] at hrounds'
      have hsame : wrapped = r' := Except.ok.inj (hround.symm.trans hrounds')
      have hmin' : min (v + (n - v + 1)) n = n := by omega
      rw [hmin', ← hsame, ← Nat.add_assoc] at hslots
      exact hbroken hslots
    · intro hchoice k hk
      obtain ⟨r', graph', hrounds, hready'⟩ :=
        rounds_ready hn hready k (hchoice.imp_left fun hle => by omega)
      exact ⟨r', hrounds, slotsHold_ready hready'⟩
    · intro hchoice k hk
      obtain ⟨r', graph', hrounds, hready'⟩ :=
        rounds_ready hn hready k (hchoice.imp_left fun hle => by omega)
      exact ⟨r', hrounds,
        overwritesOldest_ready hn hready' (hchoice.imp_left fun hle => by omega)⟩
  · obtain ⟨r₀, graph₀, hreset, hready⟩ := resetToEmptyCache_ready hgraph hwell
    refine ⟨r₀, hreset, fun k => ?_⟩
    obtain ⟨r', graph', hrounds, hready'⟩ := rounds_ready hn hready k (.inr (Nat.zero_mod n))
    rw [Nat.zero_add] at hready'
    exact ⟨r', hrounds, slotsHold_ready hready',
      overwritesOldest_ready hn hready' (.inr (Nat.zero_mod n))⟩

end

def fourSlots : TransformerKVCache Row Row :=
  ⟨4, 0, 0, [⟨List.replicate 4 none, List.replicate 4 none⟩]⟩

theorem fourSlots_wellFormed : WellFormed fourSlots 4 := by
  constructor
  · decide
  · rfl
  · decide
  · decide
  · decide
  · decide

def stateOf (v stop : ℕ) : TransformerKVState Row Row :=
  ⟨stop, [⟨v, rowsFrom (stop - v) v, rowsFrom (stop - v) v⟩]⟩

theorem stateOf_oldestFirst {stop : ℕ} (h : v ≤ stop) : OldestFirst (stateOf v stop) v stop := by
  refine ⟨rfl, h, ?_, ?_, ?_⟩ <;> simp [stateOf]

/-- Two positions and seven rounds: the cache wraps and goes on. -/
theorem slots_hold_iff_fourSlots :
    (∃ r₀, Runtime.importState ⟨[], ⟨0, 0, 0⟩, some fourSlots⟩ (stateOf 2 2) = .ok r₀ ∧
      ∀ k ≤ 7, ∃ r', r₀.rounds k = .ok r' ∧ SlotsHold r' (2 + k) (min (2 + k) 4)) ∧
    ∃ r₀, Runtime.resetToEmptyCache ⟨[], ⟨0, 0, 0⟩, some fourSlots⟩ = .ok r₀ ∧
      ∀ k, ∃ r', r₀.rounds k = .ok r' ∧ SlotsHold r' k (min k 4) ∧ OverwritesOldest r' k := by
  obtain ⟨himport, hreset⟩ :=
    slots_hold_iff (r := ⟨[], ⟨0, 0, 0⟩, some fourSlots⟩) rfl fourSlots_wellFormed
  obtain ⟨r₀, hr₀, hiff, _⟩ :=
    himport (stateOf 2 2) 2 2 7 (by decide) rfl (stateOf_oldestFirst le_rfl)
  exact ⟨⟨r₀, hr₀, hiff.mpr (.inr rfl)⟩, hreset⟩

/-- Positions two to five fill four slots; position six goes into slot two, over position four. -/
theorem full_import_overwrites_newer :
    ¬ ∀ (r : Runtime Row Row) (graph : TransformerKVCache Row Row) (n : ℕ)
      (state : TransformerKVState Row Row) (v stop rounds : ℕ) (r₀ r' : Runtime Row Row),
      r.graph = some graph → WellFormed graph n → v ≤ n →
      state.layers.length = graph.layers.length → OldestFirst state v stop →
      r.importState state = .ok r₀ → r₀.rounds rounds = .ok r' →
      SlotsHold r' (stop + rounds) (min (v + rounds) n) := by
  intro h
  obtain ⟨r₀, graph₀, himport, hready⟩ := importState_ready
    (r := ⟨[], ⟨0, 0, 0⟩, some fourSlots⟩) rfl fourSlots_wellFormed (le_refl 4) rfl
    (stateOf_oldestFirst (show 4 ≤ 6 by decide))
  obtain ⟨r', hround, hbroken⟩ := not_slotsHold_wrapped (by decide) hready rfl (by decide)
  exact hbroken (h _ fourSlots 4 (stateOf 4 6) 4 6 1 r₀ r' rfl fourSlots_wellFormed le_rfl rfl
    (stateOf_oldestFirst (by decide)) himport hround)

end FastTts.BoundedKv
