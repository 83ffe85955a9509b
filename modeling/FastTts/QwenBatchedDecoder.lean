import FastTts.QwenDecoder

/-!
# The stack over a batch

The tensors of a batch are those of its sequences one after the other. The positions and the slot
are the same for all of them, each has its own block of the cache and of the mask.
-/

namespace FastTts.Qwen

open Blocks Kv

variable {H Q K V : Type}

/-! ## Prefill -/

structure BatchedLayerTrace (K V : Type) where
  keys : List (ℤ × K)
  values : List V
  seen : List (List (List (Seen K V)))

def gather (traces : List (LayerTrace K V)) : BatchedLayerTrace K V :=
  ⟨(traces.map fun trace => trace.keys).flatten, (traces.map fun trace => trace.values).flatten,
    traces.map fun trace => trace.seen⟩

variable (layer : DecoderLayer H Q K V)

def DecoderLayer.buildBatched (batchSize steps : ℕ)
    (positions : List ℤ) (mask : List Mask) (hidden : List H) : BatchedLayerTrace K V × List H :=
  let outs := List.zipWith (fun mask hidden => layer.build positions mask hidden)
    (rowsOf (steps * steps) batchSize mask) (rowsOf steps batchSize hidden)
  (gather (outs.map Prod.fst), (outs.map Prod.snd).flatten)

def buildStackBatched : List (DecoderLayer H Q K V) → ℕ → ℕ → List ℤ → List Mask → List H →
    List (BatchedLayerTrace K V) × List H
  | [], _, _, _, _, hidden => ([], hidden)
  | layer :: layers, batchSize, steps, positions, mask, hidden =>
    let (trace, hidden) := layer.buildBatched batchSize steps positions mask hidden
    let (traces, hidden) := buildStackBatched layers batchSize steps positions mask hidden
    (trace :: traces, hidden)

/-! ## A decode step -/

/-- Each sequence has a slot of its own. -/
def DecoderLayer.buildWithStaticCacheTailBatched (position : ℤ)
    (slots : List ℕ) (cacheSteps : ℕ) (mask : List Mask) (cache : LayerCache (ℤ × K) V)
    (hidden : List H) : LayerCache (ℤ × K) V × List (List (Seen K V)) × List H :=
  let keys := setRows cache.keyTensor slots (hidden.map fun h => (position, layer.key h))
  let values := setRows cache.valueTensor slots (hidden.map layer.value)
  let columns := (rowsOf cacheSteps hidden.length keys).zip (rowsOf cacheSteps hidden.length values)
  let seen := List.zipWith (fun mask columns => seenThrough mask columns.1 columns.2)
    (rowsOf cacheSteps hidden.length mask) columns
  (⟨keys, values⟩, seen, List.zipWith (fun h seen => layer.attend position h seen) hidden seen)

def buildStaticCacheTailBatched : List (DecoderLayer H Q K V) → ℤ → List ℕ → ℕ → List Mask →
    List (LayerCache (ℤ × K) V) → List H →
    List (LayerCache (ℤ × K) V) × List (List (List (Seen K V))) × List H
  | layer :: layers, position, slots, cacheSteps, mask, cache :: caches, hidden =>
    let (cache, seen, hidden) :=
      layer.buildWithStaticCacheTailBatched position slots cacheSteps mask cache hidden
    let (caches, rest, hidden) :=
      buildStaticCacheTailBatched layers position slots cacheSteps mask caches hidden
    (cache :: caches, seen :: rest, hidden)
  | _, _, _, _, _, _, hidden => ([], [], hidden)

/-! ## The causal stacks of the sequences -/

@[grind =]
def causalStackRows : List (DecoderLayer H Q K V) → List (List H) →
    List (List (List (Seen K V))) × List (List H)
  | [], rows => ([], rows)
  | layer :: layers, rows =>
    let (rest, out) := causalStackRows layers (rows.map (causalLayer layer))
    (rows.map (causalTriples layer) :: rest, out)

section

variable (layers : List (DecoderLayer H Q K V)) (rows : List (List H))

theorem causalStackRows_take (n : ℕ) :
    causalStackRows layers (rows.map (List.take n)) =
      ((causalStackRows layers rows).1.map (List.map (List.take n)),
        (causalStackRows layers rows).2.map (List.take n)) := by
  induction layers generalizing rows with
  | nil => rfl
  | cons layer layers ih =>
    have hlayer : (rows.map (List.take n)).map (causalLayer layer) =
        (rows.map (causalLayer layer)).map (List.take n) := by
      rw [List.map_map, List.map_map]
      exact List.map_congr_left fun row _ => causalLayer_take layer row n
    have htriples : (rows.map (List.take n)).map (causalTriples layer) =
        (rows.map (causalTriples layer)).map (List.take n) := by
      rw [List.map_map, List.map_map]
      exact List.map_congr_left fun row _ => causalTriples_take layer row n
    rw [causalStackRows, causalStackRows, hlayer, ih, htriples]
    rfl

theorem causalStackRows_row (b : ℕ) :
    (causalStackRows layers rows).1.map (fun seen => seen.getD b []) =
        (causalStack layers (rows.getD b [])).1 ∧
      (causalStackRows layers rows).2.getD b [] = (causalStack layers (rows.getD b [])).2 := by
  induction layers generalizing rows with
  | nil => exact ⟨rfl, rfl⟩
  | cons layer layers ih =>
    obtain ⟨hseen, hout⟩ := ih (rows.map (causalLayer layer))
    have hlayer : (rows.map (causalLayer layer)).getD b [] = causalLayer layer (rows.getD b []) := by
      rw [List.getD_eq_getElem?_getD, List.getD_eq_getElem?_getD, List.getElem?_map]
      cases rows[b]? <;> rfl
    have htriples : (rows.map (causalTriples layer)).getD b [] =
        causalTriples layer (rows.getD b []) := by
      rw [List.getD_eq_getElem?_getD, List.getD_eq_getElem?_getD, List.getElem?_map]
      cases rows[b]? <;> rfl
    rw [hlayer] at hseen hout
    rw [causalStackRows, causalStack]
    refine ⟨?_, hout⟩
    rw [List.map_cons, hseen, htriples]

theorem length_causalStackRows : (causalStackRows layers rows).1.length = layers.length := by
  induction layers generalizing rows with
  | nil => rfl
  | cons layer layers ih => rw [causalStackRows, List.length_cons, List.length_cons, ih]

theorem length_causalStackRows_out : (causalStackRows layers rows).2.length = rows.length := by
  induction layers generalizing rows with
  | nil => rfl
  | cons layer layers ih =>
    rw [causalStackRows]
    exact (ih _).trans (List.length_map ..)

theorem rows_causalStackRows :
    ∀ seen ∈ (causalStackRows layers rows).1, seen.length = rows.length := by
  induction layers generalizing rows with
  | nil => exact fun seen hseen => absurd hseen List.not_mem_nil
  | cons layer layers ih =>
    intro seen hseen
    rw [causalStackRows] at hseen
    rcases List.mem_cons.mp hseen with rfl | hseen
    · exact List.length_map ..
    · have hrest := ih (rows.map (causalLayer layer)) seen hseen
      rw [List.length_map] at hrest
      exact hrest

end

/-! ## Prefill gives the causal states -/

variable {rows : List (List H)} {slots t : ℕ} {caches : List (LayerCache (ℤ × K) V)}
  {hidden : List H}

theorem buildBatched_rows {n : ℕ}
    (hrows : ∀ row ∈ rows, row.length = n) :
    layer.buildBatched rows.length n (ids n) (List.replicate rows.length (causalSquare n)).flatten
        rows.flatten = (gather (rows.map fun row => (layer.build (ids n) (causalSquare n) row).1),
        (rows.map fun row => (layer.build (ids n) (causalSquare n) row).2).flatten) := by
  have hmasks : rowsOf (n * n) rows.length (List.replicate rows.length (causalSquare n)).flatten =
      List.replicate rows.length (causalSquare n) := by
    have hlengths : ∀ mask ∈ List.replicate rows.length (causalSquare n), mask.length = n * n := by
      intro mask hmask
      rw [List.eq_of_mem_replicate hmask, length_causalSquare]
    have hback := rowsOf_flatten hlengths
    rw [List.length_replicate] at hback
    exact hback
  have houts : List.zipWith (fun mask hidden => layer.build (ids n) mask hidden)
      (List.replicate rows.length (causalSquare n)) rows =
      rows.map (layer.build (ids n) (causalSquare n)) := by
    clear hrows hmasks
    induction rows with
    | nil => rfl
    | cons row rows ih =>
      rw [List.length_cons, List.replicate_succ, List.zipWith_cons_cons, List.map_cons, ih]
  rw [DecoderLayer.buildBatched, hmasks, rowsOf_flatten hrows, houts]
  simp only [List.map_map]
  rfl

theorem buildStackBatched_causal (layers : List (DecoderLayer H Q K V)) {n : ℕ}
    (hrows : ∀ row ∈ rows, row.length = n) :
    ∃ traces, buildStackBatched layers rows.length n (ids n)
        (List.replicate rows.length (causalSquare n)).flatten rows.flatten =
        (traces.map gather, (causalStackRows layers rows).2.flatten) ∧
      List.Forall₂ (List.Forall₂ (LayerTrace.Causal n)) traces (causalStackRows layers rows).1 := by
  induction layers generalizing rows with
  | nil => exact ⟨[], rfl, .nil⟩
  | cons layer layers ih =>
    have hlayer : ∀ row ∈ rows.map (causalLayer layer), row.length = n := by
      intro row hrow
      obtain ⟨before, hbefore, rfl⟩ := List.mem_map.mp hrow
      exact (length_causalLayer layer before).trans (hrows before hbefore)
    have hout : rows.map (fun row => (layer.build (ids n) (causalSquare n) row).2) =
        rows.map (causalLayer layer) := by
      apply List.map_congr_left
      intro row hrow
      rw [← hrows row hrow, build_causal]
    obtain ⟨traces, hstack, htraces⟩ := ih hlayer
    rw [List.length_map] at hstack
    refine ⟨rows.map (fun row => (layer.build (ids n) (causalSquare n) row).1) :: traces, ?_, ?_⟩
    · rw [buildStackBatched, buildBatched_rows layer hrows, hout]
      dsimp only
      rw [hstack]
      rfl
    · rw [causalStackRows]
      refine .cons ?_ htraces
      rw [List.forall₂_map_left_iff, List.forall₂_map_right_iff, List.forall₂_same]
      intro row hrow
      rw [← hrows row hrow, build_causal]
      refine ⟨triples_prefill layer row, ?_, ?_, rfl⟩
      · simp [length_ids]
      · exact List.length_map ..

/-! ## A decode step gives the causal states -/

/-- The caches of the sequences, one after the other. -/
def join (caches : List (LayerCache (ℤ × K) V)) : LayerCache (ℤ × K) V :=
  ⟨(caches.map fun cache => cache.keyTensor).flatten,
    (caches.map fun cache => cache.valueTensor).flatten⟩

def stepSlots (batchSize cacheSteps slot : ℕ) : List ℕ :=
  (List.range batchSize).map fun b => b * cacheSteps + slot

theorem setRows_join {R : Type} (ht : t < slots) {f : LayerCache (ℤ × K) V → List R} {g : H → R}
    (hlength : caches.length = hidden.length)
    (hcaches : ∀ cache ∈ caches, (f cache).length = slots) :
    setRows (caches.map f).flatten (stepSlots hidden.length slots t) (hidden.map g) =
        (List.zipWith (fun cache h => (f cache).set t (g h)) caches hidden).flatten ∧
      rowsOf slots hidden.length
        (List.zipWith (fun cache h => (f cache).set t (g h)) caches hidden).flatten =
        List.zipWith (fun cache h => (f cache).set t (g h)) caches hidden := by
  have hrows : ∀ row ∈ caches.map f, row.length = slots := by
    intro row hrow
    obtain ⟨cache, hcache, rfl⟩ := List.mem_map.mp hrow
    exact hcaches cache hcache
  have hvalues : (hidden.map g).length = (caches.map f).length := by
    rw [List.length_map, List.length_map, hlength]
  have hset := setRows_flatten ht hrows hvalues
  rw [List.length_map, hlength, List.zipWith_map] at hset
  refine ⟨hset, ?_⟩
  have hwritten : ∀ row ∈ List.zipWith (fun cache h => (f cache).set t (g h)) caches hidden,
      row.length = slots := by
    intro row hrow
    obtain ⟨i, hi, rfl⟩ := List.getElem_of_mem hrow
    rw [List.getElem_zipWith, List.length_set]
    exact hcaches _ (List.getElem_mem _)
  have hback := rowsOf_flatten hwritten
  rw [List.length_zipWith, hlength, Nat.min_self] at hback
  exact hback

theorem buildWithStaticCacheTailBatched_rows (layer : DecoderLayer H Q K V) {position : ℤ}
    (ht : t < slots) {mask : List Mask} (hmask : mask.length = slots)
    (hlength : caches.length = hidden.length)
    (hkeys : ∀ cache ∈ caches, cache.keyTensor.length = slots)
    (hvalues : ∀ cache ∈ caches, cache.valueTensor.length = slots) :
    let outs := List.zipWith
      (fun cache h => layer.buildWithStaticCacheTail position t mask cache h) caches hidden
    layer.buildWithStaticCacheTailBatched position (stepSlots hidden.length slots t) slots
        (List.replicate hidden.length mask).flatten (join caches) hidden =
      (join (outs.map fun out => out.1), outs.map (fun out => out.2.1), outs.map fun out => out.2.2) := by
  intro outs
  have hmasks : rowsOf slots hidden.length (List.replicate hidden.length mask).flatten =
      List.replicate hidden.length mask := by
    have hlengths : ∀ row ∈ List.replicate hidden.length mask, row.length = slots := by
      intro row hrow
      rw [List.eq_of_mem_replicate hrow, hmask]
    have hback := rowsOf_flatten hlengths
    rw [List.length_replicate] at hback
    exact hback
  obtain ⟨hkeySet, hkeyRows⟩ := setRows_join (g := fun h => (position, layer.key h)) ht hlength hkeys
  obtain ⟨hvalueSet, hvalueRows⟩ := setRows_join (g := layer.value) ht hlength hvalues
  rw [DecoderLayer.buildWithStaticCacheTailBatched, join]
  simp only [hmasks, hkeySet, hkeyRows, hvalueSet, hvalueRows]
  have hseen : List.zipWith (fun mask columns => seenThrough mask columns.1 columns.2)
      (List.replicate hidden.length mask)
      ((List.zipWith (fun (cache : LayerCache (ℤ × K) V) h =>
          cache.keyTensor.set t (position, layer.key h)) caches hidden).zip
        (List.zipWith (fun cache h => cache.valueTensor.set t (layer.value h)) caches hidden)) =
      outs.map fun out => out.2.1 := by
    clear hkeys hvalues hmasks hkeySet hkeyRows hvalueSet hvalueRows
    induction caches generalizing hidden with
    | nil => cases hidden <;> rfl
    | cons cache caches ih =>
      cases hidden with
      | nil => cases hlength
      | cons h hidden =>
        have hrest := ih (Nat.succ.inj hlength)
        simp only [outs, List.zip] at hrest ⊢
        rw [List.length_cons, List.replicate_succ, List.zipWith_cons_cons, List.zipWith_cons_cons,
          List.zipWith_cons_cons, List.zipWith_cons_cons, List.zipWith_cons_cons, List.map_cons,
          hrest]
        rfl
  have hjoin : (⟨(List.zipWith (fun (cache : LayerCache (ℤ × K) V) h =>
        cache.keyTensor.set t (position, layer.key h)) caches hidden).flatten,
      (List.zipWith (fun (cache : LayerCache (ℤ × K) V) h =>
        cache.valueTensor.set t (layer.value h)) caches hidden).flatten⟩ : LayerCache (ℤ × K) V) =
      join (outs.map fun out => out.1) := by
    rw [join, List.map_map, List.map_map, List.map_zipWith, List.map_zipWith]
    rfl
  have hout : List.zipWith (fun h seen => layer.attend position h seen) hidden
      (outs.map fun out => out.2.1) = outs.map fun out => out.2.2 := by
    clear hseen hjoin hkeys hvalues hmasks hkeySet hkeyRows hvalueSet hvalueRows
    induction caches generalizing hidden with
    | nil => cases hidden <;> rfl
    | cons cache caches ih =>
      cases hidden with
      | nil => cases hlength
      | cons h hidden =>
        have hrest := ih (Nat.succ.inj hlength)
        simp only [outs] at hrest ⊢
        rw [List.zipWith_cons_cons, List.map_cons, List.zipWith_cons_cons, hrest, List.map_cons]
        rfl
  rw [hseen, hjoin, hout]

/-- The caches of the sequences hold their first rows. -/
structure HoldsRows (slots count : ℕ) (cache : LayerCache (ℤ × K) V)
    (seen : List (List (Seen K V))) : Prop where
  caches : ∃ caches, cache = join caches ∧ List.Forall₂ (Holds slots count) caches seen

theorem tails_causal (hslots : t < slots)
    (ht : List.Forall₂ (fun row h => row[t]? = some h) rows hidden)
    (hcaches : List.Forall₂ (fun cache row => Holds slots t cache (causalTriples layer row))
      caches rows) :
    let outs := List.zipWith (fun cache h =>
      layer.buildWithStaticCacheTail t t (shownRow slots (t + 1)) cache h) caches hidden
    outs.map (fun out => out.2.1) = (rows.map (causalTriples layer)).map (List.take (t + 1)) ∧
      List.Forall₂ (Holds slots (t + 1)) (outs.map fun out => out.1)
        (rows.map (causalTriples layer)) ∧
      List.Forall₂ (fun row h => row[t]? = some h) (rows.map (causalLayer layer))
        (outs.map fun out => out.2.2) := by
  intro outs
  induction hcaches generalizing hidden with
  | nil => exact ⟨by cases ht; rfl, .nil, .nil⟩
  | @cons cache row caches rows hcache _ ih =>
    cases ht with
    | @cons _ h _ hidden hrow hrest =>
      obtain ⟨hseen, hholds, hnext⟩ := ih hrest
      obtain ⟨hout, hstep⟩ := buildWithStaticCacheTail_causal layer hrow hslots hcache
      have hfirst : (causalLayer layer row)[t]? = some
          (layer.buildWithStaticCacheTail t t (shownRow slots (t + 1)) cache h).2.2 := by
        rw [hout, causalLayer, List.getElem?_mapIdx, hrow]
        rfl
      refine ⟨?_, .cons hstep hholds, .cons hfirst hnext⟩
      rw [List.map_cons, List.map_cons, ← hseen]
      simp only [outs, List.zipWith_cons_cons, List.map_cons, hout]

theorem buildWithStaticCacheTailBatched_causal (hslots : t < slots)
    {cache : LayerCache (ℤ × K) V} (ht : List.Forall₂ (fun row h => row[t]? = some h) rows hidden)
    (hcache : HoldsRows slots t cache (rows.map (causalTriples layer))) :
    ∃ cache' hidden', layer.buildWithStaticCacheTailBatched t (stepSlots hidden.length slots t) slots
        (List.replicate hidden.length (shownRow slots (t + 1))).flatten cache hidden =
        (cache', (rows.map (causalTriples layer)).map (List.take (t + 1)), hidden') ∧
      HoldsRows slots (t + 1) cache' (rows.map (causalTriples layer)) ∧
      List.Forall₂ (fun row h => row[t]? = some h) (rows.map (causalLayer layer)) hidden' := by
  obtain ⟨caches, rfl, hholds⟩ := hcache.caches
  have hlength : caches.length = hidden.length := by
    rw [hholds.length_eq, List.length_map, ht.length_eq]
  have hsizes : ∀ cache ∈ caches, cache.keyTensor.length = slots ∧
      cache.valueTensor.length = slots := by
    intro cache hcache
    obtain ⟨seen, _, hseen⟩ := exists_of_forall₂ hholds cache hcache
    exact ⟨hseen.keys, hseen.values⟩
  rw [List.forall₂_map_right_iff] at hholds
  obtain ⟨hseen, hnext, hout⟩ := tails_causal layer hslots ht hholds
  rw [buildWithStaticCacheTailBatched_rows layer hslots (length_shownRow hslots) hlength
    (fun cache hcache => (hsizes cache hcache).1) (fun cache hcache => (hsizes cache hcache).2)]
  exact ⟨_, _, Prod.ext rfl (Prod.ext hseen rfl), ⟨_, rfl, hnext⟩, hout⟩

theorem length_buildStaticCacheTailBatched (layers : List (DecoderLayer H Q K V)) (position : ℤ)
    (slots : List ℕ) (cacheSteps : ℕ) (mask : List Mask) (hidden : List H)
    (h : caches.length = layers.length) :
    (buildStaticCacheTailBatched layers position slots cacheSteps mask caches hidden).1.length =
      layers.length := by
  induction layers generalizing caches hidden with
  | nil => rfl
  | cons layer layers ih =>
    cases caches with
    | nil => cases h
    | cons cache caches =>
      rw [buildStaticCacheTailBatched, List.length_cons, List.length_cons]
      exact congrArg (· + 1) (ih _ (Nat.succ.inj h))

theorem buildStaticCacheTailBatched_causal (layers : List (DecoderLayer H Q K V))
    (hslots : t < slots) (ht : List.Forall₂ (fun row h => row[t]? = some h) rows hidden)
    (hcaches : List.Forall₂ (HoldsRows slots t) caches (causalStackRows layers rows).1) :
    ∃ caches' hidden', buildStaticCacheTailBatched layers t (stepSlots hidden.length slots t) slots
        (List.replicate hidden.length (shownRow slots (t + 1))).flatten caches hidden =
        (caches', (causalStackRows layers rows).1.map (List.map (List.take (t + 1))), hidden') ∧
      List.Forall₂ (HoldsRows slots (t + 1)) caches' (causalStackRows layers rows).1 ∧
      List.Forall₂ (fun row h => row[t]? = some h) (causalStackRows layers rows).2 hidden' := by
  induction layers generalizing rows hidden caches with
  | nil =>
    cases hcaches with
    | nil => exact ⟨[], hidden, rfl, .nil, ht⟩
  | cons layer layers ih =>
    rw [causalStackRows] at hcaches ⊢
    cases hcaches with
    | cons hcache hrest =>
      obtain ⟨cache', next, hlayer, hholds, hnext⟩ :=
        buildWithStaticCacheTailBatched_causal layer hslots ht hcache
      obtain ⟨caches', hidden', hstack, hcaches', hout⟩ := ih hnext hrest
      have hcount : next.length = hidden.length := by
        rw [← hnext.length_eq, List.length_map, ht.length_eq]
      rw [hcount] at hstack
      refine ⟨cache' :: caches', hidden', ?_, .cons hholds hcaches', hout⟩
      rw [buildStaticCacheTailBatched]
      simp only [hlayer, hstack]
      rfl

end FastTts.Qwen
