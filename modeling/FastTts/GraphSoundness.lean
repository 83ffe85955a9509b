import FastTts.GraphAliases
import Mathlib.Data.Fin.VecNotation

/-!
# What the optimizer preserves

The folds leave no use of a folded repeat behind. An identity copy may still be seen through a
`view_src`, which no pass looks at: the schedule that is left is sound exactly when every view of a
copy that the alias pass takes is pruned as well and is read by no node.
-/

namespace FastTts.GraphOptimizer

open Schedules

variable {E : Type}

/-- No remaining node reads the storage of a computing node that is gone. -/
def StorageKept (before after : Graph) : Prop :=
  ∀ n ∈ after.nodes, ∀ s, ReadsStorage after n s → s ∈ before.nodes →
    computes before s = true → s ∈ after.nodes

/-- Every remaining node gets the value that the original schedule gives it, from storage that the
remaining nodes write. -/
structure Sound (before after : Graph) : Prop where
  values : ∀ {E : Type} [Inhabited E] (kernels : Kernels E) (store : ℕ → Value E),
    ∀ n ∈ after.nodes, kernels.content after (kernels.execute after store) n =
      kernels.content before (kernels.execute before store) n
  storage : StorageKept before after

def metadataPruned (options : GraphOptimizationOptions) (graph : Graph) (v : ℕ) : Bool :=
  options.elideMetadataOnlyOps && canElideFromExecutionSchedule (graph.tensor v) &&
    !rewriteExcluded options graph.nodes.length .metadataOnlyNode v none (-1)

/-- A computing node that is no alias has a source that resolves to the tensor. -/
def IsRead (options : GraphOptimizationOptions) (graph : Graph) (v : ℕ) : Prop :=
  ∃ n ∈ graph.nodes, computes graph n = true ∧ aliases options graph n = none ∧
    ∃ u, graph.PointsTo n u ∧ resolved options graph u = v

/-- Every listed view of an alias is pruned and unread. -/
def AliasesUnseen (options : GraphOptimizationOptions) (graph : Graph) : Prop :=
  options.enabled = true → ∀ v ∈ graph.nodes, isMetadataOnlyOp (graph.tensor v).op →
    ∀ c, (graph.tensor v).viewSrc = some c → (aliases options graph c).isSome →
      metadataPruned options graph v = true ∧ ¬ IsRead options graph v

/-! ## Which nodes stay -/

variable {n : ℕ}

theorem computes_of_repeat {graph : Graph} (hop : (graph.tensor n).op = .opRepeat) :
    computes graph n = true := by
  rw [computes, hop]
  rfl

theorem computes_of_broadcasts {graph : Graph} (hop : broadcastsOperands (graph.tensor n).op) :
    computes graph n = true := by
  rw [computes]
  cases h : (graph.tensor n).op <;> simp [h, broadcastsOperands, supportsImplicitBroadcastRhs,
    supportsImplicitBroadcastSrc0, isMetadataOnlyOp] at hop ⊢

theorem aliases_of_broadcasts {graph : Graph} {options : GraphOptimizationOptions}
    (hop : broadcastsOperands (graph.tensor n).op) : aliases options graph n = none := by
  rw [aliases, isIdentityMaterialization_of_broadcasts graph hop]
  simp

theorem not_broadcasts_of_metadata {op : Op} (h : isMetadataOnlyOp op) :
    broadcastsOperands op = false := by
  cases op <;> simp [isMetadataOnlyOp, broadcastsOperands, supportsImplicitBroadcastRhs,
    supportsImplicitBroadcastSrc0] at h ⊢

theorem not_computes_of_metadata {graph : Graph} (h : isMetadataOnlyOp (graph.tensor n).op) :
    computes graph n = false := by
  rw [computes, h]
  rfl

theorem FoldState.find?_isSome (state : FoldState) (id : ℕ) :
    (state.folded.find? fun entry => entry.1 = id).isSome = state.isFolded id := by
  rw [Bool.eq_iff_iff, List.find?_isSome, FoldState.isFolded]
  simp

section Elision

variable {graph : Graph} {state : FoldState} (hfolding : Folding graph state)
variable (options : GraphOptimizationOptions)
include hfolding

variable {n : ℕ}

theorem elision_of_folded (h : state.isFolded n) : (elision options state n).isSome := by
  obtain ⟨-, -, houtput⟩ := hfolding.repeats n h
  rw [← FoldState.find?_isSome, Option.isSome_iff_exists] at h
  obtain ⟨entry, hentry⟩ := h
  rw [elision, canElideFromExecutionSchedule, hfolding.alike.header, houtput]
  simp [hentry]

theorem elision_of_alias (h : (aliases options graph n).isSome) :
    (elision options state n).isSome := by
  obtain ⟨t, ht⟩ := Option.isSome_iff_exists.mp h
  obtain ⟨-, -, houtput, -⟩ := aliases_eq_some ht
  rw [elision, canElideFromExecutionSchedule, hfolding.alike.header, houtput]
  cases state.folded.find? fun entry => entry.1 = n with
  | some entry => simp
  | none => simp [hfolding.aliases_eq, h]

theorem elision_of_computes (hcomputes : computes graph n = true) :
    (elision options state n).isSome ↔
      state.isFolded n = true ∨ (aliases options graph n).isSome = true := by
  constructor
  · intro h
    rw [elision] at h
    by_contra hnone
    rw [not_or, ← FoldState.find?_isSome] at hnone
    rw [computes, Bool.and_eq_true, Bool.not_eq_true', bne_iff_ne] at hcomputes
    have hfind : (state.folded.find? fun entry => entry.1 = n) = none := by
      rw [← Option.isNone_iff_eq_none, ← Option.isSome_eq_false_iff]
      exact Bool.not_eq_true _ ▸ hnone.1
    rw [hfind, hfolding.aliases_eq, hfolding.alike.op, hcomputes.1] at h
    simp [hnone.2, hcomputes.2] at h
  · rintro (h | h)
    · exact elision_of_folded hfolding options h
    · exact elision_of_alias hfolding options h

theorem elision_of_metadata (hop : isMetadataOnlyOp (graph.tensor n).op) :
    (elision options state n).isSome ↔ metadataPruned options graph n = true := by
  have hfolded : state.isFolded n = false := by
    rw [← Bool.not_eq_true]
    intro h
    rw [(hfolding.repeats n h).2.1] at hop
    exact Bool.false_ne_true hop
  have halias : aliases options graph n = none := by
    cases ht : aliases options graph n with
    | none => rfl
    | some t =>
      have hcomputes := computes_of_alias ht
      rw [not_computes_of_metadata hop] at hcomputes
      exact absurd hcomputes Bool.false_ne_true
  have hnoop : (graph.tensor n).op ≠ .opNone := by
    intro hnone
    rw [hnone] at hop
    exact Bool.false_ne_true hop
  rw [← FoldState.find?_isSome, Option.isSome_eq_false_iff, Option.isNone_iff_eq_none] at hfolded
  rw [elision, hfolded, hfolding.aliases_eq, halias, hfolding.alike.op, hfolding.nodes,
    canElideFromExecutionSchedule, hfolding.alike.header, metadataPruned,
    canElideFromExecutionSchedule]
  cases (graph.tensor n).output <;> simp [hnoop, hop]

end Elision

/-! ## Where sources come from -/

theorem FoldStep.eq_source {rule : FoldRule} {graph : Graph} {state state' : FoldState}
    {id source t : ℕ} {options : GraphOptimizationOptions}
    (hstep : FoldStep rule graph state state' id source) (ht : aliases options graph id = some t) :
    t = source := by
  obtain ⟨-, -, -, hsrc, -⟩ := aliases_eq_some ht
  exact Option.some.inj (hsrc.symm.trans hstep.source_eq)

section Sources

variable {graph : Graph} (h : graph.WellFormed) (options : GraphOptimizationOptions)
include h

/-- Whatever a computing node points to after the folds, the input has a reader of what that resolves
to: a folded repeat that is no alias read it itself. -/
theorem isRead_of_points {n s : ℕ} (hn : n ∈ graph.nodes) (hcomputes : computes graph n = true)
    (halias : aliases options graph n = none)
    (hpoints : (foldRepeats options graph).graph.PointsTo n s) :
    IsRead options graph (resolved options graph s) := by
  let P (state : FoldState) : Prop := ∀ n ∈ graph.nodes, computes graph n = true →
    aliases options graph n = none → ∀ s, state.graph.PointsTo n s →
      IsRead options graph (resolved options graph s)
  suffices hall : P (foldRepeats options graph) from hall n hn hcomputes halias s hpoints
  refine (foldRepeats_induction h ?_ ?_ options).2
  · intro rule state state' id source hrule hfolding hstep hstate n hn hcomputes halias s hs
    rcases (hstep.points hrule hn).mp hs with ⟨-, hold⟩ | ⟨rfl, huse⟩
    · exact hstate n hn hcomputes halias s hold
    · cases hid : aliases options graph id with
      | none =>
        exact ⟨id, hstep.mem, computes_of_repeat hstep.op, hid, s, ⟨0, hstep.source_eq⟩, rfl⟩
      | some t =>
        rw [← hstep.eq_source hid, ← resolved_of_alias h hid]
        exact hstate n hn hcomputes halias id huse
  · exact fun n hn hcomputes halias s hs => ⟨n, hn, hcomputes, halias, s, hs, rfl⟩

/-- A view that the input reads is read after the folds, and by a node that stays: where the reader
is folded, a consumer of it takes over its source. -/
theorem exists_reader {v : ℕ} (hv : isMetadataOnlyOp (graph.tensor v).op)
    (hread : IsRead options graph v) : ∃ n ∈ graph.nodes, computes graph n = true ∧
      aliases options graph n = none ∧ (foldRepeats options graph).isFolded n = false ∧
        ∃ s, (foldRepeats options graph).graph.PointsTo n s ∧ resolved options graph s = v := by
  let P (state : FoldState) : Prop := ∃ n ∈ graph.nodes, computes graph n = true ∧
    aliases options graph n = none ∧ state.isFolded n = false ∧
      ∃ s, state.graph.PointsTo n s ∧ resolved options graph s = v
  suffices hall : P (foldRepeats options graph) from hall
  refine (foldRepeats_induction h ?_ ?_ options).2
  · rintro rule state state' id source hrule hfolding hstep
      ⟨n, hn, hcomputes, halias, hnotfolded, s, hs, hsv⟩
    by_cases hid : n = id
    · -- the reader is folded now
      subst hid
      obtain ⟨m, hm, huse⟩ := hstep.used
      obtain ⟨index, hindex⟩ := huse
      have hop := hrule.broadcasts (hstep.uses m hm index hindex)
      rw [hfolding.alike.op] at hop
      have hsource : s = source := by
        obtain ⟨j, hj⟩ := hs
        rw [hfolding.src_of_repeat hstep.op] at hj
        by_cases hzero : j = 0
        · rw [hzero, hstep.source_eq] at hj
          exact (Option.some.inj hj).symm
        · rw [(h.repeats n hn hstep.op).1 j hzero] at hj
          exact absurd hj (by simp)
      have hmfolded : state'.isFolded m = false := by
        rw [← Bool.not_eq_true]
        intro hm'
        have hrepeat : (graph.tensor m).op = .opRepeat := by
          rcases (hstep.folded m).mp hm' with rfl | hm'
          · exact hstep.op
          · exact (hfolding.repeats m hm').2.1
        rw [hrepeat] at hop
        exact Bool.false_ne_true hop
      refine ⟨m, hm, computes_of_broadcasts hop, aliases_of_broadcasts hop, hmfolded, s, ?_, hsv⟩
      exact (hstep.points hrule hm).mpr (.inr ⟨hsource, index, hindex⟩)
    · have hnotfolded' : state'.isFolded n = false := by
        rw [← Bool.not_eq_true, hstep.folded, not_or, Bool.not_eq_true]
        exact ⟨hid, hnotfolded⟩
      refine ⟨n, hn, hcomputes, halias, hnotfolded', ?_⟩
      by_cases hsid : s = id
      · subst hsid
        refine ⟨source, (hstep.points hrule hn).mpr (.inr ⟨rfl, hs⟩), ?_⟩
        cases hrepeat : aliases options graph s with
        | none =>
          rw [resolved_of_none hrepeat] at hsv
          rw [← hsv, hstep.op] at hv
          exact absurd hv Bool.false_ne_true
        | some t =>
          rw [← hstep.eq_source hrepeat, ← resolved_of_alias h hrepeat, hsv]
      · exact ⟨s, (hstep.points hrule hn).mpr (.inl ⟨hsid, hs⟩), hsv⟩
  · obtain ⟨n, hn, hcomputes, halias, s, hs, hsv⟩ := hread
    exact ⟨n, hn, hcomputes, halias, by simp [FoldState.isFolded], s, hs, hsv⟩

variable {options} {state : FoldState}

theorem not_isFolded_of_view (hfolding : Folding graph state) {v s : ℕ} (hmem : v ∈ graph.nodes)
    (hv : isMetadataOnlyOp (graph.tensor v).op) (hs : (graph.tensor v).viewSrc = some s) :
    ¬ state.isFolded s := by
  intro hfolded
  obtain ⟨before, after, hsplit⟩ := List.append_of_mem hmem
  rcases h.viewed hsplit hv hs with hout | ⟨-, u, hu, hmeta, hsrc⟩
  · exact hout (hfolding.repeats s hfolded).1
  · apply hfolding.unused s hfolded u hu
    exact ⟨0, by rw [hfolding.untouched u (not_broadcasts_of_metadata hmeta), hsrc]⟩

omit h in
theorem not_isFolded_of_resolved (hfolding : Folding graph state) {n u : ℕ} (hn : n ∈ graph.nodes)
    (hpoints : state.graph.PointsTo n u) : ¬ state.isFolded (resolved options graph u) := by
  intro hfolded
  have hcases : resolved options graph u = u ∨
      ∃ m, aliases options graph m = some (resolved options graph u) := resolveAlias_cases ..
  rcases hcases with hsame | ⟨m, hm⟩
  · rw [hsame] at hfolded
    exact hfolding.unused u hfolded n hn hpoints
  · obtain ⟨-, hmem, -, hsrc, -, hop⟩ := aliases_eq_some hm
    have hnone : broadcastsOperands (graph.tensor m).op = false := by
      rcases hop with hop | hop | hop <;> rw [hop] <;> rfl
    apply hfolding.unused _ hfolded m hmem
    exact ⟨0, by rw [hfolding.untouched m hnone, hsrc]⟩

end Sources

/-! ## The schedule that is left -/

theorem optimizeGraph_eq {options : GraphOptimizationOptions} {graph : Graph}
    (henabled : options.enabled = true) (hnodes : graph.nodes ≠ []) :
    (optimizeGraph options graph).1 =
      { resolveSources options (foldRepeats options graph).graph with
        nodes := graph.nodes.filter fun id =>
          (elision options (foldRepeats options graph) id).isNone } := by
  rw [optimizeGraph, if_neg]
  simp [henabled, hnodes]

theorem optimizeGraph_idle {options : GraphOptimizationOptions} {graph : Graph}
    (h : options.enabled = false ∨ graph.nodes = []) : (optimizeGraph options graph).1 = graph := by
  rw [optimizeGraph, if_pos]
  simpa using h

section

variable {graph : Graph} (h : graph.WellFormed) (options : GraphOptimizationOptions)
include h

theorem Graph.WellFormed.folding : Folding graph (foldRepeats options graph) :=
  (foldRepeats_induction (P := fun _ => True) h (fun _ _ _ _ => trivial) trivial options).1

theorem resolved_folded :
    resolved options (foldRepeats options graph).graph = resolved options graph := by
  funext s
  rw [resolved, resolved, (h.folding options).aliases_eq, (h.folding options).nodes]

theorem resolved_before {before after : List ℕ} {s : ℕ} (hsplit : graph.nodes = before ++ n :: after)
    (hs : s ∈ before ∨ s ∉ graph.nodes) :
    resolved options graph s ∈ before ∨ resolved options graph s ∉ graph.nodes := by
  apply resolveAlias_induction (P := fun m => m ∈ before ∨ m ∉ graph.nodes)
  · intro m t ht hm
    obtain ⟨-, hmem, -, hsrc, -⟩ := aliases_eq_some ht
    obtain ⟨first, rest, rfl⟩ := List.append_of_mem (hm.resolve_right fun hout => hout hmem)
    have hsplit' : graph.nodes = first ++ m :: (rest ++ n :: after) := by
      rw [hsplit, List.append_assoc]
      rfl
    exact (h.sources first m _ hsplit' 0 t hsrc).imp_left (List.mem_append_left _)
  · exact hs

theorem resolveSources_before :
    (resolveSources options (foldRepeats options graph).graph).SourcesBefore := by
  have hfolding := h.folding options
  have halike := hfolding.alike.trans (resolveSources_alike options _)
  intro before n after hsplit index s hs
  have hsplit' : graph.nodes = before ++ n :: after := hfolding.nodes.symm.trans hsplit
  have hn : n ∈ (foldRepeats options graph).graph.nodes := by
    rw [hfolding.nodes, hsplit']
    simp
  obtain ⟨u, hu, rfl⟩ := (resolveSources_points hn).mp ⟨index, hs⟩
  rw [resolved_folded h]
  change _ ∨ _ ∉ (foldRepeats options graph).graph.nodes
  rw [hfolding.nodes]
  exact resolved_before h options hsplit' (hfolding.mem_before hsplit' hu)

end

section Left

variable {graph : Graph} (h : graph.WellFormed) {options : GraphOptimizationOptions}
variable (henabled : options.enabled = true) (hnodes : graph.nodes ≠ [])
include h henabled hnodes

theorem optimizeGraph_alike : graph.Alike (optimizeGraph options graph).1 := by
  have halike := (h.folding options).alike.trans (resolveSources_alike options _)
  rw [optimizeGraph_eq henabled hnodes]
  exact ⟨halike.header, halike.viewSrc⟩

variable {n : ℕ}

theorem mem_of_computes (hcomputes : computes graph n = true) :
    n ∈ (optimizeGraph options graph).1.nodes ↔ n ∈ graph.nodes ∧
      (foldRepeats options graph).isFolded n = false ∧ aliases options graph n = none := by
  have helision := elision_of_computes (h.folding options) options hcomputes
  rw [optimizeGraph_eq henabled hnodes, List.mem_filter, ← Option.not_isSome, Bool.not_eq_true',
    ← Bool.not_eq_true, helision]
  simp

theorem mem_of_metadata (hop : isMetadataOnlyOp (graph.tensor n).op) :
    n ∈ (optimizeGraph options graph).1.nodes ↔
      n ∈ graph.nodes ∧ metadataPruned options graph n = false := by
  have helision := elision_of_metadata (h.folding options) options hop
  rw [optimizeGraph_eq henabled hnodes, List.mem_filter, ← Option.not_isSome, Bool.not_eq_true',
    ← Bool.not_eq_true, helision, Bool.not_eq_true]

omit h in
theorem mem_of_mem (hn : n ∈ (optimizeGraph options graph).1.nodes) : n ∈ graph.nodes := by
  rw [optimizeGraph_eq henabled hnodes] at hn
  exact (List.mem_filter.mp hn).1

theorem optimizeGraph_points {m : ℕ} (hn : n ∈ graph.nodes) :
    (optimizeGraph options graph).1.PointsTo n m ↔
      ∃ s, (foldRepeats options graph).graph.PointsTo n s ∧ resolved options graph s = m := by
  have hfolding := h.folding options
  rw [optimizeGraph_eq henabled hnodes, ← resolved_folded h]
  exact resolveSources_points (hfolding.nodes.symm ▸ hn)

/-! ## Storage -/

theorem storageKept_of_unseen (hunseen : AliasesUnseen options graph) :
    StorageKept graph (optimizeGraph options graph).1 := by
  have halike := optimizeGraph_alike h henabled hnodes
  have hfolding := h.folding options
  have hview : ∀ v ∈ graph.nodes, isMetadataOnlyOp (graph.tensor v).op → ∀ s,
      (graph.tensor v).viewSrc = some s → ¬ (foldRepeats options graph).isFolded s :=
    fun v hmem hv s hs => not_isFolded_of_view h hfolding hmem hv hs
  intro n hn s hreads hs hcomputes
  have hmem := mem_of_mem henabled hnodes hn
  rw [mem_of_computes h henabled hnodes hcomputes]
  rw [ReadsStorage, halike.op, halike.viewSrc, halike.computes_eq] at hreads
  by_cases hmeta : isMetadataOnlyOp (graph.tensor n).op = true
  · rw [if_pos hmeta] at hreads
    refine ⟨hs, by simpa using hview n hmem hmeta s hreads, ?_⟩
    by_contra halias
    rw [← ne_eq, ← Option.isSome_iff_ne_none] at halias
    have hpruned := (hunseen henabled n hmem hmeta s hreads halias).1
    rw [((mem_of_metadata h henabled hnodes hmeta).mp hn).2] at hpruned
    exact Bool.false_ne_true hpruned
  · rw [if_neg hmeta] at hreads
    obtain ⟨hncomputes, index, source, hindex, howner⟩ := hreads
    obtain ⟨-, -, hnalias⟩ := (mem_of_computes h henabled hnodes hncomputes).mp hn
    have hpoints : (optimizeGraph options graph).1.PointsTo n source := ⟨index, hindex⟩
    obtain ⟨u, hu, hresolved⟩ := (optimizeGraph_points h henabled hnodes hmem).mp hpoints
    rw [halike.owner_eq] at howner
    have hlisted : source ∈ graph.nodes := by
      by_contra hout
      exact h.owner_notMem hout (howner ▸ hs)
    rw [owner] at howner
    by_cases hsource : isMetadataOnlyOp (graph.tensor source).op = true
    · -- the node reads through a view
      rw [if_pos hsource] at howner
      obtain ⟨a, -, hviews⟩ := h.views source hlisted hsource
      have hshows : (graph.tensor source).viewSrc = some s := by
        rw [hviews, Option.getD_some] at howner
        rw [hviews, howner]
      refine ⟨hs, by simpa using hview source hlisted hsource s hshows, ?_⟩
      by_contra halias
      rw [← ne_eq, ← Option.isSome_iff_ne_none] at halias
      apply (hunseen henabled source hlisted hsource s hshows halias).2
      rw [← hresolved]
      exact isRead_of_points h options hmem hncomputes hnalias hu
    · rw [if_neg hsource] at howner
      subst howner hresolved
      have hnotfolded : ¬ (foldRepeats options graph).isFolded (resolved options graph u) :=
        not_isFolded_of_resolved hfolding hmem hu
      exact ⟨hs, by simpa using hnotfolded, aliases_resolved h u⟩

/-- A view that stays, or that a node reads, shows the storage of the copy that is gone. -/
theorem unseen_of_storageKept (hstorage : StorageKept graph (optimizeGraph options graph).1) :
    AliasesUnseen options graph := by
  have halike := optimizeGraph_alike h henabled hnodes
  intro _ v hv hmeta c hc hcalias
  obtain ⟨t, ht⟩ := Option.isSome_iff_exists.mp hcalias
  have hcomputes := computes_of_alias ht
  obtain ⟨-, hcmem, -⟩ := aliases_eq_some ht
  have hgone : c ∉ (optimizeGraph options graph).1.nodes := by
    rw [mem_of_computes h henabled hnodes hcomputes, ht]
    simp
  constructor
  · by_contra hnotpruned
    have hstays := (mem_of_metadata h henabled hnodes hmeta).mpr ⟨hv, by simpa using hnotpruned⟩
    apply hgone
    apply hstorage v hstays c _ hcmem hcomputes
    rw [ReadsStorage, halike.op, if_pos hmeta, halike.viewSrc, hc]
  · intro hread
    obtain ⟨n, hn, hncomputes, hnalias, hnotfolded, s, hs, hsv⟩ :=
      exists_reader h options hmeta hread
    have hstays := (mem_of_computes h henabled hnodes hncomputes).mpr ⟨hn, hnotfolded, hnalias⟩
    obtain ⟨index, hindex⟩ := (optimizeGraph_points h henabled hnodes hn).mpr ⟨s, hs, hsv⟩
    have hnmeta : ¬ isMetadataOnlyOp (graph.tensor n).op = true := by
      intro hnmeta
      rw [not_computes_of_metadata hnmeta] at hncomputes
      exact Bool.false_ne_true hncomputes
    apply hgone
    apply hstorage n hstays c _ hcmem hcomputes
    rw [ReadsStorage, halike.op, if_neg hnmeta, halike.computes_eq]
    refine ⟨hncomputes, index, v, hindex, ?_⟩
    rw [halike.owner_eq, owner, if_pos hmeta, hc, Option.getD_some]

/-! ## Values -/

section Values

variable [Inhabited E] (kernels : Kernels E) (store : ℕ → Value E)

theorem optimizeGraph_solves :
    kernels.Solves (optimizeGraph options graph).1 (kernels.execute graph store) := by
  have hfolding := h.folding options
  have hfolded : kernels.Solves (foldRepeats options graph).graph (kernels.execute graph store) := by
    refine (foldRepeats_induction
      (P := fun state => kernels.Solves state.graph (kernels.execute graph store)) h ?_ ?_ options).2
    · intro rule state state' id source hrule hfolding hstep hstate
      exact hstep.solves kernels h hfolding hrule hstate
    · apply execute_solves
      exact h.ordered rfl (fun _ => rfl) h.sources
  intro n hn
  have hmem : n ∈ (foldRepeats options graph).graph.nodes :=
    hfolding.nodes.symm ▸ mem_of_mem henabled hnodes hn
  rw [optimizeGraph_eq henabled hnodes]
  exact resolveSources_solves kernels hfolded n hmem

omit [Inhabited E] in
theorem optimizeGraph_ordered : Ordered (ReadsSource (optimizeGraph options graph).1)
    (optimizeGraph options graph).1.nodes := by
  have hfolding := h.folding options
  have halike := hfolding.alike.trans (resolveSources_alike options _)
  have hsame : (resolveSources options (foldRepeats options graph).graph).nodes = graph.nodes :=
    hfolding.nodes
  have hordered := h.ordered hsame halike.owner_eq (resolveSources_before h options)
  rw [hsame] at hordered
  rw [optimizeGraph_eq henabled hnodes]
  exact hordered.filter _

/-- Both schedules agree on every storage that no elided node writes, and nothing else is read. -/
theorem values_of_storageKept (hstorage : StorageKept graph (optimizeGraph options graph).1) :
    ∀ n ∈ (optimizeGraph options graph).1.nodes, kernels.content (optimizeGraph options graph).1
          (kernels.execute (optimizeGraph options graph).1 store) n =
        kernels.content graph (kernels.execute graph store) n := by
  have halike := optimizeGraph_alike h henabled hnodes
  have hordered := optimizeGraph_ordered h henabled hnodes
  have hbefore := optimizeGraph_solves h henabled hnodes kernels store
  have hafter := execute_solves kernels hordered store
  have hmem {n : ℕ} := mem_of_mem (n := n) henabled hnodes
  generalize (optimizeGraph options graph).1 = after at *
  let keep (s : ℕ) : Prop := s ∈ graph.nodes → computes graph s = true → s ∈ after.nodes
  have hagree : ∀ s, keep s → stored after (kernels.execute after store) s =
      stored after (kernels.execute graph store) s := by
    apply agree (hordered.filter (computes after))
    · intro n hn _ s hs
      obtain ⟨hlisted, hcomputes⟩ := List.mem_filter.mp hn
      have hnmeta : ¬ isMetadataOnlyOp (after.tensor n).op = true := by
        intro hnmeta
        rw [not_computes_of_metadata hnmeta] at hcomputes
        exact Bool.false_ne_true hcomputes
      apply hstorage n hlisted s
      rw [ReadsStorage, if_neg hnmeta]
      exact ⟨hcomputes, hs⟩
    · intro n hn _ hsame
      obtain ⟨hlisted, hcomputes⟩ := List.mem_filter.mp hn
      rw [hafter n hlisted hcomputes, hbefore n hlisted hcomputes]
      congr 1
      apply result_congr
      exact fun index s hs => hsame _ ⟨index, s, hs, rfl⟩
    · intro n hn hkeep
      have hidle : n ∈ graph.nodes → computes graph n = false := by
        intro hgraph
        rw [← Bool.not_eq_true]
        intro hcomputes
        apply hn
        rw [List.mem_filter, halike.computes_eq]
        exact ⟨hkeep hgraph hcomputes, hcomputes⟩
      have hidle' : n ∈ after.nodes → computes after n = false := by
        intro hlisted
        rw [halike.computes_eq]
        exact hidle (hmem hlisted)
      rw [stored, stored, execute_of_idle kernels store hidle, execute_of_idle kernels store hidle']
  intro n hn
  rw [← halike.content_eq kernels]
  apply content_congr
  apply hagree
  intro hgraph hcomputes
  by_cases hmeta : isMetadataOnlyOp (after.tensor n).op = true
  · rw [owner, if_pos hmeta] at hgraph hcomputes ⊢
    cases hview : (after.tensor n).viewSrc with
    | none => exact hn
    | some s =>
      rw [hview] at hgraph hcomputes
      apply hstorage n hn s _ hgraph hcomputes
      rw [ReadsStorage, if_pos hmeta, hview]
  · rw [owner, if_neg hmeta]
    exact hn

end Values

end Left

theorem Sound.refl (graph : Graph) : Sound graph graph :=
  ⟨fun _ _ _ _ => rfl, fun _ _ _ _ hs _ => hs⟩

/-- The optimizer is sound on exactly those graphs in which no view gives an alias away. -/
theorem optimizeGraph_sound_iff {graph : Graph} (h : graph.WellFormed)
    (options : GraphOptimizationOptions) :
    Sound graph (optimizeGraph options graph).1 ↔ AliasesUnseen options graph := by
  by_cases hidle : options.enabled = false ∨ graph.nodes = []
  · rw [optimizeGraph_idle hidle]
    refine iff_of_true (Sound.refl graph) ?_
    intro henabled v hv
    rcases hidle with hdisabled | hempty
    · rw [hdisabled] at henabled
      exact absurd henabled Bool.false_ne_true
    · rw [hempty] at hv
      exact absurd hv List.not_mem_nil
  · rw [not_or, Bool.not_eq_false] at hidle
    obtain ⟨henabled, hnodes⟩ := hidle
    constructor
    · intro hsound
      exact unseen_of_storageKept h henabled hnodes hsound.storage
    · intro hunseen
      have hstorage := storageKept_of_unseen h henabled hnodes hunseen
      exact ⟨fun kernels store => values_of_storageKept h henabled hnodes kernels store hstorage,
        hstorage⟩

def rowTensor (op : Op) (width : ℕ) (sources : List ℕ) (viewSrc : Option ℕ) : Tensor where
  op := op
  type := 0
  ne := ![width, 1, 1, 1]
  nb := ![4, 4 * width, 4 * width, 4 * width]
  opParams := []
  viewOffs := 0
  output := false
  src index := sources[index.val]?
  viewSrc := viewSrc

theorem wellFormed_of_lt {graph : Graph} (hsorted : graph.nodes.Pairwise (· < ·))
    (hleaves : ∀ s, s ∉ graph.nodes → (graph.tensor s).viewSrc = none)
    (hsources : ∀ n ∈ graph.nodes, ∀ index, ∀ s ∈ (graph.tensor n).src index, s < n ∧
      (broadcastsOperands (graph.tensor n).op → canRepeat (graph.tensor s) (graph.tensor n)))
    (hviews : ∀ n ∈ graph.nodes, if isMetadataOnlyOp (graph.tensor n).op then
        ∃ a ∈ (graph.tensor n).src 0,
          (graph.tensor n).viewSrc = some ((graph.tensor a).viewSrc.getD a)
      else (graph.tensor n).viewSrc = none)
    (hrepeats : ∀ n ∈ graph.nodes, (graph.tensor n).op = .opRepeat →
      (∀ index, index ≠ 0 → (graph.tensor n).src index = none) ∧
        ∃ a ∈ (graph.tensor n).src 0, canRepeat (graph.tensor a) (graph.tensor n)) :
    graph.WellFormed where
  nodup := hsorted.imp fun hlt => Nat.ne_of_lt hlt
  sources before n after hsplit index s hs := by
    have hsn := (hsources n (by simp [hsplit]) index s hs).1
    by_cases hmem : s ∈ graph.nodes
    · left
      rw [hsplit, List.pairwise_append] at hsorted
      rw [hsplit, List.mem_append, List.mem_cons] at hmem
      rcases hmem with hbefore | rfl | hafter
      · exact hbefore
      · exact absurd hsn (Nat.lt_irrefl s)
      · have hns := (List.pairwise_cons.mp hsorted.2.1).1 s hafter
        omega
    · exact .inr hmem
  owns n hn hop := by
    have hview := hviews n hn
    rwa [hop, if_neg Bool.false_ne_true] at hview
  leaves s hs t ht := by
    rw [hleaves s hs] at ht
    exact absurd ht (by simp)
  views v hv hop := by
    have hview := hviews v hv
    rwa [if_pos hop] at hview
  repeats := hrepeats
  broadcasts n hn hop index s hs := (hsources n hn index s hs).2 hop

/-- A sum of a copy and a repeated number, and a view of it. -/
def sumOfCopy : Graph where
  nodes := [2, 3, 4, 5]
  tensor
    | 0 => rowTensor .opNone 1 [] none
    | 2 => rowTensor .opRepeat 2 [0] none
    | 3 => rowTensor .opCont 2 [1] none
    | 4 => rowTensor .opAdd 2 [3, 2] none
    | 5 => rowTensor .opReshape 2 [4] (some 4)
    | _ => rowTensor .opNone 2 [] none

def viewOfCopy : Graph where
  nodes := [1, 2, 3]
  tensor
    | 1 => rowTensor .opCont 2 [0] none
    | 2 => rowTensor .opReshape 2 [1] (some 1)
    | 3 => rowTensor .opScale 2 [2] none
    | _ => rowTensor .opNone 2 [] none

theorem sumOfCopy_wellFormed : sumOfCopy.WellFormed := by
  apply wellFormed_of_lt
  · decide
  · intro s hs
    simp only [sumOfCopy, List.mem_cons, List.not_mem_nil, or_false, not_or] at hs ⊢
    split <;> simp_all [rowTensor]
  · decide
  · decide
  · decide

/-- The sum takes the copied tensor and the number. -/
theorem optimizeGraph_sound_sumOfCopy :
    (optimizeGraph {} sumOfCopy).1.nodes = [4] ∧ Sound sumOfCopy (optimizeGraph {} sumOfCopy).1 := by
  refine ⟨by decide, (optimizeGraph_sound_iff sumOfCopy_wellFormed {}).mpr ?_⟩
  intro _ v hv hmeta c hc halias
  have hunviewed : ∀ v ∈ sumOfCopy.nodes, ∀ c ∈ (sumOfCopy.tensor v).viewSrc,
      aliases {} sumOfCopy c = none := by decide
  rw [hunviewed v hv c hc] at halias
  exact absurd halias Bool.false_ne_true

theorem viewOfCopy_wellFormed : viewOfCopy.WellFormed := by
  apply wellFormed_of_lt
  · decide
  · intro s hs
    simp only [viewOfCopy, List.mem_cons, List.not_mem_nil, or_false, not_or] at hs ⊢
    split <;> simp_all [rowTensor]
  · decide
  · decide
  · decide

/-- Scaling keeps a number, a view shows the storage as it is. -/
def plainKernels : Kernels ℕ where
  binary _ x y := x + y
  scale _ x := x
  compute _ _ _ := 0
  look _ value := value
  comm _ _ x y := Nat.add_comm x y

/-- The copy is gone, and the scaled view still shows its storage. -/
theorem optimizeGraph_unsound_viewOfCopy :
    viewOfCopy.WellFormed ∧ ¬ Sound viewOfCopy (optimizeGraph {} viewOfCopy).1 := by
  refine ⟨viewOfCopy_wellFormed, fun hsound => ?_⟩
  let store (n : ℕ) : Value ℕ := fun _ => if n = 0 then 5 else 0
  have hvalues := hsound.values plainKernels store 3 (by decide)
  have hzero := congrFun hvalues fun _ => 0
  revert hzero
  decide

end FastTts.GraphOptimizer
