import FastTts.GraphValues

/-!
# Folding repeats

Each of the four rules moves the repeated tensor into the consumer and leaves the consumer's value
as it is. A repeat is folded only when every use of it allows so, and afterwards no listed node
points to it.
-/

namespace FastTts.GraphOptimizer

open Schedules

variable {E : Type}

/-! ## The rules -/

/-- What a rule does to a consumer that may take it. -/
structure FoldRule.Faithful (rule : FoldRule) : Prop where
  slot : ∀ {graph node consumer index}, rule.canFold graph node consumer index → index = rule.slot
  broadcasts : ∀ {graph node consumer index}, rule.canFold graph node consumer index →
    broadcastsOperands consumer.op
  header : ∀ consumer source, (rule.rewire consumer source).toHeader = consumer.toHeader
  viewSrc : ∀ consumer source, (rule.rewire consumer source).viewSrc = consumer.viewSrc
  sources : ∀ consumer source index s, (rule.rewire consumer source).src index = some s →
    source = some s ∨ ∃ j, j ≠ rule.slot ∧ consumer.src j = some s
  keeps : ∀ (consumer : Tensor) source j, j ≠ rule.slot →
    ∃ index, (rule.rewire consumer source).src index = consumer.src j
  moves : ∀ consumer source, ∃ index, (rule.rewire consumer source).src index = source
  apply : ∀ {graph node consumer}, rule.canFold graph node consumer rule.slot →
    ∀ {E : Type} [Inhabited E] (kernels : Kernels E) (look : ℕ → Operand E) (source : Option ℕ) i,
      spreadAt (source.map look) i = spreadAt ((consumer.src rule.slot).map look) i →
      kernels.apply consumer.toHeader
          (fun index => ((rule.rewire consumer source).src index).map look) i =
        kernels.apply consumer.toHeader (fun index => (consumer.src index).map look) i

variable {header : Header} {node consumer : Tensor} {index : Fin 10} {later : List ℕ}

theorem apply_rhs [Inhabited E] (kernels : Kernels E) (h : supportsImplicitBroadcastRhs header.op)
    (operands : Fin 10 → Option (Operand E)) (i : Fin 4 → ℕ) : kernels.apply header operands i =
      kernels.binary header (spreadAt (operands 0) i) (spreadAt (operands 1) i) := by
  rw [Kernels.apply, if_pos h]

theorem apply_src0 [Inhabited E] (kernels : Kernels E) (h : supportsImplicitBroadcastSrc0 header.op)
    (operands : Fin 10 → Option (Operand E)) (i : Fin 4 → ℕ) :
    kernels.apply header operands i = kernels.scale header (spreadAt (operands 0) i) := by
  have hrhs : ¬ supportsImplicitBroadcastRhs header.op := by
    intro hrhs
    cases hop : header.op <;> simp [hop, supportsImplicitBroadcastRhs,
      supportsImplicitBroadcastSrc0] at h hrhs
  rw [Kernels.apply, if_neg hrhs, if_pos h]

theorem supportsImplicitBroadcastRhs_of_commutative {op : Op} (h : isCommutativeElementwiseOp op) :
    supportsImplicitBroadcastRhs op := by
  cases op <;> simp [isCommutativeElementwiseOp, supportsImplicitBroadcastRhs] at h ⊢

variable (tensor : Tensor)

section

variable (index : Fin 10) (source : Option ℕ)

@[simp] theorem Tensor.setSrc_src :
    (tensor.setSrc index source).src = Function.update tensor.src index source := rfl

@[simp] theorem Tensor.setSrc_toHeader :
    (tensor.setSrc index source).toHeader = tensor.toHeader := rfl

@[simp] theorem Tensor.setSrc_viewSrc :
    (tensor.setSrc index source).viewSrc = tensor.viewSrc := rfl

end

theorem Tensor.sources_setSrc (slot : Fin 10) (source : Option ℕ) (index : Fin 10)
    (s : ℕ) (h : (tensor.setSrc slot source).src index = some s) :
    source = some s ∨ ∃ j, j ≠ slot ∧ tensor.src j = some s := by
  by_cases hindex : index = slot
  · rw [hindex, setSrc_src, Function.update_self] at h
    exact .inl h
  · rw [setSrc_src, Function.update_of_ne hindex] at h
    exact .inr ⟨index, hindex, h⟩

theorem of_canFoldRepeatUse {graph : Graph} :
    canFoldRepeatUse graph node consumer index →
      index = 1 ∧ supportsImplicitBroadcastRhs consumer.op := by
  rw [canFoldRepeatUse]
  split
  · simp only [Bool.and_eq_true, decide_eq_true_eq]
    exact And.left
  · exact fun h => absurd h Bool.false_ne_true

theorem of_canFoldLhsRepeatUse {graph : Graph} :
    canFoldLhsRepeatUse graph node consumer index →
      index = 0 ∧ isCommutativeElementwiseOp consumer.op := by
  rw [canFoldLhsRepeatUse]
  split
  · simp only [Bool.and_eq_true, decide_eq_true_eq]
    exact fun h => h.1.1
  · exact fun h => absurd h Bool.false_ne_true

theorem of_canFoldTwoSidedBroadcastRepeatUse {graph : Graph} :
    canFoldTwoSidedBroadcastRepeatUse graph node consumer index →
      index = 0 ∧ isCommutativeElementwiseOp consumer.op := by
  rw [canFoldTwoSidedBroadcastRepeatUse]
  split
  · simp only [Bool.and_eq_true, decide_eq_true_eq]
    exact fun h => h.1.1.1
  · exact fun h => absurd h Bool.false_ne_true

theorem of_canFoldUnaryBroadcastRepeatUse {graph : Graph} :
    canFoldUnaryBroadcastRepeatUse graph node consumer index →
      index = 0 ∧ supportsImplicitBroadcastSrc0 consumer.op := by
  rw [canFoldUnaryBroadcastRepeatUse]
  split
  · simp only [Bool.and_eq_true, decide_eq_true_eq]
    exact fun h => h.1.1
  · exact fun h => absurd h Bool.false_ne_true

theorem apply_congr [Inhabited E] (kernels : Kernels E) (h : broadcastsOperands header.op)
    {left right : Fin 10 → Option (Operand E)} {i : Fin 4 → ℕ}
    (hspread : ∀ index, spreadAt (left index) i = spreadAt (right index) i) :
    kernels.apply header left i = kernels.apply header right i := by
  rw [broadcastsOperands, Bool.or_eq_true] at h
  rcases h with hrhs | hsrc0
  · rw [apply_rhs kernels hrhs, apply_rhs kernels hrhs, hspread 0, hspread 1]
  · rw [apply_src0 kernels hsrc0, apply_src0 kernels hsrc0, hspread 0]

theorem FoldRule.Faithful.of_setSrc {rule : FoldRule}
    (hrewire : ∀ consumer source, rule.rewire consumer source = consumer.setSrc rule.slot source)
    (hcan : ∀ {graph node consumer index}, rule.canFold graph node consumer index →
      index = rule.slot ∧ broadcastsOperands consumer.op) : rule.Faithful where
  slot hfold := (hcan hfold).1
  broadcasts hfold := (hcan hfold).2
  header consumer source := by rw [hrewire, Tensor.setSrc_toHeader]
  viewSrc consumer source := by rw [hrewire, Tensor.setSrc_viewSrc]
  sources consumer source index s h := by
    rw [hrewire] at h
    exact consumer.sources_setSrc rule.slot source index s h
  keeps consumer source j hj :=
    ⟨j, by rw [hrewire, Tensor.setSrc_src, Function.update_of_ne hj]⟩
  moves consumer source :=
    ⟨rule.slot, by rw [hrewire, Tensor.setSrc_src, Function.update_self]⟩
  apply hfold E _ kernels look source i hspread := by
    apply apply_congr kernels (hcan hfold).2
    intro index
    rw [hrewire, Tensor.setSrc_src]
    by_cases hindex : index = rule.slot
    · rw [hindex, Function.update_self]
      exact hspread
    · rw [Function.update_of_ne hindex]

theorem broadcastRepeat_faithful : broadcastRepeat.Faithful := by
  apply FoldRule.Faithful.of_setSrc (fun _ _ => rfl)
  intro graph node consumer index hfold
  obtain ⟨hindex, hop⟩ := of_canFoldRepeatUse hfold
  exact ⟨hindex, by rw [broadcastsOperands, hop, Bool.true_or]⟩

theorem twoSidedBroadcastRepeat_faithful : twoSidedBroadcastRepeat.Faithful := by
  apply FoldRule.Faithful.of_setSrc (fun _ _ => rfl)
  intro graph node consumer index hfold
  obtain ⟨hindex, hop⟩ := of_canFoldTwoSidedBroadcastRepeatUse hfold
  have hrhs := supportsImplicitBroadcastRhs_of_commutative hop
  exact ⟨hindex, by rw [broadcastsOperands, hrhs, Bool.true_or]⟩

theorem unaryBroadcastRepeat_faithful : unaryBroadcastRepeat.Faithful := by
  apply FoldRule.Faithful.of_setSrc (fun _ _ => rfl)
  intro graph node consumer index hfold
  obtain ⟨hindex, hop⟩ := of_canFoldUnaryBroadcastRepeatUse hfold
  exact ⟨hindex, by rw [broadcastsOperands, hop, Bool.or_true]⟩

theorem commutativeLhsRepeat_src (consumer : Tensor) (source : Option ℕ) (index : Fin 10) :
    (commutativeLhsRepeat.rewire consumer source).src index =
      if index = 1 then source else if index = 0 then consumer.src 1 else consumer.src index := by
  change Function.update (Function.update consumer.src 0 (consumer.src 1)) 1 source index = _
  simp only [Function.update_apply]

theorem commutativeLhsRepeat_faithful : commutativeLhsRepeat.Faithful where
  slot hfold := (of_canFoldLhsRepeatUse hfold).1
  broadcasts hfold := by
    have hrhs := supportsImplicitBroadcastRhs_of_commutative (of_canFoldLhsRepeatUse hfold).2
    rw [broadcastsOperands, hrhs, Bool.true_or]
  header consumer source := rfl
  viewSrc consumer source := rfl
  sources consumer source index s h := by
    rw [commutativeLhsRepeat_src] at h
    split_ifs at h with h1 h0
    · exact .inl h
    · exact .inr ⟨1, by decide, h⟩
    · exact .inr ⟨index, h0, h⟩
  keeps consumer source j hj := by
    by_cases h1 : j = 1
    · exact ⟨0, by rw [commutativeLhsRepeat_src, if_neg (by decide), if_pos rfl, h1]⟩
    · exact ⟨j, by rw [commutativeLhsRepeat_src, if_neg h1, if_neg (show j ≠ 0 from hj)]⟩
  moves consumer source := ⟨1, by rw [commutativeLhsRepeat_src, if_pos rfl]⟩
  apply hfold E _ kernels look source i hspread := by
    have hcomm := (of_canFoldLhsRepeatUse hfold).2
    have hrhs := supportsImplicitBroadcastRhs_of_commutative hcomm
    rw [apply_rhs kernels hrhs, apply_rhs kernels hrhs, commutativeLhsRepeat_src,
      commutativeLhsRepeat_src]
    -- the operands have changed places
    rw [if_neg (by decide), if_pos rfl, if_pos rfl, hspread]
    exact kernels.comm _ hcomm ..

theorem foldRules_faithful (options : GraphOptimizationOptions) :
    ∀ rule ∈ foldRules options, rule.Faithful := by
  intro rule hrule
  simp only [foldRules, List.mem_append, List.mem_ite_nil_right, List.mem_singleton] at hrule
  rcases hrule with ((⟨-, rfl⟩ | ⟨-, rfl⟩) | ⟨-, rfl⟩) | ⟨-, rfl⟩
  · exact broadcastRepeat_faithful
  · exact commutativeLhsRepeat_faithful
  · exact twoSidedBroadcastRepeat_faithful
  · exact unaryBroadcastRepeat_faithful

/-! ## One fold -/

theorem mem_usesOf {graph : Graph} {id : ℕ} {use : ℕ × Fin 10} :
    use ∈ usesOf graph id later ↔ use.1 ∈ later ∧ (graph.tensor use.1).src use.2 = some id := by
  obtain ⟨consumer, index⟩ := use
  simp [usesOf]

theorem Graph.setTensor_of_ne (graph : Graph) {id n : ℕ} (tensor : Tensor) (h : n ≠ id) :
    (graph.setTensor id tensor).tensor n = graph.tensor n :=
  Function.update_of_ne h ..

theorem rewireUses_nodes (rule : FoldRule) (graph : Graph) (id : ℕ) (later : List ℕ) :
    (rewireUses rule graph id later).nodes = graph.nodes := by
  induction later generalizing graph with
  | nil => rfl
  | cons consumer later ih =>
    rw [rewireUses, List.foldl_cons]
    refine (ih _).trans ?_
    split_ifs
    · rfl
    · rfl

theorem rewireUses_tensor (rule : FoldRule) (graph : Graph) {id : ℕ} (hnodup : later.Nodup)
    (hid : id ∉ later) (n : ℕ) :
    (rewireUses rule graph id later).tensor n =
      if n ∈ later ∧ (graph.tensor n).src rule.slot = some id then
        rule.rewire (graph.tensor n) ((graph.tensor id).src 0) else graph.tensor n := by
  induction later generalizing graph with
  | nil => simp [rewireUses]
  | cons consumer later ih =>
    rw [List.nodup_cons] at hnodup
    rw [List.mem_cons, not_or] at hid
    rw [rewireUses, List.foldl_cons]
    refine (ih _ hnodup.2 hid.2).trans ?_
    by_cases hn : n = consumer
    · subst hn
      rw [if_neg fun h => hnodup.1 h.1]
      by_cases huse : (graph.tensor n).src rule.slot = some id
      · rw [if_pos huse, if_pos ⟨List.mem_cons_self, huse⟩]
        exact Function.update_self ..
      · rw [if_neg huse, if_neg fun h => huse h.2]
    · simp only [List.mem_cons, hn, false_or]
      split
      · rw [graph.setTensor_of_ne _ hn, graph.setTensor_of_ne _ hid.1]
      · rfl

def Graph.PointsTo (graph : Graph) (n m : ℕ) : Prop := ∃ index, (graph.tensor n).src index = some m

theorem Graph.SourcesBefore.ordered {graph : Graph} (h : graph.SourcesBefore)
    (hnodup : graph.nodes.Nodup) : Ordered graph.PointsTo graph.nodes := by
  apply Ordered.of_before hnodup
  rintro before n after hsplit m ⟨index, hm⟩
  exact h before n after hsplit index m hm

variable {before : List ℕ}

theorem Graph.SourcesBefore.mem_later {graph : Graph} (h : graph.SourcesBefore)
    (hnodup : graph.nodes.Nodup) {id n : ℕ} (hsplit : graph.nodes = before ++ id :: later)
    (hn : n ∈ graph.nodes) (hpoints : graph.PointsTo n id) : n ∈ later := by
  have hordered := h.ordered hnodup
  have hlater := hordered.later
  rw [hsplit, List.pairwise_append] at hlater
  rw [hsplit, List.mem_append, List.mem_cons] at hn
  rcases hn with hbefore | rfl | hn
  · exact absurd hpoints (hlater.2.2 n hbefore id List.mem_cons_self)
  · exact absurd hpoints (hordered.irrefl n (by simp [hsplit]))
  · exact hn

/-- What holds of the graph whenever a fold is done with: only consumers that spread their operands
have changed, and no listed node points to a folded repeat. -/
structure Folding (graph : Graph) (state : FoldState) : Prop where
  nodes : state.graph.nodes = graph.nodes
  alike : graph.Alike state.graph
  untouched : ∀ id, broadcastsOperands (graph.tensor id).op = false →
    (state.graph.tensor id).src = (graph.tensor id).src
  sources : state.graph.SourcesBefore
  repeats : ∀ id, state.isFolded id →
    id ∈ graph.nodes ∧ (graph.tensor id).op = .opRepeat ∧ (graph.tensor id).output = false
  unused : ∀ id, state.isFolded id → ∀ n ∈ graph.nodes, ¬ state.graph.PointsTo n id
  empty : ∀ n ∈ graph.nodes, broadcastsOperands (graph.tensor n).op → ∀ s,
    state.graph.PointsTo n s → isEmpty (graph.tensor s) → isEmpty (graph.tensor n)

/-- All that one fold does. -/
structure FoldStep (rule : FoldRule) (graph : Graph) (state state' : FoldState) (id source : ℕ) :
    Prop where
  mem : id ∈ graph.nodes
  op : (graph.tensor id).op = .opRepeat
  output : (graph.tensor id).output = false
  source_eq : (graph.tensor id).src 0 = some source
  used : ∃ n ∈ graph.nodes, state.graph.PointsTo n id
  uses : ∀ n ∈ graph.nodes, ∀ index, (state.graph.tensor n).src index = some id →
    rule.canFold state.graph (state.graph.tensor id) (state.graph.tensor n) index
  nodes : state'.graph.nodes = state.graph.nodes
  tensor : ∀ n, state'.graph.tensor n =
    if n ∈ graph.nodes ∧ (state.graph.tensor n).src rule.slot = some id then
      rule.rewire (state.graph.tensor n) (some source)
    else state.graph.tensor n
  folded : ∀ m, state'.isFolded m ↔ m = id ∨ state.isFolded m

theorem foldRepeat_cases {graph : Graph} (h : graph.WellFormed) {state : FoldState}
    (hfolding : Folding graph state) (options : GraphOptimizationOptions) (nodesBefore : ℕ)
    (rule : FoldRule) {id : ℕ} (hsplit : graph.nodes = before ++ id :: later) :
    foldRepeat options nodesBefore rule id later state = state ∨ ∃ source,
      FoldStep rule graph state (foldRepeat options nodesBefore rule id later state) id source := by
  have hmem : id ∈ graph.nodes := by simp [hsplit]
  have hnodup : (id :: later).Nodup := (List.nodup_append.mp (hsplit ▸ h.nodup)).2.1
  rw [List.nodup_cons] at hnodup
  have hlater : ∀ n ∈ graph.nodes, state.graph.PointsTo n id → n ∈ later := by
    intro n hn hpoints
    apply hfolding.sources.mem_later (hfolding.nodes ▸ h.nodup) (hfolding.nodes.trans hsplit)
      (hfolding.nodes ▸ hn) hpoints
  have hsub : ∀ n ∈ later, n ∈ graph.nodes := by
    intro n hn
    simp [hsplit, hn]
  rw [foldRepeat]
  split_ifs with hskip hblocked
  · exact .inl rfl
  · exact .inl rfl
  · right
    simp only [not_or, not_not, Bool.not_eq_true, Bool.not_eq_false] at hskip
    simp only [not_or, not_exists, not_and, Bool.not_eq_false, Bool.not_eq_true] at hblocked
    rw [hfolding.alike.op] at hskip
    obtain ⟨-, source, hsource, -⟩ := h.repeats id hmem hskip.1
    have hnotbroadcasts : broadcastsOperands (graph.tensor id).op = false := by rw [hskip.1]; rfl
    have hsrc : (state.graph.tensor id).src 0 = some source := by
      rw [hfolding.untouched id hnotbroadcasts, hsource]
    refine ⟨source, hmem, hskip.1, ?_, hsource, ?_, ?_, rewireUses_nodes .., ?_, ?_⟩
    · have houtput := hskip.2.2
      rw [canElideFromExecutionSchedule, hfolding.alike.header] at houtput
      simpa using houtput
    · obtain ⟨use, huse⟩ := List.exists_mem_of_ne_nil _ (by simpa using hblocked.1)
      obtain ⟨hn, hpoints⟩ := mem_usesOf.mp huse
      exact ⟨use.1, hsub _ hn, use.2, hpoints⟩
    · intro n hn index hindex
      exact (hblocked.2 (n, index) (mem_usesOf.mpr ⟨hlater n hn ⟨index, hindex⟩, hindex⟩)).1
    · intro n
      rw [rewireUses_tensor rule state.graph hnodup.2 hnodup.1, hsrc]
      have hiff : n ∈ later ∧ (state.graph.tensor n).src rule.slot = some id ↔
          n ∈ graph.nodes ∧ (state.graph.tensor n).src rule.slot = some id := by
        constructor
        · exact fun hn => ⟨hsub n hn.1, hn.2⟩
        · exact fun hn => ⟨hlater n hn.1 ⟨rule.slot, hn.2⟩, hn.2⟩
      rw [if_congr hiff rfl rfl]
    · intro m
      simp [FoldState.isFolded, eq_comm]

namespace FoldStep

variable {rule : FoldRule} {graph : Graph} {state state' : FoldState} {id source : ℕ}
variable (hstep : FoldStep rule graph state state' id source) (hrule : rule.Faithful)
include hstep

variable {n : ℕ}

theorem tensor_of_slot (hn : n ∈ graph.nodes)
    (hslot : (state.graph.tensor n).src rule.slot = some id) :
    state'.graph.tensor n = rule.rewire (state.graph.tensor n) (some source) := by
  rw [hstep.tensor, if_pos ⟨hn, hslot⟩]

theorem tensor_of_not (h : ¬ (n ∈ graph.nodes ∧ (state.graph.tensor n).src rule.slot = some id)) :
    state'.graph.tensor n = state.graph.tensor n := by
  rw [hstep.tensor, if_neg h]

include hrule

theorem slot_of_points (hn : n ∈ graph.nodes) {index : Fin 10}
    (hindex : (state.graph.tensor n).src index = some id) : index = rule.slot :=
  hrule.slot (hstep.uses n hn index hindex)

theorem alike : state.graph.Alike state'.graph := by
  constructor
  · intro n
    rw [hstep.tensor]
    split
    · exact hrule.header ..
    · rfl
  · intro n
    rw [hstep.tensor]
    split
    · exact hrule.viewSrc ..
    · rfl

theorem points {m : ℕ} (hn : n ∈ graph.nodes) :
    state'.graph.PointsTo n m ↔
      m ≠ id ∧ state.graph.PointsTo n m ∨ m = source ∧ state.graph.PointsTo n id := by
  by_cases hslot : (state.graph.tensor n).src rule.slot = some id
  · rw [Graph.PointsTo, hstep.tensor_of_slot hn hslot]
    constructor
    · rintro ⟨index, hindex⟩
      rcases hrule.sources _ _ _ _ hindex with hnew | ⟨j, hj, hold⟩
      · exact .inr ⟨(Option.some.inj hnew).symm, rule.slot, hslot⟩
      · left
        refine ⟨?_, j, hold⟩
        rintro rfl
        exact hj (hstep.slot_of_points hrule hn hold)
    · rintro (⟨hne, j, hold⟩ | ⟨rfl, -⟩)
      · have hj : j ≠ rule.slot := by
          rintro rfl
          exact hne (Option.some.inj (hold.symm.trans hslot))
        obtain ⟨index, hindex⟩ := hrule.keeps (state.graph.tensor n) (some source) j hj
        exact ⟨index, hindex.trans hold⟩
      · exact hrule.moves ..
  · have hnone : ¬ state.graph.PointsTo n id := by
      rintro ⟨index, hindex⟩
      rw [hstep.slot_of_points hrule hn hindex] at hindex
      exact hslot hindex
    rw [Graph.PointsTo, hstep.tensor_of_not fun h => hslot h.2]
    constructor
    · rintro hpoints
      left
      refine ⟨?_, hpoints⟩
      rintro rfl
      exact hnone hpoints
    · rintro (⟨-, hpoints⟩ | ⟨-, hpoints⟩)
      · exact hpoints
      · exact absurd hpoints hnone

end FoldStep

theorem Folding.init {graph : Graph} (h : graph.WellFormed) : Folding graph ⟨graph, []⟩ where
  nodes := rfl
  alike := ⟨fun _ => rfl, fun _ => rfl⟩
  untouched _ _ := rfl
  sources := h.sources
  repeats id hid := by simp [FoldState.isFolded] at hid
  unused id hid := by simp [FoldState.isFolded] at hid
  empty n hn hop s hs hempty := by
    obtain ⟨index, hindex⟩ := hs
    have hcan := h.broadcasts n hn hop index s hindex
    rw [canRepeat, if_pos hempty] at hcan
    exact hcan

namespace Folding

variable {graph : Graph} {state : FoldState} (hfolding : Folding graph state)
include hfolding

theorem src_of_repeat {id : ℕ} (hop : (graph.tensor id).op = .opRepeat) :
    (state.graph.tensor id).src = (graph.tensor id).src := by
  apply hfolding.untouched
  rw [hop]
  rfl

theorem mem_before {before after : List ℕ} {n m : ℕ} (hsplit : graph.nodes = before ++ n :: after)
    (hpoints : state.graph.PointsTo n m) : m ∈ before ∨ m ∉ graph.nodes := by
  obtain ⟨index, hindex⟩ := hpoints
  have hsources := hfolding.sources before n after (hfolding.nodes.trans hsplit) index m hindex
  rwa [hfolding.nodes] at hsources

variable {rule : FoldRule} {state' : FoldState} {id source : ℕ}

theorem step (h : graph.WellFormed) (hrule : rule.Faithful)
    (hstep : FoldStep rule graph state state' id source) : Folding graph state' := by
  have hpoints {n m : ℕ} := hstep.points hrule (n := n) (m := m)
  have halike : graph.Alike state'.graph := hfolding.alike.trans (hstep.alike hrule)
  have hidsource : state.graph.PointsTo id source :=
    ⟨0, by rw [hfolding.src_of_repeat hstep.op, hstep.source_eq]⟩
  have hnodes := hstep.nodes.trans hfolding.nodes
  have hirrefl : ¬ state.graph.PointsTo id id := by
    apply (hfolding.sources.ordered (hfolding.nodes ▸ h.nodup)).irrefl
    rw [hfolding.nodes]
    exact hstep.mem
  refine ⟨hnodes, halike, ?_, ?_, ?_, ?_, ?_⟩
  · intro n hop
    rw [hstep.tensor_of_not, hfolding.untouched n hop]
    rintro ⟨hn, hslot⟩
    have hbroadcasts := hrule.broadcasts (hstep.uses n hn _ hslot)
    rw [hfolding.alike.op, hop] at hbroadcasts
    exact Bool.false_ne_true hbroadcasts
  · -- the repeated tensor stands before the repeat, and the repeat before its consumer
    intro before n after hsplit index s hs
    rw [hnodes] at hsplit ⊢
    have hn : n ∈ graph.nodes := by simp [hsplit]
    rcases (hpoints hn).mp ⟨index, hs⟩ with ⟨-, hold⟩ | ⟨rfl, huse⟩
    · exact hfolding.mem_before hsplit hold
    · rcases hfolding.mem_before hsplit huse with hbefore | hout
      · obtain ⟨first, rest, rfl⟩ := List.append_of_mem hbefore
        have hsplit' : graph.nodes = first ++ id :: (rest ++ n :: after) := by
          rw [hsplit, List.append_assoc]
          rfl
        exact (hfolding.mem_before hsplit' hidsource).imp_left (List.mem_append_left _)
      · exact absurd hstep.mem hout
  · intro m hm
    rcases (hstep.folded m).mp hm with rfl | hm
    · exact ⟨hstep.mem, hstep.op, hstep.output⟩
    · exact hfolding.repeats m hm
  · intro m hm n hn huse
    rcases (hstep.folded m).mp hm with rfl | hm
    · rcases (hpoints hn).mp huse with ⟨hne, -⟩ | ⟨heq, -⟩
      · exact hne rfl
      · rw [← heq] at hidsource
        exact hirrefl hidsource
    · rcases (hpoints hn).mp huse with ⟨-, hold⟩ | ⟨rfl, -⟩
      · exact hfolding.unused m hm n hn hold
      · exact hfolding.unused m hm id hstep.mem hidsource
  · intro n hn hop s hs hempty
    rcases (hpoints hn).mp hs with ⟨-, hold⟩ | ⟨rfl, huse⟩
    · exact hfolding.empty n hn hop s hold hempty
    · obtain ⟨-, a, ha, hcan⟩ := h.repeats id hstep.mem hstep.op
      rw [hstep.source_eq, Option.some.injEq] at ha
      subst ha
      rw [canRepeat, if_pos hempty] at hcan
      exact hfolding.empty n hn hop id huse hcan

end Folding

/-! ## Values under a fold -/

section Values

variable [Inhabited E] (kernels : Kernels E)

theorem apply_repeat {header : Header} (h : header.op = .opRepeat)
    (operands : Fin 10 → Option (Operand E)) :
    kernels.apply header operands = spreadAt (operands 0) := by
  rw [Kernels.apply, h, if_neg (by decide), if_neg (by decide), if_pos rfl]

variable {store : ℕ → Value E}

theorem spread_repeat {graph : Graph} (hsolves : kernels.Solves graph store) {id source : ℕ}
    (hid : id ∈ graph.nodes) (hop : (graph.tensor id).op = .opRepeat)
    (hsource : (graph.tensor id).src 0 = some source)
    (hcan : canRepeat (graph.tensor source) (graph.tensor id))
    (hne : isEmpty (graph.tensor id) = false) :
    (kernels.operand graph store source).spread = (kernels.operand graph store id).spread := by
  have hcomputes : computes graph id = true := by
    rw [computes, hop]
    rfl
  have hvalue : kernels.content graph store id =
      restrict (graph.tensor id).ne (kernels.operand graph store source).spread := by
    rw [content_of_computes kernels store hcomputes, hsolves id hid hcomputes, Kernels.result,
      apply_repeat kernels hop, hsource]
    rfl
  have hpos : ∀ d, 0 < (graph.tensor id).ne d := by
    simpa [isEmpty, Nat.pos_iff_ne_zero] using hne
  have hdvd : ∀ d, (graph.tensor source).ne d ∣ (graph.tensor id).ne d := by
    intro d
    rw [canRepeat] at hcan
    split_ifs at hcan with hempty
    · rw [hcan] at hne
      exact absurd hne.symm Bool.false_ne_true
    · exact Nat.dvd_of_mod_eq_zero (of_decide_eq_true hcan d)
  funext i
  change _ = kernels.content graph store id fun d => i d % (graph.tensor id).ne d
  rw [hvalue, restrict_of_lt _ fun d => Nat.mod_lt _ (hpos d)]
  change kernels.content graph store source _ = kernels.content graph store source _
  congr 1
  funext d
  exact (Nat.mod_mod_of_dvd (i d) (hdvd d)).symm

variable {graph : Graph} {state state' : FoldState} {rule : FoldRule} {id source : ℕ}

theorem FoldStep.solves (h : graph.WellFormed) (hfolding : Folding graph state)
    (hrule : rule.Faithful) (hstep : FoldStep rule graph state state' id source)
    (hsolves : kernels.Solves state.graph store) : kernels.Solves state'.graph store := by
  have halike := hstep.alike hrule
  have hoperand : kernels.operand state'.graph store = kernels.operand state.graph store := by
    funext m
    exact halike.operand_eq kernels store m
  intro n hn hcomputes
  rw [hstep.nodes] at hn
  rw [halike.computes_eq] at hcomputes
  have hlisted : n ∈ graph.nodes := hfolding.nodes ▸ hn
  rw [stored, halike.ne]
  refine (hsolves n hn hcomputes).trans (restrict_congr ?_)
  intro i hi
  rw [Kernels.result, Kernels.result, hoperand, halike.header]
  by_cases hslot : (state.graph.tensor n).src rule.slot = some id
  · have hfold := hstep.uses n hlisted _ hslot
    rw [hstep.tensor_of_slot hlisted hslot]
    refine (hrule.apply hfold kernels _ _ i ?_).symm
    rw [hslot, Option.map_some, Option.map_some]
    have hid : id ∈ state.graph.nodes := hfolding.nodes.symm ▸ hstep.mem
    have hop : (state.graph.tensor id).op = .opRepeat := (hfolding.alike.op id).trans hstep.op
    have hsource : (state.graph.tensor id).src 0 = some source := by
      rw [hfolding.src_of_repeat hstep.op, hstep.source_eq]
    obtain ⟨-, a, ha, hcan⟩ := h.repeats id hstep.mem hstep.op
    rw [hstep.source_eq, Option.some.injEq] at ha
    subst ha
    have hbroadcasts : broadcastsOperands (graph.tensor n).op := by
      rw [← hfolding.alike.op]
      exact hrule.broadcasts hfold
    -- the consumer has an index, so that the repeat is not empty
    have hne : isEmpty (graph.tensor id) = false := by
      by_contra hempty
      rw [Bool.not_eq_false] at hempty
      have hn := hfolding.empty n hlisted hbroadcasts id ⟨_, hslot⟩ hempty
      obtain ⟨d, hd⟩ := of_decide_eq_true hn
      have hlt := hi d
      rw [hfolding.alike.ne, hd] at hlt
      exact Nat.not_lt_zero _ hlt
    rw [← hfolding.alike.canRepeat_eq] at hcan
    rw [← hfolding.alike.isEmpty_eq] at hne
    exact congrFun (spread_repeat kernels hsolves hid hop hsource hcan hne) i
  · rw [hstep.tensor_of_not fun huse => hslot huse.2]

end Values

/-! ## All folds -/

section AllFolds

variable {graph : Graph} (h : graph.WellFormed) {P : FoldState → Prop}
variable (hstep : ∀ {rule state state' id source}, rule.Faithful → Folding graph state →
  FoldStep rule graph state state' id source → P state → P state')
include h hstep

theorem foldPass_induction (options : GraphOptimizationOptions) (nodesBefore : ℕ) {rule : FoldRule}
    (hrule : rule.Faithful) (before later : List ℕ) (hsplit : graph.nodes = before ++ later)
    {state : FoldState} (hstate : Folding graph state ∧ P state) :
    Folding graph (foldPass options nodesBefore rule later state) ∧
      P (foldPass options nodesBefore rule later state) := by
  fun_induction foldPass options nodesBefore rule later state generalizing before with
  | case1 state => exact hstate
  | case2 id state => exact hstate
  | case3 id next later state ih =>
    apply ih (before ++ [id])
    · rw [hsplit, List.append_assoc]
      rfl
    · rcases foldRepeat_cases h hstate.1 options nodesBefore rule hsplit with heq | ⟨source, hfold⟩
      · rw [heq]
        exact hstate
      · exact ⟨hstate.1.step h hrule hfold, hstep hrule hstate.1 hfold hstate.2⟩

theorem foldRepeats_induction (hinit : P ⟨graph, []⟩) (options : GraphOptimizationOptions) :
    Folding graph (foldRepeats options graph) ∧ P (foldRepeats options graph) := by
  rw [foldRepeats]
  refine List.foldlRecOn (motive := fun state => Folding graph state ∧ P state) _ _
    ⟨Folding.init h, hinit⟩ ?_
  intro state hstate rule hmem
  exact foldPass_induction h hstep options _ (foldRules_faithful options rule hmem) [] _ rfl hstate

end AllFolds

end FastTts.GraphOptimizer
