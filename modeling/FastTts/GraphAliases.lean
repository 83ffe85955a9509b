import FastTts.GraphFolding

/-!
# Resolving aliases

An identity copy is an alias of its source, and the sources of every node are replaced by what they
resolve to. A chain of aliases goes down the node list, so that the rounds of `resolve_alias` are
enough to reach its end.
-/

namespace FastTts.GraphOptimizer

open Schedules

variable {E : Type}

/-! ## Chains -/

section Chains

variable {aliases : ℕ → Option ℕ} {n : ℕ}

theorem resolveAlias_of_none (h : aliases n = none) (rounds : ℕ) :
    resolveAlias aliases rounds n = n := by
  cases rounds with
  | zero => rfl
  | succ rounds => rw [resolveAlias, h]

/-- What holds of a node and goes on to aliased sources, holds of what the node resolves to. -/
theorem resolveAlias_induction {P : ℕ → Prop} (hstep : ∀ n t, aliases n = some t → P n → P t)
    (rounds : ℕ) (hn : P n) : P (resolveAlias aliases rounds n) := by
  induction rounds generalizing n with
  | zero => exact hn
  | succ rounds ih =>
    rw [resolveAlias]
    split
    · rename_i t ht
      exact ih (hstep n t ht hn)
    · exact hn

theorem resolveAlias_cases (rounds n : ℕ) : resolveAlias aliases rounds n = n ∨
    ∃ m, aliases m = some (resolveAlias aliases rounds n) := by
  apply resolveAlias_induction (P := fun t => t = n ∨ ∃ m, aliases m = some t)
  · exact fun m t ht _ => .inr ⟨m, ht⟩
  · exact .inl rfl

theorem resolveAlias_succ (rounds n : ℕ) : resolveAlias aliases (rounds + 1) n =
    (aliases (resolveAlias aliases rounds n)).getD (resolveAlias aliases rounds n) := by
  induction rounds generalizing n with
  | zero =>
    rw [resolveAlias, resolveAlias]
    cases aliases n <;> rfl
  | succ rounds ih =>
    rw [resolveAlias]
    cases hn : aliases n with
    | none => rw [resolveAlias_of_none hn, hn, Option.getD_none]
    | some t =>
      change resolveAlias aliases (rounds + 1) t = _
      rw [ih t, resolveAlias, hn]

variable {rank : ℕ → ℕ} (hrank : ∀ n t, aliases n = some t → rank t < rank n)
include hrank

theorem aliases_resolveAlias {rounds : ℕ} (h : rank n ≤ rounds) :
    aliases (resolveAlias aliases rounds n) = none := by
  induction rounds generalizing n with
  | zero =>
    cases hn : aliases n with
    | none => exact hn
    | some t =>
      have hlt := hrank n t hn
      omega
  | succ rounds ih =>
    rw [resolveAlias]
    cases hn : aliases n with
    | none => exact hn
    | some t =>
      have hlt := hrank n t hn
      exact ih (by omega)

theorem resolveAlias_target {rounds t : ℕ} (h : rank n ≤ rounds) (ht : aliases n = some t) :
    resolveAlias aliases rounds n = resolveAlias aliases rounds t := by
  have hlt := hrank n t ht
  obtain ⟨rounds, rfl⟩ : ∃ k, rounds = k + 1 := Nat.exists_eq_add_one.mpr (by omega)
  have hend : aliases (resolveAlias aliases rounds t) = none :=
    aliases_resolveAlias hrank (by omega)
  calc resolveAlias aliases (rounds + 1) n
      = resolveAlias aliases rounds t := by rw [resolveAlias, ht]
    _ = resolveAlias aliases (rounds + 1) t := by rw [resolveAlias_succ, hend, Option.getD_none]

end Chains

/-! ## Aliases of a graph -/

variable {n : ℕ}

section

variable {options : GraphOptimizationOptions} {graph : Graph} {t : ℕ}
  (h : aliases options graph n = some t)
include h

theorem aliases_eq_some :
    options.foldIdentityMaterializations = true ∧ n ∈ graph.nodes ∧
      (graph.tensor n).output = false ∧ (graph.tensor n).src 0 = some t ∧
      sameTypeShapeAndLayout (graph.tensor n) (graph.tensor t) ∧
      ((graph.tensor n).op = .opCont ∨ (graph.tensor n).op = .opDup ∨
        (graph.tensor n).op = .opRepeat) := by
  rw [aliases] at h
  split_ifs at h with hcan
  obtain ⟨hfold, hmem, helide, hidentity, -⟩ := hcan
  refine ⟨hfold, List.mem_of_mem_dropLast hmem, by simpa [canElideFromExecutionSchedule] using helide,
    h, ?_⟩
  rw [isIdentityMaterialization, h, Bool.and_eq_true] at hidentity
  refine ⟨hidentity.1, ?_⟩
  have hop := hidentity.2
  split at hop
  · rename_i hcont
    exact .inl hcont
  · rename_i hdup
    exact .inr (.inl hdup)
  · rename_i hrepeat
    exact .inr (.inr hrepeat)
  · exact absurd hop Bool.false_ne_true

theorem computes_of_alias : computes graph n = true := by
  obtain ⟨-, -, -, -, -, hop⟩ := aliases_eq_some h
  rw [computes]
  rcases hop with hop | hop | hop <;> rw [hop] <;> rfl

end

def rankOf (nodes : List ℕ) (n : ℕ) : ℕ := if n ∈ nodes then nodes.idxOf n + 1 else 0

theorem rankOf_le (nodes : List ℕ) (n : ℕ) : rankOf nodes n ≤ nodes.length := by
  rw [rankOf]
  split_ifs with h
  · exact List.idxOf_lt_length_iff.mpr h
  · exact Nat.zero_le _

theorem rankOf_lt {before after : List ℕ} {m : ℕ} (hnodup : (before ++ n :: after).Nodup)
    (h : m ∈ before ∨ m ∉ before ++ n :: after) :
    rankOf (before ++ n :: after) m < rankOf (before ++ n :: after) n := by
  have hn : n ∈ before ++ n :: after := by simp
  have hnot : n ∉ before :=
    fun hmem => (List.nodup_append.mp hnodup).2.2 n hmem n List.mem_cons_self rfl
  have hindex : (before ++ n :: after).idxOf n = before.length := by
    rw [List.idxOf_append_of_notMem hnot, List.idxOf_cons_self, Nat.add_zero]
  rw [rankOf, rankOf, if_pos hn, hindex]
  split_ifs with hm
  · have hbefore := h.resolve_right fun hnone => hnone hm
    rw [List.idxOf_append_of_mem hbefore]
    exact Nat.add_lt_add_right (List.idxOf_lt_length_iff.mpr hbefore) 1
  · exact Nat.succ_pos _

theorem rankOf_alias {graph : Graph} (h : graph.WellFormed) {options : GraphOptimizationOptions}
    (n t : ℕ) (ht : aliases options graph n = some t) :
    rankOf graph.nodes t < rankOf graph.nodes n := by
  obtain ⟨-, hn, -, hsrc, -, -⟩ := aliases_eq_some ht
  obtain ⟨before, after, hsplit⟩ := List.append_of_mem hn
  have hbefore := h.sources before n after hsplit 0 t hsrc
  have hnodup := h.nodup
  rw [hsplit] at hbefore hnodup ⊢
  exact rankOf_lt hnodup hbefore

/-- What the alias pass replaces a source by. -/
def resolved (options : GraphOptimizationOptions) (graph : Graph) (n : ℕ) : ℕ :=
  resolveAlias (aliases options graph) graph.nodes.length n

section Resolved

variable {graph : Graph} {options : GraphOptimizationOptions}

theorem resolved_of_none {n : ℕ} (h : aliases options graph n = none) :
    resolved options graph n = n :=
  resolveAlias_of_none h _

theorem aliases_resolved (h : graph.WellFormed) (n : ℕ) :
    aliases options graph (resolved options graph n) = none :=
  aliases_resolveAlias (rankOf_alias h) (rankOf_le ..)

theorem resolved_of_alias (h : graph.WellFormed) {n t : ℕ} (ht : aliases options graph n = some t) :
    resolved options graph n = resolved options graph t :=
  resolveAlias_target (rankOf_alias h) (rankOf_le ..) ht

end Resolved

/-! ## Aliases and folds -/

theorem Folding.tensor_eq {graph : Graph} {state : FoldState} (hfolding : Folding graph state)
    (hop : broadcastsOperands (graph.tensor n).op = false) :
    state.graph.tensor n = graph.tensor n := by
  have hheader := hfolding.alike.header n
  have hsrc := hfolding.untouched n hop
  have hview := hfolding.alike.viewSrc n
  cases hnew : state.graph.tensor n with
  | mk header src viewSrc =>
    rw [hnew] at hheader hsrc hview
    cases hold : graph.tensor n with
    | mk header' src' viewSrc' =>
      rw [hold] at hheader hsrc hview
      simp only at hheader hsrc hview
      rw [hheader, hsrc, hview]

theorem isIdentityMaterialization_of_broadcasts (graph : Graph) {node : Tensor}
    (hop : broadcastsOperands node.op) : isIdentityMaterialization graph node = false := by
  rw [isIdentityMaterialization]
  split
  · rfl
  · cases hnode : node.op <;> simp [hnode, broadcastsOperands, supportsImplicitBroadcastRhs,
      supportsImplicitBroadcastSrc0] at hop ⊢

theorem Folding.aliases_eq {graph : Graph} {state : FoldState} (hfolding : Folding graph state)
    (options : GraphOptimizationOptions) : aliases options state.graph = aliases options graph := by
  funext n
  have hidentity : isIdentityMaterialization state.graph (state.graph.tensor n) =
      isIdentityMaterialization graph (graph.tensor n) := by
    cases hop : broadcastsOperands (graph.tensor n).op with
    | true =>
      rw [isIdentityMaterialization_of_broadcasts graph hop]
      apply isIdentityMaterialization_of_broadcasts
      rw [hfolding.alike.op]
      exact hop
    | false =>
      rw [isIdentityMaterialization, isIdentityMaterialization]
      rw [hfolding.tensor_eq hop]
      cases (graph.tensor n).src 0 with
      | none => rfl
      | some t =>
        simp only [sameTypeShapeAndLayout]
        rw [hfolding.alike.header]
  have helide : canElideFromExecutionSchedule (state.graph.tensor n) =
      canElideFromExecutionSchedule (graph.tensor n) := by
    rw [canElideFromExecutionSchedule, canElideFromExecutionSchedule, hfolding.alike.header]
  rw [aliases, aliases, hfolding.nodes, helide, hidentity]
  split_ifs with hcan
  · have hnone : broadcastsOperands (graph.tensor n).op = false := by
      rw [← Bool.not_eq_true]
      intro hop
      rw [isIdentityMaterialization_of_broadcasts graph hop] at hcan
      exact Bool.false_ne_true hcan.2.2.2.1
    rw [hfolding.untouched n hnone]
  · rfl

/-! ## Values under the aliases -/

section Values

variable [Inhabited E] (kernels : Kernels E) {graph : Graph} {options : GraphOptimizationOptions}
variable {store : ℕ → Value E}

theorem operand_alias (hsolves : kernels.Solves graph store) {n t : ℕ}
    (ht : aliases options graph n = some t) :
    kernels.operand graph store n = kernels.operand graph store t := by
  obtain ⟨-, hn, -, hsrc, hsame, hop⟩ := aliases_eq_some ht
  have hcomputes := computes_of_alias ht
  obtain ⟨htype, hlayout⟩ := of_decide_eq_true hsame
  have hne : (graph.tensor n).ne = (graph.tensor t).ne := funext fun d => (hlayout d).1
  have hnb : (graph.tensor n).nb = (graph.tensor t).nb := funext fun d => (hlayout d).2
  have hresult : restrict (graph.tensor n).ne (kernels.result graph store n) =
      restrict (graph.tensor n).ne (kernels.content graph store t) := by
    rw [Kernels.result]
    by_cases hrepeat : (graph.tensor n).op = .opRepeat
    · rw [apply_repeat kernels hrepeat, hsrc]
      apply restrict_congr
      intro i hi
      change kernels.content graph store t _ = _
      congr 1
      funext d
      apply Nat.mod_eq_of_lt
      change i d < (graph.tensor t).ne d
      rw [← hne]
      exact hi d
    · have hcopy : (graph.tensor n).op = .opCont ∨ (graph.tensor n).op = .opDup := by tauto
      have hcopied : copied (graph.tensor n).toHeader
          (fun index => ((graph.tensor n).src index).map (kernels.operand graph store)) =
            some (kernels.operand graph store t) := by
        rw [copied, if_pos hcopy, hsrc, Option.map_some]
        exact Option.filter_some_pos (decide_eq_true hne.symm)
      rw [Kernels.apply, if_neg, if_neg, if_neg hrepeat, hcopied]
      · rfl
      · rcases hcopy with hcopy | hcopy <;> rw [hcopy] <;> decide
      · rcases hcopy with hcopy | hcopy <;> rw [hcopy] <;> decide
  have hcontent : kernels.content graph store n = kernels.content graph store t := by
    rw [content_of_computes kernels store hcomputes, hsolves n hn hcomputes, hresult, hne,
      restrict_content]
  rw [Kernels.operand, Kernels.operand, htype, hne, hnb, hcontent]

theorem operand_resolved (hsolves : kernels.Solves graph store) (n : ℕ) :
    kernels.operand graph store (resolved options graph n) = kernels.operand graph store n := by
  apply resolveAlias_induction
    (P := fun m => kernels.operand graph store m = kernels.operand graph store n)
  · intro m t ht hm
    rw [← operand_alias kernels hsolves ht, hm]
  · rfl

end Values

/-! ## The resolved graph -/

section Resolve

variable {graph : Graph} {options : GraphOptimizationOptions}

theorem resolved_of_disabled (h : options.foldIdentityMaterializations = false) (n : ℕ) :
    resolved options graph n = n := by
  apply resolved_of_none
  rw [aliases, if_neg]
  rw [h]
  exact fun hcan => Bool.false_ne_true hcan.1

theorem resolveSources_src {n : ℕ} (hn : n ∈ graph.nodes) (index : Fin 10) :
    ((resolveSources options graph).tensor n).src index =
      ((graph.tensor n).src index).map (resolved options graph) := by
  rw [resolveSources]
  by_cases hfold : options.foldIdentityMaterializations = true
  · simp only [hfold, hn, and_self, if_true]
    rfl
  · have hid : resolved options graph = id :=
      funext (resolved_of_disabled (by simpa using hfold))
    simp only [hfold, Bool.false_eq_true, false_and, if_false, hid, Option.map_id, id]

theorem resolveSources_alike (options : GraphOptimizationOptions) (graph : Graph) :
    graph.Alike (resolveSources options graph) := by
  constructor
  · intro n
    rw [resolveSources]
    simp only
    split <;> rfl
  · intro n
    rw [resolveSources]
    simp only
    split <;> rfl

theorem resolveSources_points {n m : ℕ} (hn : n ∈ graph.nodes) :
    (resolveSources options graph).PointsTo n m ↔
      ∃ s, graph.PointsTo n s ∧ resolved options graph s = m := by
  constructor
  · rintro ⟨index, hindex⟩
    rw [resolveSources_src hn, Option.map_eq_some_iff] at hindex
    obtain ⟨s, hs, hm⟩ := hindex
    exact ⟨s, ⟨index, hs⟩, hm⟩
  · rintro ⟨s, ⟨index, hs⟩, hm⟩
    exact ⟨index, by rw [resolveSources_src hn, hs, Option.map_some, hm]⟩

variable [Inhabited E] (kernels : Kernels E) {store : ℕ → Value E}

theorem resolveSources_solves (hsolves : kernels.Solves graph store) :
    kernels.Solves (resolveSources options graph) store := by
  have halike := resolveSources_alike options graph
  intro n hn hcomputes
  rw [halike.computes_eq] at hcomputes
  have hn : n ∈ graph.nodes := hn
  rw [stored, halike.ne]
  refine (hsolves n hn hcomputes).trans ?_
  rw [Kernels.result, Kernels.result, halike.header]
  congr 2
  funext index
  rw [resolveSources_src hn, Option.map_map]
  congr 1
  funext s
  exact (operand_resolved kernels hsolves s).symm.trans (halike.operand_eq kernels store _).symm

end Resolve

end FastTts.GraphOptimizer
