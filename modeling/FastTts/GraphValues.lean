import FastTts.GraphOptimizer
import FastTts.Schedules

/-!
# Executing a graph

A tensor's value is a function of its index, with a default element outside its shape. Binary
elementwise operators and `SCALE` spread their operands over the node's shape, `REPEAT` spreads its
source, `CONT` and `DUP` copy a source of the node's shape; what the other operators compute is
arbitrary. A `RESHAPE`, `VIEW`, `PERMUTE` or `TRANSPOSE` computes nothing: its value is a look at the
storage of its `view_src`.
-/

namespace FastTts.GraphOptimizer

open Schedules

variable {E : Type}

abbrev Value (E : Type) := (Fin 4 → ℕ) → E

structure Operand (E : Type) where
  type : ℕ
  ne : Fin 4 → ℕ
  nb : Fin 4 → ℕ
  value : Value E

structure Kernels (E : Type) where
  binary : Header → E → E → E
  scale : Header → E → E
  compute : Header → (Fin 10 → Option (Operand E)) → Value E
  look : Header → Value E → Value E
  comm : ∀ header, isCommutativeElementwiseOp header.op →
    ∀ x y, binary header x y = binary header y x

def Operand.spread (operand : Operand E) : Value E :=
  fun i => operand.value fun d => i d % operand.ne d

def spreadAt [Inhabited E] (operand : Option (Operand E)) : Value E :=
  match operand with
  | some operand => operand.spread
  | none => fun _ => default

def restrict [Inhabited E] (ne : Fin 4 → ℕ) (value : Value E) : Value E :=
  fun i => if ∀ d, i d < ne d then value i else default

/-- `CONT` and `DUP` of a source of the node's shape. -/
def copied (header : Header) (operands : Fin 10 → Option (Operand E)) : Option (Operand E) :=
  if header.op = .opCont ∨ header.op = .opDup then
    (operands 0).filter fun operand => operand.ne = header.ne
  else none

def Kernels.apply [Inhabited E] (kernels : Kernels E) (header : Header)
    (operands : Fin 10 → Option (Operand E)) : Value E :=
  if supportsImplicitBroadcastRhs header.op then
    fun i => kernels.binary header (spreadAt (operands 0) i) (spreadAt (operands 1) i)
  else if supportsImplicitBroadcastSrc0 header.op then
    fun i => kernels.scale header (spreadAt (operands 0) i)
  else if header.op = .opRepeat then spreadAt (operands 0)
  else match copied header operands with
    | some operand => operand.value
    | none => kernels.compute header operands

/-! ## Storage -/

def computes (graph : Graph) (id : ℕ) : Bool :=
  !isMetadataOnlyOp (graph.tensor id).op && (graph.tensor id).op != .opNone

/-- Whose storage a tensor shows. -/
def owner (graph : Graph) (id : ℕ) : ℕ :=
  if isMetadataOnlyOp (graph.tensor id).op then (graph.tensor id).viewSrc.getD id else id

def stored [Inhabited E] (graph : Graph) (store : ℕ → Value E) (id : ℕ) : Value E :=
  restrict (graph.tensor id).ne (store id)

namespace Kernels

variable [Inhabited E] (kernels : Kernels E) (graph : Graph) (store : ℕ → Value E)

def content (id : ℕ) : Value E :=
  let node := graph.tensor id
  if isMetadataOnlyOp node.op then
    restrict node.ne (kernels.look node.toHeader (stored graph store (owner graph id)))
  else stored graph store id

def operand (id : ℕ) : Operand E :=
  let node := graph.tensor id
  ⟨node.type, node.ne, node.nb, kernels.content graph store id⟩

def result (id : ℕ) : Value E :=
  let node := graph.tensor id
  kernels.apply node.toHeader fun index => (node.src index).map (kernels.operand graph store)

def execute : ℕ → Value E :=
  run (kernels.result graph) (graph.nodes.filter (computes graph)) store

end Kernels

def ReadsSource (graph : Graph) (id s : ℕ) : Prop :=
  ∃ index source, (graph.tensor id).src index = some source ∧ owner graph source = s

/-- A computing node reads the storage of its sources, a metadata-only one that of its `view_src`. -/
def ReadsStorage (graph : Graph) (id s : ℕ) : Prop :=
  if isMetadataOnlyOp (graph.tensor id).op then (graph.tensor id).viewSrc = some s
  else computes graph id = true ∧ ReadsSource graph id s

/-! ## Well-formed graphs -/

/-- A node's sources stand before it, or outside of the node list. -/
def Graph.SourcesBefore (graph : Graph) : Prop :=
  ∀ before n after, graph.nodes = before ++ n :: after →
    ∀ index s, (graph.tensor n).src index = some s →
      s ∈ before ∨ s ∉ graph.nodes

def broadcastsOperands (op : Op) : Bool :=
  supportsImplicitBroadcastRhs op || supportsImplicitBroadcastSrc0 op

/-- The node list is in topological order, operators write only their own node, and the tensors are
as ggml's constructors make them. -/
structure Graph.WellFormed (graph : Graph) : Prop where
  nodup : graph.nodes.Nodup
  sources : graph.SourcesBefore
  owns : ∀ n ∈ graph.nodes, isMetadataOnlyOp (graph.tensor n).op = false →
    (graph.tensor n).viewSrc = none
  leaves : ∀ s, s ∉ graph.nodes → ∀ t, (graph.tensor s).viewSrc = some t → t ∉ graph.nodes
  views : ∀ v ∈ graph.nodes, isMetadataOnlyOp (graph.tensor v).op → ∃ a,
    (graph.tensor v).src 0 = some a ∧
      (graph.tensor v).viewSrc = some ((graph.tensor a).viewSrc.getD a)
  repeats : ∀ r ∈ graph.nodes, (graph.tensor r).op = .opRepeat →
    (∀ index, index ≠ 0 → (graph.tensor r).src index = none) ∧
      ∃ a, (graph.tensor r).src 0 = some a ∧ canRepeat (graph.tensor a) (graph.tensor r)
  broadcasts : ∀ n ∈ graph.nodes, broadcastsOperands (graph.tensor n).op →
    ∀ index s, (graph.tensor n).src index = some s → canRepeat (graph.tensor s) (graph.tensor n)

namespace Graph.WellFormed

variable {graph : Graph} (h : graph.WellFormed)
include h

theorem getD_notMem {a : ℕ} (ha : a ∉ graph.nodes) :
    (graph.tensor a).viewSrc.getD a ∉ graph.nodes := by
  cases hview : (graph.tensor a).viewSrc with
  | none => exact ha
  | some t => exact h.leaves a ha t hview

theorem owner_notMem {a : ℕ} (ha : a ∉ graph.nodes) : owner graph a ∉ graph.nodes := by
  rw [owner]
  split_ifs
  · exact h.getD_notMem ha
  · exact ha

theorem viewed {before after : List ℕ} {v s : ℕ} (hsplit : graph.nodes = before ++ v :: after)
    (hv : isMetadataOnlyOp (graph.tensor v).op) (hs : (graph.tensor v).viewSrc = some s) :
    s ∉ graph.nodes ∨ s ∈ before ∧ ∃ u ∈ graph.nodes,
      isMetadataOnlyOp (graph.tensor u).op ∧ (graph.tensor u).src 0 = some s := by
  induction hlength : before.length using Nat.strong_induction_on generalizing before v after with
  | h length ih =>
    have hmem : v ∈ graph.nodes := by simp [hsplit]
    obtain ⟨a, ha, hview⟩ := h.views v hmem hv
    rw [hs, Option.some.injEq] at hview
    rcases h.sources before v after hsplit 0 a ha with hbefore | hout
    · have halisted : a ∈ graph.nodes := by simp [hsplit, hbefore]
      by_cases hmeta : isMetadataOnlyOp (graph.tensor a).op = true
      · -- a view of a view shows what the first one shows
        obtain ⟨first, rest, rfl⟩ := List.append_of_mem hbefore
        obtain ⟨b, -, hviewa⟩ := h.views a halisted hmeta
        have hsa : (graph.tensor a).viewSrc = some s := by
          rw [hview, hviewa]
          rfl
        have hlt : first.length < length := by
          rw [← hlength, List.length_append, List.length_cons]
          omega
        have hsplit' : graph.nodes = first ++ a :: (rest ++ v :: after) := by
          rw [hsplit, List.append_assoc]
          rfl
        rcases ih first.length hlt hsplit' hmeta hsa rfl with hnone | ⟨hfirst, huse⟩
        · exact .inl hnone
        · exact .inr ⟨List.mem_append_left _ hfirst, huse⟩
      · rw [h.owns a halisted (by simpa using hmeta)] at hview
        subst hview
        exact .inr ⟨hbefore, v, hmem, hv, ha⟩
    · left
      rw [hview]
      exact h.getD_notMem hout

theorem ordered {graph' : Graph} (hnodes : graph'.nodes = graph.nodes)
    (howner : ∀ id, owner graph' id = owner graph id) (hsources : graph'.SourcesBefore) :
    Ordered (ReadsSource graph') graph'.nodes := by
  apply Ordered.of_before
  · rw [hnodes]
    exact h.nodup
  · rintro before n after hsplit m ⟨index, s, hs, rfl⟩
    have hbefore := hsources before n after hsplit index s hs
    rw [hnodes] at hsplit hbefore
    rw [howner, hnodes]
    rcases hbefore with hbefore | hout
    · rw [owner]
      by_cases hmeta : isMetadataOnlyOp (graph.tensor s).op = true
      · rw [if_pos hmeta]
        obtain ⟨first, rest, rfl⟩ := List.append_of_mem hbefore
        have hsplit' : graph.nodes = first ++ s :: (rest ++ n :: after) := by
          rw [hsplit, List.append_assoc]
          rfl
        obtain ⟨b, -, hviews⟩ := h.views s (by simp [hsplit']) hmeta
        rw [hviews, Option.getD_some]
        rcases h.viewed hsplit' hmeta hviews with hnone | ⟨hfirst, -⟩
        · exact .inr hnone
        · exact .inl (List.mem_append_left _ hfirst)
      · rw [if_neg hmeta]
        exact .inl hbefore
    · exact .inr (h.owner_notMem hout)

end Graph.WellFormed

/-! ## Values -/

section Values

variable [Inhabited E]

theorem restrict_of_lt {ne : Fin 4 → ℕ} (value : Value E) {i : Fin 4 → ℕ} (h : ∀ d, i d < ne d) :
    restrict ne value i = value i :=
  if_pos h

theorem restrict_restrict (ne : Fin 4 → ℕ) (value : Value E) :
    restrict ne (restrict ne value) = restrict ne value := by
  funext i
  by_cases h : ∀ d, i d < ne d
  · rw [restrict_of_lt _ h]
  · rw [restrict, restrict, if_neg h, if_neg h]

theorem restrict_congr {ne : Fin 4 → ℕ} {f g : Value E} (h : ∀ i, (∀ d, i d < ne d) → f i = g i) :
    restrict ne f = restrict ne g := by
  funext i
  by_cases hi : ∀ d, i d < ne d
  · rw [restrict_of_lt _ hi, restrict_of_lt _ hi, h i hi]
  · rw [restrict, restrict, if_neg hi, if_neg hi]

theorem restrict_content (kernels : Kernels E) (graph : Graph) (store : ℕ → Value E) (id : ℕ) :
    restrict (graph.tensor id).ne (kernels.content graph store id) =
      kernels.content graph store id := by
  rw [Kernels.content]
  split_ifs
  · exact restrict_restrict ..
  · exact restrict_restrict ..

variable {f g : ℕ → Value E} {n : ℕ}

section

variable (kernels : Kernels E)

theorem content_congr {graph : Graph} {id : ℕ}
    (h : stored graph f (owner graph id) = stored graph g (owner graph id)) :
    kernels.content graph f id = kernels.content graph g id := by
  rw [Kernels.content, Kernels.content]
  by_cases hview : isMetadataOnlyOp (graph.tensor id).op = true
  · rw [if_pos hview, if_pos hview, h]
  · rw [owner, if_neg hview] at h
    rw [if_neg hview, if_neg hview, h]

theorem result_congr {graph : Graph}
    (h : ∀ index s, (graph.tensor n).src index = some s →
      stored graph f (owner graph s) = stored graph g (owner graph s)) :
    kernels.result graph f n = kernels.result graph g n := by
  rw [Kernels.result, Kernels.result]
  congr 1
  funext index
  cases hsrc : (graph.tensor n).src index with
  | none => rfl
  | some s =>
    rw [Option.map_some, Option.map_some, Kernels.operand, Kernels.operand,
      content_congr kernels (h index s hsrc)]

theorem result_local (graph : Graph) (h : ∀ s, ReadsSource graph n s → f s = g s) :
    kernels.result graph f n = kernels.result graph g n := by
  apply result_congr
  intro index s hs
  rw [stored, stored, h _ ⟨index, s, hs, rfl⟩]

theorem execute_eq {graph : Graph} (h : Ordered (ReadsSource graph) graph.nodes)
    (store : ℕ → Value E) (hn : n ∈ graph.nodes) (hcomputes : computes graph n = true) :
    kernels.execute graph store n = kernels.result graph (kernels.execute graph store) n := by
  apply run_eq (h.filter (computes graph))
  · exact fun f g n hfg => result_local kernels graph hfg
  · exact List.mem_filter.mpr ⟨hn, hcomputes⟩

theorem execute_of_idle {graph : Graph} (store : ℕ → Value E)
    (h : n ∈ graph.nodes → computes graph n = false) : kernels.execute graph store n = store n := by
  apply run_of_notMem
  intro hmem
  obtain ⟨hn, hcomputes⟩ := List.mem_filter.mp hmem
  rw [h hn] at hcomputes
  exact Bool.false_ne_true hcomputes

end

/-- The store holds at every listed computing node what the node makes of the store. -/
def Kernels.Solves (kernels : Kernels E) (graph : Graph) (store : ℕ → Value E) : Prop :=
  ∀ n ∈ graph.nodes, computes graph n = true →
    stored graph store n = restrict (graph.tensor n).ne (kernels.result graph store n)

theorem execute_solves (kernels : Kernels E) {graph : Graph}
    (h : Ordered (ReadsSource graph) graph.nodes) (store : ℕ → Value E) :
    kernels.Solves graph (kernels.execute graph store) := by
  intro n hn hcomputes
  exact congrArg (restrict _) (execute_eq kernels h store hn hcomputes)

theorem content_of_computes (kernels : Kernels E) {graph : Graph} (store : ℕ → Value E)
    (h : computes graph n = true) : kernels.content graph store n = stored graph store n := by
  rw [computes, Bool.and_eq_true, Bool.not_eq_true'] at h
  rw [Kernels.content, h.1, if_neg Bool.false_ne_true]

end Values

/-! ## Graphs that differ in their sources -/

structure Graph.Alike (before after : Graph) : Prop where
  header : ∀ id, (after.tensor id).toHeader = (before.tensor id).toHeader
  viewSrc : ∀ id, (after.tensor id).viewSrc = (before.tensor id).viewSrc

namespace Graph.Alike

variable {before after : Graph} (h : before.Alike after)
include h

theorem trans {last : Graph} (h' : after.Alike last) : before.Alike last :=
  ⟨fun id => (h'.header id).trans (h.header id), fun id => (h'.viewSrc id).trans (h.viewSrc id)⟩

variable (id : ℕ)

theorem op : (after.tensor id).op = (before.tensor id).op :=
  congrArg Header.op (h.header id)

theorem ne : (after.tensor id).ne = (before.tensor id).ne :=
  congrArg Header.ne (h.header id)

theorem isEmpty_eq : isEmpty (after.tensor id) = isEmpty (before.tensor id) := by
  rw [isEmpty, isEmpty, h.ne]

theorem canRepeat_eq (id id' : ℕ) : canRepeat (after.tensor id) (after.tensor id') =
    canRepeat (before.tensor id) (before.tensor id') := by
  rw [canRepeat, canRepeat, h.isEmpty_eq, h.isEmpty_eq, h.ne, h.ne]

theorem owner_eq : owner after id = owner before id := by
  rw [owner, owner, h.op, h.viewSrc]

theorem computes_eq : computes after id = computes before id := by
  rw [computes, computes, h.op]

section

variable [Inhabited E] (kernels : Kernels E) (store : ℕ → Value E) (id : ℕ)

theorem content_eq : kernels.content after store id = kernels.content before store id := by
  rw [Kernels.content, Kernels.content, stored, stored, stored, stored, h.owner_eq, h.header,
    h.header]

theorem operand_eq : kernels.operand after store id = kernels.operand before store id := by
  rw [Kernels.operand, Kernels.operand, h.content_eq, h.header]

end

end Graph.Alike

end FastTts.GraphOptimizer
