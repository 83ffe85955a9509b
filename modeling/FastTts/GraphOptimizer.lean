import Mathlib.Algebra.Ring.Nat
import Mathlib.Data.Fintype.Basic

/-!
# The graph optimizer

Tensors are numbered, and a source is the number of the tensor it points to. The four passes that
fold a repeat into its consumers differ in the uses they accept and in how they rewire a consumer;
the rest of their loops is shared.
-/

namespace FastTts.GraphOptimizer

inductive Op
  | opNone
  | opDup
  | opAdd
  | opSub
  | opMul
  | opDiv
  | opRepeat
  | opScale
  | opCont
  | opReshape
  | opView
  | opPermute
  | opTranspose
  | other (code : ℕ)
  deriving DecidableEq, Repr

/-- What a tensor is, apart from its pointers. -/
structure Header where
  op : Op
  type : ℕ
  ne : Fin 4 → ℕ
  nb : Fin 4 → ℕ
  opParams : List ℤ
  viewOffs : ℕ
  output : Bool
  deriving DecidableEq

structure Tensor extends Header where
  src : Fin 10 → Option ℕ
  viewSrc : Option ℕ
  deriving DecidableEq

instance instNeZeroSources : NeZero 10 := ⟨by decide⟩

structure Graph where
  nodes : List ℕ
  tensor : ℕ → Tensor

def Tensor.setSrc (tensor : Tensor) (index : Fin 10) (source : Option ℕ) : Tensor :=
  { tensor with src := Function.update tensor.src index source }

def Graph.setTensor (graph : Graph) (id : ℕ) (tensor : Tensor) : Graph :=
  { graph with tensor := Function.update graph.tensor id tensor }

/-! ## Shapes -/

def isEmpty (tensor : Tensor) : Bool := decide (∃ i, tensor.ne i = 0)

def areSameShape (t0 t1 : Tensor) : Bool := decide (t0.ne = t1.ne)

def canRepeat (t0 t1 : Tensor) : Bool :=
  if isEmpty t0 then isEmpty t1 else decide (∀ i, t1.ne i % t0.ne i = 0)

def sameTypeShapeAndLayout (lhs rhs : Tensor) : Bool :=
  decide (lhs.type = rhs.type ∧ ∀ i, lhs.ne i = rhs.ne i ∧ lhs.nb i = rhs.nb i)

/-! ## Which nodes -/

def isMetadataOnlyOp : Op → Bool
  | .opReshape | .opView | .opPermute | .opTranspose => true
  | _ => false

def canElideFromExecutionSchedule (node : Tensor) : Bool := !node.output

def isIdentityMaterialization (graph : Graph) (node : Tensor) : Bool :=
  match node.src 0 with
  | none => false
  | some source =>
    sameTypeShapeAndLayout node (graph.tensor source) &&
      match node.op with
      | .opCont | .opDup | .opRepeat => true
      | _ => false

def supportsImplicitBroadcastRhs : Op → Bool
  | .opAdd | .opSub | .opMul | .opDiv => true
  | _ => false

def isCommutativeElementwiseOp : Op → Bool
  | .opAdd | .opMul => true
  | _ => false

def supportsImplicitBroadcastSrc0 : Op → Bool
  | .opScale => true
  | _ => false

/-! ## Which uses -/

def canFoldRepeatUse (graph : Graph) (repeatNode consumer : Tensor) (srcIndex : Fin 10) : Bool :=
  match repeatNode.src 0, consumer.src 0 with
  | some source, some lhs =>
    srcIndex = 1 && supportsImplicitBroadcastRhs consumer.op &&
      canRepeat (graph.tensor source) (graph.tensor lhs)
  | _, _ => false

def canFoldLhsRepeatUse (graph : Graph) (repeatNode consumer : Tensor) (srcIndex : Fin 10) : Bool :=
  match repeatNode.src 0, consumer.src 1 with
  | some source, some rhs =>
    srcIndex = 0 && isCommutativeElementwiseOp consumer.op &&
      areSameShape (graph.tensor rhs) consumer && canRepeat (graph.tensor source) (graph.tensor rhs)
  | _, _ => false

def isCandidateTwoSidedBroadcastRepeat (graph : Graph) (repeatNode consumer : Tensor)
    (srcIndex : Fin 10) : Bool :=
  match repeatNode.src 0, consumer.src 1 with
  | some source, some rhs =>
    srcIndex = 0 && isCommutativeElementwiseOp consumer.op && areSameShape repeatNode consumer &&
      canRepeat (graph.tensor source) consumer && canRepeat (graph.tensor rhs) consumer &&
      !areSameShape (graph.tensor source) consumer
  | _, _ => false

def canFoldTwoSidedBroadcastRepeatUse (graph : Graph) (repeatNode consumer : Tensor)
    (srcIndex : Fin 10) : Bool :=
  match repeatNode.src 0, consumer.src 1 with
  | some source, some rhs =>
    srcIndex = 0 && isCommutativeElementwiseOp consumer.op && areSameShape repeatNode consumer &&
      canRepeat (graph.tensor source) consumer && canRepeat (graph.tensor rhs) consumer
  | _, _ => false

def canFoldUnaryBroadcastRepeatUse (graph : Graph) (repeatNode consumer : Tensor)
    (srcIndex : Fin 10) : Bool :=
  match repeatNode.src 0 with
  | some source =>
    srcIndex = 0 && supportsImplicitBroadcastSrc0 consumer.op && areSameShape repeatNode consumer &&
      canRepeat (graph.tensor source) consumer
  | none => false

/-! ## Options -/

inductive GraphOptimizationBackend
  | cpu
  | gpu
  | other
  deriving DecidableEq, Repr

inductive GraphOptimizationRewriteKind
  | broadcastRepeat
  | commutativeLhsRepeat
  | twoSidedBroadcastRepeat
  | unaryBroadcastRepeat
  | identityMaterialization
  | noopNode
  | metadataOnlyNode
  deriving DecidableEq, Repr

structure GraphOptimizationRewriteContext where
  kind : GraphOptimizationRewriteKind
  backend : GraphOptimizationBackend
  nodesBefore : ℕ
  node : ℕ
  consumer : Option ℕ
  consumerSrcIndex : ℤ

/-- A run asks for no context twice, so that the answers of any callback, also of one that keeps a
state or looks at the tensors, are a function of the context. -/
structure GraphOptimizationOptions where
  backend : GraphOptimizationBackend := .other
  enabled : Bool := true
  foldBroadcastRepeats : Bool := true
  foldCommutativeLhsRepeats : Bool := true
  foldTwoSidedBroadcastRepeats : Bool := true
  foldUnaryBroadcastRepeats : Bool := true
  foldIdentityMaterializations : Bool := true
  elideNoopNodes : Bool := true
  elideMetadataOnlyOps : Bool := true
  excludeRewrite : Option (GraphOptimizationRewriteContext → Bool) := none

variable (options : GraphOptimizationOptions)

def rewriteExcluded (nodesBefore : ℕ)
    (kind : GraphOptimizationRewriteKind) (node : ℕ) (consumer : Option ℕ)
    (consumerSrcIndex : ℤ) : Bool :=
  match options.excludeRewrite with
  | none => false
  | some exclude => exclude ⟨kind, options.backend, nodesBefore, node, consumer, consumerSrcIndex⟩

/-! ## Folding repeats -/

structure FoldRule where
  kind : GraphOptimizationRewriteKind
  canFold : Graph → Tensor → Tensor → Fin 10 → Bool
  slot : Fin 10
  rewire : Tensor → Option ℕ → Tensor

def broadcastRepeat : FoldRule where
  kind := .broadcastRepeat
  canFold := canFoldRepeatUse
  slot := 1
  rewire consumer source := consumer.setSrc 1 source

/-- The operands change places. -/
def commutativeLhsRepeat : FoldRule where
  kind := .commutativeLhsRepeat
  canFold := canFoldLhsRepeatUse
  slot := 0
  rewire consumer source := (consumer.setSrc 0 (consumer.src 1)).setSrc 1 source

def twoSidedBroadcastRepeat : FoldRule where
  kind := .twoSidedBroadcastRepeat
  canFold := canFoldTwoSidedBroadcastRepeatUse
  slot := 0
  rewire consumer source := consumer.setSrc 0 source

def unaryBroadcastRepeat : FoldRule where
  kind := .unaryBroadcastRepeat
  canFold := canFoldUnaryBroadcastRepeatUse
  slot := 0
  rewire consumer source := consumer.setSrc 0 source

structure FoldState where
  graph : Graph
  folded : List (ℕ × GraphOptimizationRewriteKind)

def FoldState.isFolded (state : FoldState) (id : ℕ) : Bool :=
  decide (∃ entry ∈ state.folded, entry.1 = id)

def usesOf (graph : Graph) (id : ℕ) (later : List ℕ) : List (ℕ × Fin 10) :=
  later.flatMap fun consumer =>
    ((List.finRange 10).filter fun index => (graph.tensor consumer).src index = some id).map
      fun index => (consumer, index)

def rewireUses (rule : FoldRule) (graph : Graph) (id : ℕ) (later : List ℕ) : Graph :=
  later.foldl (fun graph consumer =>
    if (graph.tensor consumer).src rule.slot = some id then
      graph.setTensor consumer (rule.rewire (graph.tensor consumer) ((graph.tensor id).src 0))
    else graph) graph

def foldRepeat (nodesBefore : ℕ) (rule : FoldRule) (id : ℕ)
    (later : List ℕ) (state : FoldState) : FoldState :=
  let node := state.graph.tensor id
  let uses := usesOf state.graph id later
  if node.op ≠ .opRepeat ∨ state.isFolded id ∨ canElideFromExecutionSchedule node = false then state
  else if uses.isEmpty ∨ ∃ use ∈ uses,
      rule.canFold state.graph node (state.graph.tensor use.1) use.2 = false ∨
      rewriteExcluded options nodesBefore rule.kind id (some use.1) use.2.val then state
  else ⟨rewireUses rule state.graph id later, (id, rule.kind) :: state.folded⟩

/-- The last node is not looked at: it has no later consumer. -/
def foldPass (options : GraphOptimizationOptions) (nodesBefore : ℕ) (rule : FoldRule) :
    List ℕ → FoldState → FoldState
  | [], state => state
  | [_], state => state
  | id :: next :: later, state =>
    foldPass options nodesBefore rule (next :: later)
      (foldRepeat options nodesBefore rule id (next :: later) state)

def foldRules : List FoldRule :=
  (if options.foldBroadcastRepeats then [broadcastRepeat] else []) ++
  (if options.foldCommutativeLhsRepeats then [commutativeLhsRepeat] else []) ++
  (if options.foldTwoSidedBroadcastRepeats then [twoSidedBroadcastRepeat] else []) ++
  if options.foldUnaryBroadcastRepeats then [unaryBroadcastRepeat] else []

def foldRepeats (graph : Graph) : FoldState :=
  (foldRules options).foldl
    (fun state rule => foldPass options graph.nodes.length rule graph.nodes state) ⟨graph, []⟩

def countCandidates (state : FoldState) : List ℕ → ℕ
  | [] => 0
  | [_] => 0
  | id :: next :: later =>
    let node := state.graph.tensor id
    let uses := usesOf state.graph id (next :: later)
    (if node.op = .opRepeat ∧ state.isFolded id = false ∧ uses.isEmpty = false ∧
        ∀ use ∈ uses, isCandidateTwoSidedBroadcastRepeat state.graph node
          (state.graph.tensor use.1) use.2 then 1 else 0) + countCandidates state (next :: later)

/-! ## Aliases -/

def aliases (graph : Graph) (id : ℕ) : Option ℕ :=
  let node := graph.tensor id
  if options.foldIdentityMaterializations ∧ id ∈ graph.nodes.dropLast ∧
      canElideFromExecutionSchedule node ∧ isIdentityMaterialization graph node ∧
      rewriteExcluded options graph.nodes.length .identityMaterialization id none (-1) = false then
    node.src 0
  else none

def resolveAlias (aliases : ℕ → Option ℕ) : ℕ → ℕ → ℕ
  | 0, node => node
  | rounds + 1, node =>
    match aliases node with
    | some target => resolveAlias aliases rounds target
    | none => node

def resolveSources (graph : Graph) : Graph :=
  { graph with tensor := fun id =>
      let node := graph.tensor id
      if options.foldIdentityMaterializations ∧ id ∈ graph.nodes then
        { node with src := fun index =>
            (node.src index).map (resolveAlias (aliases options graph) graph.nodes.length) }
      else node }

/-! ## The schedule that is left -/

/-- Why a node leaves the schedule, if it does. -/
def elision (state : FoldState) (id : ℕ) : Option GraphOptimizationRewriteKind :=
  let node := state.graph.tensor id
  let nodesBefore := state.graph.nodes.length
  if canElideFromExecutionSchedule node = false then none
  else match state.folded.find? fun entry => entry.1 = id with
  | some entry => some entry.2
  | none =>
    if (aliases options state.graph id).isSome then some .identityMaterialization
    else if options.elideNoopNodes ∧ node.op = .opNone ∧
        rewriteExcluded options nodesBefore .noopNode id none (-1) = false then some .noopNode
    else if options.elideMetadataOnlyOps ∧ isMetadataOnlyOp node.op ∧
        rewriteExcluded options nodesBefore .metadataOnlyNode id none (-1) = false then
      some .metadataOnlyNode
    else none

structure GraphOptimizationReport where
  nodesBefore : ℕ
  nodesAfter : ℕ
  candidateTwoSidedBroadcastRepeats : ℕ
  elided : GraphOptimizationRewriteKind → ℕ

def optimizeGraph (graph : Graph) : Graph × GraphOptimizationReport :=
  let nodesBefore := graph.nodes.length
  if options.enabled = false ∨ nodesBefore = 0 then (graph, ⟨nodesBefore, nodesBefore, 0, fun _ => 0⟩)
  else
    let state := foldRepeats options graph
    let resolved := resolveSources options state.graph
    let nodes := graph.nodes.filter fun id => (elision options state id).isNone
    ({ resolved with nodes := nodes }, ⟨nodesBefore, nodes.length,
      countCandidates state graph.nodes,
      fun kind => graph.nodes.countP fun id => elision options state id = some kind⟩)

end FastTts.GraphOptimizer
